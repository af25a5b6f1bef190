import MemEtcd.Replicas

/-! Reads on the nodes of a cluster. The range handler neither asks who the leader is
nor waits for the log, and it ignores the field `serializable`: it answers from what its
node has applied when it starts. -/
namespace MemEtcd
namespace Cluster

/-- The response is that of the state after some first part of the log that has the
entry at `position`. -/
def Shows (log : List Entry) (position : ℕ) (req : RangeQuery) (response : RangeResponse) : Prop :=
  ∃ p result, position < p ∧ p ≤ log.length ∧ IsResult (historyAt log p) req result ∧
    response = req.respond result

/-- The read `j` on node `n` is under way. It has found the history `log` there. -/
structure ReadsOn (log : History) (j n : ℕ) (req : RangeQuery) (st : Cluster) : Prop where
  replicated : Replicated st
  grown : log <+: historyAt st.log (st.replicas n).applied
  read : ∃ range, st.reads j = .reading n req range ∧ ReadsPast log (st.replicas n).store req range

section
variable {log : History} {st st' : Cluster} {j n : ℕ} {req : RangeQuery}

/-- A step of something else. -/
theorem ReadsOn.frame (h : ReadsOn log j n req st) {a : ClusterAction}
    (hstep : st.step a = some st') (hstore : (st'.replicas n).store = (st.replicas n).store)
    (happlied : (st'.replicas n).applied = (st.replicas n).applied)
    (hreads : st'.reads j = st.reads j) : ReadsOn log j n req st' := by
  refine ⟨h.replicated.step hstep, ?_, ?_⟩
  · obtain ⟨more, hmore⟩ := step_log hstep
    rw [happlied, ← hmore, historyAt_append (h.replicated.bounded n)]
    exact h.grown
  · rw [hstore, hreads]
    exact h.read

/-- Whichever node applies an entry, the read goes on. -/
theorem ReadsOn.apply (h : ReadsOn log j n req st) {m : ℕ}
    (hstep : st.step (.apply m) = some st') : ReadsOn log j n req st' := by
  obtain ⟨entry, hentry, rfl⟩ := step_apply hstep
  by_cases hn : n = m
  · subst hn
    refine ⟨h.replicated.step hstep, ?_, ?_⟩
    · rw [applied_self]
      exact h.grown.trans (historyAt_mono st.log (Nat.le_succ _))
    · obtain ⟨range, hrange, hpast⟩ := h.read
      have hs := h.replicated.stores n
      have hstore := (StateMachineStore.applyEntry_eq (hs.represents.coherent hs.wf) entry).1
      refine ⟨range, hrange, ?_⟩
      rw [applied_self]
      change ReadsPast log ((st.replicas n).machine.applyEntry entry).1.store req range
      rw [hstore, entry.effect_eq_run]
      exact hpast.calls _
  · have hother := st.applied_other entry hn
    exact h.frame hstep (congrArg Replica.store hother) (congrArg Replica.applied hother) rfl

theorem ReadsOn.look (h : ReadsOn log j n req st) (hpos : 0 < log.length) {j' : ℕ}
    (hstep : st.step (.look j') = some st') : ReadsOn log j n req st' := by
  obtain ⟨m, req', range', next, hreads, hnext, rfl⟩ := step_look hstep
  by_cases hj : j = j'
  · subst hj
    obtain ⟨range, hrange, hpast⟩ := h.read
    rw [hrange] at hreads
    cases hreads
    refine ⟨h.replicated.step hstep, h.grown, next, setRead_self .., ?_⟩
    exact hpast.next (h.replicated.stores n) h.grown hpos hnext
  · exact h.frame hstep rfl rfl (Function.update_of_ne hj ..)

theorem ReadsOn.step (h : ReadsOn log j n req st) (hpos : 0 < log.length) {a : ClusterAction}
    (hstep : st.step a = some st') : ReadsOn log j n req st' := by
  cases a with
  | call i m q =>
    obtain ⟨stage, -, rfl⟩ := step_call hstep
    exact h.frame hstep rfl rfl rfl
  | lead i =>
    obtain ⟨stage, -, rfl⟩ := step_lead hstep
    exact h.frame hstep rfl rfl rfl
  | commit i logId =>
    obtain ⟨m, plan, -, rfl⟩ := step_commit hstep
    exact h.frame hstep rfl rfl rfl
  | fail i e =>
    obtain ⟨stage, -, rfl⟩ := step_fail hstep
    exact h.frame hstep rfl rfl rfl
  | append entry =>
    cases hstep
    exact h.frame (a := .append entry) rfl rfl rfl rfl
  | apply m => exact h.apply hstep
  | metrics m leader =>
    obtain ⟨hstore, happlied⟩ := metrics_frame hstep n
    refine h.frame hstep hstore happlied ?_
    cases hstep
    rfl
  | read j' m q =>
    obtain ⟨hidle, -, rfl⟩ := step_read hstep
    obtain ⟨range, hrange, -⟩ := h.read
    have hj : j ≠ j' := by
      rintro rfl
      rw [hrange] at hidle
      contradiction
    exact h.frame hstep rfl rfl (Function.update_of_ne hj ..)
  | look j' => exact h.look hpos hstep

/-- A read answers from what its node has applied when it starts. -/
theorem read_result (h : Replicated st) {trace : List ClusterAction}
    (hrun : st.run (.read j n req :: trace) = some st') {response : RangeResponse}
    (hread : (st'.reads j).response = some (.ok response)) :
    ∃ result, IsResult (historyAt st.log (st.replicas n).applied) req result ∧
      response = req.respond result := by
  obtain ⟨mid, hmid, hrest⟩ := Option.bind_eq_some_iff.mp hrun
  have hpos := historyAt_pos st.log (st.replicas n).applied
  obtain ⟨-, -, rfl⟩ := step_read hmid
  have hstart : ReadsOn (historyAt st.log (st.replicas n).applied) j n req
      (st.setRead j (.reading n req (.started (st.replicas n).store.currentRevision))) :=
    ⟨h.step hmid, List.prefix_refl _, _, setRead_self ..,
      (h.stores n).represents.currentRevision_eq⟩
  have hend := PartialRun.run_induct (fun hs hstep => ReadsOn.step hs hpos hstep) hstart hrest
  obtain ⟨range, hrange, hpast⟩ := hend.read
  rw [hrange] at hread
  cases range with
  | returned res =>
    obtain ⟨result, rfl, hresult⟩ : ∃ result, res = .ok result ∧ req.respond result = response := by
      cases res with
      | error fault => exact nomatch hread
      | ok result =>
        cases hread
        exact ⟨result, rfl, rfl⟩
    exact ⟨result, hpast result rfl, hresult.symm⟩
  | _ => exact nomatch hread

end

/-- A write has been answered with the revision `rev`. A read that starts afterwards and
succeeds has a revision of at least `rev` and shows the write or a later one, exactly if
the node of the read has applied the entry of the write when it starts, or the entries
that it misses have changed nothing. On the node that has taken the write this is so. -/
theorem acknowledged_visible_iff {wal : ℕ → Option WalMode} {past rest : List ClusterAction}
    {mid st : Cluster} {i j m n position : ℕ} {plan : WritePlan} {rev : ℤ} {req : RangeQuery}
    {response : RangeResponse} (hpast : (start wal).run past = some mid)
    (hwrite : mid.writes i = .answered m plan position rev)
    (hrun : mid.run (.read j n req :: rest) = some st)
    (hread : (st.reads j).response = some (.ok response)) :
    (mid.log[position]?).map Entry.payload = some (.normal plan.proposal) ∧
    (rev ≤ response.header.revision ∧ Shows st.log position req response ↔
      position < (mid.replicas n).applied ∨
        historyAt mid.log (mid.replicas n).applied = historyAt mid.log (position + 1)) ∧
    (n = m → rev ≤ response.header.revision ∧ Shows st.log position req response) := by
  have hreplicated := run_replicated hpast
  have hok := hreplicated.writes i
  rw [hwrite] at hok
  obtain ⟨happlied, hentry, hrev⟩ := hok
  have hbounded := hreplicated.bounded n
  have hposition : position + 1 ≤ mid.log.length := happlied.trans_le (hreplicated.bounded m)
  obtain ⟨result, hresult, rfl⟩ := read_result hreplicated hrun hread
  have hheader : (req.respond result).header.revision =
      (historyAt mid.log (mid.replicas n).applied).length := by
    obtain ⟨pfx, lo, hi, all, -, -, rfl⟩ := hresult
    rfl
  obtain ⟨more, hlog⟩ := run_log hrun
  -- what the log has come to in the meantime does not change its first part
  have hshows {p : ℕ} (hp : position < p) (hle : p ≤ mid.log.length)
      (hsame : historyAt mid.log p = historyAt mid.log (mid.replicas n).applied) :
      rev ≤ (req.respond result).header.revision ∧ Shows st.log position req (req.respond result) := by
    refine ⟨?_, p, result, hp, ?_, ?_, rfl⟩
    · rw [hheader, hrev, ← hsame]
      exact_mod_cast (historyAt_mono mid.log hp).length_le
    · rw [← hlog, List.length_append]
      omega
    · rw [← hlog, historyAt_append hle, hsame]
      exact hresult
  refine ⟨hentry, ⟨?_, ?_⟩, ?_⟩
  · rintro ⟨hle, -⟩
    by_cases hlt : position < (mid.replicas n).applied
    · exact Or.inl hlt
    · right
      apply (historyAt_mono mid.log (by omega)).eq_of_length_le
      rw [hheader, hrev] at hle
      exact_mod_cast hle
  · rintro (hlt | hsame)
    · exact hshows hlt hbounded rfl
    · exact hshows (Nat.lt_succ_self position) hposition hsame.symm
  · rintro rfl
    exact hshows happlied hbounded rfl

/-- Node 1 is the leader and puts `a`. -/
def leaderPuts : List ClusterAction :=
  [.metrics 1 (some 1), .call 0 1 (.put ⟨⟨[97], [1]⟩, false, false⟩), .lead 0,
    .commit 0 ⟨⟨1, 1⟩, 1⟩, .apply 1]

def readA : RangeQuery := ⟨⟨[97], []⟩, 0, 0, false⟩

/-- A follower that has applied the entry. -/
theorem acknowledged_visible_of_apply :
    ∃ mid st response, (start fun _ => none).run (leaderPuts ++ [.apply 2]) = some mid ∧
      mid.writes 0 = .answered 1 (.put [97] [1] none) 0 2 ∧
      mid.run [.read 0 2 readA, .look 0, .look 0, .look 0] = some st ∧
      (st.reads 0).response = some (.ok response) ∧
      2 ≤ response.header.revision ∧ Shows st.log 0 readA response := by
  have hstage : ((start fun _ => none).run (leaderPuts ++ [.apply 2])).map
      (fun mid => (mid.writes 0, (mid.replicas 2).applied)) =
        some (.answered 1 (.put [97] [1] none) 0 2, 1) := by decide +kernel
  have hanswer : (((start fun _ => none).run (leaderPuts ++ [.apply 2])).bind
      (fun mid => mid.run [.read 0 2 readA, .look 0, .look 0, .look 0])).bind
        (fun st => (st.reads 0).response) =
          some (.ok ⟨responseHeader 2, [⟨[97], [1], 2, 2, 1, 0⟩], false, 1⟩) := by decide +kernel
  obtain ⟨mid, hmid, hpair⟩ := Option.map_eq_some_iff.mp hstage
  obtain ⟨hwrite, happlied⟩ := Prod.mk.inj hpair
  rw [hmid, Option.bind_some] at hanswer
  obtain ⟨st, hst, hread⟩ := Option.bind_eq_some_iff.mp hanswer
  obtain ⟨-, hiff, -⟩ := acknowledged_visible_iff hmid hwrite hst hread
  refine ⟨mid, st, _, hmid, hwrite, hst, hread, hiff.mpr (Or.inl ?_)⟩
  rw [happlied]
  exact Nat.one_pos

/-- A follower that has not applied the entry yet answers that there is no key, although
the put has returned. -/
theorem acknowledged_write_missed :
    ∃ mid st, (start fun _ => none).run leaderPuts = some mid ∧
      mid.run [.read 0 2 readA, .look 0, .look 0] = some st ∧
      (mid.writes 0).response = some (.ok (.put ⟨responseHeader 2, none⟩)) ∧
      (st.reads 0).response = some (.ok ⟨responseHeader 1, [], false, 0⟩) := by
  have hwrite : ((start fun _ => none).run leaderPuts).bind (fun mid => (mid.writes 0).response) =
      some (.ok (.put ⟨responseHeader 2, none⟩)) := by decide +kernel
  have hread : (((start fun _ => none).run leaderPuts).bind
      (fun mid => mid.run [.read 0 2 readA, .look 0, .look 0])).bind
        (fun st => (st.reads 0).response) = some (.ok ⟨responseHeader 1, [], false, 0⟩) := by
    decide +kernel
  obtain ⟨mid, hmid, hput⟩ := Option.bind_eq_some_iff.mp hwrite
  rw [hmid, Option.bind_some] at hread
  obtain ⟨st, hst, hget⟩ := Option.bind_eq_some_iff.mp hread
  exact ⟨mid, st, hmid, hst, hput, hget⟩

end Cluster
end MemEtcd
