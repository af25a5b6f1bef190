import MemEtcd.RangeHistory
import MemEtcd.Snapshot
import MemEtcd.WriteService

/-! A cluster in Raft mode. The nodes apply one committed log, each at its own pace. A
write goes through the log and is answered when the node that has taken it has applied
its entry; a read is served from the store of the node it comes to. -/
namespace MemEtcd

/-! ### The log and the stores of the nodes -/

def Entry.call? (e : Entry) : Option Call :=
  match e.payload with
  | .normal req => some ⟨req.change.1, req.change.2, none⟩
  | _ => none

theorem Entry.effect_eq_run (e : Entry) (s : Store) : e.effect s = s.run e.call?.toList := by
  unfold effect call?
  cases e.payload with
  | normal req => exact congrArg Prod.fst (req.run_eq s)
  | _ => rfl

/-- The store of a server that starts in Raft mode. No WAL is loaded, and a dummy key
takes the first revision. -/
def Store.boot (wal : Option WalMode) : Store := ((Store.new wal).set [126] (some []) none).1

/-- The history of the store after the first `n` entries of the log. -/
def historyAt (log : List Entry) (n : ℕ) : History :=
  logCalls (logCall [] ⟨[126], some [], none⟩) ((log.take n).filterMap Entry.call?)

theorem Store.boot_uncompacted (wal : Option WalMode) : (Store.boot wal).Uncompacted (historyAt [] 0) :=
  Store.Uncompacted.run ⟨Store.new_wf wal, Store.new_represents wal, rfl⟩ [⟨[126], some [], none⟩]

theorem historyAt_succ {log : List Entry} {n : ℕ} {e : Entry} (h : log[n]? = some e) :
    historyAt log (n + 1) = logCalls (historyAt log n) e.call?.toList := by
  unfold historyAt logCalls
  rw [List.take_add_one, h, Option.toList_some, List.filterMap_append, List.foldl_append]
  congr 1

/-- What was committed first is not changed by what is committed later. -/
theorem historyAt_append {log : List Entry} {n : ℕ} (h : n ≤ log.length) (more : List Entry) :
    historyAt (log ++ more) n = historyAt log n := by
  unfold historyAt
  rw [List.take_append_of_le_length h]

theorem historyAt_mono (log : List Entry) {n m : ℕ} (h : n ≤ m) :
    historyAt log n <+: historyAt log m := by
  obtain ⟨d, rfl⟩ := Nat.exists_eq_add_of_le h
  unfold historyAt
  rw [List.take_add, List.filterMap_append]
  unfold logCalls
  rw [List.foldl_append]
  exact logCalls_extends _ _

theorem historyAt_pos (log : List Entry) (n : ℕ) : 0 < (historyAt log n).length :=
  List.IsPrefix.length_le (historyAt_mono log (Nat.zero_le n))

/-! ### The cluster -/

/-- How far the handler of a write has come. A committed entry has a position in the
log. -/
inductive WriteStage where
  | idle
  | planned (node : ℕ) (plan : WritePlan)
  | proposed (node : ℕ) (plan : WritePlan)
  | committed (node : ℕ) (plan : WritePlan) (position : ℕ)
  | answered (node : ℕ) (plan : WritePlan) (position : ℕ) (rev : ℤ)
  | failed (fault : Fault)
  deriving DecidableEq, Repr

def WriteStage.position : WriteStage → Option ℕ
  | .committed _ _ position | .answered _ _ position _ => some position
  | _ => none

def WriteStage.response : WriteStage → Option (Except Fault ResponseOp)
  | .answered _ plan _ rev => some (.ok (plan.respond rev))
  | .failed fault => some (.error fault)
  | _ => none

/-- The node has applied the entry at `position`: `client_write` returns to the handler
that has proposed it. -/
def WriteStage.applied (node position : ℕ) (rev : ℤ) : WriteStage → WriteStage
  | .committed n plan q =>
    if n = node ∧ q = position then .answered n plan q rev else .committed n plan q
  | phase => phase

inductive ReadStage where
  | idle
  | reading (node : ℕ) (req : RangeQuery) (range : RangePhase)
  deriving DecidableEq, Repr

def ReadStage.response : ReadStage → Option (Except Fault RangeResponse)
  | .reading _ req (.returned res) => some (res.map req.respond)
  | _ => none

/-- A node: its state machine, the number of entries it has applied, and what its
metrics say about the leader. -/
structure Replica where
  machine : StateMachineStore
  applied : ℕ
  raft : RaftNode

def Replica.store (r : Replica) : Store := r.machine.store

/-- The nodes, the log of the committed entries, and the handlers. -/
structure Cluster where
  log : List Entry
  replicas : ℕ → Replica
  writes : ℕ → WriteStage
  reads : ℕ → ReadStage

inductive ClusterAction where
  /-- A handler reads what it needs of the previous value. -/
  | call (i node : ℕ) (req : WriteRequest)
  /-- It checks that its node is the leader. -/
  | lead (i : ℕ)
  /-- The entry that it has proposed is committed. -/
  | commit (i : ℕ) (logId : LogId)
  /-- `client_write` returns an error. -/
  | fail (i : ℕ) (e : String)
  /-- An entry is committed that no handler waits for. -/
  | append (entry : Entry)
  /-- A node applies its next entry. -/
  | apply (node : ℕ)
  /-- The metrics of a node change. -/
  | metrics (node : ℕ) (currentLeader : Option ℕ)
  /-- A read at revision 0 starts: it reads the revision. -/
  | read (j node : ℕ) (req : RangeQuery)
  /-- A read goes on. -/
  | look (j : ℕ)
  deriving DecidableEq, Repr

namespace Cluster

def start (wal : ℕ → Option WalMode) : Cluster :=
  ⟨[], fun n => ⟨StateMachineStore.new (Store.boot (wal n)), 0, ⟨n, none⟩⟩, fun _ => .idle,
    fun _ => .idle⟩

def service (st : Cluster) (n : ℕ) : KvService := ⟨(st.replicas n).machine, some (st.replicas n).raft⟩

def setWrite (st : Cluster) (i : ℕ) (phase : WriteStage) : Cluster :=
  { st with writes := Function.update st.writes i phase }

def setRead (st : Cluster) (j : ℕ) (phase : ReadStage) : Cluster :=
  { st with reads := Function.update st.reads j phase }

def applied (st : Cluster) (n : ℕ) (entry : Entry) : Cluster :=
  let r := st.replicas n
  let (machine, response) := r.machine.applyEntry entry
  { st with
    replicas := Function.update st.replicas n ⟨machine, r.applied + 1, r.raft⟩
    writes := fun i => (st.writes i).applied n r.applied response.revision }

def step (st : Cluster) : ClusterAction → Option Cluster
  | .call i n req =>
    match st.writes i with
    | .idle =>
      -- the local read comes before the leader is asked for
      match req.plan (st.replicas n).store with
      | .error fault => some (st.setWrite i (.failed fault))
      | .ok plan => some (st.setWrite i (.planned n plan))
    | _ => none
  | .lead i =>
    match st.writes i with
    | .planned n plan =>
      match (st.service n).ensureLeader with
      | .error e => some (st.setWrite i (.failed (.status e)))
      | .ok () => some (st.setWrite i (.proposed n plan))
    | _ => none
  | .commit i logId =>
    match st.writes i with
    | .proposed n plan =>
      some { st.setWrite i (.committed n plan st.log.length) with
        log := st.log ++ [⟨logId, .normal plan.proposal⟩] }
    | _ => none
  | .fail i e =>
    match st.writes i with
    -- also of an entry that is committed nevertheless
    | .proposed _ _ | .committed _ _ _ =>
      some (st.setWrite i (.failed (.status ⟨.internal, s!"raft write failed: {e}"⟩)))
    | _ => none
  | .append entry => some { st with log := st.log ++ [entry] }
  | .apply n => (st.log[(st.replicas n).applied]?).map (st.applied n)
  | .metrics n currentLeader =>
    let r := st.replicas n
    some { st with
      replicas := Function.update st.replicas n ⟨r.machine, r.applied, ⟨r.raft.id, currentLeader⟩⟩ }
  | .read j n req =>
    match st.reads j with
    | .idle =>
      if req.revision = 0 then
        some (st.setRead j (.reading n req (.started (st.replicas n).store.currentRevision)))
      else none
    | _ => none
  | .look j =>
    match st.reads j with
    | .reading n req range =>
      ((st.replicas n).store.rangeNext req range).map (fun range => st.setRead j (.reading n req range))
    | _ => none

def run (st : Cluster) (trace : List ClusterAction) : Option Cluster := PartialRun.run step st trace

/-! ### The steps -/

section
variable {st st' : Cluster} {i j n : ℕ}

theorem step_call {req : WriteRequest} (h : st.step (.call i n req) = some st') :
    ∃ phase, phase.position = none ∧ st' = st.setWrite i phase := by
  simp only [step] at h
  split at h
  · split at h
    · exact ⟨.failed _, rfl, (Option.some.inj h).symm⟩
    · exact ⟨.planned n _, rfl, (Option.some.inj h).symm⟩
  · contradiction

theorem step_lead (h : st.step (.lead i) = some st') :
    ∃ phase, phase.position = none ∧ st' = st.setWrite i phase := by
  simp only [step] at h
  split at h
  · split at h
    · exact ⟨.failed _, rfl, (Option.some.inj h).symm⟩
    · exact ⟨.proposed _ _, rfl, (Option.some.inj h).symm⟩
  · contradiction

theorem step_fail {e : String} (h : st.step (.fail i e) = some st') :
    ∃ phase, phase.position = none ∧ st' = st.setWrite i phase := by
  simp only [step] at h
  split at h
  · exact ⟨.failed _, rfl, (Option.some.inj h).symm⟩
  · exact ⟨.failed _, rfl, (Option.some.inj h).symm⟩
  · contradiction

theorem step_commit {logId : LogId} (h : st.step (.commit i logId) = some st') :
    ∃ n plan, st.writes i = .proposed n plan ∧
      st' = ({ st with log := st.log ++ [⟨logId, .normal plan.proposal⟩] } : Cluster).setWrite i
        (.committed n plan st.log.length) := by
  simp only [step] at h
  split at h
  · exact ⟨_, _, ‹_›, (Option.some.inj h).symm⟩
  · contradiction

theorem step_apply (h : st.step (.apply n) = some st') :
    ∃ entry, st.log[(st.replicas n).applied]? = some entry ∧ st' = st.applied n entry := by
  obtain ⟨entry, hentry, hst⟩ := Option.map_eq_some_iff.mp h
  exact ⟨entry, hentry, hst.symm⟩

theorem step_read {req : RangeQuery} (h : st.step (.read j n req) = some st') :
    st.reads j = .idle ∧ req.revision = 0 ∧
      st' = st.setRead j (.reading n req (.started (st.replicas n).store.currentRevision)) := by
  simp only [step] at h
  split at h
  · split_ifs at h with hrev
    exact ⟨‹_›, hrev, (Option.some.inj h).symm⟩
  · contradiction

theorem step_look (h : st.step (.look j) = some st') :
    ∃ n req range next, st.reads j = .reading n req range ∧
      (st.replicas n).store.rangeNext req range = some next ∧
      st' = st.setRead j (.reading n req next) := by
  simp only [step] at h
  split at h
  · obtain ⟨next, hnext, hst⟩ := Option.map_eq_some_iff.mp h
    exact ⟨_, _, _, next, ‹_›, hnext, hst.symm⟩
  · contradiction

@[simp] theorem setRead_self (st : Cluster) (j : ℕ) (stage : ReadStage) :
    (st.setRead j stage).reads j = stage :=
  Function.update_self ..

theorem applied_self (st : Cluster) (n : ℕ) (entry : Entry) :
    (st.applied n entry).replicas n = ⟨((st.replicas n).machine.applyEntry entry).1,
      (st.replicas n).applied + 1, (st.replicas n).raft⟩ :=
  Function.update_self ..

theorem applied_other (st : Cluster) (entry : Entry) {m : ℕ} (hm : m ≠ n) :
    (st.applied n entry).replicas m = st.replicas m :=
  Function.update_of_ne hm ..

/-- The log only grows. -/
theorem step_log {a : ClusterAction} (h : st.step a = some st') : st.log <+: st'.log := by
  cases a with
  | call i n req =>
    obtain ⟨phase, -, rfl⟩ := step_call h
    exact List.prefix_refl _
  | lead i =>
    obtain ⟨phase, -, rfl⟩ := step_lead h
    exact List.prefix_refl _
  | commit i logId =>
    obtain ⟨n, plan, -, rfl⟩ := step_commit h
    exact List.prefix_append _ _
  | fail i e =>
    obtain ⟨phase, -, rfl⟩ := step_fail h
    exact List.prefix_refl _
  | append entry =>
    cases h
    exact List.prefix_append _ _
  | apply n =>
    obtain ⟨entry, -, rfl⟩ := step_apply h
    exact List.prefix_refl _
  | metrics n leader =>
    cases h
    exact List.prefix_refl _
  | read j n req =>
    obtain ⟨-, -, rfl⟩ := step_read h
    exact List.prefix_refl _
  | look j =>
    obtain ⟨n, req, range, next, -, -, rfl⟩ := step_look h
    exact List.prefix_refl _

theorem run_log {trace : List ClusterAction} (h : st.run trace = some st') : st.log <+: st'.log :=
  @PartialRun.run_induct _ _ _ (fun s => st.log <+: s.log)
    (fun hs hstep => hs.trans (step_log hstep)) _ _ _ (List.prefix_refl _) h

end

/-! ### What the nodes have applied -/

/-- A handler waits for an entry of the log that its node has not applied yet, and
answers with the revision that the entry leaves. -/
def WriteOk (st : Cluster) : WriteStage → Prop
  | .committed n plan position => (st.replicas n).applied ≤ position ∧
    (st.log[position]?).map Entry.payload = some (.normal plan.proposal)
  | .answered n plan position rev => position < (st.replicas n).applied ∧
    (st.log[position]?).map Entry.payload = some (.normal plan.proposal) ∧
    rev = (historyAt st.log (position + 1)).length
  | _ => True

/-- Every node has the history of a first part of the log. -/
structure Replicated (st : Cluster) : Prop where
  bounded : ∀ n, (st.replicas n).applied ≤ st.log.length
  stores : ∀ n, (st.replicas n).store.Uncompacted (historyAt st.log (st.replicas n).applied)
  writes : ∀ i, WriteOk st (st.writes i)

section
variable {st st' : Cluster} {i j n : ℕ}

theorem start_replicated (wal : ℕ → Option WalMode) : Replicated (start wal) :=
  ⟨fun _ => le_refl _, fun n => Store.boot_uncompacted (wal n), fun _ => trivial⟩

theorem WriteOk.of_position {phase : WriteStage} (h : phase.position = none) : WriteOk st phase := by
  cases phase with
  | committed n plan position => contradiction
  | answered n plan position rev => contradiction
  | _ => trivial

theorem Replicated.setWrite (h : Replicated st) {phase : WriteStage} (hphase : WriteOk st phase) :
    Replicated (st.setWrite i phase) := by
  refine ⟨h.bounded, h.stores, fun k => ?_⟩
  change WriteOk st (Function.update st.writes i phase k)
  by_cases hk : k = i
  · rw [hk, Function.update_self]
    exact hphase
  · rw [Function.update_of_ne hk]
    exact h.writes k

theorem Replicated.append (h : Replicated st) (entry : Entry) :
    Replicated { st with log := st.log ++ [entry] } := by
  have hpayload {q : ℕ} {p : EntryPayload} (hq : (st.log[q]?).map Entry.payload = some p) :
      q < st.log.length ∧ ((st.log ++ [entry])[q]?).map Entry.payload = some p := by
    have hlt : q < st.log.length := by
      by_contra hge
      rw [List.getElem?_eq_none (by omega)] at hq
      contradiction
    rw [List.getElem?_append_left hlt]
    exact ⟨hlt, hq⟩
  refine ⟨fun n => ?_, fun n => ?_, fun i => ?_⟩
  · have hle := h.bounded n
    dsimp only
    rw [List.length_append]
    omega
  · dsimp only
    rw [historyAt_append (h.bounded n)]
    exact h.stores n
  · have hw := h.writes i
    dsimp only
    cases hphase : st.writes i with
    | committed n plan position =>
      rw [hphase] at hw
      exact ⟨hw.1, (hpayload hw.2).2⟩
    | answered n plan position rev =>
      rw [hphase] at hw
      obtain ⟨happlied, hentry, hrev⟩ := hw
      obtain ⟨hlt, hentry'⟩ := hpayload hentry
      refine ⟨happlied, hentry', ?_⟩
      dsimp only
      rw [historyAt_append hlt]
      exact hrev
    | _ => trivial

/-- The node that applies an entry comes to the history of one more entry, and
responds with its revision. -/
theorem Replicated.entry (h : Replicated st) {entry : Entry}
    (hentry : st.log[(st.replicas n).applied]? = some entry) :
    ((st.replicas n).machine.applyEntry entry).1.store.Uncompacted
        (historyAt st.log ((st.replicas n).applied + 1)) ∧
      ((st.replicas n).machine.applyEntry entry).2.revision =
        (historyAt st.log ((st.replicas n).applied + 1)).length := by
  have hs := h.stores n
  obtain ⟨hstore, hresponse⟩ :=
    StateMachineStore.applyEntry_eq (hs.represents.coherent hs.wf) entry
  have hnext := hs.run entry.call?.toList
  rw [← historyAt_succ hentry, ← entry.effect_eq_run] at hnext
  rw [hstore, hresponse]
  exact ⟨hnext, hnext.represents.currentRevision_eq⟩

theorem Replicated.apply (h : Replicated st) {entry : Entry}
    (hentry : st.log[(st.replicas n).applied]? = some entry) :
    Replicated (st.applied n entry) := by
  have hlt : (st.replicas n).applied < st.log.length := by
    by_contra hge
    rw [List.getElem?_eq_none (by omega)] at hentry
    contradiction
  obtain ⟨hstore, hrev⟩ := h.entry hentry
  have hself := st.applied_self n entry
  have hother {m : ℕ} (hm : m ≠ n) := st.applied_other entry hm
  have happlied (m : ℕ) : (st.replicas m).applied ≤ ((st.applied n entry).replicas m).applied := by
    by_cases hm : m = n
    · rw [hm, hself]
      exact Nat.le_succ _
    · rw [hother hm]
  refine ⟨fun m => ?_, fun m => ?_, fun i => ?_⟩
  · by_cases hm : m = n
    · rw [hm, hself]
      exact hlt
    · rw [hother hm]
      exact h.bounded m
  · by_cases hm : m = n
    · rw [hm, hself]
      exact hstore
    · rw [hother hm]
      exact h.stores m
  · have hw := h.writes i
    change WriteOk (st.applied n entry) ((st.writes i).applied n _ _)
    cases hphase : st.writes i with
    | committed m plan position =>
      rw [hphase] at hw
      unfold WriteStage.applied
      dsimp only
      split_ifs with hmine
      -- the handler that has proposed this entry, or one whose entry comes later
      · obtain ⟨rfl, rfl⟩ := hmine
        refine ⟨?_, hw.2, hrev⟩
        rw [hself]
        exact Nat.lt_succ_self _
      · refine ⟨?_, hw.2⟩
        by_cases hm : m = n
        · have hne : position ≠ (st.replicas n).applied := fun hq => hmine ⟨hm, hq⟩
          have hle := hw.1
          rw [hm] at hle ⊢
          rw [hself]
          exact Nat.lt_of_le_of_ne hle (Ne.symm hne)
        · rw [hother hm]
          exact hw.1
    | answered m plan position rev =>
      rw [hphase] at hw
      exact ⟨hw.1.trans_le (happlied m), hw.2⟩
    | _ => trivial

/-- What the metrics say does not matter to the data. -/
theorem metrics_frame {leader : Option ℕ} (hstep : st.step (.metrics n leader) = some st') (m : ℕ) :
    (st'.replicas m).store = (st.replicas m).store ∧
      (st'.replicas m).applied = (st.replicas m).applied := by
  cases hstep
  dsimp only
  by_cases hm : m = n
  · rw [hm, Function.update_self]
    exact ⟨rfl, rfl⟩
  · rw [Function.update_of_ne hm]
    exact ⟨rfl, rfl⟩

theorem Replicated.metrics (h : Replicated st) {leader : Option ℕ}
    (hstep : st.step (.metrics n leader) = some st') : Replicated st' := by
  have hsame := metrics_frame hstep
  cases hstep
  refine ⟨fun m => ?_, fun m => ?_, fun i => ?_⟩
  · rw [(hsame m).2]
    exact h.bounded m
  · rw [(hsame m).1, (hsame m).2]
    exact h.stores m
  · have hw := h.writes i
    change WriteOk _ (st.writes i)
    cases hphase : st.writes i with
    | committed m plan position =>
      rw [hphase] at hw
      exact ⟨(hsame m).2.trans_le hw.1, hw.2⟩
    | answered m plan position rev =>
      rw [hphase] at hw
      exact ⟨hw.1.trans_eq (hsame m).2.symm, hw.2⟩
    | _ => trivial

theorem Replicated.step (h : Replicated st) {a : ClusterAction} (hstep : st.step a = some st') :
    Replicated st' := by
  cases a with
  | call i n req =>
    obtain ⟨phase, hphase, rfl⟩ := step_call hstep
    exact h.setWrite (.of_position hphase)
  | lead i =>
    obtain ⟨phase, hphase, rfl⟩ := step_lead hstep
    exact h.setWrite (.of_position hphase)
  | commit i logId =>
    obtain ⟨n, plan, -, rfl⟩ := step_commit hstep
    refine (h.append ⟨logId, .normal plan.proposal⟩).setWrite ⟨h.bounded n, ?_⟩
    dsimp only
    rw [List.getElem?_concat_length]
    rfl
  | fail i e =>
    obtain ⟨phase, hphase, rfl⟩ := step_fail hstep
    exact h.setWrite (.of_position hphase)
  | append entry =>
    cases hstep
    exact h.append entry
  | apply n =>
    obtain ⟨entry, hentry, rfl⟩ := step_apply hstep
    exact h.apply hentry
  | metrics n leader => exact h.metrics hstep
  | read j n req =>
    obtain ⟨-, -, rfl⟩ := step_read hstep
    exact ⟨h.bounded, h.stores, h.writes⟩
  | look j =>
    obtain ⟨n, req, range, next, -, -, rfl⟩ := step_look hstep
    exact ⟨h.bounded, h.stores, h.writes⟩

theorem run_replicated {wal : ℕ → Option WalMode} {trace : List ClusterAction}
    (h : (start wal).run trace = some st) : Replicated st :=
  PartialRun.run_induct (fun hs hstep => hs.step hstep) (start_replicated wal) h

end

/-! ### Handlers on their own -/

section
variable {st st' : Cluster} {i j n : ℕ}

/-- The steps of a write on the leader, if nothing comes in between, are its handler in
Raft mode. -/
theorem run_write (debug : ℤ × Option KeyValue → String) (logId : LogId) {req : WriteRequest}
    {plan : WritePlan} (hi : st.writes i = .idle)
    (hleader : (st.replicas n).raft.currentLeader = some (st.replicas n).raft.id)
    (hall : (st.replicas n).applied = st.log.length)
    (hplan : req.plan (st.replicas n).store = .ok plan) :
    ∃ st', st.run [.call i n req, .lead i, .commit i logId, .apply n] = some st' ∧
      (st'.service n).machine = (req.serve debug (st.service n) (.ok logId)).1.machine ∧
      (st'.writes i).response = some (req.serve debug (st.service n) (.ok logId)).2 := by
  have hlead : (st.service n).ensureLeader = .ok () := KvService.ensureLeader_of_leader hleader
  have hserve := KvService.write_leader debug (m := (st.replicas n).machine) hleader logId plan
  rw [WriteRequest.serve_eq]
  change ∃ st', _ ∧ _ = ((st.service n).write debug _ (req.plan (st.replicas n).store)).1.machine ∧
    _ = some ((st.service n).write debug _ (req.plan (st.replicas n).store)).2
  rw [hplan]
  unfold service at hlead ⊢
  rw [hserve]
  simp only [run, PartialRun.run, step, hi, hplan, setWrite, Function.update_self, service, hlead,
    Function.update_idem, Option.bind_some]
  rw [hall, List.getElem?_concat_length, Option.map_some, Option.bind_some]
  refine ⟨_, rfl, congrArg Replica.machine (applied_self _ n _), ?_⟩
  have hanswered : WriteStage.applied n (st.replicas n).applied
      ((st.replicas n).machine.applyEntry ⟨logId, .normal plan.proposal⟩).2.revision
      (Function.update st.writes i (.committed n plan st.log.length) i) =
        .answered n plan st.log.length
          ((st.replicas n).machine.applyEntry ⟨logId, .normal plan.proposal⟩).2.revision := by
    rw [Function.update_self]
    exact if_pos ⟨rfl, hall.symm⟩
  exact congrArg WriteStage.response hanswered

/-- The rounds of a read, one after the other, are the loop of `range`. -/
theorem run_looks {req : RangeQuery} {rev : ℤ} {pfx : Bytes} {rest : List (Bytes × ℕ)}
    {results : List KeyValue} {count : ℕ}
    (h : st.reads j = .reading n req (.scanning rev pfx rest results count)) :
    ∃ k, st.run (List.replicate k (.look j)) = some (st.setRead j (.reading n req (.returned
      (((st.replicas n).store.scan rev req.storeLimit pfx rest results count).map
        (fun p => ⟨p.1, rev, p.2⟩))))) := by
  induction rest generalizing st results count with
  | nil =>
    refine ⟨1, ?_⟩
    simp only [List.replicate, run, PartialRun.run, step, h]
    rfl
  | cons e rest ih =>
    rw [Store.scan_cons]
    cases hone : (st.replicas n).store.scan rev req.storeLimit pfx [e] results count with
    | error fault =>
      refine ⟨1, ?_⟩
      simp only [List.replicate, run, PartialRun.run, step, h, Store.rangeNext, Store.rangeRound, hone]
      rfl
    | ok p =>
      have hnext : st.step (.look j) =
          some (st.setRead j (.reading n req (.scanning rev pfx rest p.1 p.2))) := by
        simp only [step, h, Store.rangeNext, Store.rangeRound, hone, Option.map_some]
      obtain ⟨k, hk⟩ := ih (setRead_self st j (.reading n req (.scanning rev pfx rest p.1 p.2)))
      refine ⟨k + 1, ?_⟩
      change (st.step (.look j)).bind _ = _
      rw [hnext, Option.bind_some]
      refine Eq.trans hk ?_
      unfold setRead
      simp only [Function.update_idem]
      rfl

/-- The steps of a read, if nothing comes in between, are the range handler. -/
theorem run_read {req : RangeQuery} (hj : st.reads j = .idle) (hrev : req.revision = 0) :
    ∃ k st', st.run (.read j n req :: List.replicate k (.look j)) = some st' ∧
      (st'.reads j).response = some ((st.replicas n).store.serveRange req) := by
  rw [Store.serveRange_eq, hrev, Store.range_eq_rangeAfter]
  generalize hcur : (st.replicas n).store.currentRevision = rev
  have hread : st.step (.read j n req) = some (st.setRead j (.reading n req (.started rev))) := by
    simp only [step, hj, hrev, if_true, hcur]
  have hlook (range : RangePhase)
      (hb : (st.replicas n).store.rangeBucket req.key req.rangeEnd rev = range) :
      st.run [.read j n req, .look j] = some (st.setRead j (.reading n req range)) := by
    change (st.step (.read j n req)).bind _ = _
    rw [hread, Option.bind_some]
    simp only [PartialRun.run, step, setRead, Function.update_self, Store.rangeNext, hb,
      Option.map_some, Option.bind_some, Function.update_idem]
  rcases (st.replicas n).store.rangeBucket_cases req.key req.rangeEnd req.storeLimit rev with
    hb | ⟨pfx, lo, hi, hb, hafter⟩
  · refine ⟨1, _, hlook _ hb, ?_⟩
    rw [setRead_self]
    rfl
  · have hscan := hlook _ hb
    generalize (st.replicas n).store.selected pfx lo hi = entries at hscan hafter
    obtain ⟨k, hk⟩ := run_looks (setRead_self st j (.reading n req (.scanning rev pfx entries [] 0)))
    have hrest : st.run (.read j n req :: List.replicate (k + 1) (.look j)) =
        (st.setRead j (.reading n req (.scanning rev pfx entries [] 0))).run
          (List.replicate k (.look j)) := by
      change PartialRun.run step st ([.read j n req, .look j] ++ List.replicate k (.look j)) = _
      rw [PartialRun.run_append]
      exact congrArg (fun o => Option.bind o _) hscan
    refine ⟨k + 1, _, hrest.trans hk, ?_⟩
    rw [setRead_self, hafter]
    rfl

end

end Cluster
end MemEtcd
