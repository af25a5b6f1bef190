import MemEtcd.Txn

/-! Concurrent transactions on a Raft leader. A handler reads and checks its
compare locally, proposes its write, and answers when the entry is applied; the
entry itself carries no condition. -/
namespace MemEtcd

open VersionLog (Cell)

inductive TxnStage where
  | waiting
  | passed
  | proposed
  | answered (res : Except Fault TxnResponse)
  deriving DecidableEq, Repr

/-- The handler has answered that its transaction succeeded. -/
def TxnStage.Succeeded (stage : TxnStage) : Prop :=
  ∃ res, stage = .answered (.ok res) ∧ res.succeeded = true

/-- The handler has passed its check, and its entry is not applied yet. -/
def TxnStage.InFlight (stage : TxnStage) : Prop := stage = .passed ∨ stage = .proposed

/-- A leader that handles transactions, numbered by `ℕ`. The log holds the
proposed entries that are not applied yet; `overwritten` records what every
applied entry found at its key. -/
structure Leader where
  machine : StateMachineStore
  log : List (ℕ × LogId)
  stages : ℕ → TxnStage
  overwritten : List (ℕ × Option KeyValue)

inductive TxnAction where
  | check (i : ℕ)
  | propose (i : ℕ) (logId : LogId)
  | apply
  deriving DecidableEq, Repr

namespace Leader

variable (plans : ℕ → TxnPlan)

def start (m : StateMachineStore) : Leader := ⟨m, [], fun _ => .waiting, []⟩

def checked (plan : TxnPlan) : Except Fault (Except (ℤ × Option KeyValue) Unit) → TxnStage
  | .error fault => .answered (.error fault)
  | .ok (.error refused) => .answered (.ok (plan.respond (.error refused)))
  | .ok (.ok ()) => .passed

def check (s : Leader) (i : ℕ) : Leader :=
  if s.stages i = .waiting then
    { s with stages := Function.update s.stages i (checked (plans i)
        (s.machine.store.readCompare (plans i).compare.key (plans i).required)) }
  else s

def propose (s : Leader) (i : ℕ) (logId : LogId) : Leader :=
  if s.stages i = .passed then
    { s with
      log := s.log ++ [(i, logId)]
      stages := Function.update s.stages i .proposed }
  else s

/-- The state machine applies the next entry, and `client_write` returns to the
handler that has proposed it. -/
def apply (s : Leader) : Leader :=
  match s.log with
  | [] => s
  | (i, logId) :: rest =>
    let (machine, response) := s.machine.applyEntry ⟨logId, .normal (plans i).proposal⟩
    { machine := machine
      log := rest
      stages := Function.update s.stages i
        (.answered (.ok ((plans i).respond (.ok response.revision))))
      overwritten := s.overwritten ++ [(i, s.machine.store.currentKv (plans i).compare.key)] }

def step (s : Leader) : TxnAction → Leader
  | .check i => s.check plans i
  | .propose i logId => s.propose i logId
  | .apply => s.apply plans

def run (s : Leader) (actions : List TxnAction) : Leader := actions.foldl (step plans) s

/-- No handler of the run makes its check while another one is in flight. -/
def Exclusive : Leader → List TxnAction → Prop
  | _, [] => True
  | s, a :: actions =>
    (∀ i, a = .check i → s.stages i = .waiting → ∀ j, ¬(s.stages j).InFlight) ∧
      Exclusive (s.step plans a) actions

/-! ### The steps -/

variable {plans}

theorem check_of_waiting {s : Leader} {i : ℕ} (h : s.stages i = .waiting) :
    s.check plans i = { s with stages := Function.update s.stages i (checked (plans i)
      (s.machine.store.readCompare (plans i).compare.key (plans i).required)) } :=
  if_pos h

theorem check_of_not_waiting {s : Leader} {i : ℕ} (h : s.stages i ≠ .waiting) :
    s.check plans i = s :=
  if_neg h

theorem propose_of_passed {s : Leader} {i : ℕ} (h : s.stages i = .passed) (logId : LogId) :
    s.propose i logId = { s with
      log := s.log ++ [(i, logId)]
      stages := Function.update s.stages i .proposed } :=
  if_pos h

theorem propose_of_not_passed {s : Leader} {i : ℕ} (h : s.stages i ≠ .passed) (logId : LogId) :
    s.propose i logId = s :=
  if_neg h

theorem apply_nil {s : Leader} (h : s.log = []) : s.apply plans = s := by
  unfold apply
  rw [h]

theorem apply_cons {s : Leader} {i : ℕ} {logId : LogId} {rest : List (ℕ × LogId)}
    (h : s.log = (i, logId) :: rest) :
    s.apply plans = {
      machine := (s.machine.applyEntry ⟨logId, .normal (plans i).proposal⟩).1
      log := rest
      stages := Function.update s.stages i
        (.answered (.ok ((plans i).respond (.ok ((plans i).proposal.run s.machine.store).2))))
      overwritten := s.overwritten ++
        [(i, s.machine.store.currentKv (plans i).compare.key)] } := by
  unfold apply
  rw [h]
  rfl

/-- The steps of a handler, one after the other, are `txn` in Raft mode. -/
theorem run_alone {m : StateMachineStore} (hm : m.store.Coherent) {node : RaftNode}
    (hl : node.currentLeader = some node.id) (logId : LogId) (i : ℕ) {req : TxnRequest}
    (h : req.plan = .ok (plans i)) :
    ((start m).run plans [.check i, .propose i logId, .apply]).machine =
        ((KvService.mk m (some node)).txn (.ok logId) req).1.machine ∧
      ((start m).run plans [.check i, .propose i logId, .apply]).stages i =
        .answered ((KvService.mk m (some node)).txn (.ok logId) req).2 := by
  change ((((start m).check plans i).propose i logId).apply plans).machine = _ ∧
    ((((start m).check plans i).propose i logId).apply plans).stages i = _
  rw [KvService.txn_raft hm hl logId h]
  have hcheck : (start m).check plans i = { start m with
      stages := Function.update (start m).stages i (checked (plans i)
        (m.store.readCompare (plans i).compare.key (plans i).required)) } := check_of_waiting rfl
  have hlog : ((start m).check plans i).log = [] := by rw [hcheck]; rfl
  have hmachine : ((start m).check plans i).machine = m := by rw [hcheck]; rfl
  have hstage : ((start m).check plans i).stages i = checked (plans i)
      (m.store.readCompare (plans i).compare.key (plans i).required) := by
    rw [hcheck]
    exact Function.update_self ..
  rw [Store.readCompare_eq hm] at hstage
  generalize (start m).check plans i = s at hlog hmachine hstage
  split_ifs at hstage ⊢ with hread hpass
  · rw [propose_of_passed hstage, apply_cons (by rw [hlog]; rfl)]
    refine ⟨by rw [hmachine], ?_⟩
    rw [hmachine]
    exact Function.update_self ..
  · rw [propose_of_not_passed (by rw [hstage]; exact TxnStage.noConfusion), apply_nil hlog]
    exact ⟨hmachine, hstage⟩
  · rw [propose_of_not_passed (by rw [hstage]; exact TxnStage.noConfusion), apply_nil hlog]
    exact ⟨hmachine, hstage⟩

/-! ### Compare-and-swap -/

/-- A put of `key` under the condition that its revision is `r`. -/
structure IsSwap (key : Bytes) (r : ℤ) (plan : TxnPlan) : Prop where
  key_eq : plan.compare.key = key
  required_eq : plan.required = ⟨some r, none, 0⟩
  puts : plan.value.isSome

/-- The plan of a request that compares the revision of `key` with `r` for
equality and puts. -/
theorem isSwap_of_request {req : TxnRequest} {plan : TxnPlan} {key : Bytes} {r : ℤ}
    (h : req.plan = .ok plan) (hc : req.compare = [⟨0, key, some (.modRevision r)⟩])
    (hv : plan.value.isSome) : IsSwap key r plan := by
  obtain ⟨hcompare, hrequired⟩ := TxnRequest.plan_compare h
  have heq : plan.compare = ⟨0, key, some (.modRevision r)⟩ :=
    List.cons.inj (hcompare.symm.trans hc) |>.1
  rw [heq] at hrequired
  refine ⟨by rw [heq], ?_, hv⟩
  exact (Except.ok.inj hrequired).symm

/-- What the compare wants to find: revision `r`, or no key if `r` is zero. -/
def Matches (r : ℤ) : Option KeyValue → Prop
  | some kv => kv.modRevision = r
  | none => r = 0

theorem checkCompare_swap {r : ℤ} (hr : 0 ≤ r) (kv : Option KeyValue) :
    checkCompare kv (some ⟨some r, none, 0⟩) = true ↔ Matches r kv := by
  cases kv with
  | some kv =>
    simp [checkCompare, Matches, requiredLastRevision, requiredVersion, compareResult,
      cmpSatisfied, hr]
    exact decide_eq_true_iff
  | none =>
    simp only [checkCompare, Matches, requiredLastRevision, requiredVersion]
    simp
    omega

theorem matches_of_passed {s : Store} (hs : s.Coherent) {key : Bytes} {r : ℤ} (hr : 0 ≤ r)
    {plan : TxnPlan} (hp : IsSwap key r plan)
    (h : checked plan (s.readCompare plan.compare.key plan.required) = .passed) :
    Matches r (s.currentKv key) := by
  rw [Store.readCompare_eq hs, hp.required_eq, hp.key_eq] at h
  split_ifs at h with hread hpass
  · exact (checkCompare_swap hr _).mp hpass
  · contradiction
  · contradiction

theorem checked_cases (plan : TxnPlan)
    (res : Except Fault (Except (ℤ × Option KeyValue) Unit)) :
    ¬(checked plan res).Succeeded ∧ ((checked plan res).InFlight → checked plan res = .passed) := by
  rcases res with fault | refused | _
  · refine ⟨?_, ?_⟩
    · rintro ⟨res, h, _⟩
      cases h
    · rintro (h | h)
      · contradiction
      · contradiction
  · refine ⟨?_, ?_⟩
    · rintro ⟨res, h, hs⟩
      cases h
      contradiction
    · rintro (h | h)
      · contradiction
      · contradiction
  · refine ⟨?_, fun _ => rfl⟩
    rintro ⟨res, h, _⟩
    contradiction

theorem stage_update {P : TxnStage → Prop} {stages : ℕ → TxnStage} {i j : ℕ} {stage : TxnStage}
    (h : P (Function.update stages i stage j)) : (j = i ∧ P stage) ∨ (j ≠ i ∧ P (stages j)) := by
  rw [Function.update_apply] at h
  split_ifs at h with hji
  · exact Or.inl ⟨hji, h⟩
  · exact Or.inr ⟨hji, h⟩

/-- Applying a swap gives the key a new revision. -/
theorem run_swap {s : Store} (hs : s.Coherent) {key : Bytes} {r : ℤ} {plan : TxnPlan}
    (hp : IsSwap key r plan) (hm : Matches r (s.currentKv key)) :
    ∃ kv, (plan.proposal.run s).1.currentKv key = some kv ∧ kv.modRevision ≠ r := by
  obtain ⟨value, hvalue⟩ := Option.isSome_iff_exists.mp hp.puts
  have hchange : plan.proposal.change = (key, some value) := by
    rw [KvService.proposal_change, hp.key_eq, hvalue]
  have hsucc : plan.proposal.succeeds s = true := by
    unfold RaftRequest.succeeds
    rw [hchange]
    simp
  have hlive := (plan.proposal.run_spec hs.toWF).2.2 key
  rw [hchange, if_pos ⟨rfl, hsucc⟩] at hlive
  have hle : r ≤ s.currentRevision := by
    cases hkv : s.live key with
    | none =>
      have := s.currentRevision_nonneg
      unfold Store.currentKv at hm
      rw [hkv] at hm
      change r = 0 at hm
      omega
    | some v =>
      have hb := hs.bounded key
      unfold Store.currentKv at hm
      rw [hkv] at hm
      change v.modRevision = r at hm
      rw [(Cell.live_eq_some_iff.mp hkv).1] at hb
      omega
  rw [Cell.live_of_isSome (by rw [Cell.next_value]; rfl)] at hlive
  refine ⟨_, by unfold Store.currentKv; rw [hlive]; rfl, ?_⟩
  change ((((s.live key).getD Cell.blank).next (s.currentRevision + 1) (some value)).modRevision) ≠ r
  rw [Cell.next_modRevision]
  omega

/-- One swap has been applied, and the others will not pass their check any
more. -/
def Swapped (key : Bytes) (r : ℤ) (s : Leader) : Prop :=
  ∃ j found, s.overwritten = [(j, found)] ∧ Matches r found ∧
    (∀ i, (s.stages i).Succeeded → i = j) ∧ (∀ i, ¬(s.stages i).InFlight) ∧
    ∃ kv, s.machine.store.currentKv key = some kv ∧ kv.modRevision ≠ r

/-- At most one handler is in flight, and it is still right about the key. -/
structure Exclusively (key : Bytes) (r : ℤ) (s : Leader) : Prop where
  coherent : s.machine.store.Coherent
  single : ∀ i j, (s.stages i).InFlight → (s.stages j).InFlight → i = j
  queued : ∀ e ∈ s.log, s.stages e.1 = .proposed
  distinct : (s.log.map Prod.fst).Nodup
  phase : (s.overwritten = [] ∧ (∀ i, ¬(s.stages i).Succeeded) ∧
      ∀ i, (s.stages i).InFlight → Matches r (s.machine.store.currentKv key)) ∨ s.Swapped key r

variable {key : Bytes} {r : ℤ}

theorem start_exclusively {m : StateMachineStore} (hm : m.store.Coherent) :
    (start m).Exclusively key r := by
  have hflight : ∀ i, ¬((start m).stages i).InFlight := by
    rintro i (h | h)
    · contradiction
    · contradiction
  refine ⟨hm, fun i _ hi => absurd hi (hflight i), ?_, List.nodup_nil, Or.inl ⟨rfl, ?_, ?_⟩⟩
  · intro e he
    contradiction
  · rintro i ⟨res, h, _⟩
    contradiction
  · intro i hi
    exact absurd hi (hflight i)

/-- Nothing is in the log while nobody is in flight. -/
theorem Exclusively.log_eq_nil {s : Leader} (h : s.Exclusively key r)
    (hfree : ∀ j, ¬(s.stages j).InFlight) : s.log = [] := by
  apply List.eq_nil_iff_forall_not_mem.mpr
  intro e he
  exact hfree e.1 (Or.inr (h.queued e he))

/-- A check made while nobody is in flight. -/
theorem Exclusively.check {s : Leader} (h : s.Exclusively key r) (hr : 0 ≤ r) {i : ℕ}
    (hp : IsSwap key r (plans i)) (hfree : s.stages i = .waiting → ∀ j, ¬(s.stages j).InFlight) :
    (s.check plans i).Exclusively key r := by
  by_cases hw : s.stages i = .waiting
  · have hnobody := hfree hw
    have hlog := h.log_eq_nil hnobody
    have hpass := matches_of_passed h.coherent hr hp
    obtain ⟨hfail, hcase⟩ := checked_cases (plans i)
      (s.machine.store.readCompare (plans i).compare.key (plans i).required)
    rw [check_of_waiting hw]
    generalize checked (plans i) (s.machine.store.readCompare (plans i).compare.key
      (plans i).required) = stage at hpass hfail hcase
    -- only the handler itself can be in flight now, and it has not succeeded
    have hflight : ∀ {j}, (Function.update s.stages i stage j).InFlight →
        j = i ∧ Matches r (s.machine.store.currentKv key) := by
      intro j hj
      rcases stage_update hj with ⟨hji, hj⟩ | ⟨_, hj⟩
      · exact ⟨hji, hpass (hcase hj)⟩
      · exact absurd hj (hnobody j)
    have hsucc : ∀ {j}, (Function.update s.stages i stage j).Succeeded →
        (s.stages j).Succeeded := by
      intro j hj
      rcases stage_update hj with ⟨_, hj⟩ | ⟨_, hj⟩
      · exact absurd hj hfail
      · exact hj
    refine ⟨h.coherent, ?_, ?_, h.distinct, ?_⟩
    · intro j k hj hk
      rw [(hflight hj).1, (hflight hk).1]
    · intro e he
      dsimp only at he
      rw [hlog] at he
      contradiction
    · rcases h.phase with ⟨hover, hno, _⟩ | ⟨j, found, hover, hfound, hj, _, kv, hkv, hneq⟩
      · exact Or.inl ⟨hover, fun j hs => hno j (hsucc hs), fun j hf => (hflight hf).2⟩
      · refine Or.inr ⟨j, found, hover, hfound, fun k hs => hj k (hsucc hs), ?_, kv, hkv, hneq⟩
        intro k hf
        have hmatch := (hflight hf).2
        rw [hkv] at hmatch
        exact hneq hmatch
  · rw [check_of_not_waiting hw]
    exact h

theorem Exclusively.propose {s : Leader} (h : s.Exclusively key r) (i : ℕ) (logId : LogId) :
    (s.propose i logId).Exclusively key r := by
  by_cases hw : s.stages i = .passed
  · rw [propose_of_passed hw]
    -- a proposal leaves in flight who was in flight, and makes nobody succeed
    have hflight : ∀ {j}, (Function.update s.stages i .proposed j).InFlight →
        (s.stages j).InFlight := by
      intro j hj
      rcases stage_update hj with ⟨rfl, _⟩ | ⟨_, hj⟩
      · exact Or.inl hw
      · exact hj
    have hsucc : ∀ {j}, (Function.update s.stages i .proposed j).Succeeded →
        (s.stages j).Succeeded := by
      intro j hj
      rcases stage_update hj with ⟨_, res, hj, _⟩ | ⟨_, hj⟩
      · contradiction
      · exact hj
    refine ⟨h.coherent, fun j k hj hk => h.single j k (hflight hj) (hflight hk), ?_, ?_, ?_⟩
    · intro e he
      dsimp only
      rw [Function.update_apply]
      split_ifs with hei
      · rfl
      · rcases List.mem_append.mp he with he | he
        · exact h.queued e he
        · rw [List.mem_singleton.mp he] at hei
          contradiction
    · dsimp only
      rw [List.map_append, List.map_singleton]
      -- the handlers in the log have proposed already
      refine List.nodup_append.mpr ⟨h.distinct, List.nodup_singleton _, ?_⟩
      intro a ha b hb hab
      rw [List.mem_singleton.mp hb] at hab
      obtain ⟨e, he, rfl⟩ := List.mem_map.mp ha
      have := h.queued e he
      rw [hab, hw] at this
      contradiction
    · rcases h.phase with ⟨hover, hno, hm⟩ | ⟨j, found, hover, hfound, hj, hf, hkv⟩
      · exact Or.inl ⟨hover, fun j hs => hno j (hsucc hs), fun j hj => hm j (hflight hj)⟩
      · exact Or.inr ⟨j, found, hover, hfound, fun k hs => hj k (hsucc hs),
          fun k hk => hf k (hflight hk), hkv⟩
  · rw [propose_of_not_passed hw]
    exact h

theorem Exclusively.apply {s : Leader} (h : s.Exclusively key r)
    (hp : ∀ i, IsSwap key r (plans i)) : (s.apply plans).Exclusively key r := by
  cases hlog : s.log with
  | nil =>
    rw [apply_nil hlog]
    exact h
  | cons head rest =>
    obtain ⟨i, logId⟩ := head
    have hqueued := h.queued
    have hdistinct := h.distinct
    rw [hlog] at hqueued hdistinct
    have hi : (s.stages i).InFlight := Or.inr (hqueued (i, logId) List.mem_cons_self)
    -- somebody is in flight, so nobody has succeeded
    rcases h.phase with ⟨hover, hno, hm⟩ | ⟨j, found, _, _, _, hf, _⟩
    · have hmatch := hm i hi
      have hrest : rest = [] := by
        apply List.eq_nil_iff_forall_not_mem.mpr
        intro e he
        have heq := h.single e.1 i (Or.inr (hqueued e (List.mem_cons_of_mem _ he))) hi
        have hnot : i ∉ rest.map Prod.fst := (List.nodup_cons.mp hdistinct).1
        rw [← heq] at hnot
        exact hnot (List.mem_map_of_mem he)
      have hflight : ∀ j res, ¬(Function.update s.stages i (.answered res) j).InFlight := by
        intro j res hj
        rcases stage_update hj with ⟨_, hj | hj⟩ | ⟨hji, hj⟩
        · contradiction
        · contradiction
        · exact hji (h.single j i hj hi)
      rw [apply_cons hlog, hover, hrest, (hp i).key_eq]
      refine ⟨(plans i).proposal.run_coherent h.coherent, fun j _ hj => absurd hj (hflight j _),
        ?_, List.nodup_nil,
        Or.inr ⟨i, _, rfl, hmatch, ?_, fun j => hflight j _, run_swap h.coherent (hp i) hmatch⟩⟩
      · intro e he
        contradiction
      · intro j hj
        rcases stage_update hj with ⟨hji, _⟩ | ⟨_, hj⟩
        · exact hji
        · exact absurd hj (hno j)
    · exact absurd hi (hf i)

theorem Exclusively.run {s : Leader} (h : s.Exclusively key r) (hr : 0 ≤ r)
    (hp : ∀ i, IsSwap key r (plans i)) (actions : List TxnAction)
    (hex : Exclusive plans s actions) : (s.run plans actions).Exclusively key r := by
  induction actions generalizing s with
  | nil => exact h
  | cons a actions ih =>
    refine ih ?_ hex.2
    cases a with
    | check i => exact h.check hr (hp i) (hex.1 i rfl)
    | propose i logId => exact h.propose i logId
    | apply => exact h.apply hp

/-- Requests that all compare the revision of one key with `r` for equality and
put the key, in any interleaving in which no handler makes its check while another
one is in flight: at most one succeeds, and what it overwrites is what it was
compared with. -/
theorem swap_exclusive (reqs : ℕ → TxnRequest) (plans : ℕ → TxnPlan)
    (hplan : ∀ i, (reqs i).plan = .ok (plans i)) (key : Bytes) (r : ℤ) (hr : 0 ≤ r)
    (hc : ∀ i, (reqs i).compare = [⟨0, key, some (.modRevision r)⟩])
    (hv : ∀ i, (plans i).value.isSome) (m : StateMachineStore) (hm : m.store.Coherent)
    (actions : List TxnAction) (hex : Exclusive plans (start m) actions) :
    (∀ i j, (((start m).run plans actions).stages i).Succeeded →
      (((start m).run plans actions).stages j).Succeeded → i = j) ∧
    (∀ i found, (i, found) ∈ ((start m).run plans actions).overwritten →
      ∀ kv, found = some kv → kv.modRevision = r) := by
  have hp : ∀ i, IsSwap key r (plans i) := fun i => isSwap_of_request (hplan i) (hc i) (hv i)
  have h : ((start m).run plans actions).Exclusively key r :=
    (start_exclusively hm).run hr hp actions hex
  generalize (start m).run plans actions = s at h
  rcases h.phase with ⟨hover, hno, _⟩ | ⟨j, found, hover, hfound, hj, _⟩
  · refine ⟨fun i _ hi => absurd hi (hno i), ?_⟩
    intro i found hmem
    rw [hover] at hmem
    contradiction
  · refine ⟨fun i k hi hk => (hj i hi).trans (hj k hk).symm, ?_⟩
    intro i found' hmem kv hkv
    rw [hover, List.mem_singleton] at hmem
    cases hmem
    rw [hkv] at hfound
    exact hfound

/-- Handler `i` creates `a` with the value `i`. -/
def createRequests (i : ℕ) : TxnRequest :=
  ⟨[⟨0, [97], some (.modRevision 0)⟩], [⟨some (.put ⟨[97], [i.toUInt8]⟩)⟩], []⟩

def createPlans (i : ℕ) : TxnPlan :=
  ⟨⟨0, [97], some (.modRevision 0)⟩, ⟨some 0, none, 0⟩, some [i.toUInt8], false⟩

def turnsRun : List TxnAction :=
  [.check 0, .propose 0 ⟨⟨1, 1⟩, 1⟩, .apply, .check 1, .propose 1 ⟨⟨1, 1⟩, 2⟩, .apply]

theorem turnsRun_exclusive : Exclusive createPlans (start KvService.emptyMachine) turnsRun := by
  have hfirst : ((start KvService.emptyMachine).run createPlans
      [.check 0, .propose 0 ⟨⟨1, 1⟩, 1⟩, .apply]).stages =
        Function.update (Function.update (Function.update (fun _ => .waiting) 0 .passed) 0
          .proposed) 0 (.answered (.ok ((createPlans 0).respond (.ok 1)))) := rfl
  have hskip : ∀ (s : Leader) (a : TxnAction), (∀ i, a ≠ .check i) →
      ∀ i, a = .check i → s.stages i = .waiting → ∀ j, ¬(s.stages j).InFlight :=
    fun s a h i hi => absurd hi (h i)
  refine ⟨?_, hskip _ _ (by simp), hskip _ _ (by simp), ?_, hskip _ _ (by simp),
    hskip _ _ (by simp), trivial⟩
  · rintro i _ _ j (hj | hj)
    · contradiction
    · contradiction
  · intro i _ _ j hj
    change ((((start KvService.emptyMachine).run createPlans
      [.check 0, .propose 0 ⟨⟨1, 1⟩, 1⟩, .apply]).stages) j).InFlight at hj
    rw [hfirst] at hj
    rcases stage_update hj with ⟨_, hj | hj⟩ | ⟨hj0, hj⟩
    · contradiction
    · contradiction
    · rw [Function.update_of_ne hj0, Function.update_of_ne hj0] at hj
      rcases hj with hj | hj
      · contradiction
      · contradiction

theorem swap_exclusive_of_turns :
    (∀ i j, (((start KvService.emptyMachine).run createPlans turnsRun).stages i).Succeeded →
      (((start KvService.emptyMachine).run createPlans turnsRun).stages j).Succeeded → i = j) ∧
    (∀ i found, (i, found) ∈
        ((start KvService.emptyMachine).run createPlans turnsRun).overwritten →
      ∀ kv, found = some kv → kv.modRevision = 0) :=
  swap_exclusive createRequests createPlans (fun _ => rfl) [97] 0 (le_refl 0) (fun _ => rfl)
    (fun _ => rfl) KvService.emptyMachine
    ((Store.new_represents none).coherent (Store.new_wf none)) turnsRun turnsRun_exclusive

/-- Two handlers that both make their check before either entry is applied. -/
def racingRun : List TxnAction :=
  [.check 0, .check 1, .propose 0 ⟨⟨1, 1⟩, 1⟩, .propose 1 ⟨⟨1, 1⟩, 2⟩, .apply, .apply]

/-- Both succeed, and the second one overwrites what the first one has created. -/
theorem swap_lost_update :
    (∀ i, (createRequests i).plan = .ok (createPlans i)) ∧
      (((start KvService.emptyMachine).run createPlans racingRun).stages 0).Succeeded ∧
      (((start KvService.emptyMachine).run createPlans racingRun).stages 1).Succeeded ∧
      ((start KvService.emptyMachine).run createPlans racingRun).overwritten =
        [(0, none), (1, some ⟨[97], [0], 1, 1, 1, 0⟩)] :=
  ⟨fun _ => rfl, ⟨(createPlans 0).respond (.ok 1), by decide, by decide⟩,
    ⟨(createPlans 1).respond (.ok 2), by decide, by decide⟩, by decide⟩

end Leader
end MemEtcd
