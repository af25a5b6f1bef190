import MemEtcd.PartialRun
import MemEtcd.StoreReach
import MemEtcd.WriteService

/-! Concurrent put and delete handlers in single-node mode. A handler reads the key and
writes it in two operations of the store. Other handlers may write the key in between,
and the response is still made from what was read. -/
namespace MemEtcd

open PartialRun (run)
open VersionLog (Cell)

/-- A handler has not read its key, has decided on its write, or has returned. -/
inductive HandlerPhase where
  | idle
  | planned (plan : WritePlan)
  | answered (result : Except Fault ResponseOp)
  deriving DecidableEq, Repr

def WriteRequest.read (req : WriteRequest) (s : Store) : HandlerPhase :=
  match req.plan s with
  | .ok plan => .planned plan
  | .error fault => .answered (.error fault)

def WritePlan.answer (plan : WritePlan) : Except Status ℤ → Except Fault ResponseOp
  | .ok rev => .ok (plan.respond rev)
  | .error e => .error (.status e)

def Store.liveKv (s : Store) (key : Bytes) : Option KeyValue :=
  (s.live key).map (fun v => asMvccKeyValue v key)

def WriteRequest.key : WriteRequest → Bytes
  | .put req => req.key
  | .deleteRange req => req.key

/-- The response of a handler describes what its own write has done, from the store
`before` to the store `after`: the previous key-value is that of `before`; `deleted` says
whether the deletion has taken a revision; a put that ignores its value has left the one of
`before`. -/
def DescribesEffect (req : WriteRequest) (before after : Store) (response : ResponseOp) : Prop :=
  match req, response with
  | .put req, .put res =>
    (req.prevKv → res.prevKv = before.liveKv req.key) ∧
      (req.ignoreValue → (after.live req.key).map (·.value) = (before.live req.key).map (·.value))
  | .deleteRange req, .deleteRange res =>
    (res.deleted = 1 ↔ after.currentRevision = before.currentRevision + 1) ∧
      (req.prevKv → after.currentRevision = before.currentRevision + 1 →
        res.prevKvs = (before.liveKv req.key).toList)
  | _, _ => False

/-- What a handler has read in the store `seen` and answers with is still so in the store
`before`. -/
def StillSeen (req : WriteRequest) (seen before : Store) : Prop :=
  match req with
  | .put req =>
    (req.prevKv → seen.liveKv req.key = before.liveKv req.key) ∧
      (req.ignoreValue → (seen.live req.key).map (·.value) = (before.live req.key).map (·.value))
  | .deleteRange req =>
    ((seen.live req.key).isSome ↔ (before.live req.key).isSome) ∧
      (req.prevKv → seen.liveKv req.key = before.liveKv req.key)

theorem stillSeen_of_live_eq {req : WriteRequest} {seen before : Store}
    (h : seen.live req.key = before.live req.key) : StillSeen req seen before := by
  cases req with
  | put req =>
    have hkv : seen.liveKv req.key = before.liveKv req.key := congrArg (Option.map _) h
    exact ⟨fun _ => hkv, fun _ => congrArg (Option.map _) h⟩
  | deleteRange req =>
    have hkv : seen.liveKv req.key = before.liveKv req.key := congrArg (Option.map _) h
    refine ⟨?_, fun _ => hkv⟩
    change (seen.live (WriteRequest.deleteRange req).key).isSome ↔ _
    rw [h]
    rfl

/-! ### One handler -/

/-- What a handler reads of its key is the live key-value. -/
theorem Store.readKey_ok {s : Store} (hs : s.Coherent) {key : Bytes} {found : Option KeyValue}
    (h : s.readKey key = .ok found) : found = s.liveKv key := by
  have hhead : (kvsOf key (s.live key)).head? = s.liveKv key := by
    unfold kvsOf Store.liveKv
    cases s.live key <;> rfl
  unfold readKey at h
  rw [range_limit_one, range_single_current hs] at h
  split_ifs at h with hr hn
  · cases h
    exact hhead
  · cases h
    unfold liveKv
    rw [hs.live_eq_none (by have := currentRevision_nonneg s; omega)]
    rfl
  · cases h

/-- A computation that succeeds has succeeded in its first part. -/
theorem bind_eq_ok {ε α β : Type} {x : Except ε α} {f : α → Except ε β} {b : β}
    (h : x >>= f = .ok b) : ∃ a, x = .ok a ∧ f a = .ok b := by
  cases x with
  | error e => cases h
  | ok a => exact ⟨a, rfl, h⟩

theorem PutQuery.plan_ok {req : PutQuery} {s : Store} (hs : s.Coherent) {plan : WritePlan}
    (h : req.plan s = .ok plan) :
    ∃ value, plan = .put req.key value (if req.prevKv then s.liveKv req.key else none) ∧
      (req.ignoreValue → (s.liveKv req.key).map (·.value) = some value) := by
  unfold PutQuery.plan at h
  cases hi : req.ignoreValue with
  | false =>
    rw [hi, Bool.or_false] at h
    cases hp : req.prevKv with
    | false =>
      rw [hp] at h
      cases h
      exact ⟨_, rfl, by nofun⟩
    | true =>
      rw [hp] at h
      obtain ⟨found, hfound, h⟩ := bind_eq_ok h
      cases h
      rw [s.readKey_ok hs hfound]
      exact ⟨_, rfl, by nofun⟩
  | true =>
    -- without a live key there is no value to keep, and the put is refused
    rw [hi, Bool.or_true] at h
    obtain ⟨found, hfound, h⟩ := bind_eq_ok h
    rw [s.readKey_ok hs hfound] at h
    cases hkv : s.liveKv req.key with
    | none =>
      rw [hkv] at h
      cases h
    | some kv =>
      rw [hkv] at h
      cases h
      exact ⟨_, rfl, fun _ => rfl⟩

theorem DeleteRangeQuery.plan_ok {req : DeleteRangeQuery} {s : Store} (hs : s.Coherent)
    {plan : WritePlan} (h : req.plan s = .ok plan) :
    plan = .deleteRange req.key (if (s.live req.key).isSome then 1 else 0)
      (if req.prevKv then (s.liveKv req.key).toList else []) := by
  unfold DeleteRangeQuery.plan at h
  by_cases hend : req.rangeEnd ≠ []
  · rw [if_pos hend] at h
    cases h
  · rw [if_neg hend] at h
    obtain ⟨found, hfound, h⟩ := bind_eq_ok h
    cases h
    rw [s.readKey_ok hs hfound]
    unfold Store.liveKv
    rw [Option.isSome_map]

theorem WriteRequest.plan_key {req : WriteRequest} {s : Store} (hs : s.Coherent)
    {plan : WritePlan} (h : req.plan s = .ok plan) : plan.proposal.change.1 = req.key := by
  cases req with
  | put req =>
    obtain ⟨value, rfl, _⟩ := req.plan_ok hs h
    rfl
  | deleteRange req =>
    rw [req.plan_ok hs h]
    rfl

/-- In single-node mode a handler's write does to the store what its proposal would, and
it does not fail. -/
theorem writeLocal_eq (debug : ℤ × Option KeyValue → String) {svc : KvService}
    (hs : svc.machine.store.WF) (plan : WritePlan) :
    (svc.writeLocal debug plan).1.machine.store = (plan.proposal.run svc.machine.store).1 ∧
      (svc.writeLocal debug plan).2 = .ok (plan.proposal.run svc.machine.store).2 := by
  cases plan with
  | put key value prevKv =>
    have hcheck : checkItem (svc.machine.store.view key) (some value) none = .ok () := by
      rw [checkItem_none]
      exact if_pos (Or.inr rfl)
    refine ⟨rfl, ?_⟩
    simp only [KvService.writeLocal, WritePlan.proposal, RaftRequest.run,
      (Store.set_accepted hs hcheck).1, resultRevision]
  | deleteRange key deleted prevKvs => exact ⟨rfl, rfl⟩

/-- The bytes that a handler reads are the value of the cell. -/
theorem Store.live_value {s : Store} {key value : Bytes}
    (h : (s.liveKv key).map (·.value) = some value) :
    (s.live key).map (·.value) = some (some value) := by
  unfold liveKv at h
  cases hv : s.live key with
  | none =>
    rw [hv] at h
    cases h
  | some v =>
    rw [hv] at h
    obtain ⟨bytes, hbytes⟩ := Option.isSome_iff_exists.mp (Cell.live_eq_some_iff.mp hv).2
    rw [(Cell.live_eq_some_iff.mp hv).1] at hbytes
    have hvalue : v.value.getD [] = value := Option.some.inj h
    rw [hbytes] at hvalue
    rw [Option.map_some, hbytes, ← hvalue]
    rfl

theorem run_set_value {s : Store} (hs : s.WF) (key value : Bytes) :
    ((((RaftRequest.set key value).run s).1.live key).map (·.value)) = some (some value) := by
  obtain ⟨_, _, hlive⟩ := (RaftRequest.set key value).run_spec hs
  have hvalue : (((s.live key).getD Cell.blank).next (s.currentRevision + 1)
      (some value)).value = some value := Cell.next_value _ _ _
  rw [hlive, if_pos ⟨rfl, Bool.or_true _⟩]
  change (Cell.live (Cell.next _ _ (some value))).map _ = _
  rw [Cell.live_of_isSome (by rw [hvalue]; rfl), Option.map_some, hvalue]

theorem run_delete_commits_iff {s : Store} (hs : s.WF) (key : Bytes) :
    ((RaftRequest.delete key).run s).1.currentRevision = s.currentRevision + 1 ↔
      (s.live key).isSome := by
  obtain ⟨hrev, _, _⟩ := (RaftRequest.delete key).run_spec hs
  have hsucc : (RaftRequest.delete key).succeeds s = (s.live key).isSome := Bool.or_false _
  rw [hrev, hsucc]
  split_ifs with hl
  · exact iff_of_true rfl hl
  · exact iff_of_false (by omega) hl

/-- A handler that has read in one store and writes in another describes its effect exactly
if what it has seen is still so. -/
theorem describesEffect_iff {req : WriteRequest} {seen before : Store} (hseen : seen.Coherent)
    (hbefore : before.Coherent) {plan : WritePlan} (hplan : req.plan seen = .ok plan) :
    DescribesEffect req before (plan.proposal.run before).1
        (plan.respond (plan.proposal.run before).2) ↔ StillSeen req seen before := by
  cases req with
  | put req =>
    obtain ⟨value, rfl, hvalue⟩ := req.plan_ok hseen hplan
    apply and_congr
    · apply imp_congr_right
      intro hp
      change (if req.prevKv then _ else none) = _ ↔ _
      rw [if_pos hp]
    · -- the value that is written is the one that was read
      apply imp_congr_right
      intro hi
      have hafter := run_set_value hbefore.toWF req.key value
      change (((RaftRequest.set req.key value).run before).1.live req.key).map _ = _ ↔ _
      rw [hafter, Store.live_value (hvalue hi)]
  | deleteRange req =>
    rw [req.plan_ok hseen hplan]
    have hcommit := run_delete_commits_iff hbefore.toWF req.key
    change ((if (seen.live req.key).isSome then (1 : ℤ) else 0) = 1 ↔
        ((RaftRequest.delete req.key).run before).1.currentRevision = _) ∧
      (req.prevKv → ((RaftRequest.delete req.key).run before).1.currentRevision = _ →
        (if req.prevKv then (seen.liveKv req.key).toList else []) = _) ↔ _
    have hdeleted : (if (seen.live req.key).isSome then (1 : ℤ) else 0) = 1 ↔
        (seen.live req.key).isSome := by
      split_ifs with hl
      · exact iff_of_true rfl hl
      · exact iff_of_false (by omega) hl
    rw [hcommit, hdeleted]
    apply and_congr_right
    intro hsame
    apply imp_congr_right
    intro hp
    rw [if_pos hp]
    -- a deletion that takes no revision has found nothing and sees nothing
    by_cases hl : (before.live req.key).isSome
    · rw [forall_prop_of_true hl]
      constructor
      · intro h
        have hhead := congrArg List.head? h
        rw [Option.head?_toList, Option.head?_toList] at hhead
        exact hhead
      · exact congrArg Option.toList
    · have hnone : before.live req.key = none := by simpa using hl
      have hseen' : seen.live req.key = none := by simpa [hnone] using hsame
      refine iff_of_true (fun h => absurd h hl) ?_
      unfold Store.liveKv
      rw [hnone, hseen']

structure Race where
  svc : KvService
  phase : ℕ → HandlerPhase

inductive RaceAction where
  /-- the handler's `range` of its key, where it needs one -/
  | read (i : ℕ)
  /-- the handler's `set` or `delete` -/
  | write (i : ℕ)
  deriving DecidableEq, Repr

namespace Race

def store (r : Race) : Store := r.svc.machine.store

def start (machine : StateMachineStore) : Race := ⟨⟨machine, none⟩, fun _ => .idle⟩

section Handlers

variable (debug : ℤ × Option KeyValue → String) (requests : ℕ → WriteRequest)

def step (r : Race) : RaceAction → Option Race
  | .read i =>
    match r.phase i with
    | .idle => some { r with phase := Function.update r.phase i ((requests i).read r.store) }
    | _ => none
  | .write i =>
    match r.phase i with
    | .planned plan =>
      let (svc, result) := r.svc.writeLocal debug plan
      some ⟨svc, Function.update r.phase i (.answered (plan.answer result))⟩
    | _ => none

variable {debug requests}

theorem step_read {r : Race} {i : ℕ} (h : r.phase i = .idle) :
    step debug requests r (.read i) =
      some { r with phase := Function.update r.phase i ((requests i).read r.store) } := by
  simp only [step, h]

theorem step_write {r : Race} {i : ℕ} {plan : WritePlan} (h : r.phase i = .planned plan) :
    step debug requests r (.write i) =
      some ⟨(r.svc.writeLocal debug plan).1,
        Function.update r.phase i (.answered (plan.answer (r.svc.writeLocal debug plan).2))⟩ := by
  simp only [step, h]

/-- What a step does. -/
theorem step_cases {r r' : Race} {a : RaceAction} (h : step debug requests r a = some r') :
    (∃ i, a = .read i ∧ r.phase i = .idle ∧
      r' = { r with phase := Function.update r.phase i ((requests i).read r.store) }) ∨
    ∃ i plan, a = .write i ∧ r.phase i = .planned plan ∧
      r' = ⟨(r.svc.writeLocal debug plan).1,
        Function.update r.phase i (.answered (plan.answer (r.svc.writeLocal debug plan).2))⟩ := by
  cases a with
  | read i =>
    cases hp : r.phase i with
    | idle =>
      rw [step_read hp] at h
      exact Or.inl ⟨i, rfl, hp, (Option.some.inj h).symm⟩
    | planned plan => simp [step, hp] at h
    | answered result => simp [step, hp] at h
  | write i =>
    cases hp : r.phase i with
    | idle => simp [step, hp] at h
    | planned plan =>
      rw [step_write hp] at h
      exact Or.inr ⟨i, plan, rfl, hp, (Option.some.inj h).symm⟩
    | answered result => simp [step, hp] at h

theorem read_ok {req : WriteRequest} {s : Store} {plan : WritePlan} (h : req.plan s = .ok plan) :
    req.read s = .planned plan := by
  unfold WriteRequest.read
  rw [h]

theorem read_error {req : WriteRequest} {s : Store} {fault : Fault}
    (h : req.plan s = .error fault) : req.read s = .answered (.error fault) := by
  unfold WriteRequest.read
  rw [h]

theorem planned_of_read {req : WriteRequest} {s : Store} {plan : WritePlan}
    (h : req.read s = .planned plan) : req.plan s = .ok plan := by
  cases hplan : req.plan s with
  | error fault =>
    rw [read_error hplan] at h
    cases h
  | ok plan' =>
    rw [read_ok hplan] at h
    cases h
    rfl

theorem read_ne_idle (req : WriteRequest) (s : Store) : req.read s ≠ .idle := by
  unfold WriteRequest.read
  split <;> nofun

variable (debug requests) in
/-- A handler without others in between is the handler of the service. -/
theorem run_alone (machine : StateMachineStore) (outcome : Except String LogId) (i : ℕ) :
    ∃ actions r, run (step debug requests) (start machine) actions = some r ∧
      r.svc = ((requests i).serve debug ⟨machine, none⟩ outcome).1 ∧
      r.phase i = .answered ((requests i).serve debug ⟨machine, none⟩ outcome).2 := by
  let r : Race := { start machine with
    phase := Function.update (start machine).phase i ((requests i).read machine.store) }
  have hread : run (step debug requests) (start machine) [.read i] = some r := rfl
  have hphase : r.phase i = (requests i).read machine.store := Function.update_self _ _ _
  rw [WriteRequest.serve_eq]
  cases hplan : (requests i).plan machine.store with
  | error fault =>
    rw [read_error hplan] at hphase
    exact ⟨_, r, hread, rfl, hphase⟩
  | ok plan =>
    rw [read_ok hplan] at hphase
    refine ⟨_, _, PartialRun.run_concat hread (step_write hphase), rfl, ?_⟩
    exact Function.update_self _ _ _

/-! ### Whole runs -/

variable (requests) in
structure Proper (r : Race) : Prop where
  coherent : r.store.Coherent
  planned : ∀ i plan, r.phase i = .planned plan → plan.proposal.change.1 = (requests i).key

theorem start_proper {machine : StateMachineStore} (h : machine.store.Coherent) :
    Proper requests (start machine) :=
  ⟨h, by nofun⟩

theorem store_write {r : Race} (h : r.store.Coherent) (plan : WritePlan) :
    (Race.mk (r.svc.writeLocal debug plan).1 r.phase).store = (plan.proposal.run r.store).1 :=
  (writeLocal_eq debug h.toWF plan).1

theorem step_proper {r r' : Race} {a : RaceAction} (h : Proper requests r)
    (hstep : step debug requests r a = some r') : Proper requests r' := by
  rcases step_cases hstep with ⟨i, rfl, _, rfl⟩ | ⟨i, plan, rfl, _, rfl⟩
  · refine ⟨h.coherent, ?_⟩
    intro j plan hj
    dsimp only at hj
    by_cases hji : j = i
    · subst hji
      rw [Function.update_self] at hj
      exact (requests j).plan_key h.coherent (planned_of_read hj)
    · rw [Function.update_of_ne hji] at hj
      exact h.planned j plan hj
  · refine ⟨?_, ?_⟩
    · change (Race.mk (r.svc.writeLocal debug plan).1 r.phase).store.Coherent
      rw [store_write h.coherent]
      exact plan.proposal.run_coherent h.coherent
    · intro j plan' hj
      dsimp only at hj
      by_cases hji : j = i
      · subst hji
        rw [Function.update_self] at hj
        cases hj
      · rw [Function.update_of_ne hji] at hj
        exact h.planned j plan' hj

/-- A handler that has read keeps its plan until it returns, and its result after that. -/
def HasRead (i : ℕ) (phase : HandlerPhase) (r : Race) : Prop :=
  r.phase i = phase ∨ ∃ result, r.phase i = .answered result

theorem step_hasRead {r r' : Race} {a : RaceAction} {i : ℕ} {phase : HandlerPhase}
    (hne : phase ≠ .idle) (h : HasRead i phase r) (hstep : step debug requests r a = some r') :
    HasRead i phase r' := by
  rcases step_cases hstep with ⟨j, rfl, hidle, rfl⟩ | ⟨j, plan, rfl, hplan, rfl⟩
  · have hij : i ≠ j := by
      rintro rfl
      rcases h with h | ⟨result, h⟩
      · exact hne (h.symm.trans hidle)
      · rw [hidle] at h
        cases h
    unfold HasRead
    dsimp only
    rw [Function.update_of_ne hij]
    exact h
  · by_cases hij : i = j
    · subst hij
      exact Or.inr ⟨_, Function.update_self _ _ _⟩
    · unfold HasRead
      dsimp only
      rw [Function.update_of_ne hij]
      exact h

/-- Only the handlers of a key write it. -/
theorem step_live {r r' : Race} {a : RaceAction} {key : Bytes} (h : Proper requests r)
    (hother : ∀ j, a = .write j → (requests j).key ≠ key)
    (hstep : step debug requests r a = some r') : r'.store.live key = r.store.live key := by
  rcases step_cases hstep with ⟨i, rfl, _, rfl⟩ | ⟨i, plan, rfl, hplan, rfl⟩
  · rfl
  · change (Race.mk (r.svc.writeLocal debug plan).1 r.phase).store.live key = _
    obtain ⟨_, _, hlive⟩ := plan.proposal.run_spec h.coherent.toWF
    rw [store_write h.coherent, hlive, if_neg]
    rintro ⟨hkey, _⟩
    rw [h.planned i plan hplan] at hkey
    exact hother i rfl hkey.symm

theorem run_live {r r' : Race} {actions : List RaceAction} {key : Bytes}
    (h : Proper requests r) (hother : ∀ j, .write j ∈ actions → (requests j).key ≠ key)
    (hrun : run (step debug requests) r actions = some r') :
    r'.store.live key = r.store.live key := by
  induction actions generalizing r with
  | nil =>
    cases hrun
    rfl
  | cons a actions ih =>
    obtain ⟨mid, hmid, hrest⟩ := Option.bind_eq_some_iff.mp hrun
    have hfirst := step_live h (fun j hj => hother j (hj ▸ List.mem_cons_self)) hmid
    have hlater := ih (step_proper h hmid) (fun j hj => hother j (List.mem_cons_of_mem a hj)) hrest
    exact hlater.trans hfirst

/-- Any handler in any interleaving: it has read in the state `r`, other handlers have
taken the steps `mid`, and it writes. Its response describes the effect of its own write
exactly if what it has seen of its key is still so when it writes. That is the case if no
handler of the same key has written in between. -/
theorem response_describes_iff {machine : StateMachineStore} (hs : machine.store.Reached)
    {past mid : List RaceAction} {i : ℕ} {r before after : Race} {response : ResponseOp}
    (hread : run (step debug requests) (start machine) past = some r)
    (hmid : run (step debug requests) (start machine) (past ++ .read i :: mid) = some before)
    (hwrite : step debug requests before (.write i) = some after)
    (hresponse : after.phase i = .answered (.ok response)) :
    (DescribesEffect (requests i) before.store after.store response ↔
      StillSeen (requests i) r.store before.store) ∧
    ((∀ j, .write j ∈ mid → (requests j).key ≠ (requests i).key) →
      DescribesEffect (requests i) before.store after.store response) := by
  have hstart : Proper requests (start machine) := start_proper hs.coherent
  have hr : Proper requests r := PartialRun.run_induct step_proper hstart hread
  have hb : Proper requests before := PartialRun.run_induct step_proper hstart hmid
  obtain ⟨r', hr', hrest⟩ := PartialRun.run_next hread hmid
  rw [PartialRun.run_resume hread] at hmid
  rcases step_cases hwrite with ⟨j, hj, _⟩ | ⟨j, plan, hj, hplan, rfl⟩
  · cases hj
  · cases hj
    -- the plan is the one that the handler made of what it has read
    have hmade : (requests i).plan r.store = .ok plan := by
      have hr'' : HasRead i ((requests i).read r.store) r' := by
        rcases step_cases hr' with ⟨j, hj, _, rfl⟩ | ⟨j, _, hj, _⟩
        · cases hj
          exact Or.inl (Function.update_self _ _ _)
        · cases hj
      have hb' : HasRead i ((requests i).read r.store) before :=
        PartialRun.run_induct (step_hasRead (read_ne_idle _ _)) hr'' hrest
      rcases hb' with hb' | ⟨result, hb'⟩
      · exact planned_of_read (hb'.symm.trans hplan)
      · rw [hplan] at hb'
        cases hb'
    have hkept (hother : ∀ j, .write j ∈ mid → (requests j).key ≠ (requests i).key) :
        r.store.live (requests i).key = before.store.live (requests i).key := by
      apply Eq.symm
      apply run_live hr _ hmid
      intro j hj
      rcases List.mem_cons.mp hj with hj | hj
      · cases hj
      · exact hother j hj
    have hstore : (Race.mk (before.svc.writeLocal debug plan).1 before.phase).store =
        (plan.proposal.run before.store).1 := store_write hb.coherent plan
    have hresult := (writeLocal_eq debug hb.coherent.toWF plan).2
    have hsent : response = plan.respond (plan.proposal.run before.store).2 := by
      dsimp only at hresponse
      rw [Function.update_self, hresult] at hresponse
      cases hresponse
      rfl
    have hiff := describesEffect_iff hr.coherent hb.coherent hmade
    rw [← hstore, ← hsent] at hiff
    exact ⟨hiff, fun hother => hiff.mpr (stillSeen_of_live_eq (hkept hother))⟩

end Handlers

/-- A node whose store has the key `a` with the value 1. -/
def oneKey : StateMachineStore :=
  StateMachineStore.new ((Store.new none).call ⟨[97], some [1], none⟩).1

/-- Handlers that all delete `a` and report what they delete. -/
def deletions (_ : ℕ) : WriteRequest := .deleteRange ⟨⟨[97], []⟩, true⟩

/-- Handler 0 puts `a` again with the value that it finds; all others put the value 2. -/
def rewrite : ℕ → WriteRequest
  | 0 => .put ⟨⟨[97], []⟩, true, true⟩
  | _ => .put ⟨⟨[97], [2]⟩, false, false⟩

/-- A deletion with another handler's read in between. -/
theorem deletion_describes_effect :
    ∃ before after response,
      run (step (fun _ => "") deletions) (start oneKey) [.read 0, .read 1] = some before ∧
      step (fun _ => "") deletions before (.write 0) = some after ∧
      after.phase 0 = .answered (.ok response) ∧
      DescribesEffect (deletions 0) before.store after.store response := by
  have hs : oneKey.store.Reached := .call _ (.new none)
  have hread : run (step (fun _ => "") deletions) (start oneKey) [] = some (start oneKey) := rfl
  have hmid : run (step (fun _ => "") deletions) (start oneKey) ([] ++ .read 0 :: [.read 1]) =
      some _ := rfl
  refine ⟨_, _, _, rfl, rfl, rfl, (response_describes_iff hs hread hmid rfl rfl).2 ?_⟩
  intro j hj
  cases List.mem_singleton.mp hj

/-- Two handlers delete `a`. Both report it as deleted, with its value; one deletion has
been committed. -/
theorem deleted_once_reported_twice :
    (run (step (fun _ => "") deletions) (start oneKey) [.read 0, .read 1, .write 0, .write 1]).map
        (fun r => (r.phase 0, r.phase 1, r.store.currentRevision)) =
      some (.answered (.ok (.deleteRange ⟨responseHeader 2, 1, [⟨[97], [1], 1, 1, 1, 0⟩]⟩)),
        .answered (.ok (.deleteRange ⟨responseHeader 2, 1, [⟨[97], [1], 1, 1, 1, 0⟩]⟩)), 2) ∧
    (run (step (fun _ => "") rewrite) (start oneKey) [.read 0, .read 1, .write 1]).map
        (fun r => r.store.liveKv [97]) = some (some ⟨[97], [2], 1, 2, 2, 0⟩) ∧
    (run (step (fun _ => "") rewrite) (start oneKey) [.read 0, .read 1, .write 1, .write 0]).map
        (fun r => (r.phase 0, r.store.liveKv [97])) =
      some (.answered (.ok (.put ⟨responseHeader 3, some ⟨[97], [1], 1, 1, 1, 0⟩⟩)),
        some ⟨[97], [1], 1, 3, 3, 0⟩) := by
  refine ⟨?_, ?_, ?_⟩ <;> decide

end Race
end MemEtcd
