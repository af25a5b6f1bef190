import MemEtcd.KvService

/-! What a transaction does, in both modes, in terms of the current key-value of
its key; where it obeys its compare, and where the two modes agree. -/
namespace MemEtcd

open VersionLog (Cell)

def Store.currentKv (s : Store) (key : Bytes) : Option KeyValue :=
  (s.live key).map (fun v => asMvccKeyValue v key)

/-- The checks of `set` are those of `check_compare`, except that a deletion
needs a key to delete. -/
theorem checkItem_eq_checkCompare (item : TreeItem) (value : Option Bytes)
    (required : Option SetRequired) :
    checkItem item value required =
      if checkCompare (item.latestValue.live.map (fun v => asMvccKeyValue v item.key)) required ∧
          (item.latestValue.value.isSome ∨ value.isSome) then .ok ()
      else .error (item.latestValue.live.map (fun v => asMvccKeyValue v item.key)) := by
  unfold checkItem
  cases hval : item.latestValue.value with
  -- on a dead item both look at the signs of the targets only
  | none =>
    rw [Cell.live_of_isNone hval]
    by_cases hpos : requiredLastRevision required > 0 ∨ requiredVersion required > 0
    · have hneg : checkCompare none required = false := by
        unfold checkCompare
        exact decide_eq_false (by omega)
      simp [hpos, hneg]
    · have hneg : checkCompare none required = true := by
        unfold checkCompare
        exact decide_eq_true (by omega)
      cases value <;> simp [hpos, hneg]
  | some b =>
    have hlive : item.latestValue.live = some item.latestValue :=
      Cell.live_of_isSome (by rw [hval]; rfl)
    rw [hlive, Option.map_some]
    have hcheck : checkCompare (some (asMvccKeyValue item.latestValue item.key)) required =
        decide ¬((requiredLastRevision required ≥ 0 ∧ cmpSatisfied (compareResult required)
            item.latestValue.modRevision (requiredLastRevision required) = false) ∨
          (requiredVersion required ≥ 0 ∧ cmpSatisfied (compareResult required)
            item.latestValue.version (requiredVersion required) = false)) := by
      unfold checkCompare asMvccKeyValue
      simp only [hval, Option.isNone_some, Bool.false_eq_true, if_false]
      split_ifs with h1 h2
      · exact (decide_eq_false (not_not.mpr (Or.inl h1))).symm
      · exact (decide_eq_false (not_not.mpr (Or.inr h2))).symm
      · exact (decide_eq_true (not_or.mpr ⟨h1, h2⟩)).symm
    rw [hcheck]
    simp only [Option.isSome_some, if_true, true_or, and_true, decide_eq_true_eq]
    split_ifs
    · rfl
    · rfl

namespace Store

theorem checkItem_view {s : Store} (hs : s.WF) (key : Bytes) (value : Option Bytes)
    (required : Option SetRequired) :
    checkItem (s.view key) value required =
      if checkCompare (s.currentKv key) required ∧ ((s.currentKv key).isSome ∨ value.isSome) then
        .ok ()
      else .error (s.currentKv key) := by
  have hsome : (s.currentKv key).isSome = (s.view key).latestValue.value.isSome := by
    unfold currentKv live
    rw [Option.isSome_map, Cell.live_isSome]
  rw [checkItem_eq_checkCompare, hsome, view_key hs.toHeapOk key]
  rfl

theorem set_outcome {s : Store} (hs : s.WF) (key : Bytes) (value : Option Bytes)
    (required : Option SetRequired) :
    (s.set key value required).2 =
      if checkCompare (s.currentKv key) required ∧ ((s.currentKv key).isSome ∨ value.isSome) then
        .ok (s.currentRevision + 1)
      else .error (s.currentRevision, s.currentKv key) := by
  have hc := checkItem_view hs key value required
  split_ifs at hc ⊢
  · exact (set_accepted hs hc).1
  · exact (set_refused hs hc).1

/-- A `set` that fails changes no value and takes no revision. -/
theorem set_error {s : Store} (hs : s.WF) {key : Bytes} {value : Option Bytes}
    {required : Option SetRequired} {e : ℤ × Option KeyValue}
    (h : (s.set key value required).2 = .error e) :
    (s.set key value required).1.currentRevision = s.currentRevision ∧
      ∀ k, (s.set key value required).1.live k = s.live k := by
  cases hc : checkItem (s.view key) value required with
  | error kv => exact live_set_refused hs hc
  | ok u =>
    rw [(set_accepted hs hc).1] at h
    contradiction

/-- The local read and check of a transaction. While nothing was ever written it
panics on a key that has an item. -/
theorem readCompare_eq {s : Store} (hs : s.Coherent) (key : Bytes) (required : SetRequired) :
    s.readCompare key required =
      if 0 < s.currentRevision ∨ s.treeMap[key]? = none then
        .ok (if checkCompare (s.currentKv key) (some required) then .ok ()
          else .error (s.currentRevision, s.currentKv key))
      else .error (.panic .revisionAssertion) := by
  have hhead : (kvsOf key (s.live key)).head? = s.currentKv key := by
    unfold kvsOf currentKv
    cases s.live key <;> rfl
  unfold readCompare
  rw [range_limit_one, range_single_current hs]
  by_cases hpos : 0 < s.currentRevision
  · rw [if_pos hpos, if_pos (Or.inl hpos)]
    dsimp only
    rw [hhead]
  · rw [if_neg hpos]
    by_cases hnone : s.treeMap[key]? = none
    · have hcur : s.currentRevision = 0 := by
        have := s.currentRevision_nonneg
        omega
      have hkv : s.currentKv key = none := by
        unfold currentKv
        rw [hs.live_eq_none hcur key]
        rfl
      rw [if_pos hnone, if_pos (Or.inr hnone), hcur, hkv]
      rfl
    · rw [if_neg hnone, if_neg (not_or.mpr ⟨hpos, hnone⟩)]

end Store

/-! ### The compare of a transaction -/

def Compare.target (c : Compare) : ℤ :=
  match c.targetUnion with
  | some (.modRevision rev) => rev
  | some (.version v) => v
  | _ => 0

/-- The meaning of a compare: an absent key has revision and version zero. -/
def Compare.holds (c : Compare) (kv : Option KeyValue) : Bool :=
  match c.targetUnion with
  | some (.modRevision rev) => cmpSatisfied c.result ((kv.map (·.modRevision)).getD 0) rev
  | some (.version v) => cmpSatisfied c.result ((kv.map (·.version)).getD 0) v
  | _ => false

/-- On a key that exists `check_compare` decides the compare. -/
theorem checkCompare_some {c : Compare} {required : SetRequired} (h : c.required = .ok required)
    (ht : 0 ≤ c.target) (kv : KeyValue) :
    checkCompare (some kv) (some required) = c.holds (some kv) := by
  obtain ⟨result, key, targetUnion⟩ := c
  match targetUnion, h, ht with
  | some (.modRevision rev), h, ht =>
    cases h
    change 0 ≤ rev at ht
    simp [checkCompare, Compare.holds, requiredLastRevision, requiredVersion, compareResult, ht]
  | some (.version v), h, ht =>
    cases h
    change 0 ≤ v at ht
    simp [checkCompare, Compare.holds, requiredLastRevision, requiredVersion, compareResult, ht]

/-- On an absent key it only looks at the sign of the target. -/
theorem checkCompare_none {c : Compare} {required : SetRequired}
    (h : c.required = .ok required) :
    checkCompare none (some required) = true ↔ c.target ≤ 0 := by
  obtain ⟨result, key, targetUnion⟩ := c
  match targetUnion, h with
  | some (.modRevision rev), h =>
    cases h
    simp [checkCompare, Compare.target, requiredLastRevision, requiredVersion]
  | some (.version v), h =>
    cases h
    simp [checkCompare, Compare.target, requiredLastRevision, requiredVersion]

theorem Compare.holds_none {c : Compare} {required : SetRequired} (h : c.required = .ok required) :
    c.holds none = cmpSatisfied c.result 0 c.target := by
  obtain ⟨result, key, targetUnion⟩ := c
  match targetUnion, h with
  | some (.modRevision rev), _ => rfl
  | some (.version v), _ => rfl

/-- The plan of an accepted request carries its compare and what that requires. -/
theorem TxnRequest.plan_compare {req : TxnRequest} {plan : TxnPlan} (h : req.plan = .ok plan) :
    req.compare = [plan.compare] ∧ plan.compare.required = .ok plan.required := by
  unfold TxnRequest.plan at h
  split at h
  · rename_i c hcompare
    split at h
    · contradiction
    · rename_i required hrequired
      split at h
      · rename_i op _
        split at h
        · contradiction
        · cases hs : checkSuccess c op with
          | error e =>
            rw [hs] at h
            contradiction
          | ok value =>
            rw [hs] at h
            cases h
            exact ⟨hcompare, hrequired⟩
      · contradiction
  · contradiction

namespace KvService

/-- A transaction in single-node mode is a conditional `set`. -/
theorem txn_local (m : StateMachineStore) (outcome : Except String LogId) {req : TxnRequest}
    {plan : TxnPlan} (h : req.plan = .ok plan) :
    (KvService.mk m none).txn outcome req =
      (⟨{ m with store :=
          (m.store.set plan.compare.key plan.value (some plan.required)).1 }, none⟩,
        .ok (plan.respond (m.store.set plan.compare.key plan.value (some plan.required)).2)) := by
  unfold txn
  rw [h]
  rfl

theorem succeeded_respond (plan : TxnPlan) (res : Except (ℤ × Option KeyValue) ℤ) :
    (plan.respond res).succeeded = true ↔ ∃ rev, res = .ok rev := by
  cases res with
  | error e => simp [TxnPlan.respond]
  | ok rev => simp [TxnPlan.respond]

theorem ite_ok_iff {ε α : Type} {p : Prop} [Decidable p] {a : α} {e : ε} :
    (∃ b, (if p then (.ok a : Except ε α) else .error e) = .ok b) ↔ p := by
  split_ifs with h
  · exact iff_of_true ⟨a, rfl⟩ h
  · simp [h]

/-- Where a transaction reports success in single-node mode. -/
theorem succeeded_local {m : StateMachineStore} (hm : m.store.WF) {plan : TxnPlan}
    (hreq : plan.compare.required = .ok plan.required) (ht : 0 ≤ plan.compare.target) :
    (plan.respond (m.store.set plan.compare.key plan.value
        (some plan.required)).2).succeeded = true ↔
      match m.store.currentKv plan.compare.key with
      | some kv => plan.compare.holds (some kv) = true
      | none => plan.compare.target = 0 ∧ plan.value.isSome := by
  rw [succeeded_respond, Store.set_outcome hm, ite_ok_iff]
  cases hkv : m.store.currentKv plan.compare.key with
  | some kv =>
    rw [checkCompare_some hreq ht]
    simp
  | none =>
    rw [checkCompare_none hreq]
    have hz : plan.compare.target ≤ 0 ↔ plan.compare.target = 0 := by omega
    simp [hz]

/-- A comparison of zero with a target that is not negative, against the code's
verdict on an absent key. -/
theorem absent_put_iff {result target : ℤ} (hr : 0 ≤ result ∧ result ≤ 3) (ht : 0 ≤ target) :
    (target = 0 ↔ cmpSatisfied result 0 target = true) ↔
      result = 0 ∨ (result = 1 ∧ 0 < target) := by
  have hcases : result = 0 ∨ result = 1 ∨ result = 2 ∨ result = 3 := by omega
  unfold cmpSatisfied
  rcases hcases with rfl | rfl | rfl | rfl
  · simp [eq_comm]
  · simp
    omega
  · simp
    omega
  · simp
    omega

/-- A transaction in single-node mode answers. It obeys its compare exactly if
its key exists; or it puts and the comparison is EQUAL, or GREATER than a positive
target; or it deletes and the comparison fails on zero. -/
theorem txn_obeys_compare_iff (m : StateMachineStore) (hm : m.store.WF)
    (outcome : Except String LogId) (req : TxnRequest) (plan : TxnPlan)
    (hplan : req.plan = .ok plan) (hr : 0 ≤ plan.compare.result ∧ plan.compare.result ≤ 3)
    (ht : 0 ≤ plan.compare.target) :
    ∃ svc resp, (KvService.mk m none).txn outcome req = (svc, .ok resp) ∧
      (((resp.succeeded = true ↔
            plan.compare.holds (m.store.currentKv plan.compare.key) = true) ∧
          (svc.machine.store.currentKv plan.compare.key ≠ m.store.currentKv plan.compare.key →
            resp.succeeded = true)) ↔
        (m.store.currentKv plan.compare.key).isSome ∨
          (plan.value.isSome ∧ (plan.compare.result = 0 ∨
            (plan.compare.result = 1 ∧ 0 < plan.compare.target))) ∨
          (plan.value.isNone ∧
            cmpSatisfied plan.compare.result 0 plan.compare.target = false)) := by
  have hreq := (TxnRequest.plan_compare hplan).2
  refine ⟨_, _, txn_local m outcome hplan, ?_⟩
  have hsucc := succeeded_local hm hreq ht
  have hkeep : (m.store.set plan.compare.key plan.value
        (some plan.required)).1.currentKv plan.compare.key ≠
          m.store.currentKv plan.compare.key →
      (plan.respond (m.store.set plan.compare.key plan.value
        (some plan.required)).2).succeeded = true := by
    intro hne
    cases hres : (m.store.set plan.compare.key plan.value (some plan.required)).2 with
    | ok rev => rfl
    | error e =>
      have hlive := (Store.set_error hm hres).2 plan.compare.key
      unfold Store.currentKv at hne
      rw [hlive] at hne
      exact absurd rfl hne
  rw [and_iff_left hkeep, hsucc]
  cases hkv : m.store.currentKv plan.compare.key with
  | some kv => simp
  | none =>
    rw [Compare.holds_none hreq]
    have hput := absent_put_iff hr ht
    cases hv : plan.value with
    | some v => simpa using hput
    | none => simp

/-- A put of `a` under the condition that `a` does not exist. -/
def createRequest : TxnRequest :=
  ⟨[⟨0, [97], some (.modRevision 0)⟩], [⟨some (.put ⟨[97], [1]⟩)⟩], [⟨some (.range ⟨[97], []⟩)⟩]⟩

def createPlan : TxnPlan :=
  ⟨⟨0, [97], some (.modRevision 0)⟩, ⟨some 0, none, 0⟩, some [1], true⟩

def emptyMachine : StateMachineStore := StateMachineStore.new (Store.new none)

theorem txn_obeys_compare_of_create :
    ∃ svc resp, (KvService.mk emptyMachine none).txn (.error "") createRequest =
        (svc, .ok resp) ∧
      (((resp.succeeded = true ↔ createPlan.compare.holds (emptyMachine.store.currentKv [97])) ∧
          (svc.machine.store.currentKv [97] ≠ emptyMachine.store.currentKv [97] →
            resp.succeeded = true)) ↔
        (emptyMachine.store.currentKv [97]).isSome ∨
          (createPlan.value.isSome ∧ (createPlan.compare.result = 0 ∨
            (createPlan.compare.result = 1 ∧ 0 < createPlan.compare.target))) ∨
          (createPlan.value.isNone ∧
            cmpSatisfied createPlan.compare.result 0 createPlan.compare.target = false)) :=
  txn_obeys_compare_iff emptyMachine (Store.new_wf none) (.error "") createRequest createPlan
    (by decide) (by decide) (by decide)

/-- A put of `a` on the condition that its revision is not 5. The key is absent,
so that the condition holds, but the transaction reports failure. -/
def notFiveRequest : TxnRequest :=
  ⟨[⟨3, [97], some (.modRevision 5)⟩], [⟨some (.put ⟨[97], [1]⟩)⟩], []⟩

theorem txn_ignores_operator_on_absent_key :
    (Compare.mk 3 [97] (some (.modRevision 5))).holds (emptyMachine.store.currentKv [97]) = true ∧
      ((KvService.mk emptyMachine none).txn (.error "") notFiveRequest).2 =
        .ok ⟨responseHeader 0, false, []⟩ :=
  ⟨by decide, by decide⟩

/-! ### Requests that are not carried out -/

/-- A request whose success operation is empty, and everything before it in order. -/
def ReachesUnwrap (req : TxnRequest) : Prop :=
  ∃ c required, req.compare = [c] ∧ c.required = .ok required ∧ req.success = [⟨none⟩] ∧
    checkFailure c req.failure = .ok ()

theorem checkSuccess_panics_iff (c : Compare) (op : RequestOp) :
    (∃ p, checkSuccess c op = .error (.panic p)) ↔ op = ⟨none⟩ := by
  constructor
  · rintro ⟨p, hp⟩
    obtain ⟨request⟩ := op
    unfold checkSuccess at hp
    -- every other branch ends in a status or in a value
    split at hp
    · next hnone =>
      cases hnone
      rfl
    · split_ifs at hp <;> cases hp
    · split_ifs at hp <;> cases hp
    · cases hp
  · rintro rfl
    exact ⟨.unwrapNone, rfl⟩

/-- The checks panic at the one place where a missing request is unwrapped. -/
theorem plan_panics_iff (req : TxnRequest) :
    (∃ p, req.plan = .error (.panic p)) ↔ ReachesUnwrap req := by
  constructor
  · rintro ⟨p, hp⟩
    unfold TxnRequest.plan at hp
    split at hp
    · next c hc =>
      split at hp
      · cases hp
      · next required hr =>
        split at hp
        · next op ho =>
          split at hp
          · cases hp
          · next hf =>
            have hpanic : ∃ p, checkSuccess c op = .error (.panic p) := by
              cases hs : checkSuccess c op with
              | error fault =>
                rw [hs] at hp
                exact ⟨p, congrArg Except.error (Except.error.inj hp)⟩
              | ok value =>
                rw [hs] at hp
                cases hp
            rw [(checkSuccess_panics_iff c op).mp hpanic] at ho
            exact ⟨c, required, hc, hr, ho, hf⟩
        · cases hp
    · cases hp
  · rintro ⟨c, required, hc, hr, ho, hf⟩
    refine ⟨.unwrapNone, ?_⟩
    unfold TxnRequest.plan
    simp only [hc, hr, ho, hf]
    rfl

/-- A transaction in single-node mode panics exactly if its only success operation has no
request and the checks before it pass. Whatever it is refused for, the service keeps its
state. -/
theorem txn_panics_iff (m : StateMachineStore) (outcome : Except String LogId)
    (req : TxnRequest) :
    ((∃ p, ((KvService.mk m none).txn outcome req).2 = .error (.panic p)) ↔
        ReachesUnwrap req) ∧
      ∀ fault, ((KvService.mk m none).txn outcome req).2 = .error fault →
        ((KvService.mk m none).txn outcome req).1 = ⟨m, none⟩ := by
  cases hplan : req.plan with
  | error fault =>
    have htxn : (KvService.mk m none).txn outcome req = (⟨m, none⟩, .error fault) := by
      unfold txn
      rw [hplan]
    rw [htxn, ← plan_panics_iff, hplan]
    refine ⟨?_, fun _ _ => rfl⟩
    constructor
    · rintro ⟨p, hp⟩
      exact ⟨p, congrArg Except.error (Except.error.inj hp)⟩
    · rintro ⟨p, hp⟩
      exact ⟨p, congrArg Except.error (Except.error.inj hp)⟩
  | ok plan =>
    -- an accepted request is answered, also when its compare fails
    rw [txn_local m outcome hplan, ← plan_panics_iff, hplan]
    refine ⟨iff_of_false ?_ ?_, fun fault h => nomatch h⟩
    · rintro ⟨p, hp⟩
      cases hp
    · rintro ⟨p, hp⟩
      cases hp

/-- A compare of `a` in order, no failure operation, and a success operation without a
request. -/
theorem txn_panics_on_empty_success :
    ((KvService.mk emptyMachine none).txn (.error "")
      ⟨[⟨0, [97], some (.modRevision 0)⟩], [⟨none⟩], []⟩).2 = .error (.panic .unwrapNone) := by
  decide

/-! ### The two modes -/

theorem txn_raft {m : StateMachineStore} (hm : m.store.Coherent) {node : RaftNode}
    (hl : node.currentLeader = some node.id) (logId : LogId) {req : TxnRequest} {plan : TxnPlan}
    (h : req.plan = .ok plan) :
    (KvService.mk m (some node)).txn (.ok logId) req =
      if 0 < m.store.currentRevision ∨ m.store.treeMap[plan.compare.key]? = none then
        if checkCompare (m.store.currentKv plan.compare.key) (some plan.required) then
          (⟨(m.applyEntry ⟨logId, .normal plan.proposal⟩).1, some node⟩,
            .ok (plan.respond (.ok (plan.proposal.run m.store).2)))
        else
          (⟨m, some node⟩, .ok (plan.respond
            (.error (m.store.currentRevision, m.store.currentKv plan.compare.key))))
      else (⟨m, some node⟩, .error (.panic .revisionAssertion)) := by
  have hlead : (KvService.mk m (some node)).ensureLeader = .ok () := by
    unfold ensureLeader
    dsimp only
    rw [hl]
    exact if_pos rfl
  unfold txn
  rw [h]
  dsimp only
  rw [if_pos Option.isSome_some]
  unfold txnRaft
  rw [hlead]
  dsimp only
  rw [Store.readCompare_eq hm]
  split_ifs
  · rfl
  · rfl
  · rfl

/-- Both modes give the same answer or fail alike, and leave the same values and
the same revision. -/
structure SameTxn (a b : KvService × Except Fault TxnResponse) : Prop where
  answer : a.2 = b.2
  revision : a.1.machine.store.currentRevision = b.1.machine.store.currentRevision
  values : ∀ k, a.1.machine.store.live k = b.1.machine.store.live k

theorem proposal_change (plan : TxnPlan) :
    plan.proposal.change = (plan.compare.key, plan.value) := by
  unfold TxnPlan.proposal
  cases plan.value <;> rfl

/-- An accepted write is the same in both modes. -/
theorem run_proposal_eq {s : Store} (hs : s.WF) {plan : TxnPlan}
    (hc : checkItem (s.view plan.compare.key) plan.value (some plan.required) = .ok ()) :
    (s.set plan.compare.key plan.value (some plan.required)).2 = .ok (plan.proposal.run s).2 ∧
      (s.set plan.compare.key plan.value (some plan.required)).1.currentRevision =
        (plan.proposal.run s).1.currentRevision ∧
      ∀ k, (s.set plan.compare.key plan.value (some plan.required)).1.live k =
        (plan.proposal.run s).1.live k := by
  have heff := checkItem_effective hc
  have hnone : checkItem (s.view plan.compare.key) plan.value none = .ok () := by
    rw [checkItem_none]
    exact if_pos (Or.comm.mp heff)
  rw [RaftRequest.run_eq, proposal_change]
  obtain ⟨hcur, hlive⟩ := Store.live_set_accepted hs hc
  obtain ⟨hcur', hlive'⟩ := Store.live_set_accepted hs hnone
  dsimp only
  refine ⟨?_, hcur.trans hcur'.symm, fun k => (hlive k).trans (hlive' k).symm⟩
  rw [(Store.set_accepted hs hc).1, (Store.set_accepted hs hnone).1]
  rfl

section Modes

variable {m : StateMachineStore} {node : RaftNode} {req : TxnRequest} {plan : TxnPlan}

theorem sameTxn_of_accepted (hm : m.store.Coherent) (hl : node.currentLeader = some node.id)
    (logId : LogId) (hplan : req.plan = .ok plan)
    (hread : 0 < m.store.currentRevision ∨ m.store.treeMap[plan.compare.key]? = none)
    (hpass : checkCompare (m.store.currentKv plan.compare.key) (some plan.required) = true)
    (heff : (m.store.currentKv plan.compare.key).isSome ∨ plan.value.isSome) :
    SameTxn ((KvService.mk m none).txn (.ok logId) req)
      ((KvService.mk m (some node)).txn (.ok logId) req) := by
  have hcheck := Store.checkItem_view hm.toWF plan.compare.key plan.value (some plan.required)
  rw [if_pos ⟨hpass, heff⟩] at hcheck
  obtain ⟨hres, hrev, hlive⟩ := run_proposal_eq hm.toWF hcheck
  rw [txn_local m _ hplan, txn_raft hm hl logId hplan, if_pos hread, if_pos hpass]
  exact ⟨by rw [hres], hrev, hlive⟩

/-- Only Raft mode reports the deletion of an absent key as a success. -/
theorem not_sameTxn_of_absent_delete (hm : m.store.Coherent)
    (hl : node.currentLeader = some node.id) (logId : LogId) (hplan : req.plan = .ok plan)
    (hread : 0 < m.store.currentRevision ∨ m.store.treeMap[plan.compare.key]? = none)
    (hpass : checkCompare (m.store.currentKv plan.compare.key) (some plan.required) = true)
    (heff : ¬((m.store.currentKv plan.compare.key).isSome ∨ plan.value.isSome)) :
    ¬SameTxn ((KvService.mk m none).txn (.ok logId) req)
      ((KvService.mk m (some node)).txn (.ok logId) req) := by
  rw [txn_local m _ hplan, txn_raft hm hl logId hplan, if_pos hread, if_pos hpass]
  intro h
  have hanswer := h.answer
  rw [Store.set_outcome hm.toWF, if_neg (fun hno => heff hno.2)] at hanswer
  have := congrArg TxnResponse.succeeded (Except.ok.inj hanswer)
  contradiction

theorem sameTxn_of_refused (hm : m.store.Coherent) (hl : node.currentLeader = some node.id)
    (logId : LogId) (hplan : req.plan = .ok plan)
    (hread : 0 < m.store.currentRevision ∨ m.store.treeMap[plan.compare.key]? = none)
    (hfail : ¬checkCompare (m.store.currentKv plan.compare.key) (some plan.required) = true) :
    SameTxn ((KvService.mk m none).txn (.ok logId) req)
      ((KvService.mk m (some node)).txn (.ok logId) req) := by
  have hres := Store.set_outcome hm.toWF plan.compare.key plan.value (some plan.required)
  rw [if_neg (fun hno => hfail hno.1)] at hres
  obtain ⟨hrev, hlive⟩ := Store.set_error hm.toWF hres
  rw [txn_local m _ hplan, txn_raft hm hl logId hplan, if_pos hread, if_neg hfail, hres]
  exact ⟨rfl, hrev, hlive⟩

end Modes

/-- The two modes agree on a transaction exactly if it is rejected by its checks,
or it neither deletes an absent key with a compare that passes there, nor runs
into the item of a key while nothing was ever written. -/
theorem txn_modes_agree_iff (m : StateMachineStore) (hm : m.store.Coherent) (node : RaftNode)
    (hl : node.currentLeader = some node.id) (logId : LogId) (req : TxnRequest) :
    SameTxn ((KvService.mk m none).txn (.ok logId) req)
        ((KvService.mk m (some node)).txn (.ok logId) req) ↔
      ∀ plan, req.plan = .ok plan →
        ¬(plan.value = none ∧ m.store.currentKv plan.compare.key = none ∧
          plan.compare.target ≤ 0) ∧
        (0 < m.store.currentRevision ∨ m.store.treeMap[plan.compare.key]? = none) := by
  cases hplan : req.plan with
  | error fault =>
    have hrej : ∀ raft, (KvService.mk m raft).txn (.ok logId) req = (⟨m, raft⟩, .error fault) := by
      intro raft
      unfold txn
      rw [hplan]
    rw [hrej, hrej]
    exact iff_of_true ⟨rfl, rfl, fun _ => rfl⟩ (fun plan h => by contradiction)
  | ok plan =>
    have hnone := checkCompare_none (TxnRequest.plan_compare hplan).2
    simp only [Except.ok.injEq, forall_eq']
    by_cases hread : 0 < m.store.currentRevision ∨ m.store.treeMap[plan.compare.key]? = none
    · rw [and_iff_left hread]
      by_cases hpass : checkCompare (m.store.currentKv plan.compare.key) (some plan.required) = true
      · by_cases heff : (m.store.currentKv plan.compare.key).isSome ∨ plan.value.isSome
        · apply iff_of_true (sameTxn_of_accepted hm hl logId hplan hread hpass heff)
          rintro ⟨hv, hkv, _⟩
          rw [hv, hkv] at heff
          simp at heff
        · apply iff_of_false (not_sameTxn_of_absent_delete hm hl logId hplan hread hpass heff)
          obtain ⟨hkv, hv⟩ := not_or.mp heff
          rw [Option.not_isSome_iff_eq_none] at hkv hv
          rw [hkv, hnone] at hpass
          exact not_not.mpr ⟨hv, hkv, hpass⟩
      · apply iff_of_true (sameTxn_of_refused hm hl logId hplan hread hpass)
        rintro ⟨_, hkv, ht⟩
        rw [hkv, hnone] at hpass
        exact hpass ht
    · -- the local read of Raft mode panics
      rw [txn_local m _ hplan, txn_raft hm hl logId hplan, if_neg hread]
      exact iff_of_false (fun h => by have := h.answer; contradiction) (fun h => hread h.2)

def leaderNode : RaftNode := ⟨1, some 1⟩

theorem txn_modes_agree_of_create :
    SameTxn ((KvService.mk emptyMachine none).txn (.ok ⟨⟨1, 1⟩, 1⟩) createRequest)
        ((KvService.mk emptyMachine (some leaderNode)).txn (.ok ⟨⟨1, 1⟩, 1⟩) createRequest) ↔
      ∀ plan, createRequest.plan = .ok plan →
        ¬(plan.value = none ∧ emptyMachine.store.currentKv plan.compare.key = none ∧
          plan.compare.target ≤ 0) ∧
        (0 < emptyMachine.store.currentRevision ∨
          emptyMachine.store.treeMap[plan.compare.key]? = none) :=
  txn_modes_agree_iff emptyMachine ((Store.new_represents none).coherent (Store.new_wf none))
    leaderNode rfl ⟨⟨1, 1⟩, 1⟩ createRequest

/-- A deletion of `a` on the condition that `a` does not exist. -/
def deleteAbsentRequest : TxnRequest :=
  ⟨[⟨0, [97], some (.modRevision 0)⟩], [⟨some (.deleteRange ⟨[97], []⟩)⟩], []⟩

/-- Deleting an absent key fails in single-node mode and succeeds in Raft mode. -/
theorem txn_modes_differ_on_absent_delete :
    ((KvService.mk emptyMachine none).txn (.ok ⟨⟨1, 1⟩, 1⟩) deleteAbsentRequest).2 =
        .ok ⟨responseHeader 0, false, []⟩ ∧
      ((KvService.mk emptyMachine (some leaderNode)).txn (.ok ⟨⟨1, 1⟩, 1⟩)
          deleteAbsentRequest).2 =
        .ok ⟨responseHeader 0, true, [.deleteRange ⟨responseHeader 0, 1, []⟩]⟩ :=
  ⟨by decide, by decide⟩

end KvService
end MemEtcd
