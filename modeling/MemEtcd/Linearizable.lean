import MemEtcd.ConcurrentSet

/-! Concurrent calls of `set` and `delete` are linearizable. A call takes effect in
its section under the lock of the item: up to the placeholders of pending calls the
store is that of the sequential execution in the order of the sections. -/
namespace MemEtcd

open CommitOrder (Timely)

namespace Concurrent

variable {calls : ℕ → Call}

/-! ### The sequential execution -/

/-- The calls of `order` have taken effect, one after the other: their outcomes,
the items and the array are those of the sequential execution. A key has an item
more if a pending call has created it. -/
structure Linearized (calls : ℕ → Call) (s₀ : Store) (order : List ℕ) (c : Concurrent) :
    Prop where
  nodup : order.Nodup
  committed : ∀ i, i ∈ order ↔ (c.phases i).outcome.isSome
  outcomes : order.map (fun i => (c.phases i).outcome) =
    (s₀.results (order.map calls)).map some
  view : c.store.view = (s₀.run (order.map calls)).view
  values : c.store.valuesByRevision = (s₀.run (order.map calls)).valuesByRevision
  items : ∀ k, (c.store.treeMap[k]?).isSome ↔
    ((s₀.run (order.map calls)).treeMap[k]?).isSome ∨
      ∃ i, (calls i).key = k ∧ (c.phases i).item.isSome

theorem start_linearized (s : Store) : (start s).Linearized calls s [] := by
  refine ⟨List.nodup_nil, ?_, rfl, rfl, rfl, ?_⟩
  · intro i
    exact iff_of_false (by simp) (by simp [start, SetPhase.outcome])
  · intro k
    constructor
    · exact Or.inl
    · rintro (h | ⟨i, _, h⟩)
      · exact h
      · contradiction

theorem pending_update (calls : ℕ → Call) (phases : ℕ → SetPhase) (i : ℕ) (phase : SetPhase)
    (k : Bytes) :
    (∃ j, (calls j).key = k ∧ (Function.update phases i phase j).item.isSome) ↔
      ((calls i).key = k ∧ phase.item.isSome) ∨
        ∃ j, j ≠ i ∧ (calls j).key = k ∧ (phases j).item.isSome :=
  Function.exists_update_iff phases
    (fun j (phase : SetPhase) => (calls j).key = k ∧ phase.item.isSome)

theorem pending_split (calls : ℕ → Call) (phases : ℕ → SetPhase) (i : ℕ) (k : Bytes) :
    (∃ j, (calls j).key = k ∧ (phases j).item.isSome) ↔
      ((calls i).key = k ∧ (phases i).item.isSome) ∨
        ∃ j, j ≠ i ∧ (calls j).key = k ∧ (phases j).item.isSome := by
  rw [← pending_update, Function.update_eq_self]

/-- A step that gives no call its outcome. -/
theorem Linearized.frame {s₀ : Store} {order : List ℕ} {c : Concurrent}
    (h : c.Linearized calls s₀ order) {i : ℕ} {s : Store} {phase : SetPhase}
    (houtcome : phase.outcome = (c.phases i).outcome) (hview : s.view = c.store.view)
    (hvalues : s.valuesByRevision = c.store.valuesByRevision)
    (hitems : ∀ k, (s.treeMap[k]?).isSome ↔ (c.store.treeMap[k]?).isSome ∨
      ((calls i).key = k ∧ phase.item.isSome))
    (hkeep : (c.phases i).item.isSome → phase.item.isSome) :
    Linearized calls s₀ order ⟨s, Function.update c.phases i phase⟩ := by
  -- no outcome changes, so order and sequential execution stay
  have hout : ∀ j, (Function.update c.phases i phase j).outcome = (c.phases j).outcome := by
    intro j
    rw [Function.update_apply]
    split_ifs with hj
    · rw [houtcome, hj]
    · rfl
  refine ⟨h.nodup, ?_, ?_, hview.trans h.view, hvalues.trans h.values, ?_⟩
  · intro j
    rw [h.committed j]
    dsimp only
    rw [hout]
  · simp only [hout]
    exact h.outcomes
  · intro k
    dsimp only
    rw [hitems, h.items, pending_update, pending_split calls c.phases i]
    constructor
    · rintro ((hseq | hold | hother) | hnew)
      · exact Or.inl hseq
      · exact Or.inr (Or.inl (hold.imp_right hkeep))
      · exact Or.inr (Or.inr hother)
      · exact Or.inr (Or.inl hnew)
    · rintro (hseq | hnew | hother)
      · exact Or.inl (Or.inl hseq)
      · exact Or.inr hnew
      · exact Or.inl (Or.inr (Or.inr hother))

/-- The section of a call is the place where it takes effect. -/
theorem Linearized.lock {s₀ : Store} (hs : s₀.WF) {order : List ℕ} {c : Concurrent}
    (h : c.Linearized calls s₀ order) (ht : c.Tidy calls) {i : ℕ} {rev : ℤ} {b : ℕ} {isNew : Bool}
    (hi : c.phases i = .ready rev b isNew) :
    Linearized calls s₀ (order ++ [i])
      ⟨(c.store.locked b isNew (calls i).value (calls i).required).1, Function.update c.phases i
        (.unlocked rev (c.store.locked b isNew (calls i).value (calls i).required).2)⟩ := by
  have hown := ht.owned i b (by rw [hi]; rfl)
  have hseq := Store.run_wf hs (order.map calls)
  obtain ⟨hview, hvalues, hres⟩ :=
    Store.locked_follows ht.heapOk hseq h.view h.values hown isNew
  have hnew : i ∉ order := by
    rw [h.committed i, hi]
    exact Bool.false_ne_true
  have hrun : s₀.run ((order ++ [i]).map calls) =
      ((s₀.run (order.map calls)).call (calls i)).1 := by
    rw [List.map_append, List.map_singleton, Store.run_snoc]
  have hold : ∀ j ∈ order, Function.update c.phases i
      (.unlocked rev (c.store.locked b isNew (calls i).value (calls i).required).2) j =
        c.phases j := by
    intro j hj
    have hne : j ≠ i := fun e => hnew (e ▸ hj)
    exact Function.update_of_ne hne ..
  refine ⟨?_, ?_, ?_, ?_, ?_, ?_⟩
  · exact h.nodup.append (List.nodup_singleton i) (by simpa using hnew)
  · intro j
    rw [List.mem_append, List.mem_singleton]
    by_cases hj : j = i
    · subst hj
      refine iff_of_true (Or.inr rfl) ?_
      dsimp only
      rw [Function.update_self]
      rfl
    · dsimp only
      rw [Function.update_of_ne hj, h.committed j, or_iff_left hj]
  · -- the earlier outcomes stay, the new one is that of the sequential call
    rw [List.map_append, List.map_append, List.map_singleton, List.map_singleton,
      Store.results_snoc, List.map_append, ← h.outcomes, ← hres]
    dsimp only
    rw [Function.update_self]
    apply congrArg (· ++ _)
    apply List.map_congr_left
    intro j hj
    exact congrArg SetPhase.outcome (hold j hj)
  · rw [hrun]
    exact hview
  · rw [hrun]
    exact hvalues
  · intro k
    rw [hrun, Store.call, Store.set_treeMap_isSome hseq]
    dsimp only
    rw [Store.locked_treeMap, h.items, pending_update, pending_split calls c.phases i, hi]
    simp only [SetPhase.item, Option.isSome_some, Option.isSome_none, Bool.false_eq_true, and_true,
      and_false, false_or, or_assoc, @eq_comm _ k]

/-- What holds after every trace: the calls have taken effect in the order of
their sections. -/
structure Consistent (calls : ℕ → Call) (s₀ : Store) (trace : List SetAction) (c : Concurrent) :
    Prop where
  tidy : c.Tidy calls
  linearized : c.Linearized calls s₀ (sections trace)
  timely : Timely (history trace) (sections trace)

theorem start_consistent {s : Store} (hs : s.WF) : (start s).Consistent calls s [] :=
  ⟨start_tidy hs, start_linearized s, CommitOrder.timely_nil⟩

theorem step_linearized {s₀ : Store} (hs : s₀.WF) {trace : List SetAction} {c c' : Concurrent}
    {a : SetAction} (h : c.Consistent calls s₀ trace) (hstep : c.step calls a = some c') :
    c'.Linearized calls s₀ (sections (trace ++ [a])) := by
  have hl := h.linearized
  rw [sections_append]
  rcases step_cases hstep with ⟨i, rfl, hi, rfl⟩ | ⟨i, rev, rfl, hi, rfl⟩ |
    ⟨i, rev, b, rfl, hi, rfl⟩ | ⟨i, rev, b, isNew, rfl, hi, rfl⟩ | ⟨i, rev, res, rfl, hi, rfl⟩
  · apply hl.frame (by rw [hi]; rfl) rfl rfl
    · intro k
      simp [SetPhase.item]
    · rw [hi]
      exact id
  · -- the call holds an item now, whether it was there or not
    have hphase : ∀ isNew b, (if isNew = true then SetPhase.created rev b
        else .ready rev b false).item.isSome ∧
        (if isNew = true then SetPhase.created rev b else .ready rev b false).outcome = none := by
      intro isNew b
      cases isNew <;> exact ⟨rfl, rfl⟩
    apply hl.frame (by rw [(hphase _ _).2, hi]; rfl) (Store.view_entry h.tidy.heapOk _)
      (Store.entry_valuesByRevision ..)
    · intro k
      rw [Store.entry_treeMap_isSome, and_iff_left (hphase _ _).1, eq_comm (a := k)]
    · intro _
      exact (hphase _ _).1
  · have hown := h.tidy.owned i b (by rw [hi]; rfl)
    apply hl.frame (by rw [hi]; rfl) (Store.view_index ..) (Store.valuesByRevision_index ..)
    · intro k
      rw [Store.treeMap_index]
      refine (or_iff_left_of_imp ?_).symm
      rintro ⟨rfl, _⟩
      rw [hown]
      rfl
    · intro _
      rfl
  · exact hl.lock hs h.tidy hi
  · apply hl.frame ?_ (Store.finish_view ..) (Store.finish_valuesByRevision ..)
    · intro k
      rw [Store.finish_treeMap]
      simp [SetPhase.item]
    · rw [hi]
      exact id
    · rw [hi]
      exact congrArg some (Store.finish_outcome ..)

theorem step_timely {s₀ : Store} {trace : List SetAction} {c c' : Concurrent} {a : SetAction}
    (h : c.Consistent calls s₀ trace) (hstep : c.step calls a = some c') :
    Timely (history (trace ++ [a])) (sections (trace ++ [a])) := by
  have hl := h.linearized
  rw [sections_append, history_append]
  rcases step_cases hstep with ⟨i, rfl, hi, _⟩ | ⟨i, rev, rfl, _⟩ | ⟨i, rev, b, rfl, _⟩ |
    ⟨i, rev, b, isNew, rfl, _⟩ | ⟨i, rev, res, rfl, hi, _⟩
  · apply h.timely.invoke
    rw [hl.committed i, hi]
    exact Bool.false_ne_true
  · exact h.timely
  · exact h.timely
  · exact h.timely.commit i
  · apply h.timely.ret
    rw [hl.committed i, hi]
    rfl

theorem run_consistent {s₀ : Store} (hs : s₀.WF) {past trace : List SetAction}
    {c c' : Concurrent} (h : c.Consistent calls s₀ past) (hrun : c.run calls trace = some c') :
    c'.Consistent calls s₀ (past ++ trace) := by
  apply PartialRun.run_trace_induct _ h hrun
  intro past c c' a h hstep
  exact ⟨step_tidy h.tidy hstep, step_linearized hs h hstep, step_timely h hstep⟩

/-! ### Linearizability -/

/-- The successful calls take consecutive revisions, in their order. -/
theorem Linearized.consecutive {s₀ : Store} {order : List ℕ} {c : Concurrent}
    (h : c.Linearized calls s₀ order) :
    ∃ n : ℕ, order.filterMap (fun i => (c.phases i).revision) =
      (List.range n).map (fun m : ℕ => s₀.currentRevision + 1 + m) := by
  refine ⟨_, Eq.trans ?_ (Store.results_consecutive s₀ (order.map calls))⟩
  have hmap := congrArg (List.filterMap (fun o => o.bind Except.toOption)) h.outcomes
  rw [List.filterMap_map, List.filterMap_map] at hmap
  exact hmap

/-- Without pending calls the keys have the items of the sequential execution. -/
theorem Linearized.item?_eq {s₀ : Store} {order : List ℕ} {c : Concurrent}
    (h : c.Linearized calls s₀ order) (hsettled : ∀ i, (c.phases i).item = none) (k : Bytes) :
    c.store.item? k = (s₀.run (order.map calls)).item? k := by
  have hiff := h.items k
  rw [or_iff_left (by rintro ⟨i, _, hi⟩; rw [hsettled i] at hi; contradiction)] at hiff
  cases hc : c.store.treeMap[k]? with
  | none =>
    have hn : (s₀.run (order.map calls)).treeMap[k]? = none := by
      rw [hc] at hiff
      simpa using hiff
    unfold Store.item?
    rw [hc, hn]
    rfl
  | some a =>
    rw [hc] at hiff
    obtain ⟨b, hb⟩ := Option.isSome_iff_exists.mp (hiff.mp rfl)
    rw [Store.item?_of_owned hc, Store.item?_of_owned hb, h.view]

theorem Linearized.zip_eq {s₀ : Store} {order : List ℕ} {c : Concurrent}
    (h : c.Linearized calls s₀ order) :
    order.map (fun i => (calls i, (c.phases i).outcome)) =
      ((order.map calls).zip (s₀.results (order.map calls))).map (Prod.map id some) := by
  rw [← List.zip_map_right, ← h.outcomes, List.zip_map']

theorem mem_order_of_revision {s₀ : Store} {order : List ℕ} {c : Concurrent}
    (h : c.Linearized calls s₀ order) {i : ℕ} (hi : (c.phases i).revision ≠ none) :
    i ∈ order ∧ ∃ rev, (c.phases i).outcome = some (.ok rev) := by
  obtain ⟨rev, hrev⟩ := Option.ne_none_iff_exists'.mp hi
  obtain ⟨res, hres, hok⟩ := Option.bind_eq_some_iff.mp hrev
  refine ⟨(h.committed i).mpr (by rw [hres]; rfl), rev, ?_⟩
  cases res with
  | error kv => contradiction
  | ok rev' =>
    cases hok
    exact hres

/-- Call and outcome of a call that has required the revision `r` with success. -/
def Swapped (r : ℤ) (p : Call × Option (Except (Option KeyValue) ℤ)) : Prop :=
  p.1.Swaps r ∧ ∃ rev, p.2 = some (.ok rev)

/-- Of several calls that require the same revision at most one succeeds. -/
theorem Linearized.swapped_once {s₀ : Store} (hs : s₀.Coherent) (hd : s₀.DistinctRevisions)
    {order : List ℕ} {c : Concurrent} (h : c.Linearized calls s₀ order) {r : ℤ} (hr : 0 < r)
    {i j : ℕ} (hij : i ≠ j) (hi : (calls i).Swaps r) (hj : (calls j).Swaps r) :
    (c.phases i).revision = none ∨ (c.phases j).revision = none := by
  have hpairs : (order.map (fun i => (calls i, (c.phases i).outcome))).Pairwise
      (fun p q => ¬(Swapped r p ∧ Swapped r q)) := by
    rw [h.zip_eq, List.pairwise_map]
    apply (Store.swapped_once hs hd hr (order.map calls)).imp
    rintro p q hpq ⟨⟨hp, rev, hrev⟩, hq, rev', hrev'⟩
    exact hpq ⟨⟨hp, rev, Option.some.inj hrev⟩, hq, rev', Option.some.inj hrev'⟩
  rw [List.pairwise_map] at hpairs
  by_contra hboth
  rw [not_or] at hboth
  obtain ⟨hmem, rev, hrev⟩ := mem_order_of_revision h hboth.1
  obtain ⟨hmem', rev', hrev'⟩ := mem_order_of_revision h hboth.2
  have hsymm : Std.Symm (fun i j => ¬(Swapped r (calls i, (c.phases i).outcome) ∧
      Swapped r (calls j, (c.phases j).outcome))) := ⟨fun _ _ hn hs => hn hs.symm⟩
  exact hpairs.forall hmem hmem' hij ⟨⟨hi, rev, hrev⟩, hj, rev', hrev'⟩

/-- Concurrent calls are linearizable in revision order. There is an order of the
calls that have taken effect which respects real time, and in which a sequential
execution has the same outcomes, the same items and the same array; along it the
successful calls have consecutive revisions. -/
theorem linearizable {s₀ : Store} (hs : s₀.Coherent) (hd : s₀.DistinctRevisions)
    (calls : ℕ → Call) {trace : List SetAction} {c : Concurrent}
    (hrun : (start s₀).run calls trace = some c) :
    (∃ order : List ℕ, Timely (history trace) order ∧ c.Linearized calls s₀ order ∧
      (∃ n : ℕ, order.filterMap (fun i => (c.phases i).revision) =
        (List.range n).map (fun m : ℕ => s₀.currentRevision + 1 + m)) ∧
      ((∀ i, (c.phases i).item = none) →
        ∀ k, c.store.item? k = (s₀.run (order.map calls)).item? k)) ∧
    ∀ r, 0 < r → ∀ i j, i ≠ j → (calls i).Swaps r → (calls j).Swaps r →
      (c.phases i).revision = none ∨ (c.phases j).revision = none := by
  have h := run_consistent hs.toWF (start_consistent hs.toWF) hrun
  rw [List.nil_append] at h
  have hl := h.linearized
  refine ⟨⟨sections trace, h.timely, hl, hl.consecutive, hl.item?_eq⟩, ?_⟩
  intro r hr i j hij hi hj
  exact hl.swapped_once hs hd hr hij hi hj

/-- Two calls that require the same revision of `a`, and two that create `b`. -/
def racingCalls : ℕ → Call
  | 0 => ⟨[97], some [1], some ⟨some 1, none, 0⟩⟩
  | 1 => ⟨[97], some [2], some ⟨some 1, none, 0⟩⟩
  | 2 => ⟨[98], some [3], none⟩
  | _ => ⟨[98], none, none⟩

def racingTrace : List SetAction :=
  [.invoke 0, .invoke 1, .entry 0, .entry 1, .invoke 2, .entry 2, .lock 1, .invoke 3, .entry 3,
    .lock 3, .lock 0, .index 2, .ret 1, .lock 2, .ret 2, .ret 0, .ret 3]

theorem linearizable_of_race :
    ∃ c order, (start ((Store.new none).run [⟨[97], some [0], none⟩])).run racingCalls
        racingTrace = some c ∧
      Timely (history racingTrace) order ∧
      c.Linearized racingCalls ((Store.new none).run [⟨[97], some [0], none⟩]) order ∧
      ((c.phases 0).revision = none ∨ (c.phases 1).revision = none) ∧
      (c.phases 1).revision = some 2 ∧ (c.phases 2).revision = some 3 := by
  obtain ⟨hwf, hrep, _⟩ := Store.run_represents (Store.new_wf none) (Store.new_represents none)
    [⟨[97], some [0], none⟩]
  obtain ⟨c, hrun, hone, htwo⟩ : ∃ c, (start ((Store.new none).run [⟨[97], some [0], none⟩])).run
      racingCalls racingTrace = some c ∧ (c.phases 1).revision = some 2 ∧
      (c.phases 2).revision = some 3 := ⟨_, rfl, rfl, rfl⟩
  obtain ⟨⟨order, htime, hl, _⟩, honce⟩ :=
    linearizable (hrep.coherent hwf) hrep.distinctRevisions racingCalls hrun
  exact ⟨c, order, hrun, htime, hl, honce 1 (by decide) 0 1 (by decide) ⟨rfl, rfl⟩ ⟨rfl, rfl⟩,
    hone, htwo⟩

end Concurrent
end MemEtcd
