import MemEtcd.CommitOrder
import MemEtcd.PartialRun
import MemEtcd.StoreLive

/-! Concurrent calls of `set` and `delete`. A call reads the current revision, gets
or creates the item of its key in `tree_map`, lists an item that it has created in
`prefix_map`, runs its section under the lock of the item, notifies and returns.
The steps of several calls interleave in any order. -/
namespace MemEtcd

open CommitOrder (Event)

/-- How far a call of `set` has come. -/
inductive SetPhase where
  | idle
  | started (latestRev : ℤ)
  /-- The call has put a new item into `tree_map`, and not into `prefix_map` yet. -/
  | created (latestRev : ℤ) (a : ℕ)
  | ready (latestRev : ℤ) (a : ℕ) (isNewItem : Bool)
  | unlocked (latestRev : ℤ) (res : Except (Option KeyValue) Committed)
  | returned (res : Except (ℤ × Option KeyValue) ℤ)
  deriving DecidableEq, Repr

/-- The item that the call holds and has not worked on yet. -/
def SetPhase.item : SetPhase → Option ℕ
  | .created _ a => some a
  | .ready _ a _ => some a
  | _ => none

/-- The outcome of the call, from the end of its section on. -/
def SetPhase.outcome : SetPhase → Option (Except (Option KeyValue) ℤ)
  | .unlocked _ res => some (res.map Committed.newRev)
  | .returned res => some (Store.outcome res)
  | _ => none

def SetPhase.revision (phase : SetPhase) : Option ℤ := phase.outcome.bind Except.toOption

/-- The store and the calls on it, numbered by `ℕ`. -/
structure Concurrent where
  store : Store
  phases : ℕ → SetPhase

inductive SetAction where
  | invoke (i : ℕ)
  | entry (i : ℕ)
  | index (i : ℕ)
  | lock (i : ℕ)
  | ret (i : ℕ)
  deriving DecidableEq, Repr

/-- The calls of a trace in the order of their sections. -/
def sections (trace : List SetAction) : List ℕ :=
  trace.filterMap (fun a => match a with | .lock i => some i | _ => none)

def history (trace : List SetAction) : List (Event ℕ) :=
  trace.filterMap (fun a => match a with
    | .invoke i => some (.invoke i)
    | .ret i => some (.ret i)
    | _ => none)

theorem sections_append (trace : List SetAction) (a : SetAction) :
    sections (trace ++ [a]) = match a with
      | .lock i => sections trace ++ [i]
      | _ => sections trace := by
  cases a <;> simp [sections]

theorem history_append (trace : List SetAction) (a : SetAction) :
    history (trace ++ [a]) = match a with
      | .invoke i => history trace ++ [.invoke i]
      | .ret i => history trace ++ [.ret i]
      | _ => history trace := by
  cases a <;> simp [history]

/-- The end of `set` after its section. -/
def Store.finish (s : Store) (key : Bytes) (latestRev : ℤ) :
    Except (Option KeyValue) Committed → Store × Except (ℤ × Option KeyValue) ℤ
  | .error kv => (s, .error (latestRev, kv))
  | .ok d => (s.notifyWatchers d (prefixSplit key).1, .ok d.newRev)

namespace Concurrent

variable (calls : ℕ → Call)

def start (s : Store) : Concurrent := ⟨s, fun _ => .idle⟩

def step (c : Concurrent) : SetAction → Option Concurrent
  | .invoke i =>
    match c.phases i with
    | .idle => some ⟨c.store, Function.update c.phases i (.started c.store.currentRevision)⟩
    | _ => none
  | .entry i =>
    match c.phases i with
    | .started latestRev =>
      let (store, a, isNewItem) := c.store.entry (calls i).key
      -- only the call that creates the item lists it
      some ⟨store, Function.update c.phases i
        (if isNewItem then .created latestRev a else .ready latestRev a false)⟩
    | _ => none
  | .index i =>
    match c.phases i with
    | .created latestRev a =>
      some ⟨c.store.index (calls i).key a, Function.update c.phases i (.ready latestRev a true)⟩
    | _ => none
  | .lock i =>
    match c.phases i with
    | .ready latestRev a isNewItem =>
      let (store, res) := c.store.locked a isNewItem (calls i).value (calls i).required
      some ⟨store, Function.update c.phases i (.unlocked latestRev res)⟩
    | _ => none
  | .ret i =>
    match c.phases i with
    | .unlocked latestRev res =>
      let (store, res) := c.store.finish (calls i).key latestRev res
      some ⟨store, Function.update c.phases i (.returned res)⟩
    | _ => none

def run (c : Concurrent) (trace : List SetAction) : Option Concurrent :=
  PartialRun.run (step calls) c trace

variable {calls}

/-! ### The steps -/

/-- What a step finds and what it does. -/
theorem step_cases {c c' : Concurrent} {a : SetAction} (h : c.step calls a = some c') :
    (∃ i, a = .invoke i ∧ c.phases i = .idle ∧
      c' = ⟨c.store, Function.update c.phases i (.started c.store.currentRevision)⟩) ∨
    (∃ i rev, a = .entry i ∧ c.phases i = .started rev ∧
      c' = ⟨(c.store.entry (calls i).key).1, Function.update c.phases i
        (if (c.store.entry (calls i).key).2.2 then .created rev (c.store.entry (calls i).key).2.1
          else .ready rev (c.store.entry (calls i).key).2.1 false)⟩) ∨
    (∃ i rev b, a = .index i ∧ c.phases i = .created rev b ∧
      c' = ⟨c.store.index (calls i).key b, Function.update c.phases i (.ready rev b true)⟩) ∨
    (∃ i rev b isNew, a = .lock i ∧ c.phases i = .ready rev b isNew ∧
      c' = ⟨(c.store.locked b isNew (calls i).value (calls i).required).1,
        Function.update c.phases i
          (.unlocked rev (c.store.locked b isNew (calls i).value (calls i).required).2)⟩) ∨
    (∃ i rev res, a = .ret i ∧ c.phases i = .unlocked rev res ∧
      c' = ⟨(c.store.finish (calls i).key rev res).1,
        Function.update c.phases i (.returned (c.store.finish (calls i).key rev res).2)⟩) := by
  cases a with
  | invoke i =>
    simp only [step] at h
    split at h
    · exact Or.inl ⟨i, rfl, ‹_›, (Option.some.inj h).symm⟩
    · contradiction
  | entry i =>
    simp only [step] at h
    split at h
    · exact Or.inr (Or.inl ⟨i, _, rfl, ‹_›, (Option.some.inj h).symm⟩)
    · contradiction
  | index i =>
    simp only [step] at h
    split at h
    · exact Or.inr (Or.inr (Or.inl ⟨i, _, _, rfl, ‹_›, (Option.some.inj h).symm⟩))
    · contradiction
  | lock i =>
    simp only [step] at h
    split at h
    · exact Or.inr (Or.inr (Or.inr (Or.inl ⟨i, _, _, _, rfl, ‹_›, (Option.some.inj h).symm⟩)))
    · contradiction
  | ret i =>
    simp only [step] at h
    split at h
    · exact Or.inr (Or.inr (Or.inr (Or.inr ⟨i, _, _, rfl, ‹_›, (Option.some.inj h).symm⟩)))
    · contradiction

end Concurrent

namespace Store

/-- The section of a call does to the items and to the array what the whole call
does to a store that looks the same. -/
theorem locked_follows {s t : Store} (hs : s.HeapOk) (ht : t.WF) (hview : s.view = t.view)
    (hvalues : s.valuesByRevision = t.valuesByRevision) {c : Call} {a : ℕ}
    (ha : s.treeMap[c.key]? = some a) (isNew : Bool) :
    (s.locked a isNew c.value c.required).1.view = (t.call c).1.view ∧
      (s.locked a isNew c.value c.required).1.valuesByRevision = (t.call c).1.valuesByRevision ∧
      (s.locked a isNew c.value c.required).2.map Committed.newRev = outcome (t.call c).2 := by
  have hitem : s.deref a = t.view c.key := by rw [← view_of_owned ha, hview]
  have hkey : (t.view c.key).key = c.key := view_key ht.toHeapOk c.key
  unfold call
  rcases locked_cases s a isNew c.value c.required with ⟨kv, hcheck, he⟩ | ⟨hcheck, he⟩
  · rw [hitem] at hcheck
    obtain ⟨hres, hv, hd⟩ := set_refused ht hcheck
    rw [he, hres, hv, hd]
    exact ⟨hview, hvalues, rfl⟩
  · rw [hitem] at hcheck
    obtain ⟨hres, hv, hd⟩ := set_accepted ht hcheck
    rw [he, hres, hv, hd, view_writeItem hs _ ha, updateItem_eq, hitem, hkey, hview, hvalues]
    exact ⟨rfl, rfl, rfl⟩

theorem set_eq_finish (s : Store) (key : Bytes) (value : Option Bytes)
    (required : Option SetRequired) :
    s.set key value required = (s.update key value required).1.finish key s.currentRevision
      (s.update key value required).2 := by
  rcases set_cases s key value required with ⟨kv, hu, he⟩ | ⟨d, hu, he⟩
  · rw [he, hu]
    rfl
  · rw [he, hu]
    rfl

theorem finish_treeMap (s : Store) (key : Bytes) (rev : ℤ)
    (res : Except (Option KeyValue) Committed) : (s.finish key rev res).1.treeMap = s.treeMap := by
  cases res <;> rfl

/-- Keys keep their items. -/
theorem call_treeMap_mono (s : Store) (c : Call) {k : Bytes} {a : ℕ} (h : s.treeMap[k]? = some a) :
    (s.call c).1.treeMap[k]? = some a := by
  have htouch : (s.touch c.key).treeMap = (s.entry c.key).1.treeMap := by
    unfold touch
    split_ifs
    · exact treeMap_index _ _ _
    · rfl
  rw [call, set_eq_finish, finish_treeMap, update_eq_locked, locked_treeMap, htouch]
  exact entry_treeMap_mono s c.key h

theorem finish_bucket? (s : Store) (key : Bytes) (rev : ℤ)
    (res : Except (Option KeyValue) Committed) : (s.finish key rev res).1.bucket? = s.bucket? := by
  cases res <;> rfl

theorem finish_view (s : Store) (key : Bytes) (rev : ℤ)
    (res : Except (Option KeyValue) Committed) : (s.finish key rev res).1.view = s.view := by
  cases res <;> rfl

theorem finish_valuesByRevision (s : Store) (key : Bytes) (rev : ℤ)
    (res : Except (Option KeyValue) Committed) :
    (s.finish key rev res).1.valuesByRevision = s.valuesByRevision := by
  cases res <;> rfl

theorem finish_heapOk {s : Store} (hs : s.HeapOk) (key : Bytes) (rev : ℤ)
    (res : Except (Option KeyValue) Committed) : (s.finish key rev res).1.HeapOk := by
  cases res with
  | error kv => exact hs
  | ok d => exact ⟨hs.owned, hs.listed⟩

theorem finish_outcome (s : Store) (key : Bytes) (rev : ℤ)
    (res : Except (Option KeyValue) Committed) :
    outcome (s.finish key rev res).2 = res.map Committed.newRev := by
  cases res <;> rfl

end Store

namespace Concurrent

variable {calls : ℕ → Call}

/-- The steps of one call on its own are `set`. -/
theorem run_alone (c : Concurrent) (i : ℕ) (h : c.phases i = .idle) :
    ∃ trace, c.run calls trace = some ⟨(c.store.call (calls i)).1,
      Function.update c.phases i (.returned (c.store.call (calls i)).2)⟩ := by
  have hset : c.store.call (calls i) =
      (c.store.update (calls i).key (calls i).value (calls i).required).1.finish (calls i).key
        c.store.currentRevision
        (c.store.update (calls i).key (calls i).value (calls i).required).2 := Store.set_eq_finish ..
  rw [hset, Store.update_eq_locked]
  unfold Store.touch
  rcases Store.entry_cases c.store (calls i).key with ⟨a, _, he⟩ | ⟨_, he⟩
  · refine ⟨[.invoke i, .entry i, .lock i, .ret i], ?_⟩
    simp only [run, PartialRun.run, step, h, he, Function.update_self, Function.update_idem, Option.bind_some,
      Bool.false_eq_true, if_false]
  · refine ⟨[.invoke i, .entry i, .index i, .lock i, .ret i], ?_⟩
    simp only [run, PartialRun.run, step, h, he, Function.update_self, Function.update_idem, Option.bind_some,
      if_true]

/-! ### The indexes -/

/-- Pending calls hold the items of their keys, and an item that `prefix_map` does
not list has a call that will list it. -/
structure Tidy (calls : ℕ → Call) (c : Concurrent) : Prop where
  heapOk : c.store.HeapOk
  owned : ∀ i a, (c.phases i).item = some a → c.store.treeMap[(calls i).key]? = some a
  indexed : ∀ k a, c.store.treeMap[k]? = some a →
    c.store.bucket? (prefixSplit k).1 (prefixSplit k).2 = some a ∨
      ∃ i rev, (calls i).key = k ∧ c.phases i = .created rev a

theorem start_tidy {s : Store} (hs : s.WF) : (start s).Tidy calls := by
  refine ⟨hs.toHeapOk, ?_, ?_⟩
  · intro i a h
    contradiction
  · intro k a h
    exact Or.inl (hs.indexed k a h)

theorem item_update {phases : ℕ → SetPhase} {i j : ℕ} {phase : SetPhase} {a : ℕ}
    (h : (Function.update phases i phase j).item = some a) :
    (j = i ∧ phase.item = some a) ∨ (phases j).item = some a := by
  rw [Function.update_apply] at h
  split_ifs at h with hji
  · exact Or.inl ⟨hji, h⟩
  · exact Or.inr h

/-- Only the creator of an item stops waiting to list it. -/
theorem created_update {phases : ℕ → SetPhase} {i : ℕ} (phase : SetPhase) {k : Bytes} {a : ℕ}
    (hi : ∀ rev, phases i ≠ .created rev a)
    (h : ∃ j rev, (calls j).key = k ∧ phases j = .created rev a) :
    ∃ j rev, (calls j).key = k ∧ Function.update phases i phase j = .created rev a := by
  obtain ⟨j, rev, hk, hj⟩ := h
  have hne : j ≠ i := fun e => hi rev (e ▸ hj)
  exact ⟨j, rev, hk, by rw [Function.update_of_ne hne]; exact hj⟩

theorem Tidy.entry {c : Concurrent} (h : c.Tidy calls) {i : ℕ} {rev : ℤ}
    (hi : c.phases i = .started rev) :
    Tidy calls ⟨(c.store.entry (calls i).key).1, Function.update c.phases i
      (if (c.store.entry (calls i).key).2.2 then .created rev (c.store.entry (calls i).key).2.1
        else .ready rev (c.store.entry (calls i).key).2.1 false)⟩ := by
  have hcreated : ∀ a rev', c.phases i ≠ .created rev' a := by
    intro a rev' he
    rw [hi] at he
    contradiction
  refine ⟨Store.entry_heapOk h.heapOk _, ?_, ?_⟩
  · intro j a hj
    rcases item_update hj with ⟨rfl, ha⟩ | hj
    · have hown := Store.entry_owned c.store (calls j).key
      split_ifs at ha
      · cases ha
        exact hown
      · cases ha
        exact hown
    · exact Store.entry_treeMap_mono _ _ (h.owned j a hj)
  · intro k a ha
    rcases Store.entry_cases c.store (calls i).key with ⟨b, _, he⟩ | ⟨_, he⟩
    · rw [he] at ha ⊢
      exact (h.indexed k a ha).imp_right (created_update _ (hcreated a))
    · rw [he] at ha ⊢
      rw [getElem?_insert_bytes] at ha
      split_ifs at ha with hk
      · -- the new item is listed by the call itself
        cases ha
        exact Or.inr ⟨i, rev, hk, Function.update_self ..⟩
      · exact (h.indexed k a ha).imp_right (created_update _ (hcreated a))

theorem Tidy.index {c : Concurrent} (h : c.Tidy calls) {i : ℕ} {rev : ℤ} {b : ℕ}
    (hi : c.phases i = .created rev b) :
    Tidy calls ⟨c.store.index (calls i).key b, Function.update c.phases i (.ready rev b true)⟩ := by
  have hown := h.owned i b (by rw [hi]; rfl)
  refine ⟨Store.index_heapOk h.heapOk hown, ?_, ?_⟩
  · intro j a hj
    rcases item_update hj with ⟨rfl, ha⟩ | hj
    · cases ha
      exact hown
    · exact h.owned j a hj
  · intro k a ha
    dsimp only
    rw [Store.bucket?_index]
    by_cases hk : (calls i).key = k
    · rw [hk, if_pos rfl]
      rw [hk] at hown
      exact Or.inl (hown.symm.trans ha)
    · rw [if_neg (fun he => hk (prefixSplit_injective he))]
      refine (h.indexed k a ha).imp_right ?_
      rintro ⟨j, rev', hkj, hj⟩
      have hne : j ≠ i := fun e => hk (e ▸ hkj)
      exact ⟨j, rev', hkj, by rw [Function.update_of_ne hne]; exact hj⟩

/-- A step that changes neither index and takes no item. -/
theorem Tidy.frame {c : Concurrent} (h : c.Tidy calls) {i : ℕ} {s : Store} {phase : SetPhase}
    (hi : ∀ a rev, c.phases i ≠ .created rev a) (hs : s.HeapOk)
    (htree : s.treeMap = c.store.treeMap) (hbucket : s.bucket? = c.store.bucket?)
    (hitem : phase.item = none) : Tidy calls ⟨s, Function.update c.phases i phase⟩ := by
  refine ⟨hs, ?_, ?_⟩
  · intro j a hj
    rcases item_update hj with ⟨_, ha⟩ | hj
    · rw [hitem] at ha
      contradiction
    · dsimp only
      rw [htree]
      exact h.owned j a hj
  · intro k a ha
    dsimp only at ha ⊢
    rw [htree] at ha
    rw [hbucket]
    exact (h.indexed k a ha).imp_right (created_update _ (hi a))

theorem step_tidy {c c' : Concurrent} {a : SetAction} (h : c.Tidy calls)
    (hstep : c.step calls a = some c') : c'.Tidy calls := by
  have hne : ∀ {i : ℕ} {phase : SetPhase}, c.phases i = phase →
      (∀ a rev, phase ≠ .created rev a) → ∀ a rev, c.phases i ≠ .created rev a := by
    intro i phase hi hp a rev he
    exact hp a rev (hi.symm.trans he)
  rcases step_cases hstep with ⟨i, _, hi, rfl⟩ | ⟨i, rev, _, hi, rfl⟩ | ⟨i, rev, b, _, hi, rfl⟩ |
    ⟨i, rev, b, isNew, _, hi, rfl⟩ | ⟨i, rev, res, _, hi, rfl⟩
  · exact h.frame (hne hi (fun _ _ => SetPhase.noConfusion)) h.heapOk rfl rfl rfl
  · exact h.entry hi
  · exact h.index hi
  · have hown := h.owned i b (by rw [hi]; rfl)
    exact h.frame (hne hi (fun _ _ => SetPhase.noConfusion))
      (Store.locked_heapOk h.heapOk hown isNew _ _)
      (Store.locked_treeMap ..) (Store.locked_bucket? ..) rfl
  · exact h.frame (hne hi (fun _ _ => SetPhase.noConfusion)) (Store.finish_heapOk h.heapOk ..)
      (Store.finish_treeMap ..) (Store.finish_bucket? ..) rfl

end Concurrent
end MemEtcd
