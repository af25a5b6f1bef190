import MemEtcd.StoreIndex

/-! What one write does to the store: the item of its key and the revision
array change, the rest of the key space stays. -/
namespace MemEtcd

open VersionLog (Cell)

/-! ### The revision array under a write -/

theorem at?_push_set (d : BlockDeque Value storeBlock) (p v : Value) (k : ℕ) :
    ((d.push p).2.set d.latestRevision v).2.at? k =
      if k = d.latestRevision then some v else d.at? k := by
  have hb : d.earliestRevision ≤ d.latestRevision := Nat.le_add_left _ _
  rw [BlockDeque.at?_set, BlockDeque.at?_push]
  simp only [BlockDeque.earliestRevision_push, BlockDeque.latestRevision_push]
  by_cases hk : k = d.latestRevision
  · rw [if_pos ⟨hk, hb, by omega⟩, if_pos hk]
  · rw [if_neg (fun h => hk h.1), if_neg hk, if_neg hk]

/-- The array after the value `v` got the next revision. -/
def commitValue (d : BlockDeque Value storeBlock) (v : Value) : BlockDeque Value storeBlock :=
  ((d.push placeholderValue).2.set d.latestRevision v).2

@[simp] theorem latestRevision_commitValue (d : BlockDeque Value storeBlock) (v : Value) :
    (commitValue d v).latestRevision = d.latestRevision + 1 := by simp [commitValue]

@[simp] theorem earliestRevision_commitValue (d : BlockDeque Value storeBlock) (v : Value) :
    (commitValue d v).earliestRevision = d.earliestRevision := by simp [commitValue]

theorem at?_commitValue (d : BlockDeque Value storeBlock) (v : Value) (k : ℕ) :
    (commitValue d v).at? k = if k = d.latestRevision then some v else d.at? k :=
  at?_push_set d placeholderValue v k

/-- The value `set` gives to a key is the next version of its cell. -/
theorem newValue_eq_next (c : Value) (rev : ℤ) (value : Option Bytes) :
    (if c.value.isSome then (⟨c.createRevision, rev, c.version + 1, value⟩ : Value)
      else ⟨rev, rev, 1, value⟩) = c.next rev value := by
  unfold Cell.next
  cases c.value <;> rfl

theorem updateItem_eq (item : TreeItem) (d : BlockDeque Value storeBlock) (value : Option Bytes)
    (isNewItem : Bool) :
    updateItem item d value isNewItem =
      (⟨item.key, drainRevisions item.revisions d.earliestRevision ++ [(d.latestRevision + 1 : ℤ)],
          item.latestValue.next (d.latestRevision + 1) value⟩,
        commitValue d (item.latestValue.next (d.latestRevision + 1) value),
        ⟨d.latestRevision + 1, item.key, item.latestValue.next (d.latestRevision + 1) value,
          if isNewItem then none else some item.latestValue⟩) := by
  have hi : ((d.latestRevision : ℤ) + 1).toNat - 1 = d.latestRevision := by omega
  simp only [updateItem, BlockDeque.push_fst, newValue_eq_next, hi]
  rfl

/-- The update of `set_for_replay` is that of `set` up to the dropped revisions. -/
theorem replayItem_eq (item : TreeItem) (d : BlockDeque Value storeBlock) (value : Option Bytes) :
    Store.replayItem item d value =
      (⟨item.key, item.revisions ++ [(d.latestRevision + 1 : ℤ)],
          item.latestValue.next (d.latestRevision + 1) value⟩,
        commitValue d (item.latestValue.next (d.latestRevision + 1) value)) := by
  have hi : ((d.latestRevision : ℤ) + 1).toNat - 1 = d.latestRevision := by omega
  simp only [Store.replayItem, BlockDeque.push_fst, newValue_eq_next, hi]
  rfl

namespace Store

/-- The section under the lock either refuses or writes the item. -/
theorem locked_cases (s : Store) (a : ℕ) (isNew : Bool) (value : Option Bytes)
    (required : Option SetRequired) :
    (∃ kv, checkItem (s.deref a) value required = .error kv ∧
      s.locked a isNew value required = (s, .error kv)) ∨
    (checkItem (s.deref a) value required = .ok () ∧
      s.locked a isNew value required =
        (s.writeItem a (updateItem (s.deref a) s.valuesByRevision value isNew).1
            (updateItem (s.deref a) s.valuesByRevision value isNew).2.1,
          .ok (updateItem (s.deref a) s.valuesByRevision value isNew).2.2)) := by
  simp only [locked]
  cases h : checkItem (s.deref a) value required with
  | error kv => exact Or.inl ⟨kv, rfl, rfl⟩
  | ok u => exact Or.inr ⟨rfl, rfl⟩

theorem locked_treeMap (s : Store) (a : ℕ) (isNew : Bool) (value : Option Bytes)
    (required : Option SetRequired) :
    (s.locked a isNew value required).1.treeMap = s.treeMap := by
  rcases locked_cases s a isNew value required with ⟨kv, _, he⟩ | ⟨_, he⟩
  · rw [he]
  · rw [he]
    rfl

theorem locked_bucket? (s : Store) (a : ℕ) (isNew : Bool) (value : Option Bytes)
    (required : Option SetRequired) :
    (s.locked a isNew value required).1.bucket? = s.bucket? := by
  rcases locked_cases s a isNew value required with ⟨kv, _, he⟩ | ⟨_, he⟩
  · rw [he]
  · rw [he]
    rfl

theorem locked_heapOk {s : Store} (hs : s.HeapOk) {key : Bytes} {a : ℕ}
    (ha : s.treeMap[key]? = some a) (isNew : Bool) (value : Option Bytes)
    (required : Option SetRequired) : (s.locked a isNew value required).1.HeapOk := by
  rcases locked_cases s a isNew value required with ⟨kv, _, he⟩ | ⟨_, he⟩
  · rw [he]
    exact hs
  · rw [he]
    apply writeItem_heapOk hs _ ha
    rw [updateItem_eq]
    exact (hs.owned key a ha).2

theorem locked_error {s : Store} {a : ℕ} {isNew : Bool} {value : Option Bytes}
    {required : Option SetRequired} {kv : Option KeyValue}
    (h : checkItem (s.deref a) value required = .error kv) :
    s.locked a isNew value required = (s, .error kv) := by
  rcases locked_cases s a isNew value required with ⟨kv', hc, he⟩ | ⟨hc, _⟩
  · rw [h] at hc
    cases hc
    exact he
  · rw [h] at hc
    contradiction

/-- The section of an accepted call gives its key the next version, at the next
revision. -/
theorem locked_ok {s : Store} (hs : s.HeapOk) {key : Bytes} {a : ℕ}
    (ha : s.treeMap[key]? = some a) (isNew : Bool) {value : Option Bytes}
    {required : Option SetRequired} (h : checkItem (s.view key) value required = .ok ()) :
    (s.locked a isNew value required).2 = .ok
        ⟨s.valuesByRevision.latestRevision + 1, key,
          (s.view key).latestValue.next (s.valuesByRevision.latestRevision + 1) value,
          if isNew then none else some (s.view key).latestValue⟩ ∧
      (s.locked a isNew value required).1.view = Function.update s.view key
        ⟨key, drainRevisions (s.view key).revisions s.valuesByRevision.earliestRevision ++
            [(s.valuesByRevision.latestRevision + 1 : ℤ)],
          (s.view key).latestValue.next (s.valuesByRevision.latestRevision + 1) value⟩ ∧
      (s.locked a isNew value required).1.valuesByRevision = commitValue s.valuesByRevision
        ((s.view key).latestValue.next (s.valuesByRevision.latestRevision + 1) value) := by
  have hk := view_key hs key
  have hd : s.deref a = s.view key := (view_of_owned ha).symm
  rcases locked_cases s a isNew value required with ⟨kv, hc, _⟩ | ⟨_, he⟩
  · rw [hd, h] at hc
    contradiction
  · rw [he, hd, updateItem_eq, hk]
    exact ⟨rfl, view_writeItem hs _ ha, rfl⟩

/-- The store a call of `set` works on: the key has an item in both indexes. -/
def touch (s : Store) (key : Bytes) : Store :=
  if (s.entry key).2.2 then (s.entry key).1.index key (s.entry key).2.1 else (s.entry key).1

theorem update_eq_locked (s : Store) (key : Bytes) (value : Option Bytes)
    (required : Option SetRequired) :
    s.update key value required =
      (s.touch key).locked (s.entry key).2.1 (s.entry key).2.2 value required := rfl

theorem touch_owned (s : Store) (key : Bytes) :
    (s.touch key).treeMap[key]? = some (s.entry key).2.1 := by
  unfold touch
  split_ifs
  · exact entry_owned s key
  · exact entry_owned s key

theorem touch_treeMap_isSome (s : Store) (key k : Bytes) :
    ((s.touch key).treeMap[k]?).isSome ↔ (s.treeMap[k]?).isSome ∨ k = key := by
  rw [← entry_treeMap_isSome]
  unfold touch
  split_ifs <;> rfl

theorem touch_valuesByRevision (s : Store) (key : Bytes) :
    (s.touch key).valuesByRevision = s.valuesByRevision := by
  rw [← entry_valuesByRevision s key]
  unfold touch
  split_ifs <;> rfl

theorem view_touch {s : Store} (hs : s.HeapOk) (key : Bytes) : (s.touch key).view = s.view := by
  rw [← view_entry hs key]
  unfold touch
  split_ifs <;> rfl

theorem touch_wf {s : Store} (hs : s.WF) (key : Bytes) : (s.touch key).WF := by
  unfold touch
  rcases entry_cases s key with ⟨a, _, he⟩ | ⟨hn, he⟩
  · rw [he]
    exact hs
  · have hh := entry_heapOk hs.toHeapOk key
    have ho := entry_owned s key
    have hm := fun k a => entry_treeMap_mono s key (k := k) (a := a)
    rw [he] at hh ho hm ⊢
    simp only [if_true]
    refine ⟨index_heapOk hh ho, ?_⟩
    intro k a h
    rw [bucket?_index]
    by_cases hk : prefixSplit key = prefixSplit k
    · rw [if_pos (by rw [hk])]
      rw [treeMap_index, ← prefixSplit_injective hk] at h
      exact (ho.symm.trans h)
    · have hne : key ≠ k := fun e => hk (by rw [e])
      rw [if_neg hk]
      rw [treeMap_index, getElem?_insert_bytes, if_neg hne] at h
      exact hs.indexed k a h

theorem deref_touch {s : Store} (hs : s.HeapOk) (key : Bytes) :
    (s.touch key).deref (s.entry key).2.1 = s.view key := by
  rw [← view_of_owned (touch_owned s key), view_touch hs]

/-- A call of `set` before its notification: it fails and only touches its key,
or it writes the next version of the key's cell. -/
theorem update_cases {s : Store} (hs : s.WF) (key : Bytes) (value : Option Bytes)
    (required : Option SetRequired) :
    (∃ kv, checkItem (s.view key) value required = .error kv ∧
      s.update key value required = (s.touch key, .error kv)) ∨
    (checkItem (s.view key) value required = .ok () ∧ ∃ c,
      (s.update key value required).2 = .ok c ∧
      c = (updateItem (s.view key) s.valuesByRevision value (s.treeMap[key]?).isNone).2.2 ∧
      (s.update key value required).1 =
        (s.touch key).writeItem (s.entry key).2.1
          (updateItem (s.view key) s.valuesByRevision value true).1
          (updateItem (s.view key) s.valuesByRevision value true).2.1) := by
  have hd := deref_touch hs.toHeapOk key
  have hv := touch_valuesByRevision s key
  rw [update_eq_locked]
  rcases locked_cases (s.touch key) (s.entry key).2.1 (s.entry key).2.2 value required with
    ⟨kv, hc, he⟩ | ⟨hc, he⟩
  · rw [hd] at hc
    exact Or.inl ⟨kv, hc, he⟩
  · rw [hd] at hc
    rw [hd, hv] at he
    refine Or.inr ⟨hc, _, by rw [he], ?_, ?_⟩
    · rw [entry_isNew]
    · rw [he, updateItem_eq, updateItem_eq]

theorem update_wf {s : Store} (hs : s.WF) (key : Bytes) (value : Option Bytes)
    (required : Option SetRequired) : (s.update key value required).1.WF := by
  have ht := touch_wf hs key
  rcases update_cases hs key value required with ⟨kv, _, he⟩ | ⟨_, c, _, _, he⟩
  · rw [he]
    exact ht
  · rw [he]
    refine ⟨writeItem_heapOk ht.toHeapOk _ (touch_owned s key) ?_, ht.indexed⟩
    rw [updateItem_eq]
    exact view_key hs.toHeapOk key

theorem update_treeMap_isSome {s : Store} (hs : s.WF) (key : Bytes) (value : Option Bytes)
    (required : Option SetRequired) (k : Bytes) :
    ((s.update key value required).1.treeMap[k]?).isSome ↔ (s.treeMap[k]?).isSome ∨ k = key := by
  rcases update_cases hs key value required with ⟨kv, _, he⟩ | ⟨_, c, _, _, he⟩
  · rw [he]
    exact touch_treeMap_isSome s key k
  · rw [he]
    exact touch_treeMap_isSome s key k

theorem update_error {s : Store} (hs : s.WF) {key : Bytes} {value : Option Bytes}
    {required : Option SetRequired} {kv : Option KeyValue}
    (h : checkItem (s.view key) value required = .error kv) :
    (s.update key value required).2 = .error kv ∧
      (s.update key value required).1.view = s.view ∧
      (s.update key value required).1.valuesByRevision = s.valuesByRevision := by
  rcases update_cases hs key value required with ⟨kv', hc, he⟩ | ⟨hc, _⟩
  · rw [h] at hc
    cases hc
    rw [he]
    exact ⟨rfl, view_touch hs.toHeapOk key, touch_valuesByRevision s key⟩
  · rw [h] at hc
    contradiction

theorem update_ok {s : Store} (hs : s.WF) {key : Bytes} {value : Option Bytes}
    {required : Option SetRequired} (h : checkItem (s.view key) value required = .ok ()) :
    (s.update key value required).2 = .ok
        ⟨s.valuesByRevision.latestRevision + 1, key,
          (s.view key).latestValue.next (s.valuesByRevision.latestRevision + 1) value,
          if (s.treeMap[key]?).isNone then none else some (s.view key).latestValue⟩ ∧
      (s.update key value required).1.view = Function.update s.view key
        ⟨key, drainRevisions (s.view key).revisions s.valuesByRevision.earliestRevision ++
            [(s.valuesByRevision.latestRevision + 1 : ℤ)],
          (s.view key).latestValue.next (s.valuesByRevision.latestRevision + 1) value⟩ ∧
      (s.update key value required).1.valuesByRevision = commitValue s.valuesByRevision
        ((s.view key).latestValue.next (s.valuesByRevision.latestRevision + 1) value) := by
  have hview := view_touch hs.toHeapOk key
  rw [← hview] at h
  have hok := locked_ok (touch_wf hs key).toHeapOk (touch_owned s key) (s.entry key).2.2 h
  rw [hview, touch_valuesByRevision, entry_isNew] at hok
  rw [update_eq_locked, entry_isNew]
  exact hok

/-- `t` has the items and the revision array of `s`. -/
structure SameData (s t : Store) : Prop where
  items : t.items = s.items
  treeMap : t.treeMap = s.treeMap
  prefixMap : t.prefixMap = s.prefixMap
  valuesByRevision : t.valuesByRevision = s.valuesByRevision

theorem SameData.deref {s t : Store} (h : SameData s t) : t.deref = s.deref := by
  funext a
  unfold Store.deref
  rw [h.items]

theorem SameData.view {s t : Store} (h : SameData s t) : t.view = s.view := by
  funext k
  unfold Store.view item?
  rw [h.treeMap, h.deref]

theorem SameData.bucket? {s t : Store} (h : SameData s t) : t.bucket? = s.bucket? := by
  funext p t'
  unfold Store.bucket?
  rw [h.prefixMap]

theorem SameData.heapOk {s t : Store} (h : SameData s t) (hs : s.HeapOk) : t.HeapOk := by
  refine ⟨?_, ?_⟩
  · rw [h.treeMap, h.items, h.deref]
    exact hs.owned
  · rw [h.bucket?, h.treeMap]
    exact hs.listed

theorem SameData.wf {s t : Store} (h : SameData s t) (hs : s.WF) : t.WF := by
  refine ⟨h.heapOk hs.toHeapOk, ?_⟩
  rw [h.bucket?, h.treeMap]
  exact hs.indexed

/-- `t` has the watchers, the enqueued jobs and the WAL mode of `s`. -/
structure SameNotify (s t : Store) : Prop where
  watchers : t.watchers = s.watchers
  watchCounter : t.watchCounter = s.watchCounter
  notifyTx : t.notifyTx = s.notifyTx
  wal : t.wal = s.wal

theorem SameNotify.trans {s t u : Store} (h : SameNotify s t) (h' : SameNotify t u) :
    SameNotify s u :=
  ⟨h'.watchers.trans h.watchers, h'.watchCounter.trans h.watchCounter,
    h'.notifyTx.trans h.notifyTx, h'.wal.trans h.wal⟩

theorem entry_sameNotify (s : Store) (key : Bytes) : SameNotify s (s.entry key).1 := by
  rcases entry_cases s key with ⟨a, _, he⟩ | ⟨_, he⟩
  · rw [he]
    exact ⟨rfl, rfl, rfl, rfl⟩
  · rw [he]
    exact ⟨rfl, rfl, rfl, rfl⟩

theorem index_sameNotify (s : Store) (key : Bytes) (a : ℕ) : SameNotify s (s.index key a) :=
  ⟨rfl, rfl, rfl, rfl⟩

theorem locked_sameNotify (s : Store) (a : ℕ) (isNew : Bool) (value : Option Bytes)
    (required : Option SetRequired) : SameNotify s (s.locked a isNew value required).1 := by
  rcases locked_cases s a isNew value required with ⟨kv, _, he⟩ | ⟨_, he⟩
  · rw [he]
    exact ⟨rfl, rfl, rfl, rfl⟩
  · rw [he]
    exact ⟨rfl, rfl, rfl, rfl⟩

theorem touch_sameNotify (s : Store) (key : Bytes) : SameNotify s (s.touch key) := by
  unfold touch
  split_ifs
  · exact (s.entry_sameNotify key).trans (index_sameNotify _ _ _)
  · exact s.entry_sameNotify key

theorem update_sameNotify (s : Store) (key : Bytes) (value : Option Bytes)
    (required : Option SetRequired) : SameNotify s (s.update key value required).1 :=
  (s.touch_sameNotify key).trans (locked_sameNotify _ _ _ _ _)

/-- Every successful call takes the next revision when it has the lock, in any store. -/
theorem locked_revision (s : Store) (a : ℕ) (isNew : Bool) (value : Option Bytes)
    (required : Option SetRequired) :
    (∃ kv, s.locked a isNew value required = (s, .error kv)) ∨
    (∃ c, (s.locked a isNew value required).2 = .ok c ∧
      c.newRev = s.valuesByRevision.latestRevision + 1 ∧ c.key = (s.deref a).key ∧
      c.value.modRevision = c.newRev ∧
      (s.locked a isNew value required).1.valuesByRevision =
        commitValue s.valuesByRevision c.value) := by
  rcases locked_cases s a isNew value required with ⟨kv, _, he⟩ | ⟨_, he⟩
  · exact Or.inl ⟨kv, he⟩
  · rw [he, updateItem_eq]
    exact Or.inr ⟨_, rfl, rfl, rfl, Cell.next_modRevision _ _ _, rfl⟩

/-- Every successful call takes the next revision, in any store. -/
theorem update_revision (s : Store) (key : Bytes) (value : Option Bytes)
    (required : Option SetRequired) :
    (∃ kv, (s.update key value required).2 = .error kv ∧
      (s.update key value required).1.valuesByRevision = s.valuesByRevision) ∨
    (∃ c, (s.update key value required).2 = .ok c ∧
      c.newRev = s.valuesByRevision.latestRevision + 1 ∧ c.value.modRevision = c.newRev ∧
      (s.update key value required).1.valuesByRevision =
        commitValue s.valuesByRevision c.value) := by
  rw [update_eq_locked]
  have hv := touch_valuesByRevision s key
  rcases (s.touch key).locked_revision (s.entry key).2.1 (s.entry key).2.2 value required with
    ⟨kv, he⟩ | ⟨c, he, hrev, _, hmod, hc⟩
  · rw [he]
    exact Or.inl ⟨kv, rfl, hv⟩
  · rw [hv] at hrev hc
    exact Or.inr ⟨c, he, hrev, hmod, hc⟩

/-! ### `set` as a whole -/

/-- `set` is the update followed by the notification. -/
theorem set_cases (s : Store) (key : Bytes) (value : Option Bytes)
    (required : Option SetRequired) :
    (∃ kv, (s.update key value required).2 = .error kv ∧
      s.set key value required =
        ((s.update key value required).1, .error (s.currentRevision, kv))) ∨
    (∃ c, (s.update key value required).2 = .ok c ∧
      s.set key value required =
        ((s.update key value required).1.notifyWatchers c (prefixSplit key).1, .ok c.newRev)) := by
  unfold set
  generalize s.update key value required = res
  obtain ⟨s', kv | c⟩ := res
  · exact Or.inl ⟨kv, rfl, rfl⟩
  · exact Or.inr ⟨c, rfl, rfl⟩

theorem notifyWatchers_wf {s : Store} (hs : s.WF) (c : Committed) (pfx : Bytes) :
    (s.notifyWatchers c pfx).WF := ⟨⟨hs.owned, hs.listed⟩, hs.indexed⟩

theorem set_wf {s : Store} (hs : s.WF) (key : Bytes) (value : Option Bytes)
    (required : Option SetRequired) : (s.set key value required).1.WF := by
  have hu := update_wf hs key value required
  rcases set_cases s key value required with ⟨kv, _, he⟩ | ⟨c, _, he⟩
  · rw [he]
    exact hu
  · rw [he]
    exact notifyWatchers_wf hu c _

/-- A refused `set` reports the revision at its start. -/
theorem set_refused {s : Store} (hs : s.WF) {key : Bytes} {value : Option Bytes}
    {required : Option SetRequired} {kv : Option KeyValue}
    (h : checkItem (s.view key) value required = .error kv) :
    (s.set key value required).2 = .error (s.currentRevision, kv) ∧
      (s.set key value required).1.view = s.view ∧
      (s.set key value required).1.valuesByRevision = s.valuesByRevision := by
  obtain ⟨hr, hview, hd⟩ := update_error hs h
  rcases set_cases s key value required with ⟨kv', hkv, he⟩ | ⟨d, hkv, _⟩
  · rw [hr] at hkv
    cases hkv
    rw [he]
    exact ⟨rfl, hview, hd⟩
  · rw [hr] at hkv
    contradiction

/-- An accepted `set` gives its key the next version, at the next revision. -/
theorem set_accepted {s : Store} (hs : s.WF) {key : Bytes} {value : Option Bytes}
    {required : Option SetRequired} (h : checkItem (s.view key) value required = .ok ()) :
    (s.set key value required).2 = .ok (s.currentRevision + 1) ∧
      (s.set key value required).1.view = Function.update s.view key
        ⟨key, drainRevisions (s.view key).revisions s.valuesByRevision.earliestRevision ++
            [(s.valuesByRevision.latestRevision + 1 : ℤ)],
          (s.view key).latestValue.next (s.valuesByRevision.latestRevision + 1) value⟩ ∧
      (s.set key value required).1.valuesByRevision = commitValue s.valuesByRevision
        ((s.view key).latestValue.next (s.valuesByRevision.latestRevision + 1) value) := by
  obtain ⟨hr, hview, hd⟩ := update_ok hs h
  rcases set_cases s key value required with ⟨kv', hkv, _⟩ | ⟨d, hkv, he⟩
  · rw [hr] at hkv
    contradiction
  · rw [hr] at hkv
    cases hkv
    rw [he]
    exact ⟨rfl, hview, hd⟩

theorem set_treeMap_isSome {s : Store} (hs : s.WF) (key : Bytes) (value : Option Bytes)
    (required : Option SetRequired) (k : Bytes) :
    ((s.set key value required).1.treeMap[k]?).isSome ↔ (s.treeMap[k]?).isSome ∨ k = key := by
  rw [← update_treeMap_isSome hs key value required k]
  rcases set_cases s key value required with ⟨kv, _, he⟩ | ⟨c, _, he⟩
  · rw [he]
  · rw [he]
    rfl

end Store
end MemEtcd
