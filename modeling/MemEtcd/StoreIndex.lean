import MemEtcd.Store

/-! The two indexes of the store. `tree_map` owns the item of every key;
`prefix_map` refers to the same items by bucket and suffix. A call under way may
have created an item that `prefix_map` does not list yet. -/
namespace MemEtcd

open Std (ExtTreeMap)

theorem getElem?_insert_bytes {β : Type} (m : ExtTreeMap Bytes β compare) (k a : Bytes) (v : β) :
    (m.insert k v)[a]? = if k = a then some v else m[a]? := by
  rw [ExtTreeMap.getElem?_insert]
  simp only [Std.LawfulEqCmp.compare_eq_iff_eq]

namespace Store

/-- The address that `prefix_map` holds for a bucket and a suffix. -/
def bucket? (s : Store) (pfx suffix : Bytes) : Option ℕ :=
  (s.prefixMap[pfx]?).bind (fun btree => btree[suffix]?)

/-- The item of a key, or the placeholder that `set` would create for it. -/
def view (s : Store) (key : Bytes) : TreeItem := (s.item? key).getD (TreeItem.placeholder key)

/-- Every address in the indexes is that of the key's own item. -/
structure HeapOk (s : Store) : Prop where
  owned : ∀ k a, s.treeMap[k]? = some a → a < s.items.length ∧ (s.deref a).key = k
  listed : ∀ p t a, s.bucket? p t = some a → ∃ k, prefixSplit k = (p, t) ∧ s.treeMap[k]? = some a

/-- Both indexes hold the same items. -/
structure WF (s : Store) : Prop extends HeapOk s where
  indexed : ∀ k a, s.treeMap[k]? = some a →
    s.bucket? (prefixSplit k).1 (prefixSplit k).2 = some a

theorem new_wf (wal : Option WalMode) : (new wal).WF := by
  have hb (p t : Bytes) : (new wal).bucket? p t = none := by simp [bucket?, new]
  have ht (k : Bytes) : (new wal).treeMap[k]? = none := by simp [new]
  refine ⟨⟨?_, ?_⟩, ?_⟩
  · intro k a h
    rw [ht] at h
    contradiction
  · intro p t a h
    rw [hb] at h
    contradiction
  · intro k a h
    rw [ht] at h
    contradiction

theorem view_key {s : Store} (hs : s.HeapOk) (k : Bytes) : (s.view k).key = k := by
  unfold view item?
  cases ha : s.treeMap[k]? with
  | none => rfl
  | some a => exact (hs.owned k a ha).2

theorem view_of_owned {s : Store} {k : Bytes} {a : ℕ} (h : s.treeMap[k]? = some a) :
    s.view k = s.deref a := by
  simp [view, item?, h]

theorem view_of_vacant {s : Store} {k : Bytes} (h : s.treeMap[k]? = none) :
    s.view k = TreeItem.placeholder k := by
  simp [view, item?, h]

theorem item?_of_owned {s : Store} {k : Bytes} {a : ℕ} (h : s.treeMap[k]? = some a) :
    s.item? k = some (s.view k) := by
  simp [view, item?, h]

theorem HeapOk.unique {s : Store} (hs : s.HeapOk) {k k' : Bytes} {a : ℕ}
    (h : s.treeMap[k]? = some a) (h' : s.treeMap[k']? = some a) : k = k' := by
  rw [← (hs.owned k a h).2, ← (hs.owned k' a h').2]

theorem bucket?_index (s : Store) (key : Bytes) (a : ℕ) (p t : Bytes) :
    (s.index key a).bucket? p t = if prefixSplit key = (p, t) then some a else s.bucket? p t := by
  unfold bucket? index
  rw [getElem?_insert_bytes]
  by_cases hp : (prefixSplit key).1 = p
  · subst hp
    rw [if_pos rfl, Option.bind_some, getElem?_insert_bytes]
    by_cases ht : (prefixSplit key).2 = t
    · subst ht
      rw [if_pos rfl, if_pos rfl]
    · rw [if_neg ht, if_neg (fun h => ht (congrArg Prod.snd h))]
      cases s.prefixMap[(prefixSplit key).1]? with
      | none => simp
      | some btree => rfl
  · rw [if_neg hp, if_neg (fun h => hp (congrArg Prod.fst h))]

@[simp] theorem treeMap_index (s : Store) (key : Bytes) (a : ℕ) :
    (s.index key a).treeMap = s.treeMap := rfl

@[simp] theorem items_index (s : Store) (key : Bytes) (a : ℕ) :
    (s.index key a).items = s.items := rfl

@[simp] theorem valuesByRevision_index (s : Store) (key : Bytes) (a : ℕ) :
    (s.index key a).valuesByRevision = s.valuesByRevision := rfl

theorem view_index (s : Store) (key : Bytes) (a : ℕ) : (s.index key a).view = s.view := rfl

theorem index_heapOk {s : Store} (hs : s.HeapOk) {key : Bytes} {a : ℕ}
    (h : s.treeMap[key]? = some a) : (s.index key a).HeapOk := by
  refine ⟨hs.owned, ?_⟩
  intro p t b hb
  rw [bucket?_index] at hb
  split_ifs at hb with hk
  · exact ⟨key, hk, by rw [treeMap_index, h, Option.some.inj hb]⟩
  · exact hs.listed p t b hb

/-! ### The entry of a key -/

theorem deref_append {s s' : Store} (item : TreeItem) {a : ℕ}
    (hl : a < s.items.length) (hi : s'.items = s.items ++ [item]) : s'.deref a = s.deref a := by
  unfold deref
  rw [hi, List.getD_eq_getElem?_getD, List.getElem?_append_left hl, List.getD_eq_getElem?_getD]

/-- `entry` finds the item of the key or creates a placeholder. -/
theorem entry_cases (s : Store) (key : Bytes) :
    (∃ a, s.treeMap[key]? = some a ∧ s.entry key = (s, a, false)) ∨
    (s.treeMap[key]? = none ∧ s.entry key =
      ({ s with items := s.items ++ [TreeItem.placeholder key],
                treeMap := s.treeMap.insert key s.items.length }, s.items.length, true)) := by
  unfold entry
  cases h : s.treeMap[key]? with
  | none => exact Or.inr ⟨rfl, rfl⟩
  | some a => exact Or.inl ⟨a, rfl, rfl⟩

theorem entry_owned (s : Store) (key : Bytes) :
    (s.entry key).1.treeMap[key]? = some (s.entry key).2.1 := by
  rcases entry_cases s key with ⟨a, ha, he⟩ | ⟨_, he⟩
  · rw [he]
    exact ha
  · rw [he, getElem?_insert_bytes, if_pos rfl]

theorem entry_isNew (s : Store) (key : Bytes) :
    (s.entry key).2.2 = (s.treeMap[key]?).isNone := by
  rcases entry_cases s key with ⟨a, ha, he⟩ | ⟨hn, he⟩
  · rw [he, ha]
    rfl
  · rw [he, hn]
    rfl

theorem entry_treeMap_mono (s : Store) (key : Bytes) {k : Bytes} {a : ℕ}
    (h : s.treeMap[k]? = some a) : (s.entry key).1.treeMap[k]? = some a := by
  rcases entry_cases s key with ⟨_, _, he⟩ | ⟨hn, he⟩
  · rw [he]
    exact h
  · have hne : key ≠ k := fun e => by rw [e, h] at hn; contradiction
    rw [he, getElem?_insert_bytes, if_neg hne]
    exact h

theorem entry_treeMap_isSome (s : Store) (key k : Bytes) :
    ((s.entry key).1.treeMap[k]?).isSome ↔ (s.treeMap[k]?).isSome ∨ k = key := by
  rcases entry_cases s key with ⟨a, ha, he⟩ | ⟨_, he⟩
  · rw [he]
    constructor
    · exact Or.inl
    · rintro (h | rfl)
      · exact h
      · rw [ha]
        rfl
  · rw [he, getElem?_insert_bytes]
    by_cases hk : key = k
    · simp [hk]
    · simp [hk, Ne.symm hk]

theorem entry_heapOk {s : Store} (hs : s.HeapOk) (key : Bytes) : (s.entry key).1.HeapOk := by
  rcases entry_cases s key with ⟨_, _, he⟩ | ⟨hn, he⟩
  · rw [he]
    exact hs
  · have hmono := fun k a => entry_treeMap_mono s key (k := k) (a := a)
    rw [he] at hmono ⊢
    refine ⟨?_, ?_⟩
    · intro k a h
      rw [getElem?_insert_bytes] at h
      split_ifs at h with hk
      · cases Option.some.inj h
        refine ⟨by simp, ?_⟩
        simp [deref, TreeItem.placeholder, hk]
      · obtain ⟨hl, hkey⟩ := hs.owned k a h
        refine ⟨by simp only [List.length_append, List.length_singleton]; omega, ?_⟩
        rw [deref_append (TreeItem.placeholder key) hl rfl]
        exact hkey
    · intro p t a h
      obtain ⟨k, hk, ha⟩ := hs.listed p t a h
      exact ⟨k, hk, hmono k a ha⟩

/-- Creating a placeholder does not change what a `set` would find. -/
theorem view_entry {s : Store} (hs : s.HeapOk) (key : Bytes) : (s.entry key).1.view = s.view := by
  rcases entry_cases s key with ⟨_, _, he⟩ | ⟨hn, he⟩
  · rw [he]
  · funext k
    rw [he]
    unfold view item?
    simp only [getElem?_insert_bytes]
    by_cases hk : key = k
    · subst hk
      simp [hn, deref]
    · rw [if_neg hk]
      cases ha : s.treeMap[k]? with
      | none => rfl
      | some a =>
        have hl := (hs.owned k a ha).1
        simp only [Option.map_some, Option.getD_some]
        exact deref_append (TreeItem.placeholder key) hl rfl

theorem entry_valuesByRevision (s : Store) (key : Bytes) :
    (s.entry key).1.valuesByRevision = s.valuesByRevision := by
  rcases entry_cases s key with ⟨_, _, he⟩ | ⟨_, he⟩ <;> rw [he]

/-! ### Writing an item -/

/-- The store after a write through an `Arc`. -/
def writeItem (s : Store) (a : ℕ) (item : TreeItem) (values : BlockDeque Value storeBlock) :
    Store :=
  { s with items := s.items.set a item, valuesByRevision := values }

theorem deref_writeItem (s : Store) (a b : ℕ) (item : TreeItem)
    (values : BlockDeque Value storeBlock) (h : a < s.items.length) :
    (s.writeItem a item values).deref b = if a = b then item else s.deref b := by
  unfold deref writeItem
  simp only [List.getD_eq_getElem?_getD, List.getElem?_set]
  split_ifs with hab
  · rfl
  · rfl

theorem writeItem_heapOk {s : Store} (hs : s.HeapOk) {key : Bytes} {a : ℕ} {item : TreeItem}
    (values : BlockDeque Value storeBlock) (h : s.treeMap[key]? = some a)
    (hi : item.key = key) : (s.writeItem a item values).HeapOk := by
  refine ⟨?_, hs.listed⟩
  intro k b hb
  have hlt := (hs.owned key a h).1
  refine ⟨by simpa [writeItem] using (hs.owned k b hb).1, ?_⟩
  rw [deref_writeItem s a b item values hlt]
  split_ifs with hab
  · rw [hi]
    exact hs.unique h (by rw [hab]; exact hb)
  · exact (hs.owned k b hb).2

theorem view_writeItem {s : Store} (hs : s.HeapOk) {key : Bytes} {a : ℕ} {item : TreeItem}
    (values : BlockDeque Value storeBlock) (h : s.treeMap[key]? = some a) :
    (s.writeItem a item values).view = Function.update s.view key item := by
  have hlt := (hs.owned key a h).1
  funext k
  rw [Function.update_apply]
  cases hb : s.treeMap[k]? with
  | none =>
    have hne : k ≠ key := fun e => by rw [e, h] at hb; contradiction
    rw [if_neg hne]
    unfold view item?
    change (Option.map _ s.treeMap[k]?).getD _ = _
    rw [hb]
    rfl
  | some b =>
    have hb' : (s.writeItem a item values).treeMap[k]? = some b := hb
    rw [view_of_owned hb', view_of_owned hb, deref_writeItem s a b item values hlt]
    by_cases hab : a = b
    · rw [if_pos hab, if_pos (hs.unique hb (by rw [← hab]; exact h))]
    · rw [if_neg hab, if_neg]
      rintro rfl
      exact hab (Option.some.inj (h.symm.trans hb))

/-! ### Adding an item -/

def addItem (s : Store) (item : TreeItem) (values : BlockDeque Value storeBlock) : Store :=
  let a := s.items.length
  let s := { s with items := s.items ++ [item], valuesByRevision := values }
  let s := s.index item.key a
  { s with treeMap := s.treeMap.insert item.key a }

theorem addItem_treeMap (s : Store) (item : TreeItem) (values : BlockDeque Value storeBlock)
    (k : Bytes) :
    (s.addItem item values).treeMap[k]? =
      if item.key = k then some s.items.length else s.treeMap[k]? :=
  getElem?_insert_bytes s.treeMap item.key k s.items.length

theorem addItem_bucket? (s : Store) (item : TreeItem) (values : BlockDeque Value storeBlock)
    (p t : Bytes) :
    (s.addItem item values).bucket? p t =
      if prefixSplit item.key = (p, t) then some s.items.length else s.bucket? p t :=
  bucket?_index { s with items := s.items ++ [item], valuesByRevision := values } item.key _ p t

theorem addItem_deref (s : Store) (item : TreeItem) (values : BlockDeque Value storeBlock) :
    (s.addItem item values).deref s.items.length = item := by
  simp [deref, addItem]

theorem addItem_wf {s : Store} (hs : s.WF) (item : TreeItem)
    (values : BlockDeque Value storeBlock) : (s.addItem item values).WF := by
  have hlen : (s.addItem item values).items.length = s.items.length + 1 := by
    simp [addItem]
  refine ⟨⟨?_, ?_⟩, ?_⟩
  · intro k a h
    rw [addItem_treeMap] at h
    split_ifs at h with hk
    · cases Option.some.inj h
      exact ⟨by omega, by rw [addItem_deref]; exact hk⟩
    · obtain ⟨hl, hkey⟩ := hs.owned k a h
      refine ⟨by omega, ?_⟩
      rw [deref_append item hl (show (s.addItem item values).items = s.items ++ [item] from rfl)]
      exact hkey
  -- the bucket of the new item lists the new address, all others are as before
  · intro p t a h
    rw [addItem_bucket?] at h
    split_ifs at h with hk
    · exact ⟨item.key, hk, by rw [addItem_treeMap, if_pos rfl, h]⟩
    · obtain ⟨k, hkp, ha⟩ := hs.listed p t a h
      have hne : item.key ≠ k := fun e => hk (by rw [e]; exact hkp)
      exact ⟨k, hkp, by rw [addItem_treeMap, if_neg hne]; exact ha⟩
  · intro k a h
    rw [addItem_treeMap] at h
    rw [addItem_bucket?]
    split_ifs at h with hk
    · rw [hk, if_pos rfl, h]
    · rw [if_neg (fun e => hk (prefixSplit_injective e))]
      exact hs.indexed k a h

theorem view_addItem {s : Store} (hs : s.HeapOk) (item : TreeItem)
    (values : BlockDeque Value storeBlock) :
    (s.addItem item values).view = Function.update s.view item.key item := by
  funext k
  rw [Function.update_apply]
  have ht := addItem_treeMap s item values k
  split_ifs with hk
  · rw [hk, if_pos rfl] at ht
    rw [hk, view_of_owned ht, addItem_deref]
  · rw [if_neg (Ne.symm hk)] at ht
    cases ha : s.treeMap[k]? with
    | none =>
      rw [ha] at ht
      simp [view, item?, ha, ht]
    | some a =>
      rw [ha] at ht
      rw [view_of_owned ht, view_of_owned ha]
      exact deref_append item (hs.owned k a ha).1 rfl

end Store
end MemEtcd
