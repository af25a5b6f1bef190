import MemEtcd.Bookkeeping

/-! Both indexes over whole runs. `set`, `set_for_replay` and the import of a snapshot
insert into `tree_map` and `prefix_map` one after the other, and a call that fails has
inserted its key as well; between the calls the two hold the same items. -/
namespace MemEtcd

/-- What may happen to the keys of a store. An imported snapshot is any list of
entries, whichever store it may come from. -/
inductive Mutation where
  | operation (op : Operation)
  | load (entries : List SnapshotEntry)
  deriving DecidableEq, Repr

namespace Store

def mutate (s : Store) : Mutation → Store
  | .operation op => (s.perform op).1
  | .load entries => s.importSnapshotData entries

def mutateAll (s : Store) (mutations : List Mutation) : Store := mutations.foldl mutate s

theorem setForReplay_wf {s : Store} (hs : s.WF) (key : Bytes) (value : Option Bytes) :
    (s.setForReplay key value).WF := by
  by_cases heff : value.isSome ∨ (s.view key).latestValue.value.isSome
  · exact (setForReplay_spec hs heff).1
  · rw [setForReplay_dead heff]
    exact hs

/-- An import of any entries: a key that comes twice is replaced in both indexes. -/
theorem importSnapshotData_wf (s : Store) (entries : List SnapshotEntry) :
    (s.importSnapshotData entries).WF := by
  have hloop (es : List SnapshotEntry) {t : Store} (ht : t.WF) : (es.foldl importEntry t).WF := by
    induction es generalizing t with
    | nil => exact ht
    | cons e es ih =>
      apply ih
      rw [importEntry_eq]
      exact addItem_wf ht _ _
  exact hloop entries (cleared_wf s _)

theorem perform_wf {s : Store} (hs : s.WF) (op : Operation) : (s.perform op).1.WF := by
  cases op with
  | call c =>
    have hw := call_wf hs c
    cases h : (s.call c).2 with
    | ok rev =>
      rw [perform_accepted h]
      exact hw
    | error e =>
      rw [perform_refused h]
      exact hw
  | replay key value => exact setForReplay_wf hs key value
  | compact rev => exact compact_wf hs rev

theorem mutate_wf {s : Store} (hs : s.WF) (m : Mutation) : (s.mutate m).WF := by
  cases m with
  | operation op => exact perform_wf hs op
  | load entries => exact importSnapshotData_wf s entries

theorem mutateAll_wf {s : Store} (hs : s.WF) (mutations : List Mutation) :
    (s.mutateAll mutations).WF := by
  induction mutations generalizing s with
  | nil => exact hs
  | cons m mutations ih => exact ih (mutate_wf hs m)

/-- What `prefix_map` lists under a bucket and a suffix is the item of the key that is
made of the two. -/
theorem HeapOk.listed_key {s : Store} (hs : s.HeapOk) {p t : Bytes} {a : ℕ}
    (h : s.bucket? p t = some a) : prefixSplit (p ++ t) = (p, t) ∧ s.treeMap[p ++ t]? = some a := by
  obtain ⟨k, hk, ha⟩ := hs.listed p t a h
  have hkey : p ++ t = k := by
    have happ := prefixSplit_append k
    rwa [hk] at happ
  rw [hkey]
  exact ⟨hk, ha⟩

/-- After any run the two indexes are in bijection. A key is in `tree_map` if and only
if its bucket lists its suffix; both entries are the address of one item, whose key is
that key; and whatever a bucket lists is filed under the split of its own key, so that an
item is found through no other bucket. -/
theorem indexes_in_bijection (wal : Option WalMode) (mutations : List Mutation) :
    let s := (new wal).mutateAll mutations
    (∀ k, k ∈ s.treeMap ↔ ∃ btree, s.prefixMap[(prefixSplit k).1]? = some btree ∧
      (prefixSplit k).2 ∈ btree) ∧
    (∀ k a, s.treeMap[k]? = some a → s.bucket? (prefixSplit k).1 (prefixSplit k).2 = some a ∧
      (s.items[a]?).map (·.key) = some k) ∧
    (∀ p t a, s.bucket? p t = some a →
      prefixSplit (p ++ t) = (p, t) ∧ s.treeMap[p ++ t]? = some a) ∧
    ∀ k a, s.treeMap[k]? = some a → ∀ p t, s.bucket? p t = some a ↔ (p, t) = prefixSplit k := by
  have h := mutateAll_wf (new_wf wal) mutations
  generalize (new wal).mutateAll mutations = s at h
  dsimp only
  refine ⟨?_, ?_, fun p t a hb => h.listed_key hb, ?_⟩
  · intro k
    constructor
    · intro hk
      have hlisted := h.indexed k _ (Std.ExtTreeMap.getElem?_eq_some_getElem hk)
      obtain ⟨btree, hbucket, hsuffix⟩ := Option.bind_eq_some_iff.mp hlisted
      exact ⟨btree, hbucket, Std.ExtTreeMap.mem_iff_isSome_getElem?.mpr (hsuffix ▸ rfl)⟩
    · -- what the bucket lists under the suffix belongs to the key that the two make up
      rintro ⟨btree, hbucket, hsuffix⟩
      have hlisted : s.bucket? (prefixSplit k).1 (prefixSplit k).2 = btree[(prefixSplit k).2]? := by
        unfold bucket?
        rw [hbucket, Option.bind_some]
      rw [Std.ExtTreeMap.getElem?_eq_some_getElem hsuffix] at hlisted
      have hown := (h.listed_key hlisted).2
      rw [prefixSplit_append] at hown
      exact Std.ExtTreeMap.mem_iff_isSome_getElem?.mpr (hown ▸ rfl)
  · intro k a ha
    obtain ⟨hlt, hkey⟩ := h.owned k a ha
    refine ⟨h.indexed k a ha, ?_⟩
    unfold deref at hkey
    rw [List.getD_eq_getElem?_getD, List.getElem?_eq_getElem hlt, Option.getD_some] at hkey
    rw [List.getElem?_eq_getElem hlt, Option.map_some, hkey]
  · intro k a ha p t
    constructor
    · intro hb
      obtain ⟨hsplit, hown⟩ := h.listed_key hb
      rw [← hsplit, h.unique hown ha]
    · intro he
      have hb := h.indexed k a ha
      rw [← he] at hb
      exact hb

/-- A call that fails, a key that is replayed, and a snapshot that brings one key twice. -/
example : ((new none).mutateAll [.operation (.call ⟨[97], none, none⟩),
    .operation (.replay [98] (some [1])),
    .load [⟨[99], [1], 1, 1, 1⟩, ⟨[99], [2], 2, 2, 1⟩]]).bucket? [] [99] = some 3 := by decide

end Store
end MemEtcd
