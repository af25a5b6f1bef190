import MemEtcd.SnapshotData

/-! The import of a snapshot, step by step. The three structures of the store are
cleared one after the other, the revision array is filled with placeholders, and the
entries are inserted one by one; in between the store is open to other threads. -/
namespace MemEtcd

/-- The steps of `import_snapshot_data`. -/
inductive ImportStep where
  | clearPrefixMap
  | clearTreeMap
  | clearValues
  | pushPlaceholder
  | insert (e : SnapshotEntry)
  deriving DecidableEq, Repr

namespace Store

def importStep (s : Store) : ImportStep → Store
  | .clearPrefixMap => { s with prefixMap := ∅ }
  | .clearTreeMap => { s with treeMap := ∅ }
  | .clearValues => { s with valuesByRevision := s.valuesByRevision.clear }
  | .pushPlaceholder =>
    { s with valuesByRevision := (s.valuesByRevision.push ⟨0, 0, 0, none⟩).2 }
  | .insert e => s.importEntry e

def clearSteps (entries : List SnapshotEntry) : List ImportStep :=
  [.clearPrefixMap, .clearTreeMap, .clearValues] ++
    List.replicate (maxModRev entries).toNat .pushPlaceholder

def importSteps (entries : List SnapshotEntry) : List ImportStep :=
  clearSteps entries ++ entries.map .insert

/-- The store after the first `n` steps of an import. -/
def importing (s : Store) (entries : List SnapshotEntry) (n : ℕ) : Store :=
  ((importSteps entries).take n).foldl importStep s

/-- The entries that the first `n` steps of an import have inserted. -/
def inserted (entries : List SnapshotEntry) (n : ℕ) : List SnapshotEntry :=
  entries.take (n - (clearSteps entries).length)

def cleared (s : Store) (entries : List SnapshotEntry) : Store :=
  (clearSteps entries).foldl importStep s

theorem cleared_eq (s : Store) (entries : List SnapshotEntry) :
    s.cleared entries = { s with
      prefixMap := ∅
      treeMap := ∅
      valuesByRevision := (List.replicate (maxModRev entries).toNat ⟨0, 0, 0, none⟩).foldl
        (fun d v => (d.push v).2) s.valuesByRevision.clear } := by
  have hpush (n : ℕ) (t : Store) :
      (List.replicate n ImportStep.pushPlaceholder).foldl importStep t = { t with
        valuesByRevision := (List.replicate n ⟨0, 0, 0, none⟩).foldl (fun d v => (d.push v).2)
          t.valuesByRevision } := by
    induction n generalizing t with
    | zero => rfl
    | succ n ih =>
      rw [List.replicate_succ, List.replicate_succ, List.foldl_cons, List.foldl_cons, ih]
      rfl
  unfold cleared clearSteps
  rw [List.foldl_append, hpush]
  rfl

theorem importing_succ (s : Store) {entries : List SnapshotEntry} {n : ℕ} {step : ImportStep}
    (h : (importSteps entries)[n]? = some step) :
    s.importing entries (n + 1) = (s.importing entries n).importStep step := by
  unfold importing
  rw [List.take_add_one, h, List.foldl_append]
  rfl

/-- Once everything is cleared the entries come in, one with each step. -/
theorem importing_of_cleared (s : Store) {entries : List SnapshotEntry} {n : ℕ}
    (h : (clearSteps entries).length ≤ n) :
    s.importing entries n = (inserted entries n).foldl importEntry (s.cleared entries) := by
  have hinsert (es : List SnapshotEntry) (t : Store) :
      (es.map ImportStep.insert).foldl importStep t = es.foldl importEntry t := by
    rw [List.foldl_map]
    rfl
  unfold importing importSteps
  rw [List.take_append, List.take_of_length_le h, List.foldl_append, ← List.map_take, hinsert]
  rfl

/-- All steps together insert all entries. -/
theorem inserted_all {entries : List SnapshotEntry} {n : ℕ}
    (h : (importSteps entries).length ≤ n) : inserted entries n = entries := by
  unfold importSteps at h
  rw [List.length_append, List.length_map] at h
  exact List.take_of_length_le (by omega)

theorem importSteps_length_pos (entries : List SnapshotEntry) :
    0 < (importSteps entries).length :=
  Nat.succ_pos _

/-- All steps together are the import. -/
theorem importing_done (s : Store) {entries : List SnapshotEntry} {n : ℕ}
    (h : (importSteps entries).length ≤ n) :
    s.importing entries n = s.importSnapshotData entries := by
  have hclear : (clearSteps entries).length ≤ (importSteps entries).length := by
    unfold importSteps
    rw [List.length_append]
    exact Nat.le_add_right _ _
  rw [importing_of_cleared s (hclear.trans h), cleared_eq, inserted_all h]
  rfl

/-- Between the first step and the first insertion there is no bucket. -/
theorem importing_prefixMap (s : Store) {entries : List SnapshotEntry} {n : ℕ} (hn : 0 < n)
    (h : n ≤ (clearSteps entries).length) : (s.importing entries n).prefixMap = ∅ := by
  have hkeep (steps : List ImportStep) (hs : ∀ e, ImportStep.insert e ∉ steps) (t : Store)
      (ht : t.prefixMap = ∅) : (steps.foldl importStep t).prefixMap = ∅ := by
    induction steps generalizing t with
    | nil => exact ht
    | cons step steps ih =>
      apply ih (fun e he => hs e (List.mem_cons_of_mem _ he))
      cases step with
      | clearPrefixMap => rfl
      | clearTreeMap => exact ht
      | clearValues => exact ht
      | pushPlaceholder => exact ht
      | insert e => exact absurd List.mem_cons_self (hs e)
  obtain ⟨m, rfl⟩ : ∃ m, n = m + 1 := ⟨n - 1, by omega⟩
  unfold importing importSteps
  rw [List.take_append_of_le_length h]
  change (List.foldl importStep { s with prefixMap := ∅ } (List.take m _)).prefixMap = ∅
  apply hkeep _ _ _ rfl
  intro e he
  have hmem := List.mem_of_mem_take he
  simp [List.mem_replicate] at hmem

/-- An import writes to new items only. -/
theorem importing_items (s : Store) (entries : List SnapshotEntry) {n m : ℕ} (h : n ≤ m) :
    (s.importing entries n).items <+: (s.importing entries m).items := by
  have hstep (t : Store) (step : ImportStep) : t.items <+: (t.importStep step).items := by
    cases step with
    | insert e => exact List.prefix_append _ _
    | _ => exact List.prefix_refl _
  have hsteps (steps : List ImportStep) (t : Store) :
      t.items <+: (steps.foldl importStep t).items := by
    induction steps generalizing t with
    | nil => exact List.prefix_refl _
    | cons step steps ih => exact (hstep t step).trans (ih _)
  obtain ⟨d, rfl⟩ := Nat.exists_eq_add_of_le h
  unfold importing
  rw [List.take_add, List.foldl_append]
  exact hsteps _ _

/-! ### What a reader finds in a bucket -/

variable {s : Store} {entries : List SnapshotEntry} {n : ℕ}

theorem keys_inserted (hn : (entries.map (·.key)).Nodup) (n : ℕ) :
    ((inserted entries n).map (·.key)).Nodup := by
  unfold inserted
  rw [List.map_take]
  exact hn.sublist (List.take_sublist _ _)

/-- The buckets list the inserted entries and nothing else. -/
theorem bucket?_importing (hn : (entries.map (·.key)).Nodup) (hpos : 0 < n) {pfx t : Bytes} {a : ℕ}
    (h : (s.importing entries n).bucket? pfx t = some a) :
    a < (s.importing entries n).items.length ∧
      ∃ e ∈ inserted entries n, prefixSplit e.key = (pfx, t) ∧
        (s.importing entries n).deref a = e.item := by
  by_cases hclear : n ≤ (clearSteps entries).length
  · unfold bucket? at h
    rw [importing_prefixMap s hpos hclear, Std.ExtTreeMap.getElem?_empty] at h
    contradiction
  · rw [importing_of_cleared s (by omega)] at h ⊢
    obtain ⟨hw, hin, -, htree⟩ := foldl_importEntry_spec _ (keys_inserted hn n)
      (show (s.cleared entries).WF from cleared_eq s entries ▸ cleared_wf s _)
    obtain ⟨k, hk, ha⟩ := hw.listed pfx t a h
    have hkey : k ∈ (inserted entries n).map (·.key) := by
      apply ((htree k).mp (by rw [ha]; rfl)).resolve_left
      rw [cleared_eq, Std.ExtTreeMap.getElem?_empty]
      exact Bool.false_ne_true
    obtain ⟨e, he, rfl⟩ := List.mem_map.mp hkey
    refine ⟨(hw.owned _ a ha).1, e, he, hk, ?_⟩
    rw [← hin e he, view_of_owned ha]

/-- Every inserted entry is in its bucket. -/
theorem exists_bucket?_importing (hn : (entries.map (·.key)).Nodup) {e : SnapshotEntry}
    (he : e ∈ inserted entries n) :
    ∃ a, (s.importing entries n).bucket? (prefixSplit e.key).1 (prefixSplit e.key).2 = some a ∧
      (s.importing entries n).deref a = e.item := by
  have hlate : (clearSteps entries).length ≤ n := by
    by_contra hearly
    unfold inserted at he
    rw [Nat.sub_eq_zero_of_le (by omega), List.take_zero] at he
    contradiction
  rw [importing_of_cleared s hlate]
  obtain ⟨hw, hin, -, htree⟩ := foldl_importEntry_spec _ (keys_inserted hn n)
    (show (s.cleared entries).WF from cleared_eq s entries ▸ cleared_wf s _)
  obtain ⟨a, ha⟩ := Option.isSome_iff_exists.mp
    ((htree e.key).mpr (Or.inr (List.mem_map_of_mem he)))
  refine ⟨a, hw.indexed _ a ha, ?_⟩
  rw [← hin e he, view_of_owned ha]

/-- An imported item is known at its own revision and later. It has no older one, so
the revision array is not asked. -/
theorem foundValue_item (s : Store) (e : SnapshotEntry) (rev : ℤ) :
    s.foundValue e.item rev = if e.modRevision ≤ rev then some e.cell else none := by
  unfold foundValue
  by_cases h : e.modRevision ≤ rev
  · have hnew : rev ≥ e.item.latestValue.modRevision := h
    rw [if_pos hnew, if_pos h]
    rfl
  · have hold : ¬rev ≥ e.item.latestValue.modRevision := h
    have hsearch : binarySearch e.item.revisions rev = .error 0 := by
      have hne : ¬e.modRevision = rev := by omega
      have hlt : ¬e.modRevision < rev := by omega
      simp [SnapshotEntry.item, binarySearch, List.idxOf?_cons, hne, hlt]
    rw [if_neg hold, if_neg h, hsearch]
    rfl

theorem liveAt_item (s : Store) (e : SnapshotEntry) (rev : ℤ) :
    s.liveAt e.item rev = if e.modRevision ≤ rev then some e.cell else none := by
  unfold liveAt
  rw [foundValue_item]
  split_ifs
  · rfl
  · rfl

/-- What a reader with a positive revision sees in the middle of an import. -/
theorem mem_kvsAt_importing (hn : (entries.map (·.key)).Nodup) (hpos : 0 < n) (pfx : Bytes)
    (lo hi : Bound Bytes) (rev : ℤ) (kv : KeyValue) :
    kv ∈ (s.importing entries n).kvsAt pfx lo hi rev ↔
      ∃ e ∈ inserted entries n, selects pfx lo hi e.key ∧ e.modRevision ≤ rev ∧
        kv = asMvccKeyValue e.cell e.key := by
  unfold kvsAt scanned
  rw [List.mem_filterMap]
  constructor
  · rintro ⟨⟨t, a⟩, hsel, hkv⟩
    obtain ⟨hb, hlo, hhi⟩ := (mem_selected _ pfx lo hi t a).mp hsel
    obtain ⟨-, e, he, hsplit, hitem⟩ := bucket?_importing hn hpos hb
    have hkey : pfx ++ t = e.key := by rw [← prefixSplit_append e.key, hsplit]
    rw [hitem, liveAt_item, hkey] at hkv
    split_ifs at hkv with hrev
    · refine ⟨e, he, ⟨by rw [hsplit], by rw [hsplit]; exact hlo, by rw [hsplit]; exact hhi⟩, hrev, ?_⟩
      exact (Option.some.inj hkv).symm
    · contradiction
  · rintro ⟨e, he, ⟨hp, hlo, hhi⟩, hrev, rfl⟩
    obtain ⟨a, hb, hitem⟩ := exists_bucket?_importing (s := s) hn he
    refine ⟨((prefixSplit e.key).2, a), ?_, ?_⟩
    · rw [← hp]
      exact (mem_selected _ _ lo hi _ a).mpr ⟨hb, hlo, hhi⟩
    · rw [hitem, liveAt_item, if_pos hrev, ← hp, prefixSplit_append]
      rfl

end Store
end MemEtcd
