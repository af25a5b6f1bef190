import MemEtcd.WalMerge

/-! WAL files after a crash: which of them a new store can load, and which of them
can be appended to. -/
namespace MemEtcd

open Framing (Outcome complete tornLength)

theorem clean_of_end {bytes rest : Bytes} (h : WalRecord.readFrom bytes = (.ok none, rest)) :
    Clean bytes :=
  ⟨_, WalRecord.readRecords_of_readAll (Framing.readAll_of_end h 0), rfl⟩

theorem clean_record_iff {bytes rest : Bytes} {rec : WalRecord}
    (h : WalRecord.readFrom bytes = (.ok (some rec), rest)) : Clean bytes ↔ Clean rest := by
  have hmore {o : Outcome UInt8 WalRecord ReadError} (ho : WalRecord.readRecords rest = some o) :
      WalRecord.readRecords bytes = some (o.cons rec) := by
    have hall := Framing.readAll_of_record h (rest.length + 1)
    rw [← WalRecord.readRecords, ho] at hall
    exact WalRecord.readRecords_of_readAll hall
  constructor
  · intro hc
    obtain ⟨o, ho, hok⟩ := hc
    rw [WalRecord.readRecords, Framing.readAll_of_record h] at ho
    obtain ⟨o', ho', rfl⟩ := Option.map_eq_some_iff.mp ho
    exact ⟨o', WalRecord.readRecords_of_readAll ho', hok⟩
  · intro hc
    obtain ⟨o, ho, hok⟩ := hc
    exact ⟨o.cons rec, hmore ho, hok⟩

/-! ### The directory -/

/-- A loop that ends without an error has read its files to their ends. -/
theorem clean_of_mergeLoopWith {Q : HeapQueue} {σ : Type} {onEntry : σ → WalRecord → σ} {fuel : ℕ}
    {readers : List WalReader} {heap : Q.Heap} {st st' : σ} (hq : Queued Q readers heap)
    (h : mergeLoopWith Q onEntry fuel readers heap st = some (st', .ok ())) :
    ∀ reader ∈ readers, reader.next.isSome → Clean reader.rest := by
  induction fuel generalizing readers heap st with
  | zero => contradiction
  | succ fuel ih =>
    intro reader hmem hsome
    obtain ⟨i, hi⟩ := List.mem_iff_getElem?.mp hmem
    obtain ⟨rec, hrec⟩ := Option.isSome_iff_exists.mp hsome
    have hitem := (hq.mem_iff ⟨i, rec.rev⟩).mpr ⟨reader, rec, hi, hrec, rfl⟩
    cases hpop : Q.pop heap with
    | none =>
      rw [Q.pop_none hpop] at hitem
      contradiction
    | some popped =>
      obtain ⟨item, heap'⟩ := popped
      obtain ⟨top, next, hget, hnext, _⟩ :=
        (hq.mem_iff item).mp ((PriorityQueue.mem_of_pop hpop).mpr (Or.inl rfl))
      have hlt : item.idx < readers.length := (List.getElem?_eq_some_iff.mp hget).1
      rcases hread : WalRecord.readFrom top.rest with ⟨res, rest⟩
      rcases res with e | read
      · rw [mergeLoopWith_of_error hpop hget hnext hread] at h
        cases h
      rw [mergeLoopWith_of_read hpop hget hnext hread] at h
      have hclean := ih (hq.advance hpop hlt ⟨read, rest⟩) h
      by_cases hidx : item.idx = i
      · rw [hidx, hi] at hget
        cases hget
        cases read with
        | none => exact clean_of_end hread
        | some rec' =>
          -- the reader goes on behind the record that was just read
          apply (clean_record_iff hread).mpr
          exact hclean ⟨some rec', rest⟩ (List.mem_set hlt _) rfl
      · apply hclean reader _ hsome
        apply List.mem_of_getElem? (i := i)
        rw [List.getElem?_set_ne hidx]
        exact hi

/-- Every `.wal` file has a reader behind its first record. -/
theorem reader_of_openReaders {entries : List (Bytes × Bytes)} {readers : List WalReader}
    (h : openReaders entries = .ok readers) {f : Bytes × Bytes} (hf : f ∈ entries)
    (hw : IsWalFile f) :
    ∃ reader ∈ readers, WalRecord.readFrom f.2 = (.ok reader.next, reader.rest) := by
  induction entries generalizing readers with
  | nil => contradiction
  | cons entry entries ih =>
    obtain ⟨name, contents⟩ := entry
    by_cases hext : extension name = some [119, 97, 108]
    · rw [openReaders, if_pos hext] at h
      rcases hread : WalRecord.readFrom contents with ⟨res, rest⟩
      rw [hread] at h
      rcases res with e | next
      · cases h
      dsimp only at h
      rcases hrest : openReaders entries with e | others
      · rw [hrest] at h
        cases h
      · rw [hrest] at h
        cases h
        rcases List.mem_cons.mp hf with rfl | hf
        · exact ⟨⟨next, rest⟩, List.mem_cons_self, hread⟩
        · obtain ⟨reader, hr, hfirst⟩ := ih hrest hf
          exact ⟨reader, List.mem_cons_of_mem _ hr, hfirst⟩
    · rw [openReaders, if_neg hext] at h
      rcases List.mem_cons.mp hf with rfl | hf
      · exact absurd hw hext
      · exact ih h hf

/-- A directory is loaded without an error exactly if its `.wal` files can be read
to their ends. -/
theorem loadWalDir_ok_iff {σ : Type} (entries : List (Bytes × Bytes))
    (onEntry : σ → WalRecord → σ) (init : σ) :
    (∃ st, loadWalDir entries onEntry init = some (st, .ok ())) ↔
      ∀ f ∈ entries, IsWalFile f → Clean f.2 := by
  rw [loadWalDir_eq]
  constructor
  · intro h f hf hw
    obtain ⟨st, hst⟩ := h
    unfold loadWalDirWith at hst
    rcases hopen : openReaders entries with e | readers
    · rw [hopen] at hst
      cases hst
    rw [hopen] at hst
    obtain ⟨reader, hr, hread⟩ := reader_of_openReaders hopen hf hw
    have hclean := clean_of_mergeLoopWith (initialHeapWith_queued _ readers) hst reader hr
    cases hnext : reader.next with
    | none =>
      rw [hnext] at hread
      exact clean_of_end hread
    | some rec =>
      rw [hnext] at hread hclean
      exact (clean_record_iff hread).mpr (hclean rfl)
  · intro h
    obtain ⟨out, _, hload⟩ :=
      loadWalDirWith_merges (PriorityQueue.sortedLists HeapItem.rev) h
    exact ⟨_, hload onEntry init⟩

/-! ### Torn files -/

/-- A `.wal` file of which a crash has left the first `cut` bytes. -/
structure TornFile where
  name : Bytes
  records : List WalRecord
  cut : ℕ
  isWal : extension name = some [119, 97, 108]
  valid : ∀ rec ∈ records, rec.Valid
  bound : cut ≤ (records.flatMap WalRecord.encode).length

namespace TornFile

def contents (f : TornFile) : Bytes := (f.records.flatMap WalRecord.encode).take f.cut

def entry (f : TornFile) : Bytes × Bytes := (f.name, f.contents)

def complete (f : TornFile) : List WalRecord := Framing.complete WalRecord.encode f.cut f.records

def tornLength (f : TornFile) : ℕ := Framing.tornLength WalRecord.encode f.cut f.records

/-- The file is read as its complete records and nothing else. -/
def Tolerated (f : TornFile) : Prop :=
  ∃ torn, WalRecord.readRecords f.contents =
    some ⟨f.complete.map WalRecord.stored, torn, .ok ()⟩

theorem readRecords_contents (f : TornFile) :
    ∃ torn, WalRecord.readRecords f.contents = some ⟨f.complete.map WalRecord.stored, torn,
      if f.tornLength < 16 then .ok () else .error .unexpectedEof⟩ :=
  WalRecord.readRecords_cut f.valid f.bound

theorem clean_iff (f : TornFile) : Clean f.contents ↔ f.tornLength < 16 := by
  obtain ⟨torn, hread⟩ := f.readRecords_contents
  by_cases hshort : f.tornLength < 16
  · rw [if_pos hshort] at hread
    exact iff_of_true ⟨_, hread, rfl⟩ hshort
  · rw [if_neg hshort] at hread
    refine iff_of_false ?_ hshort
    intro h
    obtain ⟨o, ho, hok⟩ := h
    rw [hread] at ho
    cases ho
    contradiction

/-- A file without an error at its end has no other records than the complete ones. -/
theorem tolerated_iff (f : TornFile) : f.Tolerated ↔ f.tornLength < 16 := by
  obtain ⟨torn, hread⟩ := f.readRecords_contents
  constructor
  · intro h
    obtain ⟨torn', ht⟩ := h
    exact f.clean_iff.mp ⟨_, ht, rfl⟩
  · intro hshort
    rw [if_pos hshort] at hread
    exact ⟨torn, hread⟩

end TornFile

/-- A torn file is tolerated exactly if it breaks off before the end of a header,
and a new store loads a directory exactly if all its files do. -/
theorem torn_tail_iff (wal : WalMode) (files : List TornFile) :
    (∀ f ∈ files, f.Tolerated ↔ f.tornLength < 16) ∧
      ((∃ s, Store.newFromWal wal (files.map TornFile.entry) = some (s, .ok ())) ↔
        ∀ f ∈ files, f.tornLength < 16) := by
  refine ⟨fun f _ => f.tolerated_iff, ?_⟩
  unfold Store.newFromWal
  rw [loadWalDir_ok_iff, List.forall_mem_map]
  have hwal (f : TornFile) : IsWalFile f.entry := f.isWal
  constructor
  · intro h f hf
    exact f.clean_iff.mp (h f hf (hwal f))
  · intro h f hf _
    exact f.clean_iff.mpr (h f hf)

def headerOnly : TornFile where
  name := fileNameForPrefix []
  records := [⟨1, [97], some [1], false⟩]
  cut := 16
  isWal := by decide
  valid := by
    intro rec hr
    rw [List.mem_singleton.mp hr]
    refine ⟨by norm_num, by norm_num, by norm_num, ?_⟩
    intro v hv
    cases hv
    norm_num
  bound := by decide

theorem torn_tail_fails_behind_header :
    WalRecord.readRecords headerOnly.contents =
        some ⟨[], headerOnly.contents, .error .unexpectedEof⟩ ∧
      ¬headerOnly.Tolerated ∧
      ∃ s, Store.newFromWal .sync [headerOnly.entry] = some (s, .error .unexpectedEof) := by
  have hread : WalRecord.readRecords headerOnly.contents =
      some ⟨[], headerOnly.contents, .error .unexpectedEof⟩ := rfl
  refine ⟨hread, ?_, Store.new (some .sync), rfl⟩
  intro h
  obtain ⟨torn, ht⟩ := h
  rw [hread] at ht
  cases ht

end MemEtcd
