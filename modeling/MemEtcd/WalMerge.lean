import MemEtcd.KWayMerge
import MemEtcd.PriorityQueue
import MemEtcd.WalTail

/-! The merge loop of `load_wal_dir` with any priority queue in the place of
`BinaryHeap`, of which only the contract is known: the order in which it yields items
with equal revisions is not specified. -/
namespace MemEtcd

open KWayMerge (Merges Interleaves)

abbrev HeapQueue : Type 1 := PriorityQueue HeapItem HeapItem.rev

def initialHeapWith (Q : HeapQueue) (readers : List WalReader) : Q.Heap :=
  readers.zipIdx.foldl (fun heap r => match r.1.next with
    | some rec => Q.push ⟨r.2, rec.rev⟩ heap
    | none => heap) Q.empty

/-- The merge loop of `load_wal_dir`, at most `fuel` rounds. -/
def mergeLoopWith (Q : HeapQueue) {σ : Type} (onEntry : σ → WalRecord → σ) :
    ℕ → List WalReader → Q.Heap → σ → Option (σ × Except ReadError Unit)
  | 0, _, _, _ => none
  | fuel + 1, readers, heap, st =>
    match Q.pop heap with
    | none => some (st, .ok ())
    | some (item, heap) =>
      match readers[item.idx]? with
      | none => none
      | some reader =>
        match reader.next with
        | none => mergeLoopWith Q onEntry fuel readers heap st
        | some rec =>
          let st := onEntry st rec
          match WalRecord.readFrom reader.rest with
          | (.error e, _) => some (st, .error e)
          | (.ok next, rest) =>
            let readers := readers.set item.idx ⟨next, rest⟩
            match next with
            | some rec => mergeLoopWith Q onEntry fuel readers (Q.push ⟨item.idx, rec.rev⟩ heap) st
            | none => mergeLoopWith Q onEntry fuel readers heap st

/-- `load_wal_dir`, for the directory entries in the order in which they are listed. -/
def loadWalDirWith (Q : HeapQueue) {σ : Type} (entries : List (Bytes × Bytes))
    (onEntry : σ → WalRecord → σ) (init : σ) : Option (σ × Except ReadError Unit) :=
  match openReaders entries with
  | .error e => some (init, .error e)
  | .ok readers =>
    mergeLoopWith Q onEntry ((entries.map (fun e => e.2.length)).sum + 1) readers
      (initialHeapWith Q readers) init

/-! ### One round -/

/-- The heap after the reader `idx` has read `next`. -/
def refillWith (Q : HeapQueue) (idx : ℕ) (next : Option WalRecord) (heap : Q.Heap) : Q.Heap :=
  match next with
  | some rec => Q.push ⟨idx, rec.rev⟩ heap
  | none => heap

section Round

variable {Q : HeapQueue} {σ : Type} {onEntry : σ → WalRecord → σ} {readers : List WalReader}
  {heap heap' : Q.Heap} {item : HeapItem} {reader : WalReader} {rec : WalRecord}

theorem mergeLoopWith_of_empty (hpop : Q.pop heap = none) (fuel : ℕ) (st : σ) :
    mergeLoopWith Q onEntry (fuel + 1) readers heap st = some (st, .ok ()) := by
  simp only [mergeLoopWith, hpop]

/-- A round that delivers the record of a reader and reads on in its file. -/
theorem mergeLoopWith_of_read (hpop : Q.pop heap = some (item, heap'))
    (hget : readers[item.idx]? = some reader) (hnext : reader.next = some rec)
    {next : Option WalRecord} {rest : Bytes}
    (hread : WalRecord.readFrom reader.rest = (.ok next, rest)) (fuel : ℕ) (st : σ) :
    mergeLoopWith Q onEntry (fuel + 1) readers heap st =
      mergeLoopWith Q onEntry fuel (readers.set item.idx ⟨next, rest⟩)
        (refillWith Q item.idx next heap') (onEntry st rec) := by
  simp only [mergeLoopWith, hpop, hget, hnext, hread]
  cases next <;> rfl

theorem mergeLoopWith_of_error (hpop : Q.pop heap = some (item, heap'))
    (hget : readers[item.idx]? = some reader) (hnext : reader.next = some rec)
    {e : ReadError} {rest : Bytes} (hread : WalRecord.readFrom reader.rest = (.error e, rest))
    (fuel : ℕ) (st : σ) :
    mergeLoopWith Q onEntry (fuel + 1) readers heap st = some (onEntry st rec, .error e) := by
  simp only [mergeLoopWith, hpop, hget, hnext, hread]

theorem mem_refillWith {idx : ℕ} {next : Option WalRecord} {x : HeapItem} :
    x ∈ Q.items (refillWith Q idx next heap) ↔
      x ∈ Q.items heap ∨ ∃ rec, next = some rec ∧ x = ⟨idx, rec.rev⟩ := by
  cases next with
  | none => simp [refillWith]
  | some rec =>
    unfold refillWith
    rw [(Q.items_push _ heap).mem_iff, List.mem_cons, or_comm]
    simp

theorem refillWith_nodup {idx : ℕ} (next : Option WalRecord)
    (hn : ((Q.items heap).map (·.idx)).Nodup) (hi : idx ∉ (Q.items heap).map (·.idx)) :
    ((Q.items (refillWith Q idx next heap)).map (·.idx)).Nodup := by
  cases next with
  | none => exact hn
  | some rec =>
    unfold refillWith
    rw [((Q.items_push _ heap).map (·.idx)).nodup_iff, List.map_cons, List.nodup_cons]
    exact ⟨hi, hn⟩

end Round

/-- The loop over a sorted list of heap items is the one with that queue. -/
theorem mergeLoop_eq {σ : Type} (onEntry : σ → WalRecord → σ) (fuel : ℕ)
    (readers : List WalReader) (heap : (PriorityQueue.sortedLists HeapItem.rev).Heap) (st : σ) :
    mergeLoop onEntry fuel readers heap.1 st =
      mergeLoopWith (PriorityQueue.sortedLists HeapItem.rev) onEntry fuel readers heap st := by
  induction fuel generalizing readers heap st with
  | zero => rfl
  | succ fuel ih =>
    obtain ⟨items, hs⟩ := heap
    cases items with
    | nil => rfl
    | cons item items =>
      have hpop : (PriorityQueue.sortedLists HeapItem.rev).pop ⟨item :: items, hs⟩ =
          some (item, ⟨items, (List.pairwise_cons.mp hs).2⟩) := rfl
      simp only [mergeLoop, mergeLoopWith, hpop]
      cases readers[item.idx]? with
      | none => rfl
      | some reader =>
        dsimp only
        cases reader.next with
        | none => exact ih readers ⟨items, _⟩ st
        | some rec =>
          rcases WalRecord.readFrom reader.rest with ⟨res, rest⟩
          cases res with
          | error e => rfl
          | ok next =>
            cases next with
            | none => exact ih _ ⟨items, _⟩ _
            | some rec' =>
              exact ih _ ((PriorityQueue.sortedLists HeapItem.rev).push _ ⟨items, _⟩) _

theorem initialHeap_eq (readers : List WalReader) :
    initialHeap readers =
      (initialHeapWith (PriorityQueue.sortedLists HeapItem.rev) readers).1 := by
  have hfold (rs : List (WalReader × ℕ)) (heap : (PriorityQueue.sortedLists HeapItem.rev).Heap) :
      rs.foldl (fun heap r => match r.1.next with
        | some rec => heapPush ⟨r.2, rec.rev⟩ heap
        | none => heap) heap.1 =
      (rs.foldl (fun heap r => match r.1.next with
        | some rec => (PriorityQueue.sortedLists HeapItem.rev).push ⟨r.2, rec.rev⟩ heap
        | none => heap) heap).1 := by
    induction rs generalizing heap with
    | nil => rfl
    | cons r rs ih =>
      rw [List.foldl_cons, List.foldl_cons, ← ih]
      cases r.1.next <;> rfl
  exact hfold readers.zipIdx (PriorityQueue.sortedLists HeapItem.rev).empty

/-- `load_wal_dir` as modelled with a sorted list is the one with that queue. -/
theorem loadWalDir_eq {σ : Type} (entries : List (Bytes × Bytes)) (onEntry : σ → WalRecord → σ)
    (init : σ) :
    loadWalDir entries onEntry init =
      loadWalDirWith (PriorityQueue.sortedLists HeapItem.rev) entries onEntry init := by
  unfold loadWalDir loadWalDirWith
  cases openReaders entries with
  | error e => rfl
  | ok readers =>
    dsimp only
    rw [initialHeap_eq, mergeLoop_eq]

/-! ### The heap -/

def itemOf (r : WalReader × ℕ) : Option HeapItem := r.1.next.map (fun rec => ⟨r.2, rec.rev⟩)

theorem mem_items {readers : List WalReader} {item : HeapItem} :
    item ∈ readers.zipIdx.filterMap itemOf ↔ ∃ reader rec, readers[item.idx]? = some reader ∧
      reader.next = some rec ∧ rec.rev = item.rev := by
  rw [List.mem_filterMap]
  unfold itemOf
  constructor
  · rintro ⟨⟨reader, i⟩, hmem, hitem⟩
    obtain ⟨rec, hrec, rfl⟩ := Option.map_eq_some_iff.mp hitem
    exact ⟨reader, rec, List.mem_zipIdx_iff_getElem?.mp hmem, hrec, rfl⟩
  · rintro ⟨reader, rec, hget, hrec, hrev⟩
    refine ⟨(reader, item.idx), List.mem_zipIdx_iff_getElem?.mpr hget, ?_⟩
    rw [hrec, Option.map_some, hrev]

theorem items_nodup (readers : List WalReader) :
    ((readers.zipIdx.filterMap itemOf).map (·.idx)).Nodup := by
  apply List.pairwise_map.mpr
  have hidx : readers.zipIdx.Pairwise (fun a b => a.2 ≠ b.2) := by
    apply List.pairwise_map.mp
    rw [List.zipIdx_map_snd]
    exact List.nodup_range'
  apply List.Pairwise.filterMap _ _ hidx
  intro a b hab x hx y hy
  obtain ⟨_, _, rfl⟩ := Option.map_eq_some_iff.mp hx
  obtain ⟨_, _, rfl⟩ := Option.map_eq_some_iff.mp hy
  exact hab

/-- The heap has one item for every reader that has a record, with its revision. -/
structure Queued (Q : HeapQueue) (readers : List WalReader) (heap : Q.Heap) : Prop where
  nodup : ((Q.items heap).map (·.idx)).Nodup
  mem_iff : ∀ x, x ∈ Q.items heap ↔ ∃ reader rec, readers[x.idx]? = some reader ∧
    reader.next = some rec ∧ rec.rev = x.rev

theorem initialHeapWith_items (Q : HeapQueue) (readers : List WalReader) :
    (Q.items (initialHeapWith Q readers)).Perm (readers.zipIdx.filterMap itemOf) := by
  have hfold (rs : List (WalReader × ℕ)) (heap : Q.Heap) :
      rs.foldl (fun heap r => match r.1.next with
        | some rec => Q.push ⟨r.2, rec.rev⟩ heap
        | none => heap) heap = Q.pushAll (rs.filterMap itemOf) heap := by
    induction rs generalizing heap with
    | nil => rfl
    | cons r rs ih =>
      rw [List.foldl_cons, ih, List.filterMap_cons]
      unfold itemOf
      cases r.1.next <;> rfl
  have h := Q.items_pushAll (readers.zipIdx.filterMap itemOf) Q.empty
  rw [Q.items_empty, List.append_nil, ← hfold] at h
  exact h

theorem initialHeapWith_queued (Q : HeapQueue) (readers : List WalReader) :
    Queued Q readers (initialHeapWith Q readers) := by
  have hitems := initialHeapWith_items Q readers
  refine ⟨(hitems.map (·.idx)).nodup_iff.mpr (items_nodup readers), ?_⟩
  intro x
  rw [hitems.mem_iff, mem_items]

/-- A round takes the item of one reader and puts its next one back. -/
theorem Queued.advance {Q : HeapQueue} {readers : List WalReader} {heap heap' : Q.Heap}
    (h : Queued Q readers heap) {item : HeapItem} (hpop : Q.pop heap = some (item, heap'))
    (hlt : item.idx < readers.length) (reader : WalReader) :
    Queued Q (readers.set item.idx reader) (refillWith Q item.idx reader.next heap') := by
  have hn := ((Q.items_pop hpop).map (·.idx)).nodup_iff.mp h.nodup
  rw [List.map_cons] at hn
  obtain ⟨htop, hn'⟩ := List.nodup_cons.mp hn
  refine ⟨refillWith_nodup reader.next hn' htop, ?_⟩
  intro x
  rw [mem_refillWith]
  by_cases hx : item.idx = x.idx
  · -- the item of the reader itself
    have hgone : x ∉ Q.items heap' := by
      intro hmem
      exact htop (List.mem_map.mpr ⟨x, hmem, hx.symm⟩)
    rw [or_iff_right hgone, ← hx, List.getElem?_set_self hlt]
    constructor
    · rintro ⟨rec, hrec, rfl⟩
      exact ⟨reader, rec, rfl, hrec, rfl⟩
    · rintro ⟨reader', rec, hr, hrec, hrev⟩
      cases hr
      refine ⟨rec, hrec, ?_⟩
      rw [hx, hrev]
  · -- the items of the others stay
    have hother : ¬∃ rec, reader.next = some rec ∧ x = ⟨item.idx, rec.rev⟩ := by
      rintro ⟨rec, _, rfl⟩
      exact hx rfl
    have hne : x ≠ item := by
      rintro rfl
      exact hx rfl
    rw [or_iff_left hother, List.getElem?_set_ne hx, ← h.mem_iff, PriorityQueue.mem_of_pop hpop,
      or_iff_right hne]

/-! ### The merge -/

inductive Yields : Bytes → List WalRecord → Prop
  | done {bytes rest : Bytes} : WalRecord.readFrom bytes = (.ok none, rest) → Yields bytes []
  | more {bytes rest : Bytes} {rec : WalRecord} {recs : List WalRecord} :
      WalRecord.readFrom bytes = (.ok (some rec), rest) → Yields rest recs →
      Yields bytes (rec :: recs)

def WalReader.Has (reader : WalReader) : List WalRecord → Prop
  | [] => reader.next = none
  | rec :: recs => reader.next = some rec ∧ Yields reader.rest recs

/-- A file has been opened and its first record read. -/
theorem Yields.opened {bytes : Bytes} {recs : List WalRecord} (h : Yields bytes recs) :
    ∃ next rest, WalRecord.readFrom bytes = (.ok next, rest) ∧ WalReader.Has ⟨next, rest⟩ recs := by
  cases h with
  | done hread => exact ⟨none, _, hread, rfl⟩
  | @more _ rest rec recs hread hrest => exact ⟨some rec, rest, hread, rfl, hrest⟩

section Loop

variable {Q : HeapQueue} {readers : List WalReader} {heap heap' : Q.Heap}
  {streams : List (List WalRecord)}

theorem reader_of_stream {i : ℕ} {s : List WalRecord}
    (hs : List.Forall₂ WalReader.Has readers streams) (h : streams[i]? = some s) :
    ∃ reader, readers[i]? = some reader ∧ reader.Has s := by
  have hlen := hs.length_eq
  obtain ⟨hlt, rfl⟩ := List.getElem?_eq_some_iff.mp h
  exact ⟨readers[i], List.getElem?_eq_getElem (by omega), hs.get (by omega) hlt⟩

/-- A reader that has a record is at the head of its stream. -/
theorem stream_of_reader {i : ℕ} {reader : WalReader} {rec : WalRecord}
    (hs : List.Forall₂ WalReader.Has readers streams) (hget : readers[i]? = some reader)
    (hnext : reader.next = some rec) :
    ∃ recs, streams[i]? = some (rec :: recs) ∧ Yields reader.rest recs := by
  have hlt : i < streams.length := by
    rw [← hs.length_eq]
    exact (List.getElem?_eq_some_iff.mp hget).1
  have hstream := List.getElem?_eq_getElem hlt
  obtain ⟨reader', hget', hhas⟩ := reader_of_stream hs hstream
  rw [hget] at hget'
  cases hget'
  cases hrecs : streams[i] with
  | nil =>
    rw [hrecs] at hhas
    rw [show reader.next = none from hhas] at hnext
    contradiction
  | cons head recs =>
    rw [hrecs] at hhas hstream
    obtain ⟨hhead, hrest⟩ := hhas
    rw [hnext] at hhead
    cases hhead
    exact ⟨recs, hstream, hrest⟩

/-- A reader goes on in its stream. -/
theorem has_set {reader : WalReader} {recs : List WalRecord}
    (hs : List.Forall₂ WalReader.Has readers streams) (h : reader.Has recs) (i : ℕ) :
    List.Forall₂ WalReader.Has (readers.set i reader) (streams.set i recs) := by
  induction hs generalizing i with
  | nil => exact List.Forall₂.nil
  | cons hfirst hrest ih =>
    cases i with
    | zero => exact List.Forall₂.cons h hrest
    | succ i => exact List.Forall₂.cons hfirst (ih i)

/-- An empty heap leaves no record behind. -/
theorem Queued.exhausted (h : Queued Q readers heap)
    (hs : List.Forall₂ WalReader.Has readers streams) (hpop : Q.pop heap = none) :
    ∀ s ∈ streams, s = [] := by
  intro s hmem
  obtain ⟨i, hi⟩ := List.mem_iff_getElem?.mp hmem
  obtain ⟨reader, hget, hhas⟩ := reader_of_stream hs hi
  cases s with
  | nil => rfl
  | cons rec recs =>
    have hitem := (h.mem_iff ⟨i, rec.rev⟩).mpr ⟨reader, rec, hget, hhas.1, rfl⟩
    rw [Q.pop_none hpop] at hitem
    contradiction

/-- The item that is taken shows the head of a stream, and no head is less. -/
theorem Queued.top (h : Queued Q readers heap)
    (hs : List.Forall₂ WalReader.Has readers streams) {item : HeapItem}
    (hpop : Q.pop heap = some (item, heap')) :
    ∃ reader rec recs, readers[item.idx]? = some reader ∧ reader.next = some rec ∧
      Yields reader.rest recs ∧ streams[item.idx]? = some (rec :: recs) ∧
      ∀ s ∈ streams, ∀ y ∈ s.head?, rec.rev ≤ y.rev := by
  obtain ⟨reader, rec, hget, hnext, hrev⟩ :=
    (h.mem_iff item).mp ((PriorityQueue.mem_of_pop hpop).mpr (Or.inl rfl))
  obtain ⟨recs, hstream, hrest⟩ := stream_of_reader hs hget hnext
  refine ⟨reader, rec, recs, hget, hnext, hrest, hstream, ?_⟩
  -- another head has its own item in the heap
  intro s hmem y hy
  cases s with
  | nil => contradiction
  | cons z zs =>
    cases hy
    obtain ⟨j, hj⟩ := List.mem_iff_getElem?.mp hmem
    obtain ⟨other, hother, hz, _⟩ := reader_of_stream hs hj
    have hitem := (h.mem_iff ⟨j, y.rev⟩).mpr ⟨other, y, hother, hz, rfl⟩
    rw [hrev]
    exact Q.pop_least hpop _ hitem

/-- The loop ends without an error and has called `on_entry` for a merge of what the
readers have before them. Every round uses up a record. -/
theorem mergeLoopWith_merges {fuel : ℕ} (h : Queued Q readers heap)
    (hs : List.Forall₂ WalReader.Has readers streams) (hf : streams.flatten.length < fuel) :
    ∃ out, Merges WalRecord.rev streams out ∧
      ∀ {σ : Type} (onEntry : σ → WalRecord → σ) (st : σ),
        mergeLoopWith Q onEntry fuel readers heap st = some (out.foldl onEntry st, .ok ()) := by
  induction fuel generalizing readers heap streams with
  | zero => omega
  | succ fuel ih =>
    cases hpop : Q.pop heap with
    | none =>
      refine ⟨[], Merges.done (h.exhausted hs hpop), ?_⟩
      intro σ onEntry st
      exact mergeLoopWith_of_empty hpop fuel st
    | some popped =>
      obtain ⟨item, heap'⟩ := popped
      obtain ⟨reader, rec, recs, hget, hnext, hrest, hstream, hmin⟩ := h.top hs hpop
      obtain ⟨next, rest, hread, hhas⟩ := hrest.opened
      have hlt : item.idx < readers.length := (List.getElem?_eq_some_iff.mp hget).1
      have hlen := (KWayMerge.perm_flatten_set hstream).length_eq
      rw [List.length_cons] at hlen
      obtain ⟨out, hout, hloop⟩ := ih (h.advance hpop hlt ⟨next, rest⟩)
        (has_set hs hhas item.idx) (by omega)
      refine ⟨rec :: out, Merges.step hstream hmin hout, ?_⟩
      intro σ onEntry st
      rw [mergeLoopWith_of_read hpop hget hnext hread, List.foldl_cons]
      exact hloop onEntry (onEntry st rec)

end Loop

/-! ### The directory -/

/-- `.wal` -/
def IsWalFile (e : Bytes × Bytes) : Prop := extension e.1 = some [119, 97, 108]

instance : DecidablePred IsWalFile := fun e =>
  inferInstanceAs (Decidable (extension e.1 = some [119, 97, 108]))

/-- A file that is read to its end without an error. -/
def Clean (bytes : Bytes) : Prop := ∃ o, WalRecord.readRecords bytes = some o ∧ o.result = .ok ()

def fileRecords (bytes : Bytes) : List WalRecord :=
  match WalRecord.readRecords bytes with
  | some o => o.records
  | none => []

/-- The records of each `.wal` file, in the order in which the directory is listed. -/
def walStreams (entries : List (Bytes × Bytes)) : List (List WalRecord) :=
  (entries.filter IsWalFile).map (fun e => fileRecords e.2)

theorem yields_of_readAll {fuel : ℕ} {bytes : Bytes}
    {o : Framing.Outcome UInt8 WalRecord ReadError}
    (h : Framing.readAll WalRecord.readFrom fuel bytes = some o) (hok : o.result = .ok ()) :
    Yields bytes o.records := by
  induction fuel generalizing bytes o with
  | zero => contradiction
  | succ fuel ih =>
    rcases hread : WalRecord.readFrom bytes with ⟨res, rest⟩
    rcases res with e | next
    · rw [Framing.readAll_of_error hread] at h
      cases h
      contradiction
    · cases next with
      | none =>
        rw [Framing.readAll_of_end hread] at h
        cases h
        exact Yields.done hread
      | some rec =>
        rw [Framing.readAll_of_record hread] at h
        obtain ⟨o', ho', rfl⟩ := Option.map_eq_some_iff.mp h
        exact Yields.more hread (ih ho' hok)

theorem Clean.yields {bytes : Bytes} (h : Clean bytes) : Yields bytes (fileRecords bytes) := by
  obtain ⟨o, ho, hok⟩ := h
  unfold fileRecords
  rw [ho]
  exact yields_of_readAll ho hok

theorem Yields.length_le {bytes : Bytes} {recs : List WalRecord} (h : Yields bytes recs) :
    recs.length ≤ bytes.length := by
  induction h with
  | done _ => exact Nat.zero_le _
  | more hread _ ih =>
    have hshort := WalRecord.readFrom_shortens hread
    rw [List.length_cons]
    omega

/-- Files that can be read to their ends are opened, each with its records before it. -/
theorem openReaders_has {entries : List (Bytes × Bytes)}
    (h : ∀ f ∈ entries, IsWalFile f → Clean f.2) :
    ∃ readers, openReaders entries = .ok readers ∧
      List.Forall₂ WalReader.Has readers (walStreams entries) := by
  induction entries with
  | nil => exact ⟨[], rfl, List.Forall₂.nil⟩
  | cons entry entries ih =>
    obtain ⟨readers, hopen, hhas⟩ := ih (fun f hf => h f (List.mem_cons_of_mem _ hf))
    obtain ⟨name, contents⟩ := entry
    by_cases hext : IsWalFile (name, contents)
    · have hext' : extension name = some [119, 97, 108] := hext
      obtain ⟨next, rest, hread, hfirst⟩ := (h _ List.mem_cons_self hext).yields.opened
      refine ⟨⟨next, rest⟩ :: readers, ?_, ?_⟩
      · rw [openReaders, if_pos hext', hread]
        dsimp only
        rw [hopen]
        rfl
      · unfold walStreams
        rw [List.filter_cons_of_pos (by simpa using hext), List.map_cons]
        exact List.Forall₂.cons hfirst hhas
    · have hext' : ¬extension name = some [119, 97, 108] := hext
      refine ⟨readers, ?_, ?_⟩
      · rw [openReaders, if_neg hext']
        exact hopen
      · unfold walStreams
        rw [List.filter_cons_of_neg (by simpa using hext)]
        exact hhas

theorem length_walStreams_le {entries : List (Bytes × Bytes)}
    (h : ∀ f ∈ entries, IsWalFile f → Clean f.2) :
    (walStreams entries).flatten.length ≤ (entries.map (fun e => e.2.length)).sum := by
  induction entries with
  | nil => exact Nat.zero_le _
  | cons entry entries ih =>
    have ih' := ih (fun f hf => h f (List.mem_cons_of_mem _ hf))
    rw [List.map_cons, List.sum_cons]
    unfold walStreams at ih' ⊢
    by_cases hext : IsWalFile entry
    · have hlen := (h entry List.mem_cons_self hext).yields.length_le
      rw [List.filter_cons_of_pos (by simpa using hext), List.map_cons, List.flatten_cons,
        List.length_append]
      omega
    · rw [List.filter_cons_of_neg (by simpa using hext)]
      omega

/-- Files without errors are loaded to their ends, by calls for a merge of their records. -/
theorem loadWalDirWith_merges (Q : HeapQueue) {entries : List (Bytes × Bytes)}
    (h : ∀ f ∈ entries, IsWalFile f → Clean f.2) :
    ∃ out, Merges WalRecord.rev (walStreams entries) out ∧
      ∀ {σ : Type} (onEntry : σ → WalRecord → σ) (init : σ),
        loadWalDirWith Q entries onEntry init = some (out.foldl onEntry init, .ok ()) := by
  obtain ⟨readers, hopen, hhas⟩ := openReaders_has h
  obtain ⟨out, hout, hloop⟩ := mergeLoopWith_merges (initialHeapWith_queued Q readers) hhas
    (Nat.lt_succ_of_le (length_walStreams_le h))
  refine ⟨out, hout, ?_⟩
  intro σ onEntry init
  unfold loadWalDirWith
  rw [hopen]
  exact hloop onEntry init

/-- Loading files that decode without an error ends after a call for every record of every
file, those of each file in their order. Ascending files make an ascending sequence of
calls; if no revision occurs twice then neither the order in which the directory is listed
nor the queue has an influence on it. -/
theorem loadWalDir_calls (Q : HeapQueue) {entries : List (Bytes × Bytes)}
    (h : ∀ f ∈ entries, IsWalFile f → Clean f.2) :
    ∃ out : List WalRecord,
      (∀ {σ : Type} (onEntry : σ → WalRecord → σ) (init : σ),
        loadWalDirWith Q entries onEntry init = some (out.foldl onEntry init, .ok ())) ∧
      Interleaves (walStreams entries) out ∧
      ((∀ s ∈ walStreams entries, s.Pairwise (fun a b => a.rev ≤ b.rev)) →
        out.Pairwise (fun a b => a.rev ≤ b.rev)) ∧
      (((walStreams entries).flatten.map WalRecord.rev).Nodup →
        ∀ (Q' : HeapQueue) (entries' : List (Bytes × Bytes)), entries'.Perm entries →
          ∀ {σ : Type} (onEntry : σ → WalRecord → σ) (init : σ),
            loadWalDirWith Q' entries' onEntry init = some (out.foldl onEntry init, .ok ())) := by
  obtain ⟨out, hout, hload⟩ := loadWalDirWith_merges Q h
  refine ⟨out, hload, hout.interleaves, hout.sorted, ?_⟩
  intro hdistinct Q' entries' hperm σ onEntry init
  have h' : ∀ f ∈ entries', IsWalFile f → Clean f.2 := fun f hf => h f (hperm.mem_iff.mp hf)
  have hstreams : (walStreams entries').Perm (walStreams entries) := (hperm.filter _).map _
  obtain ⟨out', hout', hload'⟩ := loadWalDirWith_merges Q' h'
  rw [hload', hout.unique hout' hstreams hdistinct]

/-- Three files, one with a torn header behind its records and one without records. -/
def listedFiles : List (Bytes × Bytes) :=
  [(fileNameForPrefix [97], WalRecord.encode ⟨2, [97], some [1], false⟩ ++
      WalRecord.encode ⟨5, [97], none, false⟩ ++ [6, 0]),
    (fileNameForPrefix [98], []),
    (fileNameForPrefix [99], WalRecord.encode ⟨3, [99], some [], false⟩)]

theorem loadWalDir_calls_listedFiles :
    (∀ f ∈ listedFiles, IsWalFile f → Clean f.2) ∧
      ∀ entries : List (Bytes × Bytes), entries.Perm listedFiles →
        loadWalDir entries (fun revs rec => revs ++ [rec.rev]) [] =
          some (([2, 3, 5] : List ℤ), .ok ()) := by
  have hclean : ∀ f ∈ listedFiles, IsWalFile f → Clean f.2 := by
    intro f hf _
    simp only [listedFiles, List.mem_cons, List.not_mem_nil, or_false] at hf
    rcases hf with rfl | rfl | rfl
    · exact ⟨_, rfl, rfl⟩
    · exact ⟨_, rfl, rfl⟩
    · exact ⟨_, rfl, rfl⟩
  refine ⟨hclean, ?_⟩
  intro entries hperm
  obtain ⟨out, hload, _, _, hany⟩ :=
    loadWalDir_calls (PriorityQueue.sortedLists HeapItem.rev) hclean
  rw [loadWalDir_eq, hany (by decide) _ _ hperm, ← hload]
  decide +kernel

end MemEtcd
