import MemEtcd.LittleEndian
import MemEtcd.Store

/-! The write-ahead log: one file of records per key prefix, written by a queue
of its own and merged again by revision when a store is created. Opening,
writing and reading files succeed. -/
namespace MemEtcd

open Std (ExtTreeMap)
open LittleEndian (leBytes leNat)

/-- `WalRecord`. `writtenNotify` says that somebody waits for the record to be
written. -/
structure WalRecord where
  rev : ℤ
  key : Bytes
  value : Option Bytes
  writtenNotify : Bool
  deriving DecidableEq, Repr

abbrev deleteMarker : ℕ := 4294967295

/-- The layout of a record in `write_locked`: a header of 16 bytes, the key and
the value. -/
def WalRecord.encode (rec : WalRecord) : Bytes :=
  let keyLen := rec.key.length % 2 ^ 32
  let valueLen := (rec.value.map (fun v => v.length % 2 ^ 32)).getD deleteMarker
  leBytes 8 (rec.rev % 2 ^ 64).toNat ++ leBytes 4 keyLen ++ leBytes 4 valueLen ++
    rec.key ++ rec.value.getD []

/-- The part of `io::Error` that reading can produce. -/
inductive ReadError where
  | unexpectedEof
  deriving DecidableEq, Repr

/-- `read_exact`: the next `n` bytes and the rest. -/
def readExact (n : ℕ) (reader : Bytes) : Option (Bytes × Bytes) :=
  if n ≤ reader.length then some (reader.take n, reader.drop n) else none

/-- `WalRecord::read_from`. The second component is what remains to be read. -/
def WalRecord.readFrom (reader : Bytes) : Except ReadError (Option WalRecord) × Bytes :=
  match readExact 16 reader with
  | none => (.ok none, [])
  | some (header, reader) =>
    let rev := (leNat (header.take 8) : ℤ).bmod (2 ^ 64)
    let keyLen := leNat ((header.drop 8).take 4)
    let valueLenRaw := leNat ((header.drop 12).take 4)
    match readExact keyLen reader with
    | none => (.error .unexpectedEof, [])
    | some (key, reader) =>
      if valueLenRaw = deleteMarker then (.ok (some ⟨rev, key, none, false⟩), reader)
      else match readExact valueLenRaw reader with
        | none => (.error .unexpectedEof, [])
        | some (v, reader) => (.ok (some ⟨rev, key, some v, false⟩), reader)

/-! ### Writing -/

/-- `PerPrefixWriter`: the file it appends to and the records in its channel. -/
structure PerPrefixWriter where
  path : Bytes
  toWrite : List WalRecord
  mode : WalMode
  deriving DecidableEq, Repr

/-- `WalManager` with the contents of its directory by file name. `notified`
lists the revisions whose waiters have been woken up. -/
structure WalManager where
  defaultMode : WalMode
  noPersist : List Bytes
  writers : ExtTreeMap Bytes PerPrefixWriter compare
  walDir : ExtTreeMap Bytes Bytes compare
  notified : List ℤ

def hexDigit (n : ℕ) : UInt8 := if n < 10 then UInt8.ofNat (48 + n) else UInt8.ofNat (87 + n)

/-- A byte in the format `{:02x}`. -/
def hexByte (b : UInt8) : Bytes := [hexDigit (b.toNat / 16), hexDigit (b.toNat % 16)]

/-- `file_name_for_prefix`: `prefix_`, the bytes of the prefix in hex, `.wal`. -/
def fileNameForPrefix (pfx : Bytes) : Bytes :=
  [112, 114, 101, 102, 105, 120, 95] ++ pfx.flatMap hexByte ++ [46, 119, 97, 108]

namespace WalManager

/-- `WalManager::new` on an empty directory. -/
def new (defaultMode : WalMode) (noPersist : List Bytes) : WalManager :=
  ⟨defaultMode, noPersist, ∅, ∅, []⟩

/-- `open_for_prefix`: the file is created unless it exists. -/
def openForPrefix (w : WalManager) (pfx : Bytes) : WalManager × PerPrefixWriter :=
  let path := fileNameForPrefix pfx
  ({ w with walDir := w.walDir.insert path ((w.walDir[path]?).getD []) },
    ⟨path, [], w.defaultMode⟩)

def writer (w : WalManager) (pfx : Bytes) : WalManager × PerPrefixWriter :=
  match w.writers[pfx]? with
  | some writer => (w, writer)
  | none => w.openForPrefix pfx

def append (w : WalManager) (pfx : Bytes) (rev : ℤ) (key : Bytes) (value : Option Bytes)
    (writtenNotify : Bool) : WalManager :=
  if w.defaultMode = .none ∨ pfx ∈ w.noPersist then
    if writtenNotify then { w with notified := w.notified ++ [rev] } else w
  else
    let (w, writer) := w.writer pfx
    let writer := { writer with toWrite := writer.toWrite ++ [⟨rev, key, value, writtenNotify⟩] }
    { w with writers := w.writers.insert pfx writer }

end WalManager

/-- The loop of `write_locked`: the records it takes from the channel and those
it leaves. It stops after `ticks` rounds, when its time is over. -/
def takeBatch : List WalRecord → ℕ → ℕ → List WalRecord × List WalRecord
  | [], _, _ => ([], [])
  | rec :: queue, 0, _ => ([], rec :: queue)
  | rec :: queue, ticks + 1, currentSize =>
    if currentSize < 16384 then
      let size := rec.key.length + (rec.value.map List.length).getD 0 + 16
      let (batch, rest) := takeBatch queue ticks (currentSize + size)
      (rec :: batch, rest)
    else ([], rec :: queue)

/-- `write_locked` of the writer of a prefix. `fails` is the number of bytes that were
written when `libc::write` fails; the waiters of the batch are woken up all the same. -/
def WalManager.writeLocked (w : WalManager) (pfx : Bytes) (ticks : ℕ) (fails : Option ℕ) :
    WalManager :=
  match w.writers[pfx]? with
  | none => w
  | some writer =>
    let (batch, rest) := takeBatch writer.toWrite ticks 0
    let buffer := batch.flatMap WalRecord.encode
    let written := buffer.take (fails.getD buffer.length)
    { w with
      writers := w.writers.insert pfx { writer with toWrite := rest }
      walDir := w.walDir.insert writer.path ((w.walDir[writer.path]?).getD [] ++ written)
      notified := w.notified ++ (batch.filter (·.writtenNotify)).map (·.rev) }

/-! ### Loading -/

/-- `Path::extension` of a file name. -/
def extension (name : Bytes) : Option Bytes :=
  let ext := (name.reverse.takeWhile (· ≠ 46)).reverse
  let stem := name.take (name.length - ext.length - 1)
  if ext.length < name.length ∧ stem ≠ [] then some ext else none

/-- An entry of `readers` in `load_wal_dir`: the next record and the rest of the
file. -/
structure WalReader where
  next : Option WalRecord
  rest : Bytes
  deriving DecidableEq, Repr

structure HeapItem where
  idx : ℕ
  rev : ℤ
  deriving DecidableEq, Repr

/-- The readers of the `.wal` files among the directory entries. -/
def openReaders : List (Bytes × Bytes) → Except ReadError (List WalReader)
  | [] => .ok []
  | (name, contents) :: entries =>
    if extension name = some [119, 97, 108] then
      match WalRecord.readFrom contents with
      | (.error e, _) => .error e
      | (.ok next, rest) => (openReaders entries).map (⟨next, rest⟩ :: ·)
    else openReaders entries

/-- `heap.push`; the heap is kept by ascending revision, so that `pop` takes its
head. -/
def heapPush (item : HeapItem) (heap : List HeapItem) : List HeapItem :=
  List.orderedInsert (fun a b => a.rev ≤ b.rev) item heap

def initialHeap (readers : List WalReader) : List HeapItem :=
  readers.zipIdx.foldl (fun heap r => match r.1.next with
    | some rec => heapPush ⟨r.2, rec.rev⟩ heap
    | none => heap) []

/-- The merge loop of `load_wal_dir`, at most `fuel` rounds. -/
def mergeLoop {σ : Type} (onEntry : σ → WalRecord → σ) :
    ℕ → List WalReader → List HeapItem → σ → Option (σ × Except ReadError Unit)
  | 0, _, _, _ => none
  | _ + 1, _, [], st => some (st, .ok ())
  | fuel + 1, readers, item :: heap, st =>
    match readers[item.idx]? with
    | none => none
    | some reader =>
      match reader.next with
      | none => mergeLoop onEntry fuel readers heap st
      | some rec =>
        let st := onEntry st rec
        match WalRecord.readFrom reader.rest with
        | (.error e, _) => some (st, .error e)
        | (.ok next, rest) =>
          let readers := readers.set item.idx ⟨next, rest⟩
          match next with
          | some rec => mergeLoop onEntry fuel readers (heapPush ⟨item.idx, rec.rev⟩ heap) st
          | none => mergeLoop onEntry fuel readers heap st

/-- `load_wal_dir`, for the directory entries in the order in which they are
listed. Every round of the loop uses up a record, so the number of bytes bounds
the number of rounds. -/
def loadWalDir {σ : Type} (entries : List (Bytes × Bytes)) (onEntry : σ → WalRecord → σ)
    (init : σ) : Option (σ × Except ReadError Unit) :=
  match openReaders entries with
  | .error e => some (init, .error e)
  | .ok readers =>
    mergeLoop onEntry ((entries.map (fun e => e.2.length)).sum + 1) readers (initialHeap readers)
      init

namespace Store

/-- The replay of one record in `Store::new`. -/
def replayRecord (s : Store) (rec : WalRecord) : Store := s.setForReplay rec.key rec.value

/-- `Store::new` with `load_wal_dir`, for the listing of the WAL directory. -/
def newFromWal (wal : WalMode) (entries : List (Bytes × Bytes)) :
    Option (Store × Except ReadError Unit) :=
  loadWalDir entries replayRecord (new (some wal))

end Store
end MemEtcd
