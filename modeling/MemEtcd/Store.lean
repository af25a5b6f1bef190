import MemEtcd.BlockDeque
import MemEtcd.Keys

/-! The in-memory store. An `Arc<RwLock<TreeItem>>` is an address into the heap
`items`, so that both indexes share the items they point to; operations on the
store are functions from a store to a store. -/
namespace MemEtcd

open Std (ExtTreeMap)

/-- `BLOCK_SIZE` of the revision array. -/
abbrev storeBlock : ℕ := 1048576

instance : NeZero storeBlock := ⟨Nat.succ_ne_zero _⟩

/-- `TreeItem`: all that is known about one key. -/
structure TreeItem where
  key : Bytes
  revisions : List ℤ
  latestValue : Value
  deriving DecidableEq, Repr

/-- The item a `set` of an unknown key creates before it takes the item's lock. -/
def TreeItem.placeholder (key : Bytes) : TreeItem := ⟨key, [], VersionLog.Cell.blank⟩

/-- `Watcher`. Its sender is named by the channel's number. -/
structure Watcher where
  startRevision : ℤ
  keyRangeStart : Bytes
  keyRangeEnd : Bytes
  ch : ℕ
  deriving DecidableEq, Repr

structure SetRequired where
  requiredLastRevision : Option ℤ
  requiredVersion : Option ℤ
  /-- 0=EQUAL, 1=GREATER, 2=LESS, 3=NOT_EQUAL -/
  compareResult : ℤ
  deriving DecidableEq, Repr

inductive WalMode where
  | none
  | async
  | sync
  deriving DecidableEq, Repr

/-- `NotifyJob`. `walHandled` says that the caller waits for the record to be
written. -/
structure NotifyJob where
  rev : ℤ
  watchers : List ℕ
  msg : KeyValueWithPrev
  prefixStr : List Char
  walHandled : Bool
  deriving DecidableEq, Repr

/-- The order of `(ByteArray, i64)`. -/
abbrev watcherOrder : Bytes × ℤ → Bytes × ℤ → Ordering :=
  compareLex (compareOn Prod.fst) (compareOn Prod.snd)

instance : Std.TransCmp watcherOrder := inferInstance

/-- `Store`. `wal` is the default mode of its WAL manager, `notifyTx` the jobs
in the notification channel, `items` the heap behind both indexes. -/
structure Store where
  prefixMap : ExtTreeMap Bytes (ExtTreeMap Bytes ℕ compare) compare
  treeMap : ExtTreeMap Bytes ℕ compare
  items : List TreeItem
  valuesByRevision : BlockDeque Value storeBlock
  watchers : ExtTreeMap (Bytes × ℤ) Watcher watcherOrder
  watchCounter : ℤ
  wal : Option WalMode
  notifyTx : List NotifyJob

namespace Store

/-- `Store::new` before any WAL record is replayed. -/
def new (wal : Option WalMode) : Store where
  prefixMap := ∅
  treeMap := ∅
  items := []
  valuesByRevision := BlockDeque.new
  watchers := ∅
  watchCounter := 0
  wal := wal
  notifyTx := []

def currentRevision (s : Store) : ℤ := s.valuesByRevision.latestRevision

def compactedRevision (s : Store) : ℤ := s.valuesByRevision.earliestRevision

/-- The item behind an `Arc`. -/
def deref (s : Store) (a : ℕ) : TreeItem := s.items.getD a (TreeItem.placeholder [])

/-- The item of a key in `tree_map`. -/
def item? (s : Store) (key : Bytes) : Option TreeItem := (s.treeMap[key]?).map s.deref

end Store

/-! ### `Store::set` -/

/-- `cmp_satisfied`, for a compare result as the request carries it. -/
def cmpSatisfied (cmp existing target : ℤ) : Bool :=
  if cmp = 1 then existing > target
  else if cmp = 2 then existing < target
  else if cmp = 3 then existing ≠ target
  else existing = target

def requiredLastRevision (required : Option SetRequired) : ℤ :=
  (required.bind (·.requiredLastRevision)).getD (-1)

def requiredVersion (required : Option SetRequired) : ℤ :=
  (required.bind (·.requiredVersion)).getD (-1)

def compareResult (required : Option SetRequired) : ℤ := (required.map (·.compareResult)).getD 0

/-- The checks of `set` under the item's lock. A failure carries the key-value
that it reports. -/
def checkItem (item : TreeItem) (value : Option Bytes) (required : Option SetRequired) :
    Except (Option KeyValue) Unit :=
  let cmp := cmpSatisfied (compareResult required)
  if item.latestValue.value.isSome then
    if (requiredLastRevision required ≥ 0 ∧
          cmp item.latestValue.modRevision (requiredLastRevision required) = false) ∨
        (requiredVersion required ≥ 0 ∧
          cmp item.latestValue.version (requiredVersion required) = false) then
      .error (some (asMvccKeyValue item.latestValue item.key))
    else .ok ()
  else if requiredLastRevision required > 0 ∨ requiredVersion required > 0 then .error none
  else if value.isNone then .error none
  else .ok ()

/-- The revisions of an item after `set` has dropped the compacted ones. -/
def drainRevisions (revisions : List ℤ) (earliest : ℤ) : List ℤ :=
  if revisions.head?.getD earliest < earliest then
    revisions.drop (partitionPoint revisions earliest)
  else revisions

/-- `placeholder_value` of `set` and `set_for_replay`. -/
def placeholderValue : Value := ⟨0, 0, 1, none⟩

/-- What a successful `set` leaves behind when it gives up the item's lock. -/
structure Committed where
  newRev : ℤ
  key : Bytes
  value : Value
  oldValue : Option Value
  deriving DecidableEq, Repr

/-- The update of `set` under the item's lock, after its checks. -/
def updateItem (item : TreeItem) (values : BlockDeque Value storeBlock) (value : Option Bytes)
    (isNewItem : Bool) : TreeItem × BlockDeque Value storeBlock × Committed :=
  let revisions := drainRevisions item.revisions values.earliestRevision
  let (index, values) := values.push placeholderValue
  let newRev : ℤ := index + 1
  let newValue : Value :=
    if item.latestValue.value.isSome then
      ⟨item.latestValue.createRevision, newRev, item.latestValue.version + 1, value⟩
    else ⟨newRev, newRev, 1, value⟩
  let oldValue := if isNewItem then none else some item.latestValue
  let (_, values) := values.set (newRev.toNat - 1) newValue
  (⟨item.key, revisions ++ [newRev], newValue⟩, values, ⟨newRev, item.key, newValue, oldValue⟩)

namespace Store

/-- The `tree_map` entry of a key, created when it is vacant. The result says
whether it was. -/
def entry (s : Store) (key : Bytes) : Store × ℕ × Bool :=
  match s.treeMap[key]? with
  | some a => (s, a, false)
  | none =>
    ({ s with items := s.items ++ [TreeItem.placeholder key],
              treeMap := s.treeMap.insert key s.items.length }, s.items.length, true)

/-- The insertion of an item into its bucket of `prefix_map`. -/
def index (s : Store) (key : Bytes) (a : ℕ) : Store :=
  let (pfx, suffix) := prefixSplit key
  let btree := (s.prefixMap[pfx]?).getD ∅
  { s with prefixMap := s.prefixMap.insert pfx (btree.insert suffix a) }

/-- The section of `set` under the item's write lock. -/
def locked (s : Store) (a : ℕ) (isNewItem : Bool) (value : Option Bytes)
    (required : Option SetRequired) : Store × Except (Option KeyValue) Committed :=
  let existingItem := s.deref a
  match checkItem existingItem value required with
  | .error kv => (s, .error kv)
  | .ok () =>
    let (item, values, committed) := updateItem existingItem s.valuesByRevision value isNewItem
    ({ s with items := s.items.set a item, valuesByRevision := values }, .ok committed)

/-- The watchers a change of `key` at revision `rev` is sent to. -/
def watchersToNotify (s : Store) (key : Bytes) (rev : ℤ) : List ℕ :=
  s.watchers.toList.filterMap (fun e =>
    -- `range(..(key, i64::MAX))` and then the watcher's own range
    if (e.1.1 < key ∨ (e.1.1 = key ∧ e.1.2 < 9223372036854775807)) ∧
        e.2.startRevision ≤ rev ∧
        (if e.2.keyRangeEnd.isEmpty then key = e.2.keyRangeStart
          else key < e.2.keyRangeEnd ∧ e.2.keyRangeStart ≤ key) then
      some e.2.ch
    else none)

/-- The job that `notify_watchers` sends. -/
def notifyJob (s : Store) (c : Committed) (pfx : Bytes) : NotifyJob where
  rev := c.value.modRevision
  watchers := s.watchersToNotify c.key c.value.modRevision
  msg := ⟨asMvccKeyValue c.value c.key, c.oldValue.map (fun v => asMvccKeyValue v c.key)⟩
  prefixStr := fromUtf8Lossy pfx
  walHandled := decide (s.wal = some .sync)

/-- `notify_watchers`, up to the wait for the WAL. -/
def notifyWatchers (s : Store) (c : Committed) (pfx : Bytes) : Store :=
  { s with notifyTx := s.notifyTx ++ [s.notifyJob c pfx] }

/-- `set` up to the release of the item's lock. -/
def update (s : Store) (key : Bytes) (value : Option Bytes) (required : Option SetRequired) :
    Store × Except (Option KeyValue) Committed :=
  let (s, a, isNewItem) := s.entry key
  let s := if isNewItem then s.index key a else s
  s.locked a isNewItem value required

/-- `Store::set`, run without other calls in between. -/
def set (s : Store) (key : Bytes) (value : Option Bytes) (required : Option SetRequired) :
    Store × Except (ℤ × Option KeyValue) ℤ :=
  let latestRev := s.currentRevision
  match s.update key value required with
  | (s, .error kv) => (s, .error (latestRev, kv))
  | (s, .ok c) => (s.notifyWatchers c (prefixSplit key).1, .ok c.newRev)

def delete (s : Store) (key : Bytes) (required : Option SetRequired) :
    Store × Except (ℤ × Option KeyValue) ℤ :=
  s.set key none required

/-! ### Replay of the WAL -/

/-- The change of an item in `set_for_replay`: a second copy of the update in
`set`, without the check of the revisions. -/
def replayItem (item : TreeItem) (values : BlockDeque Value storeBlock) (value : Option Bytes) :
    TreeItem × BlockDeque Value storeBlock :=
  let (index, values) := values.push placeholderValue
  let newRev : ℤ := index + 1
  let newValue : Value :=
    if item.latestValue.value.isSome then
      ⟨item.latestValue.createRevision, newRev, item.latestValue.version + 1, value⟩
    else ⟨newRev, newRev, 1, value⟩
  (⟨item.key, item.revisions ++ [newRev], newValue⟩, (values.set (newRev.toNat - 1) newValue).2)

def setForReplay (s : Store) (key : Bytes) (value : Option Bytes) : Store :=
  match s.treeMap[key]? with
  | some a =>
    let existingItem := s.deref a
    if existingItem.latestValue.value.isNone ∧ value.isNone then s
    else
      let (item, values) := replayItem existingItem s.valuesByRevision value
      { s with items := s.items.set a item, valuesByRevision := values }
  | none =>
    if value.isNone then s
    else
      let (item, values) := replayItem (TreeItem.placeholder key) s.valuesByRevision value
      let a := s.items.length
      let s := { s with items := s.items ++ [item], valuesByRevision := values }
      let s := s.index key a
      { s with treeMap := s.treeMap.insert key a }

/-! ### Reads -/

def findValueForRevision (s : Store) (item : TreeItem) (rev : ℤ) : Except Fault (Option Value) :=
  if rev ≤ 0 then .error (.panic .revisionAssertion)
  else if rev ≥ item.latestValue.modRevision then .ok (some item.latestValue)
  else match binarySearch item.revisions rev with
    | .ok i => .ok (s.valuesByRevision.get ((item.revisions.getD i 0).toNat - 1)).toOption
    | .error i =>
      if i > 0 then
        .ok (s.valuesByRevision.get ((item.revisions.getD (i - 1) 0).toNat - 1)).toOption
      else .ok none

def hasValueForRevision (s : Store) (item : TreeItem) (rev : ℤ) : Except Fault Bool :=
  if rev ≤ 0 then .error (.panic .revisionAssertion)
  else if rev ≥ item.latestValue.modRevision then .ok item.latestValue.value.isSome
  else match binarySearch item.revisions rev with
    | .ok i => .ok (s.valuesByRevision.getWith ((item.revisions.getD i 0).toNat - 1)
        (fun x => x.any (fun v => v.value.isSome)))
    | .error i =>
      if i > 0 then
        .ok (s.valuesByRevision.getWith ((item.revisions.getD (i - 1) 0).toNat - 1)
          (fun x => match x with | some v => v.value.isSome | none => false))
      else .ok false

end Store

structure RangeResult where
  kvs : List KeyValue
  latestRev : ℤ
  count : ℕ
  deriving DecidableEq, Repr

def futureRevision : Status :=
  ⟨.outOfRange, "etcdserver: mvcc: required revision is a future revision"⟩

def compactedRevisionStatus : Status :=
  ⟨.outOfRange, "etcdserver: mvcc: required revision has been compacted"⟩

namespace Store

/-- The loop of `range` over the items of a bucket, with its `results` and
`count`. A limit of `none` is `usize::MAX`, which no count reaches. -/
def scan (s : Store) (rev : ℤ) (limit : Option ℕ) (pfx : Bytes) :
    List (Bytes × ℕ) → List KeyValue → ℕ → Except Fault (List KeyValue × ℕ)
  | [], results, count => .ok (results, count)
  | (suffix, a) :: rest, results, count =>
    let item := s.deref a
    if limit.any (fun l => l ≤ count) then do
      -- `count > limit` and `count == limit` alike: the key is only counted
      let has ← s.hasValueForRevision item rev
      s.scan rev limit pfx rest results (if has then count + 1 else count)
    else do
      let found ← s.findValueForRevision item rev
      match found with
      | some v =>
        if v.value.isSome then
          s.scan rev limit pfx rest
            (if limit.all (fun l => results.length < l) then
              results ++ [asMvccKeyValue v (pfx ++ suffix)] else results) (count + 1)
        else s.scan rev limit pfx rest results count
      | none => s.scan rev limit pfx rest results count

def range (s : Store) (start endKey : Bytes) (rev : ℤ) (limit : Option ℕ) :
    Except Fault RangeResult :=
  let latestRev := s.currentRevision
  if rev > latestRev then .error (.status futureRevision)
  else if rev > 0 ∧ rev ≤ s.compactedRevision then .error (.status compactedRevisionStatus)
  else
    let rev := if rev = 0 then latestRev else rev
    match prefixAndRangeOfKey start endKey with
    | .error e => .error (.status e)
    | .ok (pfx, lo, hi) =>
      match s.prefixMap[pfx]? with
      | none => .ok ⟨[], latestRev, 0⟩
      | some btree => do
        let entries ← btreeRange btree lo hi
        let (results, count) ← s.scan rev limit pfx entries [] 0
        return ⟨results, latestRev, count⟩

/-- The inner loop of `watch` over the revisions of an item. -/
def changesFrom (s : Store) (item : TreeItem) (startRev : ℤ) (wantPrevKv : Bool) :
    List ℤ → Option KeyValue → List KeyValueWithPrev
  | [], _ => []
  | itemRev :: rest, prevKv =>
    match s.valuesByRevision.get (itemRev.toNat - 1) with
    | .ok v =>
      (if itemRev ≥ startRev then [⟨asMvccKeyValue v item.key, prevKv⟩] else []) ++
        s.changesFrom item startRev wantPrevKv rest
          (if wantPrevKv then some (asMvccKeyValue v item.key) else none)
    | .error () => s.changesFrom item startRev wantPrevKv rest none

/-- The past changes of one item that `watch` collects. -/
def itemChanges (s : Store) (startRev : ℤ) (wantPrevKv : Bool) (item : TreeItem) :
    List KeyValueWithPrev :=
  let startPos := match binarySearch item.revisions startRev with
    | .ok i => i
    | .error i => i
  let startPos := if startPos > 0 ∧ wantPrevKv then startPos - 1 else startPos
  s.changesFrom item startRev wantPrevKv (item.revisions.drop startPos) none

/-- The registration step of `watch`; the watcher's channel has its number. -/
def register (s : Store) (start endKey : Bytes) (startRev : ℤ) : Store :=
  let watcherId := s.watchCounter + 1
  { s with
    watchCounter := watcherId
    watchers := s.watchers.insert (start, watcherId) ⟨startRev, start, endKey, watcherId.toNat⟩ }

/-- `Store::watch`: the past changes and the watcher's id. -/
def watch (s : Store) (start endKey : Bytes) (rev : ℤ) (wantPrevKv : Bool) :
    Store × Except Panic (Except ℤ (List KeyValueWithPrev × ℤ)) :=
  let startRev := if rev ≤ 0 then s.currentRevision else rev
  if rev > 0 ∧ rev ≤ s.compactedRevision then (s, .ok (.error s.compactedRevision))
  else
    let compactRevision := s.compactedRevision
    let s := s.register start endKey startRev
    if rev > 0 then
      match prefixAndRangeOfKey start endKey with
      | .error _ => (s, .ok (.error compactRevision))
      | .ok (pfx, lo, hi) =>
        match s.prefixMap[pfx]? with
        | none => (s, .ok (.ok ([], s.watchCounter)))
        | some btree =>
          match btreeRange btree lo hi with
          | .error _ => (s, .error .rangeBounds)
          | .ok entries =>
            (s, .ok (.ok (entries.flatMap (fun e =>
              s.itemChanges startRev wantPrevKv (s.deref e.2)), s.watchCounter)))
    else (s, .ok (.ok ([], s.watchCounter)))

def unwatch (s : Store) (start : Bytes) (watcherId : ℤ) : Store :=
  { s with watchers := s.watchers.erase (start, watcherId) }

def compact (s : Store) (rev : ℤ) : Store × Except Status Unit :=
  if rev < 1 ∨ rev > s.currentRevision then (s, .error compactedRevisionStatus)
  else match s.valuesByRevision.removeBefore (rev - 1).toNat with
    | (.ok (), values) => ({ s with valuesByRevision := values }, .ok ())
    | (.error (), values) =>
      ({ s with valuesByRevision := values },
        .error ⟨.internal, "etcdserver: mvcc: compact failed"⟩)

end Store

/-- An entry `(key, value, create_revision, mod_revision, version)` of a
snapshot. -/
structure SnapshotEntry where
  key : Bytes
  value : Bytes
  createRevision : ℤ
  modRevision : ℤ
  version : ℤ
  deriving DecidableEq, Repr

namespace Store

/-- `Store::export_snapshot_data`, in the order of the keys. The iteration order
of a `DashMap` is not specified: see `IsExport`. -/
def exportSnapshotData (s : Store) : List SnapshotEntry :=
  s.treeMap.toList.filterMap (fun e =>
    let item := s.deref e.2
    item.latestValue.value.map (fun v => SnapshotEntry.mk e.1 v
      item.latestValue.createRevision item.latestValue.modRevision item.latestValue.version))

/-- The results `export_snapshot_data` may have. -/
def IsExport (s : Store) (entries : List SnapshotEntry) : Prop :=
  entries.Perm s.exportSnapshotData

/-- One round of the insertion loop of `import_snapshot_data`. -/
def importEntry (s : Store) (e : SnapshotEntry) : Store :=
  let val : Value := ⟨e.createRevision, e.modRevision, e.version, some e.value⟩
  let a := s.items.length
  let s := { s with
    valuesByRevision := (s.valuesByRevision.set (e.modRevision.toNat - 1) val).2
    items := s.items ++ [TreeItem.mk e.key [e.modRevision] val] }
  let s := s.index e.key a
  { s with treeMap := s.treeMap.insert e.key a }

/-- The largest `mod_revision` of a snapshot, zero if it is empty. -/
def maxModRev (entries : List SnapshotEntry) : ℤ :=
  ((entries.map (·.modRevision)).max?).getD 0

def importSnapshotData (s : Store) (entries : List SnapshotEntry) : Store :=
  let placeholder : Value := ⟨0, 0, 0, none⟩
  let values := (List.replicate (maxModRev entries).toNat placeholder).foldl
    (fun d v => (d.push v).2) s.valuesByRevision.clear
  let s := { s with prefixMap := ∅, treeMap := ∅, valuesByRevision := values }
  entries.foldl importEntry s

end Store
end MemEtcd
