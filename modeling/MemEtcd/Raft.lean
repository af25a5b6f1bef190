import MemEtcd.StoreLive

/-! The Raft state machine around the store. Log entries, log ids and the
membership are those of the consensus library; JSON encoding and decoding of a
snapshot are functions that `buildSnapshot` and `installSnapshot` are given. -/
namespace MemEtcd

open VersionLog (Cell)

structure LeaderId where
  term : ℕ
  nodeId : ℕ
  deriving DecidableEq, Repr

structure LogId where
  leaderId : LeaderId
  index : ℕ
  deriving DecidableEq, Repr

structure Membership where
  configs : List (List ℕ)
  nodes : List (ℕ × String)
  deriving DecidableEq, Repr

structure StoredMembership where
  logId : Option LogId
  membership : Membership
  deriving DecidableEq, Repr

inductive RaftRequest where
  | set (key value : Bytes)
  | delete (key : Bytes)
  deriving DecidableEq, Repr

structure RaftResponse where
  revision : ℤ
  deriving DecidableEq, Repr

inductive EntryPayload where
  | blank
  | normal (req : RaftRequest)
  | membership (mem : Membership)
  deriving DecidableEq, Repr

structure Entry where
  logId : LogId
  payload : EntryPayload
  deriving DecidableEq, Repr

structure StateMachineData where
  lastAppliedLog : Option LogId
  lastMembership : StoredMembership
  deriving DecidableEq, Repr

structure FullSnapshotData where
  lastAppliedLog : Option LogId
  lastMembership : StoredMembership
  kvEntries : List SnapshotEntry
  deriving DecidableEq, Repr

structure SnapshotMeta where
  lastLogId : Option LogId
  lastMembership : StoredMembership
  snapshotId : String
  deriving DecidableEq, Repr

/-- `StoredSnapshot`, and what the snapshot builder returns. -/
structure StoredSnapshot where
  snapshotMeta : SnapshotMeta
  data : Bytes
  deriving DecidableEq, Repr

inductive ErrorVerb where
  | read
  | write
  deriving DecidableEq, Repr

/-- A `StorageError` about the state machine. -/
structure StorageError where
  verb : ErrorVerb
  message : String
  deriving DecidableEq, Repr

structure StateMachineStore where
  store : Store
  sm : StateMachineData
  snapshotIdx : ℕ
  currentSnapshot : Option StoredSnapshot

/-- The revision in the result of a `set` or `delete`, whether it succeeded or
not. -/
def resultRevision : Except (ℤ × Option KeyValue) ℤ → ℤ
  | .ok rev => rev
  | .error (rev, _) => rev

def RaftRequest.run (req : RaftRequest) (s : Store) : Store × ℤ :=
  match req with
  | .set key value =>
    let (s, res) := s.set key (some value) none
    (s, resultRevision res)
  | .delete key =>
    let (s, res) := s.delete key none
    (s, resultRevision res)

namespace StateMachineStore

def new (store : Store) : StateMachineStore := ⟨store, ⟨none, ⟨none, ⟨[], []⟩⟩⟩, 0, none⟩

/-- One round of the loop of `apply`. -/
def applyEntry (m : StateMachineStore) (entry : Entry) : StateMachineStore × RaftResponse :=
  let m := { m with sm := { m.sm with lastAppliedLog := some entry.logId } }
  match entry.payload with
  | .blank => (m, ⟨m.store.currentRevision⟩)
  | .normal req =>
    let (store, rev) := req.run m.store
    ({ m with store := store }, ⟨rev⟩)
  | .membership mem =>
    let m := { m with sm := { m.sm with lastMembership := ⟨some entry.logId, mem⟩ } }
    (m, ⟨m.store.currentRevision⟩)

def apply (m : StateMachineStore) : List Entry → StateMachineStore × List RaftResponse
  | [] => (m, [])
  | entry :: entries =>
    let (m, response) := m.applyEntry entry
    let (m, results) := m.apply entries
    (m, response :: results)

def fullSnapshotData (m : StateMachineStore) (kvEntries : List SnapshotEntry) :
    FullSnapshotData :=
  ⟨m.sm.lastAppliedLog, m.sm.lastMembership, kvEntries⟩

/-- `build_snapshot`, with `serde_json::to_vec` and the result of
`export_snapshot_data`. -/
def buildSnapshot (toVec : FullSnapshotData → Except String Bytes) (m : StateMachineStore)
    (kvEntries : List SnapshotEntry) : StateMachineStore × Except StorageError StoredSnapshot :=
  let snapData := m.fullSnapshotData kvEntries
  match toVec snapData with
  | .error e => (m, .error ⟨.write, e⟩)
  | .ok data =>
    let snapshotIdx := m.snapshotIdx + 1
    let snapshotId := match snapData.lastAppliedLog with
      | some last => s!"T{last.leaderId.term}-N{last.leaderId.nodeId}-{last.index}-{snapshotIdx}"
      | none => s!"--{snapshotIdx}"
    let snapshot := ⟨⟨snapData.lastAppliedLog, snapData.lastMembership, snapshotId⟩, data⟩
    ({ m with snapshotIdx := snapshotIdx, currentSnapshot := some snapshot }, .ok snapshot)

/-- `install_snapshot`, with `serde_json::from_slice`. -/
def installSnapshot (fromSlice : Bytes → Except String FullSnapshotData) (m : StateMachineStore)
    (snapshot : StoredSnapshot) : StateMachineStore × Except StorageError Unit :=
  match fromSlice snapshot.data with
  | .error e => (m, .error ⟨.read, e⟩)
  | .ok recovered =>
    ({ m with
        store := m.store.importSnapshotData recovered.kvEntries
        sm := ⟨recovered.lastAppliedLog, recovered.lastMembership⟩
        currentSnapshot := some snapshot }, .ok ())

end StateMachineStore

/-! ### What a replicated request does to the store -/

def RaftRequest.change : RaftRequest → Bytes × Option Bytes
  | .set key value => (key, some value)
  | .delete key => (key, none)

theorem RaftRequest.run_eq (req : RaftRequest) (s : Store) :
    req.run s = ((s.set req.change.1 req.change.2 none).1,
      resultRevision (s.set req.change.1 req.change.2 none).2) := by
  cases req <;> rfl

/-- Without a condition only the deletion of an absent key is refused. -/
theorem checkItem_none (item : TreeItem) (value : Option Bytes) :
    checkItem item value none =
      if item.latestValue.value.isSome ∨ value.isSome then .ok () else .error none := by
  unfold checkItem requiredLastRevision requiredVersion
  cases item.latestValue.value <;> cases value <;> simp

def RaftRequest.succeeds (req : RaftRequest) (s : Store) : Bool :=
  (s.live req.change.1).isSome || req.change.2.isSome

theorem RaftRequest.checkItem_eq (req : RaftRequest) (s : Store) :
    checkItem (s.view req.change.1) req.change.2 none =
      if req.succeeds s then .ok () else .error none := by
  rw [checkItem_none]
  unfold succeeds Store.live
  rw [Cell.live_isSome]
  simp only [Bool.or_eq_true]

/-- The effect of a request on the live state. -/
theorem RaftRequest.run_spec (req : RaftRequest) {s : Store} (hs : s.WF) :
    (req.run s).1.currentRevision =
        s.currentRevision + (if req.succeeds s then 1 else 0) ∧
      (req.run s).2 = (req.run s).1.currentRevision ∧
      ∀ k, (req.run s).1.live k =
        if k = req.change.1 ∧ req.succeeds s then
          (((s.live k).getD Cell.blank).next (s.currentRevision + 1) req.change.2).live
        else s.live k := by
  have hc := req.checkItem_eq s
  rw [run_eq]
  by_cases h : req.succeeds s
  · rw [if_pos h] at hc
    obtain ⟨hcur, hl⟩ := Store.live_set_accepted hs hc
    refine ⟨by rw [if_pos h]; exact hcur, ?_, ?_⟩
    · rw [(Store.set_accepted hs hc).1, hcur]
      rfl
    · intro k
      rw [hl]
      by_cases hk : k = req.change.1
      · rw [if_pos hk, if_pos ⟨hk, h⟩, hk]
      · rw [if_neg hk, if_neg (fun hh => hk hh.1)]
  · rw [if_neg h] at hc
    obtain ⟨hcur, hl⟩ := Store.live_set_refused hs hc
    refine ⟨by rw [if_neg h, add_zero]; exact hcur, ?_, ?_⟩
    · rw [(Store.set_refused hs hc).1, hcur]
      rfl
    · intro k
      rw [hl, if_neg (fun hh => h hh.2)]

theorem RaftRequest.run_coherent (req : RaftRequest) {s : Store} (hs : s.Coherent) :
    (req.run s).1.Coherent := by
  rw [run_eq]
  exact Store.set_coherent hs _ _ _

theorem RaftRequest.run_treeMap (req : RaftRequest) {s : Store} (hs : s.WF) (k : Bytes) :
    ((req.run s).1.treeMap[k]?).isSome ↔ (s.treeMap[k]?).isSome ∨ k = req.change.1 := by
  rw [run_eq]
  exact Store.set_treeMap_isSome hs _ _ _ k

end MemEtcd
