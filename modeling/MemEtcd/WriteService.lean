import MemEtcd.KvService

/-! The put and delete handlers of the KV service. A handler first reads the key from
the store of its node, where it needs the previous value, and then writes: into its own
store in single-node mode, through the log in Raft mode. -/
namespace MemEtcd

/-- The fields of a `PutRequest` that the put handler reads. -/
structure PutQuery extends PutRequest where
  prevKv : Bool
  ignoreValue : Bool
  deriving DecidableEq, Repr

/-- The fields of a `DeleteRangeRequest` that the delete handler reads. -/
structure DeleteRangeQuery extends DeleteRangeRequest where
  prevKv : Bool
  deriving DecidableEq, Repr

/-- A write that a handler has decided on, with what it will report of the previous
value. -/
inductive WritePlan where
  | put (key value : Bytes) (prevKv : Option KeyValue)
  | deleteRange (key : Bytes) (deleted : ℤ) (prevKvs : List KeyValue)
  deriving DecidableEq, Repr

def Store.readKey (s : Store) (key : Bytes) : Except Fault (Option KeyValue) := do
  let rangeResult ← s.range key [] 0 (some 1)
  return rangeResult.kvs.head?

/-- `put` up to its write. -/
def PutQuery.plan (req : PutQuery) (s : Store) : Except Fault WritePlan := do
  let prevKv ← if req.prevKv || req.ignoreValue then s.readKey req.key else pure none
  let value ← if req.ignoreValue then
      match prevKv with
      | some kv => pure kv.value
      | none => .error (.status (.invalidArgument "ignore_value set but key does not exist"))
    else pure req.value
  return .put req.key value (if req.prevKv then prevKv else none)

/-- `delete_range` up to its write. -/
def DeleteRangeQuery.plan (req : DeleteRangeQuery) (s : Store) : Except Fault WritePlan :=
  if req.rangeEnd ≠ [] then
    .error (.status (.invalidArgument "range end not supported in deleteRange"))
  else do
    let existingKv ← s.readKey req.key
    let deleted := if existingKv.isSome then 1 else 0
    return .deleteRange req.key deleted (if req.prevKv then existingKv.toList else [])

def WritePlan.proposal : WritePlan → RaftRequest
  | .put key value _ => .set key value
  | .deleteRange key _ _ => .delete key

/-- The response to a write with the revision `rev`. -/
def WritePlan.respond (plan : WritePlan) (rev : ℤ) : ResponseOp :=
  match plan with
  | .put _ _ prevKv => .put ⟨responseHeader rev, prevKv⟩
  | .deleteRange _ deleted prevKvs => .deleteRange ⟨responseHeader rev, deleted, prevKvs⟩

namespace KvService

def writeRaft (svc : KvService) (outcome : Except String LogId) (plan : WritePlan) :
    KvService × Except Status ℤ :=
  match svc.ensureLeader with
  | .error e => (svc, .error e)
  | .ok () => svc.raftWrite outcome plan.proposal

/-- The write of a handler in single-node mode; `debug` is the debug text of what `set`
returns in its error. -/
def writeLocal (debug : ℤ × Option KeyValue → String) (svc : KvService) (plan : WritePlan) :
    KvService × Except Status ℤ :=
  match plan with
  | .put key value _ =>
    let (store, result) := svc.machine.store.set key (some value) none
    ({ svc with machine := { svc.machine with store := store } },
      match result with
      | .ok rev => .ok rev
      | .error e => .error ⟨.internal, s!"Put operation failed: {debug e}"⟩)
  | .deleteRange key _ _ =>
    let (store, result) := svc.machine.store.delete key none
    ({ svc with machine := { svc.machine with store := store } }, .ok (resultRevision result))

def write (debug : ℤ × Option KeyValue → String) (svc : KvService)
    (outcome : Except String LogId) (plan : Except Fault WritePlan) :
    KvService × Except Fault ResponseOp :=
  match plan with
  | .error fault => (svc, .error fault)
  | .ok plan =>
    let (svc, result) :=
      if svc.raft.isSome then svc.writeRaft outcome plan else svc.writeLocal debug plan
    (svc, match result with
      | .ok rev => .ok (plan.respond rev)
      | .error e => .error (.status e))

def put (debug : ℤ × Option KeyValue → String) (svc : KvService)
    (outcome : Except String LogId) (req : PutQuery) : KvService × Except Fault ResponseOp :=
  svc.write debug outcome (req.plan svc.machine.store)

def deleteRange (debug : ℤ × Option KeyValue → String) (svc : KvService)
    (outcome : Except String LogId) (req : DeleteRangeQuery) :
    KvService × Except Fault ResponseOp :=
  svc.write debug outcome (req.plan svc.machine.store)

theorem ensureLeader_of_leader {m : StateMachineStore} {node : RaftNode}
    (h : node.currentLeader = some node.id) : (KvService.mk m (some node)).ensureLeader = .ok () := by
  unfold ensureLeader
  simp only [h, if_true]

/-- A write on the leader applies its entry and responds with the revision. -/
theorem write_leader (debug : ℤ × Option KeyValue → String) {m : StateMachineStore}
    {node : RaftNode} (h : node.currentLeader = some node.id) (logId : LogId) (plan : WritePlan) :
    (KvService.mk m (some node)).write debug (.ok logId) (.ok plan) =
      (⟨(m.applyEntry ⟨logId, .normal plan.proposal⟩).1, some node⟩,
        .ok (plan.respond (m.applyEntry ⟨logId, .normal plan.proposal⟩).2.revision)) := by
  have hraft : (KvService.mk m (some node)).writeRaft (.ok logId) plan =
      (⟨(m.applyEntry ⟨logId, .normal plan.proposal⟩).1, some node⟩,
        .ok (m.applyEntry ⟨logId, .normal plan.proposal⟩).2.revision) := by
    unfold writeRaft
    rw [ensureLeader_of_leader h]
    rfl
  unfold write
  simp only [Option.isSome_some, if_true, hraft]

end KvService

inductive WriteRequest where
  | put (req : PutQuery)
  | deleteRange (req : DeleteRangeQuery)
  deriving DecidableEq, Repr

def WriteRequest.plan (req : WriteRequest) (s : Store) : Except Fault WritePlan :=
  match req with
  | .put req => req.plan s
  | .deleteRange req => req.plan s

def WriteRequest.serve (debug : ℤ × Option KeyValue → String) (svc : KvService)
    (outcome : Except String LogId) (req : WriteRequest) : KvService × Except Fault ResponseOp :=
  match req with
  | .put req => svc.put debug outcome req
  | .deleteRange req => svc.deleteRange debug outcome req

theorem WriteRequest.serve_eq (debug : ℤ × Option KeyValue → String) (svc : KvService)
    (outcome : Except String LogId) (req : WriteRequest) :
    req.serve debug svc outcome = svc.write debug outcome (req.plan svc.machine.store) := by
  cases req <;> rfl

end MemEtcd
