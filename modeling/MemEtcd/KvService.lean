import MemEtcd.Raft

/-! The transaction handler of the KV service, in single-node mode and in Raft
mode. A handler proposes at most one entry; what becomes of it is decided by the
consensus library and given to the handler as an argument. -/
namespace MemEtcd

structure ResponseHeader where
  clusterId : ℕ
  memberId : ℕ
  raftTerm : ℕ
  revision : ℤ
  deriving DecidableEq, Repr

def responseHeader (revision : ℤ) : ResponseHeader := ⟨0, 0, 0, revision⟩

/-- The fields of a `RangeRequest` that the transaction handler reads. -/
structure RangeRequest where
  key : Bytes
  rangeEnd : Bytes
  deriving DecidableEq, Repr

structure PutRequest where
  key : Bytes
  value : Bytes
  deriving DecidableEq, Repr

structure DeleteRangeRequest where
  key : Bytes
  rangeEnd : Bytes
  deriving DecidableEq, Repr

/-- `request_op::Request`. Nothing is read of a nested transaction. -/
inductive Request where
  | range (req : RangeRequest)
  | put (req : PutRequest)
  | deleteRange (req : DeleteRangeRequest)
  | txn
  deriving DecidableEq, Repr

structure RequestOp where
  request : Option Request
  deriving DecidableEq, Repr

inductive TargetUnion where
  | version (v : ℤ)
  | createRevision (rev : ℤ)
  | modRevision (rev : ℤ)
  | value (v : Bytes)
  | lease (id : ℤ)
  deriving DecidableEq, Repr

/-- `Compare`. Its field `target` and its range end are not read. -/
structure Compare where
  result : ℤ
  key : Bytes
  targetUnion : Option TargetUnion
  deriving DecidableEq, Repr

structure TxnRequest where
  compare : List Compare
  success : List RequestOp
  failure : List RequestOp
  deriving DecidableEq, Repr

structure RangeResponse where
  header : ResponseHeader
  kvs : List KeyValue
  more : Bool
  count : ℤ
  deriving DecidableEq, Repr

structure PutResponse where
  header : ResponseHeader
  prevKv : Option KeyValue
  deriving DecidableEq, Repr

structure DeleteRangeResponse where
  header : ResponseHeader
  deleted : ℤ
  prevKvs : List KeyValue
  deriving DecidableEq, Repr

inductive ResponseOp where
  | range (res : RangeResponse)
  | put (res : PutResponse)
  | deleteRange (res : DeleteRangeResponse)
  deriving DecidableEq, Repr

structure TxnResponse where
  header : ResponseHeader
  succeeded : Bool
  responses : List ResponseOp
  deriving DecidableEq, Repr

/-! ### The checks of a request -/

/-- What the compare of a transaction requires of `set`. -/
def Compare.required (c : Compare) : Except Status SetRequired :=
  match c.targetUnion with
  | none => .error (.invalidArgument "compare target_union is required")
  | some (.modRevision rev) => .ok ⟨some rev, none, c.result⟩
  | some (.version v) => .ok ⟨none, some v, c.result⟩
  | some _ => .error (.invalidArgument "only MOD or VERSION target supported")

def checkFailure (c : Compare) (failure : List RequestOp) : Except Status Unit :=
  match failure with
  | [] => .ok ()
  | [op] =>
    match op.request with
    | none => .ok ()
    | some (.range req) =>
      if req.key ≠ c.key then .error (.invalidArgument "compare key must match failure key")
      else if req.rangeEnd ≠ [] then
        .error (.invalidArgument "range end not supported in failure")
      else .ok ()
    | some _ => .error (.invalidArgument "only range supported in failure")
  | _ => .error (.invalidArgument "only one failure supported")

def checkSuccess (c : Compare) (op : RequestOp) : Except Fault (Option Bytes) :=
  match op.request with
  | none => .error (.panic .unwrapNone)
  | some (.put put) =>
    if put.key = [] then .error (.status (.invalidArgument "key required in success put"))
    else if put.key ≠ c.key then
      .error (.status (.invalidArgument "compare key must match put key"))
    else .ok (some put.value)
  | some (.deleteRange del) =>
    if del.key = [] then
      .error (.status (.invalidArgument "key required in success deleteRange"))
    else if del.rangeEnd ≠ [] then
      .error (.status (.invalidArgument "range end not supported in deleteRange"))
    else if del.key ≠ c.key then
      .error (.status (.invalidArgument "compare key must match deleteRange key"))
    else .ok none
  | some _ =>
    .error (.status (.invalidArgument "only put and deleteRange supported in success"))

/-- An accepted transaction: a conditional write of one key. -/
structure TxnPlan where
  compare : Compare
  required : SetRequired
  value : Option Bytes
  hasFailure : Bool
  deriving DecidableEq, Repr

/-- The checks of `txn`, in their order. The handler counts the success branch a
second time, which cannot fail any more. -/
def TxnRequest.plan (req : TxnRequest) : Except Fault TxnPlan :=
  match req.compare with
  | [c] =>
    match c.required with
    | .error e => .error (.status e)
    | .ok required =>
      match req.success with
      | [op] =>
        match checkFailure c req.failure with
        | .error e => .error (.status e)
        | .ok () => (checkSuccess c op).map (fun value => ⟨c, required, value, !req.failure.isEmpty⟩)
      | _ => .error (.status (.invalidArgument "only one success supported"))
  | _ => .error (.status (.invalidArgument "only one compare supported"))

/-- The response of `txn` to the result of its write. -/
def TxnPlan.respond (plan : TxnPlan) : Except (ℤ × Option KeyValue) ℤ → TxnResponse
  | .error (rev, kv) =>
    ⟨responseHeader rev, false,
      if plan.hasFailure then [.range ⟨responseHeader rev, kv.toList, false, 1⟩] else []⟩
  | .ok rev =>
    ⟨responseHeader rev, true,
      [match plan.value with
        | some _ => .put ⟨responseHeader rev, none⟩
        | none => .deleteRange ⟨responseHeader rev, 1, []⟩]⟩

/-! ### The service -/

/-- What `raft.metrics()` says about a node and its leader. -/
structure RaftNode where
  id : ℕ
  currentLeader : Option ℕ
  deriving DecidableEq, Repr

/-- `KvService`. Its store is that of the state machine. -/
structure KvService where
  machine : StateMachineStore
  raft : Option RaftNode

def checkCompare (currentKv : Option KeyValue) (required : Option SetRequired) : Bool :=
  let cmp := cmpSatisfied (compareResult required)
  match currentKv with
  | some kv =>
    if requiredLastRevision required ≥ 0 ∧
        cmp kv.modRevision (requiredLastRevision required) = false then false
    else if requiredVersion required ≥ 0 ∧
        cmp kv.version (requiredVersion required) = false then false
    else true
  | none => requiredLastRevision required ≤ 0 ∧ requiredVersion required ≤ 0

/-- The local read and check of `txn` in Raft mode. -/
def Store.readCompare (s : Store) (key : Bytes) (required : SetRequired) :
    Except Fault (Except (ℤ × Option KeyValue) Unit) :=
  match s.range key [] 0 (some 1) with
  | .error fault => .error fault
  | .ok rangeResult =>
    let currentKv := rangeResult.kvs.head?
    .ok (if checkCompare currentKv (some required) then .ok ()
      else .error (rangeResult.latestRev, currentKv))

/-- The entry that `txn` proposes in Raft mode. -/
def TxnPlan.proposal (plan : TxnPlan) : RaftRequest :=
  match plan.value with
  | some value => .set plan.compare.key value
  | none => .delete plan.compare.key

namespace KvService

def ensureLeader (svc : KvService) : Except Status Unit :=
  match svc.raft with
  | none => .ok ()
  | some node =>
    match node.currentLeader with
    | some leader =>
      if leader = node.id then .ok ()
      else .error (.failedPrecondition s!"not leader, current leader is node {leader}")
    | none => .error (.unavailable "no leader elected")

/-- `raft_write`: `outcome` is the text of the error of `client_write`, or the id
of the entry that was committed and applied. -/
def raftWrite (svc : KvService) (outcome : Except String LogId) (req : RaftRequest) :
    KvService × Except Status ℤ :=
  match svc.raft with
  | none => (svc, .error (.failedPrecondition "raft not enabled"))
  | some _ =>
    match outcome with
    | .error e => (svc, .error ⟨.internal, s!"raft write failed: {e}"⟩)
    | .ok logId =>
      let (machine, response) := svc.machine.applyEntry ⟨logId, .normal req⟩
      ({ svc with machine := machine }, .ok response.revision)

/-- The write of `txn` in Raft mode. -/
def txnRaft (svc : KvService) (outcome : Except String LogId) (plan : TxnPlan) :
    KvService × Except Fault (Except (ℤ × Option KeyValue) ℤ) :=
  match svc.ensureLeader with
  | .error e => (svc, .error (.status e))
  | .ok () =>
    match svc.machine.store.readCompare plan.compare.key plan.required with
    | .error fault => (svc, .error fault)
    | .ok (.error refused) => (svc, .ok (.error refused))
    | .ok (.ok ()) =>
      match svc.raftWrite outcome plan.proposal with
      | (svc, .error e) => (svc, .error (.status e))
      | (svc, .ok rev) => (svc, .ok (.ok rev))

/-- The write of `txn` in single-node mode. -/
def txnLocal (svc : KvService) (plan : TxnPlan) :
    KvService × Except Fault (Except (ℤ × Option KeyValue) ℤ) :=
  let (store, result) := svc.machine.store.set plan.compare.key plan.value (some plan.required)
  ({ svc with machine := { svc.machine with store := store } }, .ok result)

def txn (svc : KvService) (outcome : Except String LogId) (req : TxnRequest) :
    KvService × Except Fault TxnResponse :=
  match req.plan with
  | .error fault => (svc, .error fault)
  | .ok plan =>
    let (svc, result) := if svc.raft.isSome then svc.txnRaft outcome plan else svc.txnLocal plan
    (svc, result.map plan.respond)

end KvService
end MemEtcd
