import MemEtcd.KeyRanges
import MemEtcd.RangeService
import MemEtcd.Txn
import MemEtcd.WriteService

/-! What the KV service of the etcd API is for. Its state is a history of changes, in
which the `n`-th change has revision `n`, and the revision it was last compacted at. Every
answer is computed from the history; no index, no item and no array of versions occurs
here. -/

namespace MemEtcd

open VersionLog

inductive KvRequest where
  | range (req : RangeQuery)
  | put (req : PutQuery)
  | deleteRange (req : DeleteRangeQuery)
  | txn (req : TxnRequest)
  | compact (revision : ℤ)
  deriving DecidableEq, Repr

inductive KvResponse where
  | range (res : RangeResponse)
  | write (res : ResponseOp)
  | txn (res : TxnResponse)
  | compact (header : ResponseHeader)
  deriving DecidableEq, Repr

/-- The key-value of a key after a history: the value of the last change of the key, unless
that deleted it. The puts since the key was last absent give the other fields: the first of
them created the key, the last modified it, and their number is the version. -/
def keyValue (h : History) (k : Bytes) : Option KeyValue :=
  match (h.filter (fun c => c.1 = k)).getLast? with
  | some (_, some v) =>
    let puts := livePuts h k
    some ⟨k, v, puts.head?.getD 0, puts.getLast?.getD 0, puts.length, 0⟩
  | _ => none

structure Lists (h : History) (req : RangeRequest) (kvs : List KeyValue) : Prop where
  sorted : kvs.Pairwise (fun a b => a.key < b.key)
  mem_iff : ∀ kv, kv ∈ kvs ↔ etcdRange req.key req.rangeEnd kv.key ∧ keyValue h kv.key = some kv

/-- The part of a listing that a request asks for: `count` is always that of the whole
listing, and `more` says that the limit has cut something off. -/
def RangeQuery.page (req : RangeQuery) (revision : ℤ) (kvs : List KeyValue) : RangeResponse :=
  if req.countOnly then ⟨responseHeader revision, [], false, kvs.length⟩
  else if req.limit = 0 then ⟨responseHeader revision, kvs, false, kvs.length⟩
  else ⟨responseHeader revision, kvs.take req.limit.toNat, req.limit < kvs.length, kvs.length⟩

structure Etcd where
  history : History
  compacted : ℕ
  deriving DecidableEq, Repr

namespace Etcd

def revision (e : Etcd) : ℤ := e.history.length

def lookup (e : Etcd) (k : Bytes) : Option KeyValue := keyValue e.history k

/-- How many changes a read at a revision sees; 0 asks for the current revision. -/
def seenAt (e : Etcd) (rev : ℤ) : ℕ := if rev = 0 then e.history.length else rev.toNat

/-! ### Changes -/

def opChanges (e : Etcd) : Request → History
  | .put req => [(req.key, some req.value)]
  | .deleteRange req => if (e.lookup req.key).isSome then [(req.key, none)] else []
  | _ => []

def succeeds (e : Etcd) (req : TxnRequest) : Bool :=
  req.compare.all (fun c => c.holds (e.lookup c.key))

def branch (e : Etcd) (req : TxnRequest) : List Request :=
  (if e.succeeds req then req.success else req.failure).filterMap (·.request)

/-- The value that a put stores; there is none if the value is to stay and the key is
absent. -/
def putValue (e : Etcd) (req : PutQuery) : Option Bytes :=
  if req.ignoreValue then (e.lookup req.key).map (·.value) else some req.value

def changes (e : Etcd) : KvRequest → History
  | .put req => ((e.putValue req).map (fun v => (req.key, some v))).toList
  | .deleteRange req => e.opChanges (.deleteRange req.toDeleteRangeRequest)
  | .txn req => (e.branch req).flatMap e.opChanges
  | _ => []

def next (e : Etcd) (req : KvRequest) : Etcd where
  history := e.history ++ e.changes req
  compacted := match req with
    | .compact rev => rev.toNat
    | _ => e.compacted

/-! ### Answers -/

/-- A refusal is known by its code; its text is not part of the API. -/
def Refused (code : Code) (out : Except Fault KvResponse) : Prop :=
  ∃ message, out = .error (.status ⟨code, message⟩)

def opResponse (e : Etcd) (rev : ℤ) : Request → Option ResponseOp
  | .range req =>
    some (.range ⟨responseHeader rev, (e.lookup req.key).toList, false,
      (e.lookup req.key).toList.length⟩)
  | .put _ => some (.put ⟨responseHeader rev, none⟩)
  | .deleteRange req =>
    some (.deleteRange ⟨responseHeader rev, (e.lookup req.key).toList.length, []⟩)
  | .txn => none

/-- A read of the future or of the compacted past is refused. -/
def AnswersRange (e : Etcd) (req : RangeQuery) (out : Except Fault KvResponse) : Prop :=
  if e.revision < req.revision ∨ (0 < req.revision ∧ req.revision < e.compacted) then
    Refused .outOfRange out
  else
    ∃ kvs, Lists (e.history.take (e.seenAt req.revision)) req.toRangeRequest kvs ∧
      out = .ok (.range (req.page e.revision kvs))

def AnswersPut (e : Etcd) (req : PutQuery) (out : Except Fault KvResponse) : Prop :=
  if (e.putValue req).isNone then Refused .invalidArgument out
  else out = .ok (.write (.put ⟨responseHeader (e.next (.put req)).revision,
    if req.prevKv then e.lookup req.key else none⟩))

def AnswersDelete (e : Etcd) (req : DeleteRangeQuery) (out : Except Fault KvResponse) : Prop :=
  out = .ok (.write (.deleteRange ⟨responseHeader (e.next (.deleteRange req)).revision,
    (e.lookup req.key).toList.length, if req.prevKv then (e.lookup req.key).toList else []⟩))

def AnswersTxn (e : Etcd) (req : TxnRequest) (out : Except Fault KvResponse) : Prop :=
  let rev := (e.next (.txn req)).revision
  out = .ok (.txn ⟨responseHeader rev, e.succeeds req, (e.branch req).filterMap (e.opResponse rev)⟩)

def Answers (e : Etcd) (req : KvRequest) (out : Except Fault KvResponse) : Prop :=
  match req with
  | .range req => e.AnswersRange req out
  | .put req => e.AnswersPut req out
  | .deleteRange req => e.AnswersDelete req out
  | .txn req => e.AnswersTxn req out
  | .compact _ => out = .ok (.compact (responseHeader e.revision))

/-! The state after a write. -/

variable {e : Etcd}

theorem next_put_some {req : PutQuery} {v : Bytes} (h : e.putValue req = some v) :
    e.next (.put req) = ⟨e.history ++ [(req.key, some v)], e.compacted⟩ := by
  have hone : e.changes (.put req) = [(req.key, some v)] := by
    rw [changes, h]
    rfl
  unfold next
  rw [hone]

theorem next_put_none {req : PutQuery} (h : e.putValue req = none) : e.next (.put req) = e := by
  have hsame : e.changes (.put req) = [] := by
    rw [changes, h]
    rfl
  unfold next
  rw [hsame, List.append_nil]

theorem revision_concat (e : Etcd) (c : Bytes × Option Bytes) (compacted : ℕ) :
    (Etcd.mk (e.history ++ [c]) compacted).revision = e.revision + 1 := by
  unfold revision
  rw [List.length_append]
  rfl

end Etcd

/-! ### The key-values of a history -/

/-- The last put of a key that is present is its last change. -/
theorem getLast?_livePuts (h : History) (k : Bytes) (hk : (cells h k).value.isSome) :
    (livePuts h k).getLast? = some (cells h k).modRevision := by
  induction h using List.reverseRecOn with
  | nil => contradiction
  | append_singleton h c ih =>
    rw [livePuts_append]
    rw [cells_append] at hk ⊢
    split_ifs at hk ⊢ with hc hv
    · rw [List.getLast?_concat, Cell.next_modRevision]
    · rw [Cell.next_value] at hk
      contradiction
    · exact ih hk

/-- The value of the last change of a key is the value of its cell. -/
theorem getLast?_changes (h : History) (k : Bytes) :
    ((h.filter (fun c => c.1 = k)).getLast?).bind (·.2) = (cells h k).value := by
  induction h using List.reverseRecOn with
  | nil => rfl
  | append_singleton h c ih =>
    rw [List.filter_append, cells_append]
    by_cases hc : k = c.1
    · rw [if_pos hc, List.filter_cons_of_pos (by simp [hc]), List.filter_nil,
        List.getLast?_concat, Cell.next_value]
      rfl
    · rw [if_neg hc, List.filter_cons_of_neg (by simpa using fun h => hc h.symm), List.filter_nil,
        List.append_nil]
      exact ih

/-- The key-value of a key is the one its cell shows. -/
theorem keyValue_eq (h : History) (k : Bytes) :
    keyValue h k = (cells h k).live.map (fun v => asMvccKeyValue v k) := by
  have hlast := getLast?_changes h k
  have hputs := livePuts_spec h k
  cases hv : (cells h k).value with
  | none =>
    rw [Cell.live_of_isNone hv]
    unfold keyValue
    rw [hv] at hlast
    -- the last change of the key, if there is one, has no value
    rcases hc : (h.filter (fun c => c.1 = k)).getLast? with _ | ⟨key, _ | v⟩
    · rw [hc]
      rfl
    · rw [hc]
      rfl
    · rw [hc] at hlast
      contradiction
  | some v =>
    have hsome : (cells h k).value.isSome := by rw [hv]; rfl
    rw [if_pos hsome] at hputs
    rw [Cell.live_of_isSome hsome]
    unfold keyValue
    rw [hv] at hlast
    obtain ⟨c, hc, hcv⟩ := Option.bind_eq_some_iff.mp hlast
    obtain ⟨key, value⟩ := c
    change value = some v at hcv
    subst hcv
    rw [hc]
    dsimp only
    rw [hputs.1, hputs.2, getLast?_livePuts h k hsome, Option.map_some]
    unfold asMvccKeyValue
    rw [hv]
    rfl

end MemEtcd
