import MemEtcd.VersionLog
import Std.Data.ExtTreeMap

/-! Data shared by all parts of the server: byte strings, key-value records,
error statuses. Revisions, versions and request fields of type `i64` are
integers; a `usize` is a natural number. -/
namespace MemEtcd

abbrev Bytes := List UInt8

instance : LawfulBEq Bytes := inferInstance

/-- `Value`: one version of a key. A value of `none` marks a deletion. -/
abbrev Value := VersionLog.Cell Bytes

structure KeyValue where
  key : Bytes
  value : Bytes
  createRevision : ℤ
  modRevision : ℤ
  version : ℤ
  lease : ℤ
  deriving DecidableEq, Repr

structure KeyValueWithPrev where
  kv : KeyValue
  prevKv : Option KeyValue
  deriving DecidableEq, Repr

/-- The `tonic::Code` values the server answers with. -/
inductive Code where
  | invalidArgument
  | failedPrecondition
  | outOfRange
  | internal
  | unavailable
  deriving DecidableEq, Repr

structure Status where
  code : Code
  message : String
  deriving DecidableEq, Repr

def Status.invalidArgument (message : String) : Status := ⟨.invalidArgument, message⟩

def Status.failedPrecondition (message : String) : Status := ⟨.failedPrecondition, message⟩

def Status.unavailable (message : String) : Status := ⟨.unavailable, message⟩

inductive Panic where
  /-- `assert!(rev > 0, ..)` -/
  | revisionAssertion
  /-- `BTreeMap::range` with a lower bound above its upper bound -/
  | rangeBounds
  /-- `Option::unwrap` on `None` -/
  | unwrapNone
  deriving DecidableEq, Repr

/-- A request ends without a result either by an error status or by a panic. -/
inductive Fault where
  | status (s : Status)
  | panic (p : Panic)
  deriving DecidableEq, Repr

inductive Bound (α : Type) where
  | included (a : α)
  | excluded (a : α)
  | unbounded
  deriving DecidableEq, Repr

/-- `a` is admitted by the lower bound `lo`. -/
def Bound.above (lo : Bound Bytes) (a : Bytes) : Bool :=
  match lo with
  | .included b => decide (b ≤ a)
  | .excluded b => decide (b < a)
  | .unbounded => true

/-- `a` is admitted by the upper bound `hi`. -/
def Bound.below (hi : Bound Bytes) (a : Bytes) : Bool :=
  match hi with
  | .included b => decide (a ≤ b)
  | .excluded b => decide (a < b)
  | .unbounded => true

/-- The bounds on which `BTreeMap::range` panics. -/
def Bound.inverted (lo hi : Bound Bytes) : Bool :=
  match lo, hi with
  | .excluded a, .excluded b => decide (b ≤ a)
  | .included a, .included b => decide (b < a)
  | .included a, .excluded b => decide (b < a)
  | .excluded a, .included b => decide (b < a)
  | _, _ => false

/-- `BTreeMap::range`: the entries within the bounds, in key order. -/
def btreeRange {β : Type} (m : Std.ExtTreeMap Bytes β compare) (lo hi : Bound Bytes) :
    Except Fault (List (Bytes × β)) :=
  if Bound.inverted lo hi then .error (.panic .rangeBounds)
  else .ok (m.toList.filter (fun e => lo.above e.1 && hi.below e.1))

/-- `[i64]::binary_search` on a strictly increasing slice: the position of `x`,
or the position where it could be inserted. -/
def binarySearch (xs : List ℤ) (x : ℤ) : Except ℕ ℕ :=
  match xs.idxOf? x with
  | some i => .ok i
  | none => .error (xs.takeWhile (· < x)).length

/-- `partition_point(|v| v < x)` on an increasing slice. -/
def partitionPoint (xs : List ℤ) (x : ℤ) : ℕ := (xs.takeWhile (· < x)).length

def asMvccKeyValue (v : Value) (key : Bytes) : KeyValue where
  key := key
  value := v.value.getD []
  createRevision := if v.value.isNone then 0 else v.createRevision
  modRevision := v.modRevision
  version := if v.value.isNone then 0 else v.version
  lease := 0

end MemEtcd
