import MemEtcd.ConcurrentSet
import MemEtcd.DequeSections
import MemEtcd.RwLocks

/-! The section of `set` under the lock of its item, one access to shared memory at a
time. The section pushes a placeholder and overwrites it, both through raw pointers into
a block that it holds for reading only; other calls, reads at past revisions and
compactions run in between. -/
namespace MemEtcd

open Std (ExtTreeMap)
open RwLocks (Lock)

/-- `(*the_block)[offset] = Some(value)`, in a block that is there. -/
def RawDeque.overwrite {T : Type*} {B : ℕ} [NeZero B] (d : RawDeque T B) (index : ℕ) (value : T) :
    RawDeque T B :=
  { d with blocks := writeSlot d.blocks (d.blockIndex index) (offsetOf B index) value }

/-- The bounds check of `set` and `get_with`. -/
def RawDeque.InBounds {T : Type} {B : ℕ} (d : RawDeque T B) (index : ℕ) : Prop :=
  d.startOffset ≤ index ∧ index < d.latest

instance RawDeque.decidableInBounds {T : Type} {B : ℕ} (d : RawDeque T B) (index : ℕ) :
    Decidable (d.InBounds index) :=
  inferInstanceAs (Decidable (d.startOffset ≤ index ∧ index < d.latest))

/-- What `find_value_for_revision` does with the item alone: it knows the value, or
it has the index of the value in the array. -/
def TreeItem.lookup (item : TreeItem) (rev : ℤ) : Option Value ⊕ ℕ :=
  if rev ≥ item.latestValue.modRevision then .inl (some item.latestValue)
  else match binarySearch item.revisions rev with
    | .ok i => .inr ((item.revisions.getD i 0).toNat - 1)
    | .error i => if i > 0 then .inr ((item.revisions.getD (i - 1) 0).toNat - 1) else .inl none

/-- A call of `set`, or a reader. -/
abbrev Thread := ℕ ⊕ ℕ

structure Hold where
  latestRev : ℤ
  item : ℕ
  isNewItem : Bool
  deriving DecidableEq, Repr

/-- What a call works with from its push on: the revisions that it keeps and its index. -/
structure Effect where
  hold : Hold
  revisions : List ℤ
  index : ℕ
  deriving DecidableEq, Repr

inductive SetStage where
  | idle
  | started (latestRev : ℤ)
  | created (latestRev : ℤ) (item : ℕ)
  | ready (h : Hold)
  /-- from here on the call has the lock of its item -/
  | locked (h : Hold)
  | checked (h : Hold)
  | drained (h : Hold) (revisions : List ℤ)
  /-- `push` writes the placeholder, under the read lock of the blocks -/
  | filling (e : Effect)
  /-- `push` needs a block and waits for the write lock -/
  | waiting (e : Effect)
  | pushed (e : Effect)
  /-- `set` of the array writes the value, under the read lock of the blocks -/
  | storing (e : Effect)
  | stored (e : Effect)
  | unlocked (latestRev : ℤ) (res : Except (Option KeyValue) Committed)
  | returned (res : Except (ℤ × Option KeyValue) ℤ)
  deriving DecidableEq, Repr

/-- `find_value_for_revision` at the revision `rev`, with the item's read lock. -/
inductive LookupStage where
  | idle
  | holding (item : ℕ) (rev : ℤ)
  /-- `get` reads a slot, under the read lock of the blocks -/
  | getting (item : ℕ) (rev : ℤ) (index : ℕ)
  | done (found : Option Value)
  deriving DecidableEq, Repr

/-- The items are addressed as in `Store`; the array need not be filled. -/
structure Interleaved where
  prefixMap : ExtTreeMap Bytes (ExtTreeMap Bytes ℕ compare) compare
  treeMap : ExtTreeMap Bytes ℕ compare
  items : List TreeItem
  values : RawDeque Value storeBlock
  itemLocks : ℕ → Lock Thread
  blocksLock : Lock Thread
  sets : ℕ → SetStage
  reads : ℕ → LookupStage
  panicked : Option DequePanic

inductive Access where
  | invoke (i : ℕ)
  | entry (i : ℕ)
  | index (i : ℕ)
  | acquire (i : ℕ)
  | check (i : ℕ)
  | drain (i : ℕ)
  | reserve (i : ℕ)
  | fill (i : ℕ)
  | place (i : ℕ)
  | beginStore (i : ℕ)
  | endStore (i : ℕ)
  | commit (i : ℕ)
  | ret (i : ℕ)
  | readItem (j : ℕ) (key : Bytes) (rev : ℤ)
  | lookup (j : ℕ)
  | readSlot (j : ℕ)
  /-- `remove_before` with an index below the latest revision, as `compact` calls it -/
  | remove (idx : ℕ)
  deriving DecidableEq, Repr

namespace Effect

def newRev (e : Effect) : ℤ := e.index + 1

def newValue (e : Effect) (item : TreeItem) (value : Option Bytes) : Value :=
  if item.latestValue.value.isSome then
    ⟨item.latestValue.createRevision, e.newRev, item.latestValue.version + 1, value⟩
  else ⟨e.newRev, e.newRev, 1, value⟩

def newItem (e : Effect) (item : TreeItem) (value : Option Bytes) : TreeItem :=
  ⟨item.key, e.revisions ++ [e.newRev], e.newValue item value⟩

def committed (e : Effect) (item : TreeItem) (value : Option Bytes) : Committed :=
  ⟨e.newRev, item.key, e.newValue item value,
    if e.hold.isNewItem then none else some item.latestValue⟩

end Effect

namespace Interleaved

def start (s : Store) : Interleaved :=
  ⟨s.prefixMap, s.treeMap, s.items, s.valuesByRevision.toRawDeque, fun _ => .free, .free,
    fun _ => .idle, fun _ => .idle, none⟩

def deref (f : Interleaved) (a : ℕ) : TreeItem := f.items.getD a (TreeItem.placeholder [])

def toStage (f : Interleaved) (i : ℕ) (stage : SetStage) : Interleaved :=
  { f with sets := Function.update f.sets i stage }

def toRead (f : Interleaved) (j : ℕ) (stage : LookupStage) : Interleaved :=
  { f with reads := Function.update f.reads j stage }

def withItemLock (f : Interleaved) (a : ℕ) (l : Lock Thread) : Interleaved :=
  { f with itemLocks := Function.update f.itemLocks a l }

/-- The `prefix_map` entry of a new item. -/
def index (f : Interleaved) (key : Bytes) (a : ℕ) : Interleaved :=
  let (pfx, suffix) := prefixSplit key
  let btree := (f.prefixMap[pfx]?).getD ∅
  { f with prefixMap := f.prefixMap.insert pfx (btree.insert suffix a) }

/-- `Err` and `Ok` of `set`. -/
def answer (latestRev : ℤ) : Except (Option KeyValue) Committed → Except (ℤ × Option KeyValue) ℤ
  | .error kv => .error (latestRev, kv)
  | .ok c => .ok c.newRev

variable (calls : ℕ → Call)

def step (f : Interleaved) (a : Access) : Option Interleaved :=
  if f.panicked.isSome then none
  else match a with
  | .invoke i =>
    match f.sets i with
    | .idle => some (f.toStage i (.started f.values.latest))
    | _ => none
  | .entry i =>
    match f.sets i with
    | .started latestRev =>
      match f.treeMap[(calls i).key]? with
      | some a => some (f.toStage i (.ready ⟨latestRev, a, false⟩))
      | none =>
        some ({ f with
          items := f.items ++ [TreeItem.placeholder (calls i).key]
          treeMap := f.treeMap.insert (calls i).key f.items.length }.toStage i
            (.created latestRev f.items.length))
    | _ => none
  | .index i =>
    match f.sets i with
    | .created latestRev a =>
      some ((f.index (calls i).key a).toStage i (.ready ⟨latestRev, a, true⟩))
    | _ => none
  | .acquire i =>
    match f.sets i with
    | .ready h =>
      ((f.itemLocks h.item).write (.inl i)).map (fun l =>
        (f.withItemLock h.item l).toStage i (.locked h))
    | _ => none
  | .check i =>
    match f.sets i with
    | .locked h =>
      match checkItem (f.deref h.item) (calls i).value (calls i).required with
      | .error kv =>
        some ((f.withItemLock h.item (f.itemLocks h.item).unwrite).toStage i
          (.unlocked h.latestRev (.error kv)))
      | .ok () => some (f.toStage i (.checked h))
    | _ => none
  | .drain i =>
    match f.sets i with
    | .checked h => some (f.toStage i
        (.drained h (drainRevisions (f.deref h.item).revisions f.values.startOffset)))
    | _ => none
  | .reserve i =>
    match f.sets i with
    | .drained h revisions =>
      let f' := { f with values := { f.values with length := f.values.length + 1 } }
      (f.blocksLock.read (.inl i)).map (fun l =>
        if f.values.blockIndex f.values.latest < f.values.blocks.length then
          { f' with blocksLock := l }.toStage i (.filling ⟨h, revisions, f.values.latest⟩)
        else f'.toStage i (.waiting ⟨h, revisions, f.values.latest⟩))
    | _ => none
  | .fill i =>
    match f.sets i with
    | .filling e =>
      some ({ f with
        values := f.values.overwrite e.index placeholderValue
        blocksLock := f.blocksLock.unread (.inl i) }.toStage i (.pushed e))
    | _ => none
  | .place i =>
    match f.sets i with
    | .waiting e =>
      -- the lock is taken and released here: nothing runs in between
      (f.blocksLock.write (.inl i)).map (fun _ =>
        match f.values.place e.index placeholderValue with
        | some values => { f with values := values }.toStage i (.pushed e)
        | none => { f with panicked := some .underflow })
    | _ => none
  | .beginStore i =>
    match f.sets i with
    | .pushed e =>
      (f.blocksLock.read (.inl i)).map (fun l =>
        if f.values.InBounds e.index then { f with blocksLock := l }.toStage i (.storing e)
        else f.toStage i (.stored e))
    | _ => none
  | .endStore i =>
    match f.sets i with
    | .storing e =>
      if f.values.blockIndex e.index < f.values.blocks.length then
        some ({ f with
          values := f.values.overwrite e.index
            (e.newValue (f.deref e.hold.item) (calls i).value)
          blocksLock := f.blocksLock.unread (.inl i) }.toStage i (.stored e))
      else some { f with panicked := some .missingBlock }
    | _ => none
  | .commit i =>
    match f.sets i with
    | .stored e =>
      let item := f.deref e.hold.item
      some ((({ f with
          items := f.items.set e.hold.item (e.newItem item (calls i).value) }).withItemLock
            e.hold.item (f.itemLocks e.hold.item).unwrite).toStage i
        (.unlocked e.hold.latestRev (.ok (e.committed item (calls i).value))))
    | _ => none
  | .ret i =>
    match f.sets i with
    | .unlocked latestRev res => some (f.toStage i (.returned (answer latestRev res)))
    | _ => none
  | .readItem j key rev =>
    match f.reads j, f.treeMap[key]? with
    | .idle, some a =>
      -- `assert!(rev > 0)`
      if 0 < rev then
        ((f.itemLocks a).read (.inr j)).map (fun l =>
          (f.withItemLock a l).toRead j (.holding a rev))
      else none
    | _, _ => none
  | .lookup j =>
    match f.reads j with
    | .holding a rev =>
      let released := f.withItemLock a ((f.itemLocks a).unread (.inr j))
      match (f.deref a).lookup rev with
      | .inl found => some (released.toRead j (.done found))
      | .inr index =>
        (f.blocksLock.read (.inr j)).map (fun l =>
          if f.values.InBounds index then
            { f with blocksLock := l }.toRead j (.getting a rev index)
          else released.toRead j (.done none))
    | _ => none
  | .readSlot j =>
    match f.reads j with
    | .getting a _ index =>
      if f.values.blockIndex index < f.values.blocks.length then
        some (({ f with blocksLock := f.blocksLock.unread (.inr j) }.withItemLock a
          ((f.itemLocks a).unread (.inr j))).toRead j (.done (f.values.slot index)))
      else some { f with panicked := some .missingBlock }
    | _ => none
  | .remove idx =>
    -- the removal runs as a whole under the write lock
    if idx < f.values.latest ∧ f.blocksLock = .free then
      match f.values.checkedRemoveBefore idx with
      | some (_, values) => some { f with values := values }
      | none => some { f with panicked := some .missingBlock }
    else none

def run (f : Interleaved) (trace : List Access) : Option Interleaved :=
  PartialRun.run (step calls) f trace

/-! ### The steps -/

variable {calls}

inductive Moves (calls : ℕ → Call) (f : Interleaved) : Access → Interleaved → Prop
  | invoked {i : ℕ} : f.sets i = .idle →
      Moves calls f (.invoke i) (f.toStage i (.started f.values.latest))
  | found {i a : ℕ} {rev : ℤ} : f.sets i = .started rev → f.treeMap[(calls i).key]? = some a →
      Moves calls f (.entry i) (f.toStage i (.ready ⟨rev, a, false⟩))
  | created {i : ℕ} {rev : ℤ} : f.sets i = .started rev → f.treeMap[(calls i).key]? = none →
      Moves calls f (.entry i) ({ f with
        items := f.items ++ [TreeItem.placeholder (calls i).key]
        treeMap := f.treeMap.insert (calls i).key f.items.length }.toStage i
          (.created rev f.items.length))
  | indexed {i a : ℕ} {rev : ℤ} : f.sets i = .created rev a →
      Moves calls f (.index i) ((f.index (calls i).key a).toStage i (.ready ⟨rev, a, true⟩))
  | acquired {i : ℕ} {h : Hold} {l : Lock Thread} : f.sets i = .ready h →
      (f.itemLocks h.item).write (.inl i) = some l →
      Moves calls f (.acquire i) ((f.withItemLock h.item l).toStage i (.locked h))
  | refused {i : ℕ} {h : Hold} {kv : Option KeyValue} : f.sets i = .locked h →
      checkItem (f.deref h.item) (calls i).value (calls i).required = .error kv →
      Moves calls f (.check i) ((f.withItemLock h.item (f.itemLocks h.item).unwrite).toStage i
        (.unlocked h.latestRev (.error kv)))
  | checked {i : ℕ} {h : Hold} : f.sets i = .locked h →
      checkItem (f.deref h.item) (calls i).value (calls i).required = .ok () →
      Moves calls f (.check i) (f.toStage i (.checked h))
  | drained {i : ℕ} {h : Hold} : f.sets i = .checked h →
      Moves calls f (.drain i) (f.toStage i
        (.drained h (drainRevisions (f.deref h.item).revisions f.values.startOffset)))
  /-- the block of the new index is there: the read lock is kept -/
  | reserved {i : ℕ} {h : Hold} {revisions : List ℤ} {l : Lock Thread} :
      f.sets i = .drained h revisions → f.blocksLock.read (.inl i) = some l →
      f.values.blockIndex f.values.latest < f.values.blocks.length →
      Moves calls f (.reserve i) ({ f with
        values := { f.values with length := f.values.length + 1 }
        blocksLock := l }.toStage i (.filling ⟨h, revisions, f.values.latest⟩))
  | awaited {i : ℕ} {h : Hold} {revisions : List ℤ} : f.sets i = .drained h revisions →
      Moves calls f (.reserve i) ({ f with
        values := { f.values with length := f.values.length + 1 } }.toStage i
          (.waiting ⟨h, revisions, f.values.latest⟩))
  | filled {i : ℕ} {e : Effect} : f.sets i = .filling e →
      Moves calls f (.fill i) ({ f with
        values := f.values.overwrite e.index placeholderValue
        blocksLock := f.blocksLock.unread (.inl i) }.toStage i (.pushed e))
  | placed {i : ℕ} {e : Effect} {l : Lock Thread} {values : RawDeque Value storeBlock} :
      f.sets i = .waiting e → f.blocksLock.write (.inl i) = some l →
      f.values.place e.index placeholderValue = some values →
      Moves calls f (.place i) ({ f with values := values }.toStage i (.pushed e))
  | storing {i : ℕ} {e : Effect} {l : Lock Thread} : f.sets i = .pushed e →
      f.blocksLock.read (.inl i) = some l → f.values.InBounds e.index →
      Moves calls f (.beginStore i) ({ f with blocksLock := l }.toStage i (.storing e))
  /-- the index has been compacted away -/
  | skipped {i : ℕ} {e : Effect} : f.sets i = .pushed e → ¬f.values.InBounds e.index →
      Moves calls f (.beginStore i) (f.toStage i (.stored e))
  | stored {i : ℕ} {e : Effect} : f.sets i = .storing e →
      f.values.blockIndex e.index < f.values.blocks.length →
      Moves calls f (.endStore i) ({ f with
        values := f.values.overwrite e.index (e.newValue (f.deref e.hold.item) (calls i).value)
        blocksLock := f.blocksLock.unread (.inl i) }.toStage i (.stored e))
  | committed {i : ℕ} {e : Effect} : f.sets i = .stored e →
      Moves calls f (.commit i) ((({ f with
          items := f.items.set e.hold.item
            (e.newItem (f.deref e.hold.item) (calls i).value) }).withItemLock
            e.hold.item (f.itemLocks e.hold.item).unwrite).toStage i
        (.unlocked e.hold.latestRev (.ok (e.committed (f.deref e.hold.item) (calls i).value))))
  | returned {i : ℕ} {rev : ℤ} {res : Except (Option KeyValue) Committed} :
      f.sets i = .unlocked rev res →
      Moves calls f (.ret i) (f.toStage i (.returned (answer rev res)))
  | holding {j a : ℕ} {key : Bytes} {rev : ℤ} {l : Lock Thread} : f.reads j = .idle →
      f.treeMap[key]? = some a → 0 < rev → (f.itemLocks a).read (.inr j) = some l →
      Moves calls f (.readItem j key rev) ((f.withItemLock a l).toRead j (.holding a rev))
  | known {j a : ℕ} {rev : ℤ} {found : Option Value} : f.reads j = .holding a rev →
      (f.deref a).lookup rev = .inl found →
      Moves calls f (.lookup j) ((f.withItemLock a ((f.itemLocks a).unread (.inr j))).toRead j
        (.done found))
  | getting {j a index : ℕ} {rev : ℤ} {l : Lock Thread} : f.reads j = .holding a rev →
      (f.deref a).lookup rev = .inr index → f.blocksLock.read (.inr j) = some l →
      f.values.InBounds index →
      Moves calls f (.lookup j) ({ f with blocksLock := l }.toRead j (.getting a rev index))
  | outside {j a index : ℕ} {rev : ℤ} : f.reads j = .holding a rev →
      (f.deref a).lookup rev = .inr index → ¬f.values.InBounds index →
      Moves calls f (.lookup j) ((f.withItemLock a ((f.itemLocks a).unread (.inr j))).toRead j
        (.done none))
  | got {j a index : ℕ} {rev : ℤ} : f.reads j = .getting a rev index →
      f.values.blockIndex index < f.values.blocks.length →
      Moves calls f (.readSlot j) (({ f with
        blocksLock := f.blocksLock.unread (.inr j) }.withItemLock a
          ((f.itemLocks a).unread (.inr j))).toRead j (.done (f.values.slot index)))
  | removed {idx : ℕ} {res : Except Unit Unit} {values : RawDeque Value storeBlock} :
      idx < f.values.latest → f.blocksLock = .free →
      f.values.checkedRemoveBefore idx = some (res, values) →
      Moves calls f (.remove idx) { f with values := values }
  /-- the block of a waiting push has been removed -/
  | lost {i : ℕ} {e : Effect} : f.sets i = .waiting e →
      f.values.place e.index placeholderValue = none →
      Moves calls f (.place i) { f with panicked := some .underflow }
  | unstored {i : ℕ} {e : Effect} : f.sets i = .storing e →
      ¬f.values.blockIndex e.index < f.values.blocks.length →
      Moves calls f (.endStore i) { f with panicked := some .missingBlock }
  | ungot {j a index : ℕ} {rev : ℤ} : f.reads j = .getting a rev index →
      ¬f.values.blockIndex index < f.values.blocks.length →
      Moves calls f (.readSlot j) { f with panicked := some .missingBlock }
  | unremoved {idx : ℕ} : f.values.checkedRemoveBefore idx = none →
      Moves calls f (.remove idx) { f with panicked := some .missingBlock }

theorem step_moves {f f' : Interleaved} {a : Access} (h : f.step calls a = some f') :
    Moves calls f a f' := by
  unfold step at h
  by_cases hp : f.panicked.isSome
  · rw [if_pos hp] at h
    contradiction
  rw [if_neg hp] at h
  cases a with
  | invoke i =>
    cases hi : f.sets i <;> simp only [hi, reduceCtorEq, Option.some.injEq] at h
    subst h
    exact .invoked hi
  | entry i =>
    cases hi : f.sets i <;> simp only [hi, reduceCtorEq] at h
    cases hk : f.treeMap[(calls i).key]? with
    | some a =>
      simp only [hk, Option.some.injEq] at h
      subst h
      exact .found hi hk
    | none =>
      simp only [hk, Option.some.injEq] at h
      subst h
      exact .created hi hk
  | index i =>
    cases hi : f.sets i <;> simp only [hi, reduceCtorEq, Option.some.injEq] at h
    subst h
    exact .indexed hi
  | acquire i =>
    cases hi : f.sets i <;> simp only [hi, reduceCtorEq] at h
    obtain ⟨l, hl, rfl⟩ := Option.map_eq_some_iff.mp h
    exact .acquired hi hl
  | check i =>
    cases hi : f.sets i <;> simp only [hi, reduceCtorEq] at h
    split at h
    · rename_i hc
      cases h
      exact .refused hi hc
    · rename_i hc
      cases h
      exact .checked hi hc
  | drain i =>
    cases hi : f.sets i <;> simp only [hi, reduceCtorEq, Option.some.injEq] at h
    subst h
    exact .drained hi
  | reserve i =>
    cases hi : f.sets i <;> simp only [hi, reduceCtorEq] at h
    obtain ⟨l, hl, rfl⟩ := Option.map_eq_some_iff.mp h
    split_ifs with hb
    · exact .reserved hi hl hb
    · exact .awaited hi
  | fill i =>
    cases hi : f.sets i <;> simp only [hi, reduceCtorEq, Option.some.injEq] at h
    subst h
    exact .filled hi
  | place i =>
    cases hi : f.sets i <;> simp only [hi, reduceCtorEq] at h
    obtain ⟨l, hl, rfl⟩ := Option.map_eq_some_iff.mp h
    split
    · rename_i hv
      exact .placed hi hl hv
    · rename_i hv
      exact .lost hi hv
  | beginStore i =>
    cases hi : f.sets i <;> simp only [hi, reduceCtorEq] at h
    obtain ⟨l, hl, rfl⟩ := Option.map_eq_some_iff.mp h
    split_ifs with hb
    · exact .storing hi hl hb
    · exact .skipped hi hb
  | endStore i =>
    cases hi : f.sets i <;> simp only [hi, reduceCtorEq] at h
    split_ifs at h with hb
    · cases h
      exact .stored hi hb
    · cases h
      exact .unstored hi hb
  | commit i =>
    cases hi : f.sets i <;> simp only [hi, reduceCtorEq, Option.some.injEq] at h
    subst h
    exact .committed hi
  | ret i =>
    cases hi : f.sets i <;> simp only [hi, reduceCtorEq, Option.some.injEq] at h
    subst h
    exact .returned hi
  | readItem j key rev =>
    cases hj : f.reads j <;> simp only [hj, reduceCtorEq] at h
    cases hk : f.treeMap[key]? with
    | none => simp only [hk, reduceCtorEq] at h
    | some a =>
      simp only [hk] at h
      split_ifs at h with hrev
      obtain ⟨l, hl, rfl⟩ := Option.map_eq_some_iff.mp h
      exact .holding hj hk hrev hl
  | lookup j =>
    cases hj : f.reads j <;> simp only [hj, reduceCtorEq] at h
    split at h
    · rename_i hk
      cases h
      exact .known hj hk
    · rename_i hk
      obtain ⟨l, hl, rfl⟩ := Option.map_eq_some_iff.mp h
      split_ifs with hb
      · exact .getting hj hk hl hb
      · exact .outside hj hk hb
  | readSlot j =>
    cases hj : f.reads j <;> simp only [hj, reduceCtorEq] at h
    split_ifs at h with hb
    · cases h
      exact .got hj hb
    · cases h
      exact .ungot hj hb
  | remove idx =>
    dsimp only at h
    split_ifs at h with hidx
    cases hv : f.values.checkedRemoveBefore idx with
    | none =>
      simp only [hv, Option.some.injEq] at h
      subst h
      exact .unremoved hv
    | some r =>
      obtain ⟨res, values⟩ := r
      simp only [hv, Option.some.injEq] at h
      subst h
      exact .removed hidx.1 hidx.2 hv

end Interleaved
end MemEtcd
