import Mathlib.Tactic

/-! Reader-writer locks. A lock is known by who holds it: the operations are
described by what they do to the sets of its holders. -/
namespace RwLocks

structure Lock (ι : Type*) where
  writer : Option ι
  readers : List ι
  deriving DecidableEq, Repr

variable {ι : Type*}

namespace Lock

def free : Lock ι := ⟨none, []⟩

def read (l : Lock ι) (i : ι) : Option (Lock ι) :=
  if l.writer = none then some { l with readers := i :: l.readers } else none

def write (l : Lock ι) (i : ι) : Option (Lock ι) :=
  if l.writer = none ∧ l.readers = [] then some { l with writer := some i } else none

def unread [DecidableEq ι] (l : Lock ι) (i : ι) : Lock ι :=
  { l with readers := l.readers.filter (fun j => decide (j ≠ i)) }

def unwrite (l : Lock ι) : Lock ι := { l with writer := none }

end Lock

/-- The lock is held for writing and for reading by these; a writer is alone. -/
structure HeldBy (l : Lock ι) (writes reads : ι → Prop) : Prop where
  writer : ∀ i, l.writer = some i ↔ writes i
  readers : ∀ i, i ∈ l.readers ↔ reads i
  exclusive : ∀ i j, writes i → ¬reads j

variable {l l' : Lock ι} {writes reads writes' reads' : ι → Prop} {i : ι}

theorem heldBy_free : HeldBy (Lock.free : Lock ι) (fun _ => False) (fun _ => False) := by
  refine ⟨?_, ?_, fun _ _ h => h.elim⟩ <;> intro i <;> simp [Lock.free]

namespace HeldBy

theorem congr (h : HeldBy l writes reads) (hw : ∀ i, writes i ↔ writes' i)
    (hr : ∀ i, reads i ↔ reads' i) : HeldBy l writes' reads' :=
  ⟨fun i => (h.writer i).trans (hw i), fun i => (h.readers i).trans (hr i),
    fun i j hi hj => h.exclusive i j ((hw i).mpr hi) ((hr j).mpr hj)⟩

theorem writer_unique (h : HeldBy l writes reads) {i j : ι} (hi : writes i) (hj : writes j) :
    i = j := by
  have he := ((h.writer i).mpr hi).symm.trans ((h.writer j).mpr hj)
  exact Option.some.inj he

theorem of_read (h : HeldBy l writes reads) (hl : l.read i = some l') :
    (∀ j, ¬writes j) ∧ HeldBy l' writes (fun j => j = i ∨ reads j) := by
  unfold Lock.read at hl
  split_ifs at hl with hnone
  cases hl
  have hno : ∀ j, ¬writes j := by
    intro j hj
    rw [← h.writer, hnone] at hj
    contradiction
  refine ⟨hno, h.writer, ?_, fun j _ hj => (hno j hj).elim⟩
  intro j
  rw [List.mem_cons, h.readers]

theorem of_write (h : HeldBy l writes reads) (hl : l.write i = some l') :
    (∀ j, ¬writes j) ∧ (∀ j, ¬reads j) ∧ HeldBy l' (fun j => j = i) reads := by
  unfold Lock.write at hl
  split_ifs at hl with hnone
  cases hl
  have hno : ∀ j, ¬writes j := by
    intro j hj
    rw [← h.writer, hnone.1] at hj
    contradiction
  have hno' : ∀ j, ¬reads j := by
    intro j hj
    rw [← h.readers, hnone.2] at hj
    contradiction
  refine ⟨hno, hno', ?_, h.readers, fun _ j _ => hno' j⟩
  intro j
  rw [Option.some.injEq, eq_comm]

theorem of_unread [DecidableEq ι] (h : HeldBy l writes reads) (i : ι) :
    HeldBy (l.unread i) writes (fun j => j ≠ i ∧ reads j) := by
  refine ⟨h.writer, ?_, fun j k hj hk => h.exclusive j k hj hk.2⟩
  intro j
  unfold Lock.unread
  rw [List.mem_filter, h.readers, decide_eq_true_eq, and_comm]

theorem of_unwrite (h : HeldBy l writes reads) : HeldBy l.unwrite (fun _ => False) reads := by
  refine ⟨?_, h.readers, fun _ _ hi => hi.elim⟩
  intro j
  constructor
  · intro hj
    contradiction
  · exact False.elim

end HeldBy
end RwLocks
