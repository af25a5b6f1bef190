import Mathlib.Tactic

/-! Priority queues, known by their contract: what is pushed comes out again, least keys
first. Nothing is said about the order of items with equal keys. -/

structure PriorityQueue (α : Type) (key : α → ℤ) where
  Heap : Type
  empty : Heap
  push : α → Heap → Heap
  pop : Heap → Option (α × Heap)
  /-- the items of a queue, in some order -/
  items : Heap → List α
  items_empty : items empty = []
  items_push : ∀ x heap, (items (push x heap)).Perm (x :: items heap)
  items_pop : ∀ {heap x heap'}, pop heap = some (x, heap') → (items heap).Perm (x :: items heap')
  pop_none : ∀ {heap}, pop heap = none → items heap = []
  pop_least : ∀ {heap x heap'}, pop heap = some (x, heap') → ∀ y ∈ items heap, key x ≤ key y

namespace PriorityQueue

variable {α : Type} {key : α → ℤ}

def pushAll (Q : PriorityQueue α key) (xs : List α) (heap : Q.Heap) : Q.Heap :=
  xs.foldl (fun heap x => Q.push x heap) heap

theorem items_pushAll (Q : PriorityQueue α key) (xs : List α) (heap : Q.Heap) :
    (Q.items (Q.pushAll xs heap)).Perm (xs ++ Q.items heap) := by
  induction xs generalizing heap with
  | nil => exact List.Perm.refl _
  | cons x xs ih =>
    calc (Q.items (Q.pushAll (x :: xs) heap)).Perm (xs ++ Q.items (Q.push x heap)) :=
          ih (Q.push x heap)
      List.Perm _ (xs ++ x :: Q.items heap) := (Q.items_push x heap).append_left xs
      List.Perm _ (x :: xs ++ Q.items heap) := List.perm_middle

theorem mem_of_pop {Q : PriorityQueue α key} {heap heap' : Q.Heap} {x : α}
    (h : Q.pop heap = some (x, heap')) {y : α} : y ∈ Q.items heap ↔ y = x ∨ y ∈ Q.items heap' := by
  rw [(Q.items_pop h).mem_iff, List.mem_cons]

/-! ### Sorted lists -/

def insertSorted (key : α → ℤ) (x : α) (xs : List α) : List α :=
  List.orderedInsert (fun a b => key a ≤ key b) x xs

theorem insertSorted_sorted (x : α) {xs : List α} (h : xs.Pairwise (fun a b => key a ≤ key b)) :
    (insertSorted key x xs).Pairwise (fun a b => key a ≤ key b) := by
  have htotal : Std.Total (fun a b : α => key a ≤ key b) := ⟨fun a b => le_total (key a) (key b)⟩
  have htrans : IsTrans α (fun a b => key a ≤ key b) := ⟨fun a b c => le_trans⟩
  exact List.Pairwise.orderedInsert x xs h

/-- Lists in ascending order as queues: `pop` takes the head. -/
def sortedLists (key : α → ℤ) : PriorityQueue α key where
  Heap := { xs : List α // xs.Pairwise (fun a b => key a ≤ key b) }
  empty := ⟨[], List.Pairwise.nil⟩
  push x heap := ⟨insertSorted key x heap.1, insertSorted_sorted x heap.2⟩
  pop heap :=
    match heap with
    | ⟨[], _⟩ => none
    | ⟨x :: xs, h⟩ => some (x, ⟨xs, (List.pairwise_cons.mp h).2⟩)
  items heap := heap.1
  items_empty := rfl
  items_push x heap := List.perm_orderedInsert _ x heap.1
  items_pop := by
    intro heap x heap' h
    obtain ⟨xs, hs⟩ := heap
    cases xs with
    | nil => cases h
    | cons y ys =>
      cases h
      exact List.Perm.refl _
  pop_none := by
    intro heap h
    obtain ⟨xs, hs⟩ := heap
    cases xs with
    | nil => rfl
    | cons y ys => cases h
  pop_least := by
    intro heap x heap' h y hy
    obtain ⟨xs, hs⟩ := heap
    cases xs with
    | nil => cases h
    | cons z zs =>
      cases h
      rcases List.mem_cons.mp hy with rfl | hy
      · exact le_refl _
      · exact (List.pairwise_cons.mp hs).1 y hy

end PriorityQueue
