import MemEtcd.BlockDeque
import MemEtcd.PartialRun

/-! `BlockDeque` is a list that forgets a prefix and counts on. Its functions stand here
once more with every subtraction and every access to a block checked, as the source makes
them, and any sequence of calls returns what the list returns. The destructors that run
when values are overwritten are not part of the model. -/
namespace MemEtcd

/-- A subtraction of `usize`, which panics below zero. -/
def checkedSub (a b : ℕ) : Option ℕ := if b ≤ a then some (a - b) else none

theorem checkedSub_of_le {a b : ℕ} (h : b ≤ a) : checkedSub a b = some (a - b) := if_pos h

namespace RawDeque

variable {T R : Type} {B : ℕ} [NeZero B]

/-- `(index / BLOCK_SIZE) - (start_offset / BLOCK_SIZE)`. -/
def checkedBlockIndex (d : RawDeque T B) (index : ℕ) : Option ℕ :=
  checkedSub (index / B) (d.startOffset / B)

/-- `push`. -/
def checkedPush (d : RawDeque T B) (value : T) : Option (ℕ × RawDeque T B) := do
  let index := d.length + d.startOffset
  let blockIndex ← d.checkedBlockIndex index
  let offset := offsetOf B index
  let d := { d with length := d.length + 1 }
  if blockIndex < d.blocks.length then
    return (index, { d with blocks := writeSlot d.blocks blockIndex offset value })
  else
    -- the block is looked up once more under the write lock
    let blockIndex ← d.checkedBlockIndex index
    let blocks := d.blocks ++ List.replicate (blockIndex + 1 - d.blocks.length) emptyBlock
    if blockIndex < blocks.length then
      return (index, { d with blocks := writeSlot blocks blockIndex offset value })
    else none

/-- `set`. -/
def checkedSet (d : RawDeque T B) (index : ℕ) (value : T) : Option (Bool × RawDeque T B) :=
  if d.length + d.startOffset ≤ index then some (false, d)
  else if index < d.startOffset then some (false, d)
  else do
    let blockIndex ← d.checkedBlockIndex index
    if blockIndex < d.blocks.length then
      return (true, { d with blocks := writeSlot d.blocks blockIndex (offsetOf B index) value })
    else none

/-- `get_with`. -/
def checkedGetWith (d : RawDeque T B) (index : ℕ) (f : Option T → R) : Option R :=
  if d.length + d.startOffset ≤ index then some (f none)
  else if index < d.startOffset then some (f none)
  else do
    let blockIndex ← d.checkedBlockIndex index
    let block ← d.blocks[blockIndex]?
    return f (block (offsetOf B index))

/-- `remove_before`. -/
def checkedRemoveBefore (d : RawDeque T B) (idx : ℕ) :
    Option (Except Unit Unit × RawDeque T B) :=
  if d.startOffset + d.length < idx then some (.error (), d)
  else if idx < d.startOffset then some (.error (), d)
  else do
    let length ← checkedSub d.length (← checkedSub idx d.startOffset)
    let i ← checkedSub idx (← checkedSub d.startOffset (d.startOffset % B))
    let (blocks, i, startOffset) ← dropBlocks d.blocks i d.startOffset
    if 0 < i then
      let blocks ← clearFront blocks (startOffset % B) i
      return (.ok (), ⟨blocks, idx, length⟩)
    else return (.ok (), ⟨blocks, idx, length⟩)

/-! ### No subtraction fails -/

omit [NeZero B] in
theorem checkedBlockIndex_eq (d : RawDeque T B) {index : ℕ} (h : d.startOffset ≤ index) :
    d.checkedBlockIndex index = some (d.blockIndex index) :=
  checkedSub_of_le (Nat.div_le_div_right h)

theorem checkedPush_eq (d : RawDeque T B) (value : T) :
    d.checkedPush value = some (d.push value) := by
  have hblock (n : ℕ) : (RawDeque.mk d.blocks d.startOffset n).checkedBlockIndex
      (d.length + d.startOffset) = some (d.blockIndex (d.length + d.startOffset)) :=
    checkedSub_of_le (Nat.div_le_div_right (Nat.le_add_left _ _))
  have hgrown (i : ℕ) : i < (d.blocks ++
      List.replicate (i + 1 - d.blocks.length) (emptyBlock (T := T) (B := B))).length := by
    rw [List.length_append, List.length_replicate]
    omega
  simp only [checkedPush, push, hblock, bind, Option.bind]
  by_cases h : d.blockIndex (d.length + d.startOffset) < d.blocks.length
  · rw [if_pos h, if_pos h]
    rfl
  · rw [if_neg h, if_neg h, if_pos (hgrown _)]
    rfl

theorem checkedSet_eq (d : RawDeque T B) (index : ℕ) (value : T) :
    d.checkedSet index value = d.set index value := by
  unfold checkedSet set
  split_ifs with hlast hfirst hblock
  · rfl
  · rfl
  · rw [checkedBlockIndex_eq d (by omega)]
    exact if_pos hblock
  · rw [checkedBlockIndex_eq d (by omega)]
    exact if_neg hblock

theorem checkedGetWith_eq (d : RawDeque T B) (index : ℕ) (f : Option T → R) :
    d.checkedGetWith index f = d.getWith index f := by
  unfold checkedGetWith getWith
  split_ifs with hlast hfirst
  · rfl
  · rfl
  · rw [checkedBlockIndex_eq d (by omega)]
    change (d.blocks[d.blockIndex index]?).bind _ = _
    cases d.blocks[d.blockIndex index]? <;> rfl

omit [NeZero B] in
theorem checkedRemoveBefore_eq (d : RawDeque T B) (idx : ℕ) :
    d.checkedRemoveBefore idx = d.removeBefore idx := by
  unfold checkedRemoveBefore removeBefore
  split_ifs with hlast hfirst
  · rfl
  · rfl
  · have hmod := Nat.mod_le d.startOffset B
    rw [checkedSub_of_le (show d.startOffset ≤ idx by omega), checkedSub_of_le hmod]
    change (checkedSub d.length (idx - d.startOffset)).bind _ = _
    rw [checkedSub_of_le (by omega), Option.bind_some]
    change (checkedSub idx (d.startOffset - d.startOffset % B)).bind _ = _
    rw [checkedSub_of_le (by omega), Option.bind_some]
    dsimp only
    cases dropBlocks d.blocks (idx - (d.startOffset - d.startOffset % B)) d.startOffset with
    | none => rfl
    | some left =>
      obtain ⟨blocks, i, startOffset⟩ := left
      change (if 0 < i then _ else _) = if 0 < i then _ else _
      split_ifs
      · cases clearFront blocks (startOffset % B) i <;> rfl
      · rfl

end RawDeque

/-! ### Calls and their results -/

inductive DequeCommand (T R : Type) where
  | push (value : T)
  | set (index : ℕ) (value : T)
  | get (index : ℕ)
  | getWith (index : ℕ) (f : Option T → R)
  | removeBefore (idx : ℕ)
  | clear
  | len
  | earliestRevision
  | latestRevision

inductive DequeResult (T R : Type) where
  | index (i : ℕ)
  | written (ok : Bool)
  | value (v : Except Unit T)
  | applied (r : R)
  | removed (ok : Except Unit Unit)
  | cleared
  | counter (n : ℕ)
  deriving DecidableEq

/-- `x.clone().ok_or(())`. -/
def okOr {T : Type} : Option T → Except Unit T
  | some v => .ok v
  | none => .error ()

/-- A call of the deque; `none` is a panic. -/
def RawDeque.exec {T R : Type} {B : ℕ} [NeZero B] (d : RawDeque T B) :
    DequeCommand T R → Option (RawDeque T B × DequeResult T R)
  | .push value => (d.checkedPush value).map (fun r => (r.2, .index r.1))
  | .set index value => (d.checkedSet index value).map (fun r => (r.2, .written r.1))
  | .get index => (d.checkedGetWith index okOr).map (fun v => (d, .value v))
  | .getWith index f => (d.checkedGetWith index f).map (fun r => (d, .applied r))
  | .removeBefore idx => (d.checkedRemoveBefore idx).map (fun r => (r.2, .removed r.1))
  | .clear => some (⟨[], 0, 0⟩, .cleared)
  | .len => some (d, .counter d.length)
  | .earliestRevision => some (d, .counter d.startOffset)
  | .latestRevision => some (d, .counter (d.length + d.startOffset))

/-- A list whose first element has the number `start`. -/
structure OffsetList (T : Type) where
  start : ℕ
  items : List T
  deriving DecidableEq

namespace OffsetList

variable {T R : Type}

def stop (l : OffsetList T) : ℕ := l.start + l.items.length

def get? (l : OffsetList T) (index : ℕ) : Option T :=
  if l.start ≤ index then l.items[index - l.start]? else none

def exec (l : OffsetList T) : DequeCommand T R → OffsetList T × DequeResult T R
  | .push value => (⟨l.start, l.items ++ [value]⟩, .index l.stop)
  | .set index value =>
    if l.start ≤ index ∧ index < l.stop then
      (⟨l.start, l.items.set (index - l.start) value⟩, .written true)
    else (l, .written false)
  | .get index => (l, .value (okOr (l.get? index)))
  | .getWith index f => (l, .applied (f (l.get? index)))
  | .removeBefore idx =>
    if l.start ≤ idx ∧ idx ≤ l.stop then
      (⟨idx, l.items.drop (idx - l.start)⟩, .removed (.ok ()))
    else (l, .removed (.error ()))
  | .clear => (⟨0, []⟩, .cleared)
  | .len => (l, .counter l.items.length)
  | .earliestRevision => (l, .counter l.start)
  | .latestRevision => (l, .counter l.stop)

end OffsetList

/-! ### A well-formed deque does not panic -/

namespace BlockDeque

variable {T R : Type} {B : ℕ} [NeZero B] (d : BlockDeque T B)

theorem exec_push (value : T) :
    d.toRawDeque.exec (R := R) (.push value) =
      some ((d.push value).2.toRawDeque, .index d.latestRevision) := by
  rw [RawDeque.exec, RawDeque.checkedPush_eq, Option.map_some, d.toRawDeque.push_index]
  rfl

theorem set_fst (index : ℕ) (value : T) :
    (d.set index value).1 =
      if d.earliestRevision ≤ index ∧ index < d.latestRevision then true else false := by
  change (d.setOutcome index value).1 = _
  rw [setOutcome_eq]
  unfold earliestRevision latestRevision
  split_ifs <;> first | rfl | omega

theorem exec_set (index : ℕ) (value : T) :
    d.toRawDeque.exec (R := R) (.set index value) =
      some ((d.set index value).2.toRawDeque, .written (d.set index value).1) := by
  have hsome : d.toRawDeque.set index value = some (d.setOutcome index value) :=
    (Option.some_get _).symm
  rw [RawDeque.exec, RawDeque.checkedSet_eq, hsome]
  rfl

theorem checkedGetWith_eq_at? {S : Type} (index : ℕ) (f : Option T → S) :
    d.toRawDeque.checkedGetWith index f = some (f (d.at? index)) := by
  have hsome : d.toRawDeque.getWith index f = some (d.getWith index f) := (Option.some_get _).symm
  rw [RawDeque.checkedGetWith_eq, hsome, d.getWith_eq_at?]

theorem exec_removeBefore (idx : ℕ) :
    d.toRawDeque.exec (R := R) (.removeBefore idx) =
      some ((d.removeBefore idx).2.toRawDeque, .removed (d.removeBefore idx).1) := by
  have hsome : d.toRawDeque.removeBefore idx = some (d.removeOutcome idx) :=
    (Option.some_get _).symm
  rw [RawDeque.exec, RawDeque.checkedRemoveBefore_eq, hsome]
  rfl

end BlockDeque

/-! ### The deque and the list -/

structure Abstracts {T : Type} {B : ℕ} [NeZero B] (d : BlockDeque T B) (l : OffsetList T) :
    Prop where
  start : d.earliestRevision = l.start
  stop : d.latestRevision = l.stop
  items : ∀ k, d.at? k = l.get? k

namespace Abstracts

variable {T R : Type} {B : ℕ} [NeZero B] {d : BlockDeque T B} {l : OffsetList T}

theorem length (h : Abstracts d l) : d.length = l.items.length := by
  have hstart := h.start
  have hstop := h.stop
  unfold BlockDeque.earliestRevision at hstart
  unfold BlockDeque.latestRevision OffsetList.stop at hstop
  omega

theorem new : Abstracts (BlockDeque.new : BlockDeque T B) ⟨0, []⟩ :=
  ⟨rfl, rfl, fun k => by simp [BlockDeque.at?, BlockDeque.new, OffsetList.get?]⟩

theorem push (h : Abstracts d l) (value : T) :
    Abstracts (d.push value).2 ⟨l.start, l.items ++ [value]⟩ := by
  refine ⟨?_, ?_, ?_⟩
  · rw [BlockDeque.earliestRevision_push, h.start]
  · rw [BlockDeque.latestRevision_push, h.stop]
    simp [OffsetList.stop, Nat.add_assoc]
  · intro k
    rw [BlockDeque.at?_push, h.items, h.stop]
    unfold OffsetList.get? OffsetList.stop
    dsimp only
    by_cases hk : l.start ≤ k
    · -- the new element is the one behind the list
      rw [if_pos hk, if_pos hk, List.getElem?_append]
      by_cases hlast : k = l.start + l.items.length
      · rw [if_pos hlast, if_neg (by omega), hlast]
        simp
      · rw [if_neg hlast]
        by_cases hin : k - l.start < l.items.length
        · rw [if_pos hin]
        · rw [if_neg hin, List.getElem?_eq_none (by omega), List.getElem?_eq_none]
          rw [List.length_singleton]
          omega
    · rw [if_neg hk, if_neg hk, if_neg (by omega)]

theorem set (h : Abstracts d l) {index : ℕ} (hi : l.start ≤ index ∧ index < l.stop) (value : T) :
    Abstracts (d.set index value).2 ⟨l.start, l.items.set (index - l.start) value⟩ := by
  refine ⟨?_, ?_, ?_⟩
  · rw [BlockDeque.earliestRevision_set, h.start]
  · rw [BlockDeque.latestRevision_set, h.stop]
    simp [OffsetList.stop]
  · intro k
    rw [BlockDeque.at?_set, h.items, h.start, h.stop]
    unfold OffsetList.get?
    unfold OffsetList.stop at hi ⊢
    dsimp only
    by_cases hk : l.start ≤ k
    · rw [if_pos hk, if_pos hk, List.getElem?_set]
      by_cases hki : k = index
      · rw [if_pos ⟨hki, hi⟩, if_pos (by omega), if_pos (by omega)]
      · rw [if_neg (fun hh => hki hh.1), if_neg (by omega)]
    · rw [if_neg hk, if_neg hk, if_neg (by omega)]

theorem set_out_of_bounds (h : Abstracts d l) {index : ℕ}
    (hi : ¬(l.start ≤ index ∧ index < l.stop)) (value : T) :
    Abstracts (d.set index value).2 l := by
  refine ⟨?_, ?_, ?_⟩
  · rw [BlockDeque.earliestRevision_set, h.start]
  · rw [BlockDeque.latestRevision_set, h.stop]
  · intro k
    rw [BlockDeque.at?_set, h.start, h.stop, if_neg (fun hh => hi hh.2), h.items]

theorem removeBefore (h : Abstracts d l) {idx : ℕ} (hi : l.start ≤ idx ∧ idx ≤ l.stop) :
    Abstracts (d.removeBefore idx).2 ⟨idx, l.items.drop (idx - l.start)⟩ := by
  have hd : d.earliestRevision ≤ idx ∧ idx ≤ d.latestRevision := by
    rw [h.start, h.stop]
    exact hi
  refine ⟨?_, ?_, ?_⟩
  · exact BlockDeque.earliestRevision_removeBefore d idx hd
  · rw [BlockDeque.latestRevision_removeBefore d idx hd, h.stop]
    unfold OffsetList.stop at hi ⊢
    dsimp only
    rw [List.length_drop]
    omega
  · intro k
    rw [BlockDeque.at?_removeBefore d idx hd, h.items]
    unfold OffsetList.get?
    dsimp only
    by_cases hk : idx ≤ k
    · rw [if_pos hk, if_pos hk, if_pos (by omega), List.getElem?_drop]
      congr 1
      omega
    · rw [if_neg hk, if_neg hk]

/-- One call: the deque does not panic and returns what the list returns. -/
theorem exec (h : Abstracts d l) (c : DequeCommand T R) :
    ∃ d' : BlockDeque T B, d.toRawDeque.exec c = some (d'.toRawDeque, (l.exec c).2) ∧
      Abstracts d' (l.exec c).1 := by
  cases c with
  | push value =>
    refine ⟨(d.push value).2, ?_, h.push value⟩
    rw [d.exec_push, h.stop]
    rfl
  | set index value =>
    refine ⟨(d.set index value).2, ?_⟩
    rw [d.exec_set, d.set_fst, h.start, h.stop]
    dsimp only [OffsetList.exec]
    split_ifs with hi
    · exact ⟨rfl, h.set hi value⟩
    · exact ⟨rfl, h.set_out_of_bounds hi value⟩
  | get index =>
    refine ⟨d, ?_, h⟩
    rw [RawDeque.exec, d.checkedGetWith_eq_at?, h.items]
    rfl
  | getWith index f =>
    refine ⟨d, ?_, h⟩
    rw [RawDeque.exec, d.checkedGetWith_eq_at?, h.items]
    rfl
  | removeBefore idx =>
    refine ⟨(d.removeBefore idx).2, ?_⟩
    rw [d.exec_removeBefore, d.removeBefore_fst, h.start, h.stop]
    dsimp only [OffsetList.exec]
    split_ifs with hi
    · exact ⟨rfl, h.removeBefore hi⟩
    · refine ⟨rfl, ?_⟩
      rw [d.removeBefore_failed idx (by rw [h.start, h.stop]; exact hi)]
      exact h
  | clear => exact ⟨BlockDeque.new, rfl, new⟩
  | len =>
    refine ⟨d, ?_, h⟩
    rw [RawDeque.exec, h.length]
    rfl
  | earliestRevision =>
    refine ⟨d, ?_, h⟩
    change some (_, DequeResult.counter d.earliestRevision) = _
    rw [h.start]
    rfl
  | latestRevision =>
    refine ⟨d, ?_, h⟩
    change some (_, DequeResult.counter d.latestRevision) = _
    rw [h.stop]
    rfl

end Abstracts

def Implements {T : Type} {B : ℕ} [NeZero B] (raw : RawDeque T B) (l : OffsetList T) : Prop :=
  ∃ d : BlockDeque T B, d.toRawDeque = raw ∧ Abstracts d l

theorem Implements.exec {T R : Type} {B : ℕ} [NeZero B] {raw : RawDeque T B} {l : OffsetList T}
    (c : DequeCommand T R) (h : Implements raw l) :
    ∃ raw', raw.exec c = some (raw', (l.exec c).2) ∧ Implements raw' (l.exec c).1 := by
  obtain ⟨d, rfl, hd⟩ := h
  obtain ⟨d', hexec, hd'⟩ := hd.exec c
  exact ⟨d'.toRawDeque, hexec, d', rfl, hd'⟩

/-- For every block size and every sequence of calls, made one after another on a new
deque: none panics, and their results are those of the list. -/
theorem deque_refines_list {T R : Type} (B : ℕ) [NeZero B] (commands : List (DequeCommand T R)) :
    (PartialRun.runOutputs RawDeque.exec (BlockDeque.new : BlockDeque T B).toRawDeque
      commands).map Prod.snd =
        some (PartialRun.outputs OffsetList.exec (⟨0, []⟩ : OffsetList T) commands).2 := by
  have hnew : Implements (BlockDeque.new : BlockDeque T B).toRawDeque (⟨0, []⟩ : OffsetList T) :=
    ⟨BlockDeque.new, rfl, Abstracts.new⟩
  obtain ⟨raw, hrun, _⟩ := PartialRun.runOutputs_simulates Implements.exec hnew commands
  rw [hrun]
  rfl

/-- Blocks of two: a removal in the second block, a write behind the end, a read of a
removed element and one of the last. -/
theorem deque_refines_list_of_two :
    (PartialRun.runOutputs RawDeque.exec (BlockDeque.new : BlockDeque ℕ 2).toRawDeque
      [.push 7, .push 8, .push 9, .push 10, .removeBefore 3, .set 4 1, .get 2, .getWith 3 id,
        .removeBefore 2, .len]).map Prod.snd =
      some [.index 0, .index 1, .index 2, .index 3, .removed (.ok ()), .written false,
        .value (.error ()), .applied (some 10), .removed (.error ()), .counter 1] :=
  deque_refines_list 2 _

end MemEtcd
