import Mathlib.Tactic

/-! The revision array of the store. A revision array grows at its end only,
keeps its elements in fixed-size blocks and forgets a prefix of them when it is
compacted; indexes stay absolute. -/
namespace MemEtcd

/-- The fields of `BlockDeque`. A block `[Option<T>; BLOCK_SIZE]` is a map from
its offsets; `startOffset` is the first index that has not been removed. -/
structure RawDeque (T : Type*) (B : ℕ) where
  blocks : List (Fin B → Option T)
  startOffset : ℕ
  length : ℕ

namespace RawDeque

variable {T : Type*} {B : ℕ} [NeZero B]

/-- `index % BLOCK_SIZE`, the position of an index in its block. -/
def offsetOf (B : ℕ) [NeZero B] (index : ℕ) : Fin B := Fin.ofNat B index

def emptyBlock : Fin B → Option T := fun _ => none

/-- The block of an index, counted from the first block that is still stored. -/
def blockIndex (d : RawDeque T B) (index : ℕ) : ℕ := index / B - d.startOffset / B

def writeSlot (blocks : List (Fin B → Option T)) (i : ℕ) (offset : Fin B) (value : T) :
    List (Fin B → Option T) :=
  blocks.modify i (fun b => Function.update b offset (some value))

/-- `push`: the element goes to the next index. A missing block is allocated
first; the index is the result. -/
def push (d : RawDeque T B) (value : T) : ℕ × RawDeque T B :=
  let index := d.length + d.startOffset
  let i := d.blockIndex index
  let offset := offsetOf B index
  if i < d.blocks.length then
    (index, { d with blocks := writeSlot d.blocks i offset value, length := d.length + 1 })
  else
    let grown := d.blocks ++ List.replicate (i + 1 - d.blocks.length) emptyBlock
    (index, { d with blocks := writeSlot grown i offset value, length := d.length + 1 })

/-- `set`. The result `none` is the panic of the block lookup. -/
def set (d : RawDeque T B) (index : ℕ) (value : T) : Option (Bool × RawDeque T B) :=
  if d.length + d.startOffset ≤ index then some (false, d)
  else if index < d.startOffset then some (false, d)
  else if d.blockIndex index < d.blocks.length then
    some (true, { d with
      blocks := writeSlot d.blocks (d.blockIndex index) (offsetOf B index) value })
  else none

/-- `get_with`. The result `none` is the panic of the block lookup. -/
def getWith {R : Type*} (d : RawDeque T B) (index : ℕ) (f : Option T → R) : Option R :=
  if d.length + d.startOffset ≤ index then some (f none)
  else if index < d.startOffset then some (f none)
  else (d.blocks[d.blockIndex index]?).map (fun b => f (b (offsetOf B index)))

/-- The `while i >= BLOCK_SIZE` loop of `remove_before`, which drops whole
blocks. Removing from an empty block list panics. -/
def dropBlocks : List (Fin B → Option T) → ℕ → ℕ → Option (List (Fin B → Option T) × ℕ × ℕ)
  | [], i, startOffset => if B ≤ i then none else some ([], i, startOffset)
  | b :: bs, i, startOffset =>
    if B ≤ i then dropBlocks bs (i - B) 0 else some (b :: bs, i, startOffset)

/-- `the_block[a..i].fill(None)` on the first block; it panics without a block
and on a slice that ends before it starts. -/
def clearFront (blocks : List (Fin B → Option T)) (a i : ℕ) :
    Option (List (Fin B → Option T)) :=
  match blocks with
  | [] => none
  | b :: bs =>
    if a ≤ i then some ((fun j => if a ≤ j.val ∧ j.val < i then none else b j) :: bs) else none

/-- `remove_before`. The inner `Except` is the function's result, the outer
`none` a panic. -/
def removeBefore (d : RawDeque T B) (idx : ℕ) : Option (Except Unit Unit × RawDeque T B) :=
  if d.startOffset + d.length < idx then some (.error (), d)
  else if idx < d.startOffset then some (.error (), d)
  else
    let length := d.length - (idx - d.startOffset)
    match dropBlocks d.blocks (idx - (d.startOffset - d.startOffset % B)) d.startOffset with
    | none => none
    | some (blocks, i, startOffset) =>
      if 0 < i then
        match clearFront blocks (startOffset % B) i with
        | none => none
        | some blocks => some (.ok (), ⟨blocks, idx, length⟩)
      else some (.ok (), ⟨blocks, idx, length⟩)

/-- The slot an index is stored in, whether or not the index is in bounds. -/
def slot (d : RawDeque T B) (index : ℕ) : Option T :=
  (d.blocks[d.blockIndex index]?).bind (fun b => b (offsetOf B index))

/-- The blocks reach to the last index, and every index in bounds is filled. -/
structure WF (d : RawDeque T B) : Prop where
  covered : d.startOffset % B + d.length ≤ B * d.blocks.length
  filled : ∀ index, d.startOffset ≤ index → index < d.startOffset + d.length →
    (d.slot index).isSome

omit [NeZero B] in
theorem index_eq_of_location {s i j : ℕ} (hi : s / B ≤ i / B) (hj : s / B ≤ j / B)
    (hb : i / B - s / B = j / B - s / B) (ho : i % B = j % B) : i = j := by
  have hq : i / B = j / B := by omega
  rw [← Nat.div_add_mod i B, ← Nat.div_add_mod j B, hq, ho]

theorem blockIndex_lt_iff (d : RawDeque T B) {index n : ℕ} (h : d.startOffset ≤ index) :
    d.blockIndex index < n ↔ index < B * (d.startOffset / B) + B * n := by
  have hB : 0 < B := Nat.pos_of_ne_zero (NeZero.ne B)
  have hs := Nat.div_le_div_right (c := B) h
  have hm : index / B < d.startOffset / B + n ↔ index < (d.startOffset / B + n) * B :=
    Nat.div_lt_iff_lt_mul hB
  unfold blockIndex
  rw [show (d.startOffset / B + n) * B = B * (d.startOffset / B) + B * n by ring] at hm
  omega

theorem WF.blockIndex_lt {d : RawDeque T B} (hd : d.WF) {index : ℕ}
    (h : d.startOffset ≤ index) (hl : index < d.startOffset + d.length) :
    d.blockIndex index < d.blocks.length := by
  rw [blockIndex_lt_iff d h]
  have hc := hd.covered
  have hs := Nat.div_add_mod d.startOffset B
  omega

/-- A write changes one slot, among the indexes from the first stored block on. -/
theorem slot_writeSlot (blocks : List (Fin B → Option T)) (s n k index : ℕ) (value : T)
    (hk : s / B ≤ k / B) (hi : s / B ≤ index / B) (hb : k / B - s / B < blocks.length) :
    (RawDeque.mk (writeSlot blocks (k / B - s / B) (offsetOf B k) value) s n).slot index =
      if index = k then some value else (RawDeque.mk blocks s n).slot index := by
  unfold slot writeSlot blockIndex
  simp only [List.getElem?_modify]
  by_cases hik : index = k
  · subst hik
    rw [if_pos rfl, List.getElem?_eq_getElem hb]
    simp
  · rw [if_neg hik]
    by_cases hbb : k / B - s / B = index / B - s / B
    · have ho : offsetOf B index ≠ offsetOf B k := by
        intro h
        exact hik (index_eq_of_location hi hk hbb.symm (congrArg Fin.val h))
      rw [hbb] at hb ⊢
      rw [List.getElem?_eq_getElem hb]
      simp [Function.update_of_ne ho]
    · simp [hbb]

theorem grown_slot (d : RawDeque T B) (m index : ℕ)
    (h : d.blockIndex index < d.blocks.length) :
    (RawDeque.mk (d.blocks ++ List.replicate m emptyBlock) d.startOffset d.length).slot index =
      d.slot index := by
  unfold slot
  change ((d.blocks ++ List.replicate m emptyBlock)[d.blockIndex index]?).bind _ = _
  rw [List.getElem?_append_left h]

/-- Both branches of `push` write the slot of the new index of a block list
that reaches it. -/
theorem push_blocks (d : RawDeque T B) (value : T) :
    ∃ m, (d.push value).2 = ⟨writeSlot (d.blocks ++ List.replicate m emptyBlock)
        (d.blockIndex (d.length + d.startOffset)) (offsetOf B (d.length + d.startOffset)) value,
        d.startOffset, d.length + 1⟩ ∧
      d.blockIndex (d.length + d.startOffset) < d.blocks.length + m := by
  unfold push
  by_cases h : d.blockIndex (d.length + d.startOffset) < d.blocks.length
  · exact ⟨0, by simp [h], by omega⟩
  · exact ⟨d.blockIndex (d.length + d.startOffset) + 1 - d.blocks.length,
      by simp [h], by omega⟩

theorem push_index (d : RawDeque T B) (value : T) :
    (d.push value).1 = d.length + d.startOffset := by
  simp only [push]
  split_ifs <;> rfl

theorem push_startOffset (d : RawDeque T B) (value : T) :
    (d.push value).2.startOffset = d.startOffset := by
  simp only [push]
  split_ifs <;> rfl

theorem push_length (d : RawDeque T B) (value : T) :
    (d.push value).2.length = d.length + 1 := by
  simp only [push]
  split_ifs <;> rfl

theorem push_slot (d : RawDeque T B) (hd : d.WF) (value : T) (index : ℕ)
    (hi : d.startOffset ≤ index) (hl : index < d.startOffset + d.length + 1) :
    (d.push value).2.slot index =
      if index = d.length + d.startOffset then some value else d.slot index := by
  obtain ⟨m, he, hm⟩ := push_blocks d value
  have hb : (d.length + d.startOffset) / B - d.startOffset / B <
      (d.blocks ++ List.replicate m (emptyBlock (T := T) (B := B))).length := by
    simpa only [List.length_append, List.length_replicate, blockIndex] using hm
  rw [he]
  have hw := slot_writeSlot _ d.startOffset (d.length + 1) (d.length + d.startOffset) index value
    (Nat.div_le_div_right (by omega)) (Nat.div_le_div_right hi) hb
  unfold blockIndex
  rw [hw]
  by_cases hk : index = d.length + d.startOffset
  · rw [if_pos hk, if_pos hk]
  · rw [if_neg hk, if_neg hk]
    exact grown_slot d m index (hd.blockIndex_lt hi (by omega))

theorem push_wf (d : RawDeque T B) (hd : d.WF) (value : T) : (d.push value).2.WF := by
  constructor
  · obtain ⟨m, he, hm⟩ := push_blocks d value
    have hs := Nat.div_add_mod d.startOffset B
    rw [blockIndex_lt_iff d (by omega)] at hm
    rw [he]
    simp only [writeSlot, List.length_modify, List.length_append, List.length_replicate]
    omega
  · intro index hi hl
    rw [push_startOffset] at hi
    rw [push_startOffset, push_length] at hl
    rw [push_slot d hd value index hi (by omega)]
    split_ifs with hk
    · rfl
    · exact hd.filled index hi (by omega)

/-- On a well-formed array `set` never panics. It writes exactly when the index
is in bounds. -/
theorem set_eq (d : RawDeque T B) (hd : d.WF) (index : ℕ) (value : T) :
    d.set index value =
      if d.startOffset ≤ index ∧ index < d.startOffset + d.length then
        some (true, { d with
          blocks := writeSlot d.blocks (d.blockIndex index) (offsetOf B index) value })
      else some (false, d) := by
  unfold set
  by_cases h : d.startOffset ≤ index ∧ index < d.startOffset + d.length
  · have hb := hd.blockIndex_lt h.1 h.2
    rw [if_neg (by omega), if_neg (by omega), if_pos hb, if_pos h]
  · rw [if_neg h]
    split_ifs <;> first | rfl | omega

theorem getWith_eq {R : Type*} (d : RawDeque T B) (hd : d.WF) (index : ℕ) (f : Option T → R) :
    d.getWith index f =
      some (f (if d.startOffset ≤ index ∧ index < d.startOffset + d.length then d.slot index
        else none)) := by
  unfold getWith
  by_cases h : d.startOffset ≤ index ∧ index < d.startOffset + d.length
  · have hb := hd.blockIndex_lt h.1 h.2
    rw [if_neg (by omega), if_neg (by omega), if_pos h]
    unfold slot
    rw [List.getElem?_eq_getElem hb]
    rfl
  · rw [if_neg h]
    split_ifs <;> first | rfl | omega

/-- What the block-dropping loop leaves when there are enough blocks. -/
theorem dropBlocks_eq (blocks : List (Fin B → Option T)) (i s : ℕ)
    (h : i / B ≤ blocks.length) :
    dropBlocks blocks i s = some (blocks.drop (i / B), i % B, if i < B then s else 0) := by
  have hB : 0 < B := Nat.pos_of_ne_zero (NeZero.ne B)
  induction blocks generalizing i s with
  | nil =>
    have hi : i < B := by
      have h0 : i / B = 0 := by simpa using h
      exact (Nat.div_eq_zero_iff_lt hB).mp h0
    simp [dropBlocks, Nat.div_eq_of_lt hi, Nat.mod_eq_of_lt hi, hi]
  | cons b bs ih =>
    unfold dropBlocks
    by_cases hi : B ≤ i
    · have hd : i / B = (i - B) / B + 1 := by
        rw [Nat.div_eq_sub_div hB hi]
      rw [if_pos hi, ih (i - B) 0 (by simp only [List.length_cons] at h; omega), hd,
        List.drop_succ_cons, ← Nat.mod_eq_sub_mod hi]
      simp [hi]
    · have hi' : i < B := by omega
      rw [if_neg hi, Nat.div_eq_of_lt hi', Nat.mod_eq_of_lt hi']
      simp [hi']

/-- The first dropped index relative to the first stored block: its block
number and its offset. -/
theorem removed_location (d : RawDeque T B) (idx : ℕ) (h : d.startOffset ≤ idx) :
    (idx - (d.startOffset - d.startOffset % B)) / B = d.blockIndex idx ∧
      (idx - (d.startOffset - d.startOffset % B)) % B = idx % B := by
  have hB : 0 < B := Nat.pos_of_ne_zero (NeZero.ne B)
  have hs : d.startOffset - d.startOffset % B = B * (d.startOffset / B) := by
    have := Nat.div_add_mod d.startOffset B
    omega
  have hle : B * (d.startOffset / B) ≤ idx := (Nat.mul_div_le _ _).trans h
  rw [hs]
  exact ⟨Nat.sub_mul_div _ _ _, Nat.sub_mul_mod hle⟩

/-- The blocks `remove_before` keeps, with the removed slots of the first one
cleared. -/
def keptBlocks (d : RawDeque T B) (idx : ℕ) : List (Fin B → Option T) :=
  let kept := d.blocks.drop (d.blockIndex idx)
  let a := (if d.blockIndex idx = 0 then d.startOffset else 0) % B
  if 0 < idx % B then
    kept.modify 0 (fun b j => if a ≤ j.val ∧ j.val < idx % B then none else b j)
  else kept

def allocatedEnd (d : RawDeque T B) : ℕ := B * (d.startOffset / B) + B * d.blocks.length

/-- `remove_before` succeeds from the start offset to the length, if the blocks reach to
its index. -/
theorem removeBefore_allocated (d : RawDeque T B) {idx : ℕ} (h : d.startOffset ≤ idx)
    (hl : idx ≤ d.startOffset + d.length) (hc : idx ≤ d.allocatedEnd) :
    d.removeBefore idx =
      some (.ok (), ⟨d.keptBlocks idx, idx, d.startOffset + d.length - idx⟩) := by
  have hB : 0 < B := Nat.pos_of_ne_zero (NeZero.ne B)
  obtain ⟨hq, hm⟩ := removed_location d idx h
  have hidx := Nat.div_add_mod idx B
  have hmul : B * d.blockIndex idx = B * (idx / B) - B * (d.startOffset / B) := Nat.mul_sub _ _ _
  unfold allocatedEnd at hc
  have hle : B * d.blockIndex idx ≤ B * d.blocks.length := by omega
  have hlen : d.blockIndex idx ≤ d.blocks.length := Nat.le_of_mul_le_mul_left hle hB
  have hlt : idx - (d.startOffset - d.startOffset % B) < B ↔ d.blockIndex idx = 0 := by
    rw [← hq]
    exact (Nat.div_eq_zero_iff_lt hB).symm
  have hlen' : d.length - (idx - d.startOffset) = d.startOffset + d.length - idx := by omega
  unfold removeBefore
  rw [if_neg (by omega), if_neg (by omega)]
  simp only
  rw [dropBlocks_eq _ _ _ (by rw [hq]; exact hlen), hq, hm]
  simp only [hlt, hlen', keptBlocks]
  by_cases hp : 0 < idx % B
  · -- the index lies inside a block, which is still there
    have hne : d.blockIndex idx < d.blocks.length := by
      rw [blockIndex_lt_iff d h]
      by_contra hge
      have he : idx = B * (d.startOffset / B + d.blocks.length) := by
        rw [Nat.mul_add]
        omega
      rw [he, Nat.mul_mod_right] at hp
      omega
    have ha : (if d.blockIndex idx = 0 then d.startOffset else 0) % B ≤ idx % B := by
      split_ifs with h0
      · have hs := Nat.div_add_mod d.startOffset B
        have hge := Nat.div_le_div_right (c := B) h
        have heq : idx / B = d.startOffset / B := by unfold blockIndex at h0; omega
        rw [heq] at hidx
        omega
      · simp
    cases hk : d.blocks.drop (d.blockIndex idx) with
    | nil => exact absurd (List.drop_eq_nil_iff.mp hk) (by omega)
    | cons b bs => simp [clearFront, ha, hp]
  · simp [hp]

/-- On a well-formed array `remove_before` never panics. It succeeds exactly
from the start offset to the length. -/
theorem removeBefore_eq (d : RawDeque T B) (hd : d.WF) (idx : ℕ) :
    d.removeBefore idx =
      if d.startOffset ≤ idx ∧ idx ≤ d.startOffset + d.length then
        some (.ok (), ⟨d.keptBlocks idx, idx, d.startOffset + d.length - idx⟩)
      else some (.error (), d) := by
  by_cases h : d.startOffset ≤ idx ∧ idx ≤ d.startOffset + d.length
  · have hc : idx ≤ d.allocatedEnd := by
      have hcov := hd.covered
      have hs := Nat.div_add_mod d.startOffset B
      unfold allocatedEnd
      omega
    rw [if_pos h, removeBefore_allocated d h.1 h.2 hc]
  · unfold removeBefore
    rw [if_neg h]
    split_ifs <;> first | rfl | omega

theorem removeBefore_slot (d : RawDeque T B) (idx n index : ℕ) (hidx : d.startOffset ≤ idx)
    (hi : idx ≤ index) :
    (RawDeque.mk (d.keptBlocks idx) idx n).slot index = d.slot index := by
  have hs := Nat.div_le_div_right (c := B) hidx
  have hd := Nat.div_le_div_right (c := B) hi
  have hdrop : (d.blocks.drop (d.blockIndex idx))[index / B - idx / B]? =
      d.blocks[d.blockIndex index]? := by
    rw [List.getElem?_drop]
    congr 1
    unfold blockIndex
    omega
  -- in the first kept block only offsets below that of `idx` are cleared
  have hoff : idx / B = index / B → idx % B ≤ (offsetOf B index).val := by
    intro he
    have h1 := Nat.div_add_mod idx B
    have h2 := Nat.div_add_mod index B
    rw [he] at h1
    change idx % B ≤ index % B
    omega
  change ((d.keptBlocks idx)[index / B - idx / B]?).bind _ = _
  unfold keptBlocks slot
  simp only
  generalize (if d.blockIndex idx = 0 then d.startOffset else 0) % B = a
  by_cases hp : 0 < idx % B
  · rw [if_pos hp, List.getElem?_modify, hdrop]
    cases d.blocks[d.blockIndex index]? with
    | none => rfl
    | some b =>
      by_cases h0 : 0 = index / B - idx / B
      · have hle := hoff (by omega)
        simp [← h0, hle]
      · simp [h0]
  · rw [if_neg hp, hdrop]

theorem removeBefore_wf (d : RawDeque T B) (hd : d.WF) (idx : ℕ)
    (h : d.startOffset ≤ idx ∧ idx ≤ d.startOffset + d.length) :
    (RawDeque.mk (d.keptBlocks idx) idx (d.startOffset + d.length - idx)).WF := by
  constructor
  · have hc := hd.covered
    have hs := Nat.div_add_mod d.startOffset B
    have hidx := Nat.div_add_mod idx B
    have hge := Nat.mul_le_mul_left B (Nat.div_le_div_right (c := B) h.1)
    have hmul : B * (d.blocks.length - d.blockIndex idx) =
        B * d.blocks.length - (B * (idx / B) - B * (d.startOffset / B)) := by
      rw [Nat.mul_sub, blockIndex, Nat.mul_sub]
    have hkl : (d.keptBlocks idx).length = d.blocks.length - d.blockIndex idx := by
      unfold keptBlocks
      split_ifs <;> simp
    change idx % B + (d.startOffset + d.length - idx) ≤ B * (d.keptBlocks idx).length
    rw [hkl, hmul]
    omega
  · intro index hi hl
    change idx ≤ index at hi
    change index < idx + (d.startOffset + d.length - idx) at hl
    rw [removeBefore_slot d idx _ index h.1 hi]
    exact hd.filled index (by omega) (by omega)

end RawDeque

/-- `BlockDeque<T, BLOCK_SIZE>` together with its representation invariant. -/
structure BlockDeque (T : Type*) (B : ℕ) [NeZero B] extends RawDeque T B where
  wf : toRawDeque.WF

namespace BlockDeque

variable {T : Type*} {B : ℕ} [NeZero B]

def new : BlockDeque T B :=
  ⟨⟨[], 0, 0⟩, ⟨by simp, fun _ _ h => absurd h (Nat.not_lt_zero _)⟩⟩

def earliestRevision (d : BlockDeque T B) : ℕ := d.startOffset

def latestRevision (d : BlockDeque T B) : ℕ := d.length + d.startOffset

def push (d : BlockDeque T B) (value : T) : ℕ × BlockDeque T B :=
  ((d.toRawDeque.push value).1, ⟨(d.toRawDeque.push value).2, d.toRawDeque.push_wf d.wf value⟩)

/-- The outcome of `set`, which is defined since the array is well formed. -/
def setOutcome (d : BlockDeque T B) (index : ℕ) (value : T) : Bool × RawDeque T B :=
  (d.toRawDeque.set index value).get (by rw [d.set_eq d.wf]; split_ifs <;> rfl)

theorem setOutcome_eq (d : BlockDeque T B) (index : ℕ) (value : T) :
    d.setOutcome index value =
      if d.startOffset ≤ index ∧ index < d.startOffset + d.length then
        (true, { d.toRawDeque with
          blocks := RawDeque.writeSlot d.blocks (d.blockIndex index)
            (RawDeque.offsetOf B index) value })
      else (false, d.toRawDeque) := by
  unfold setOutcome
  simp only [d.set_eq d.wf]
  split_ifs <;> rfl

theorem setOutcome_wf (d : BlockDeque T B) (index : ℕ) (value : T) :
    (d.setOutcome index value).2.WF := by
  rw [setOutcome_eq]
  split_ifs with h
  · have hb := d.wf.blockIndex_lt h.1 h.2
    constructor
    · simpa [RawDeque.writeSlot] using d.wf.covered
    · intro k hk hl
      have hw := RawDeque.slot_writeSlot d.blocks d.startOffset d.length index k value
        (Nat.div_le_div_right h.1) (Nat.div_le_div_right hk) hb
      change (RawDeque.slot (RawDeque.mk (RawDeque.writeSlot d.blocks (d.blockIndex index)
        (RawDeque.offsetOf B index) value) d.startOffset d.length) k).isSome = true
      unfold RawDeque.blockIndex
      rw [hw]
      split_ifs
      · rfl
      · exact d.wf.filled k hk hl
  · exact d.wf

def set (d : BlockDeque T B) (index : ℕ) (value : T) : Bool × BlockDeque T B :=
  ((d.setOutcome index value).1, ⟨(d.setOutcome index value).2, d.setOutcome_wf index value⟩)

def getWith {R : Type*} (d : BlockDeque T B) (index : ℕ) (f : Option T → R) : R :=
  (d.toRawDeque.getWith index f).get (by rw [d.getWith_eq d.wf]; rfl)

def get (d : BlockDeque T B) (index : ℕ) : Except Unit T :=
  d.getWith index (fun x => match x with | some v => .ok v | none => .error ())

def removeOutcome (d : BlockDeque T B) (idx : ℕ) : Except Unit Unit × RawDeque T B :=
  (d.toRawDeque.removeBefore idx).get (by rw [d.removeBefore_eq d.wf]; split_ifs <;> rfl)

theorem removeOutcome_eq (d : BlockDeque T B) (idx : ℕ) :
    d.removeOutcome idx =
      if d.startOffset ≤ idx ∧ idx ≤ d.startOffset + d.length then
        (.ok (), ⟨d.keptBlocks idx, idx, d.startOffset + d.length - idx⟩)
      else (.error (), d.toRawDeque) := by
  unfold removeOutcome
  simp only [d.removeBefore_eq d.wf]
  split_ifs <;> rfl

theorem removeOutcome_wf (d : BlockDeque T B) (idx : ℕ) : (d.removeOutcome idx).2.WF := by
  rw [removeOutcome_eq]
  split_ifs with h
  · exact RawDeque.removeBefore_wf d.toRawDeque d.wf idx h
  · exact d.wf

def removeBefore (d : BlockDeque T B) (idx : ℕ) : Except Unit Unit × BlockDeque T B :=
  ((d.removeOutcome idx).1, ⟨(d.removeOutcome idx).2, d.removeOutcome_wf idx⟩)

def clear (_d : BlockDeque T B) : BlockDeque T B := new

def at? (d : BlockDeque T B) (index : ℕ) : Option T :=
  if d.startOffset ≤ index ∧ index < d.startOffset + d.length then d.slot index else none

theorem getWith_eq_at? {R : Type*} (d : BlockDeque T B) (index : ℕ) (f : Option T → R) :
    d.getWith index f = f (d.at? index) := by
  unfold getWith
  simp only [d.toRawDeque.getWith_eq d.wf, Option.get_some]
  rfl

theorem get_eq_at? (d : BlockDeque T B) (index : ℕ) :
    d.get index = match d.at? index with | some v => .ok v | none => .error () :=
  d.getWith_eq_at? index _

@[simp] theorem earliestRevision_new : (new : BlockDeque T B).earliestRevision = 0 := rfl

@[simp] theorem latestRevision_new : (new : BlockDeque T B).latestRevision = 0 := rfl

@[simp] theorem push_fst (d : BlockDeque T B) (value : T) :
    (d.push value).1 = d.latestRevision := d.toRawDeque.push_index value

@[simp] theorem earliestRevision_push (d : BlockDeque T B) (value : T) :
    (d.push value).2.earliestRevision = d.earliestRevision := d.toRawDeque.push_startOffset value

@[simp] theorem latestRevision_push (d : BlockDeque T B) (value : T) :
    (d.push value).2.latestRevision = d.latestRevision + 1 := by
  change (d.toRawDeque.push value).2.length + (d.toRawDeque.push value).2.startOffset = _
  rw [RawDeque.push_length, RawDeque.push_startOffset]
  unfold latestRevision
  omega

theorem at?_push (d : BlockDeque T B) (value : T) (index : ℕ) :
    (d.push value).2.at? index =
      if index = d.latestRevision then some value else d.at? index := by
  have hs := d.toRawDeque.push_startOffset value
  have hl := d.toRawDeque.push_length value
  unfold at? latestRevision
  change (if (d.toRawDeque.push value).2.startOffset ≤ index ∧
      index < (d.toRawDeque.push value).2.startOffset + (d.toRawDeque.push value).2.length then
      (d.toRawDeque.push value).2.slot index else none) = _
  rw [hs, hl]
  by_cases h : d.startOffset ≤ index ∧ index < d.startOffset + (d.length + 1)
  · rw [if_pos h, d.toRawDeque.push_slot d.wf value index h.1 (by omega)]
    split_ifs <;> first | rfl | omega
  · rw [if_neg h, if_neg (by omega), if_neg (by omega)]

@[simp] theorem earliestRevision_set (d : BlockDeque T B) (index : ℕ) (value : T) :
    (d.set index value).2.earliestRevision = d.earliestRevision := by
  change (d.setOutcome index value).2.startOffset = d.startOffset
  rw [setOutcome_eq]
  split_ifs <;> rfl

@[simp] theorem latestRevision_set (d : BlockDeque T B) (index : ℕ) (value : T) :
    (d.set index value).2.latestRevision = d.latestRevision := by
  change (d.setOutcome index value).2.length + (d.setOutcome index value).2.startOffset = _
  rw [setOutcome_eq]
  split_ifs <;> rfl

theorem at?_set (d : BlockDeque T B) (index : ℕ) (value : T) (k : ℕ) :
    (d.set index value).2.at? k =
      if k = index ∧ d.earliestRevision ≤ index ∧ index < d.latestRevision then some value
      else d.at? k := by
  unfold at? earliestRevision latestRevision
  change (if (d.setOutcome index value).2.startOffset ≤ k ∧
      k < (d.setOutcome index value).2.startOffset + (d.setOutcome index value).2.length then
      (d.setOutcome index value).2.slot k else none) = _
  rw [setOutcome_eq]
  by_cases h : d.startOffset ≤ index ∧ index < d.startOffset + d.length
  · rw [if_pos h]
    simp only
    by_cases hk : d.startOffset ≤ k ∧ k < d.startOffset + d.length
    · have hw := RawDeque.slot_writeSlot d.blocks d.startOffset d.length index k value
        (Nat.div_le_div_right h.1) (Nat.div_le_div_right hk.1) (d.wf.blockIndex_lt h.1 h.2)
      rw [if_pos hk]
      unfold RawDeque.blockIndex
      rw [hw]
      split_ifs <;> first | rfl | omega
    · rw [if_neg hk, if_neg (by omega), if_neg hk]
  · rw [if_neg h]
    simp only
    split_ifs <;> first | rfl | omega

theorem removeBefore_fst (d : BlockDeque T B) (idx : ℕ) :
    (d.removeBefore idx).1 =
      if d.earliestRevision ≤ idx ∧ idx ≤ d.latestRevision then .ok () else .error () := by
  change (d.removeOutcome idx).1 = _
  rw [removeOutcome_eq]
  unfold earliestRevision latestRevision
  split_ifs <;> first | rfl | omega

theorem removeBefore_failed (d : BlockDeque T B) (idx : ℕ)
    (h : ¬(d.earliestRevision ≤ idx ∧ idx ≤ d.latestRevision)) : (d.removeBefore idx).2 = d := by
  have he : (d.removeOutcome idx).2 = d.toRawDeque := by
    rw [removeOutcome_eq, if_neg]
    unfold earliestRevision latestRevision at h
    omega
  unfold removeBefore
  cases d
  simp only [he]

theorem earliestRevision_removeBefore (d : BlockDeque T B) (idx : ℕ)
    (h : d.earliestRevision ≤ idx ∧ idx ≤ d.latestRevision) :
    (d.removeBefore idx).2.earliestRevision = idx := by
  unfold earliestRevision latestRevision at h
  change (d.removeOutcome idx).2.startOffset = idx
  rw [removeOutcome_eq, if_pos (by omega)]

theorem latestRevision_removeBefore (d : BlockDeque T B) (idx : ℕ)
    (h : d.earliestRevision ≤ idx ∧ idx ≤ d.latestRevision) :
    (d.removeBefore idx).2.latestRevision = d.latestRevision := by
  unfold earliestRevision latestRevision at h
  change (d.removeOutcome idx).2.length + (d.removeOutcome idx).2.startOffset = _
  rw [removeOutcome_eq, if_pos (by omega)]
  unfold latestRevision
  simp only
  omega

theorem at?_removeBefore (d : BlockDeque T B) (idx : ℕ)
    (h : d.earliestRevision ≤ idx ∧ idx ≤ d.latestRevision) (k : ℕ) :
    (d.removeBefore idx).2.at? k = if idx ≤ k then d.at? k else none := by
  unfold earliestRevision latestRevision at h
  unfold at?
  change (if (d.removeOutcome idx).2.startOffset ≤ k ∧
      k < (d.removeOutcome idx).2.startOffset + (d.removeOutcome idx).2.length then
      (d.removeOutcome idx).2.slot k else none) = _
  rw [removeOutcome_eq, if_pos (show d.startOffset ≤ idx ∧ idx ≤ d.startOffset + d.length by omega)]
  simp only
  by_cases hk : idx ≤ k
  · rw [if_pos hk, RawDeque.removeBefore_slot d.toRawDeque idx _ k h.1 hk]
    split_ifs <;> first | rfl | omega
  · rw [if_neg hk, if_neg (by omega)]

end BlockDeque
end MemEtcd
