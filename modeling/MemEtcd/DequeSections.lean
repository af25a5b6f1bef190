import MemEtcd.DequeCommands

/-! Concurrent pushes and removals. `push` reserves its index under the read lock, and if
the block of the index is missing, it allocates the block and fills the slot under the
write lock, in a second section. Removals take the write lock and may come in between. A
section is a single step here: those under the read lock meet in the `fetch_add` of the
length only, and the write lock excludes all others. -/
namespace MemEtcd

open PartialRun (run)

namespace RawDeque

variable {T : Type} {B : ℕ} [NeZero B]

/-- `latest_revision`. -/
def latest (d : RawDeque T B) : ℕ := d.length + d.startOffset

/-- `push` under the read lock: its index, and whether the element is in its slot. -/
def reserve (d : RawDeque T B) (value : T) : Option (ℕ × Bool × RawDeque T B) := do
  let index := d.length + d.startOffset
  let blockIndex ← d.checkedBlockIndex index
  let offset := offsetOf B index
  let d := { d with length := d.length + 1 }
  if blockIndex < d.blocks.length then
    return (index, true, { d with blocks := writeSlot d.blocks blockIndex offset value })
  else return (index, false, d)

/-- `push` under the write lock. -/
def place (d : RawDeque T B) (index : ℕ) (value : T) : Option (RawDeque T B) := do
  let blockIndex ← d.checkedBlockIndex index
  let blocks := d.blocks ++ List.replicate (blockIndex + 1 - d.blocks.length) emptyBlock
  if blockIndex < blocks.length then
    return { d with blocks := writeSlot blocks blockIndex (offsetOf B index) value }
  else none

/-- The deque with `value` in the slot of `index`, after `m` blocks were added. -/
def written (d : RawDeque T B) (m length index : ℕ) (value : T) : RawDeque T B :=
  ⟨writeSlot (d.blocks ++ List.replicate m emptyBlock) (d.blockIndex index) (offsetOf B index)
    value, d.startOffset, length⟩

/-- The first section never fails. It fills the slot if its block is there. -/
theorem reserve_eq (d : RawDeque T B) (value : T) :
    d.reserve value = some (if d.blockIndex d.latest < d.blocks.length then
        (d.latest, true, d.written 0 (d.length + 1) d.latest value)
      else (d.latest, false, { d with length := d.length + 1 })) := by
  have hblock : d.checkedBlockIndex (d.length + d.startOffset) = some (d.blockIndex d.latest) :=
    checkedSub_of_le (Nat.div_le_div_right (Nat.le_add_left _ _))
  simp only [reserve, hblock, bind, Option.bind]
  split_ifs
  · simp only [written, List.replicate_zero, List.append_nil]
    rfl
  · rfl

/-- The second section fails if the block of its index has been removed. -/
theorem place_eq (d : RawDeque T B) (index : ℕ) (value : T) :
    d.place index value =
      if d.startOffset / B ≤ index / B then
        some (d.written (d.blockIndex index + 1 - d.blocks.length) d.length index value)
      else none := by
  unfold place checkedBlockIndex checkedSub
  split_ifs with h
  · have hlt : index / B - d.startOffset / B < (d.blocks ++ List.replicate
        (index / B - d.startOffset / B + 1 - d.blocks.length)
          (emptyBlock (T := T) (B := B))).length := by
      rw [List.length_append, List.length_replicate]
      omega
    simp only [bind, Option.bind, if_pos hlt]
    rfl
  · rfl

/-- The two sections make up `push`. -/
theorem checkedPush_eq_sections (d : RawDeque T B) (value : T) :
    d.checkedPush value = (d.reserve value).bind (fun r =>
      if r.2.1 then some (r.1, r.2.2) else (r.2.2.place r.1 value).map (fun d => (r.1, d))) := by
  have hle : d.startOffset / B ≤ d.latest / B := Nat.div_le_div_right (Nat.le_add_left _ _)
  rw [checkedPush_eq, reserve_eq, Option.bind_some]
  unfold push
  by_cases h : d.blockIndex d.latest < d.blocks.length
  · simp only [if_pos h, if_true]
    unfold latest at h
    simp only [if_pos h, written, List.replicate_zero, List.append_nil]
    rfl
  · simp only [if_neg h, place_eq, if_pos hle]
    unfold latest at h
    simp only [if_neg h]
    rfl

/-! ### Slots -/

omit [NeZero B] in
theorem mul_allocated (d : RawDeque T B) (index : ℕ) :
    B * d.blockIndex index = B * (index / B) - B * (d.startOffset / B) := Nat.mul_sub _ _ _

theorem slot_written_self (d : RawDeque T B) {m index : ℕ} (length : ℕ) (value : T)
    (hi : d.startOffset / B ≤ index / B) (hb : d.blockIndex index < d.blocks.length + m) :
    (d.written m length index value).slot index = some value := by
  have h := slot_writeSlot (d.blocks ++ List.replicate m emptyBlock) d.startOffset length index
    index value hi hi (by rw [List.length_append, List.length_replicate]; exact hb)
  rw [if_pos rfl] at h
  exact h

/-- A write keeps every other slot that is filled. -/
theorem slot_written_of_ne (d : RawDeque T B) {m index k : ℕ} (length : ℕ) {value v : T}
    (hi : d.startOffset / B ≤ index / B) (hb : d.blockIndex index < d.blocks.length + m)
    (hk : d.startOffset / B ≤ k / B) (hne : k ≠ index) (hv : d.slot k = some v) :
    (d.written m length index value).slot k = some v := by
  have h := slot_writeSlot (d.blocks ++ List.replicate m emptyBlock) d.startOffset length index
    k value hi hk (by rw [List.length_append, List.length_replicate]; exact hb)
  have hlt : d.blockIndex k < d.blocks.length := by
    by_contra hge
    unfold slot at hv
    rw [List.getElem?_eq_none (by omega)] at hv
    cases hv
  rw [if_neg hne] at h
  refine h.trans ?_
  rw [← hv]
  exact grown_slot d m k hlt

/-- Without enough blocks the loop of `remove_before` removes from an empty list. -/
theorem dropBlocks_none {blocks : List (Fin B → Option T)} {i s : ℕ}
    (h : blocks.length < i / B) : dropBlocks blocks i s = none := by
  have hB : 0 < B := Nat.pos_of_ne_zero (NeZero.ne B)
  induction blocks generalizing i s with
  | nil =>
    have hi : B ≤ i := by
      by_contra hlt
      rw [Nat.div_eq_of_lt (by omega)] at h
      exact absurd h (Nat.not_lt_zero _)
    unfold dropBlocks
    rw [if_pos hi]
  | cons b bs ih =>
    have hi : B ≤ i := by
      by_contra hlt
      rw [Nat.div_eq_of_lt (by omega)] at h
      exact absurd h (Nat.not_lt_zero _)
    unfold dropBlocks
    rw [if_pos hi]
    apply ih
    rw [Nat.div_eq_sub_div hB hi] at h
    simp only [List.length_cons] at h
    omega

/-- `remove_before` panics on an index in bounds behind the allocated blocks. -/
theorem removeBefore_unallocated (d : RawDeque T B) {idx : ℕ} (h : d.startOffset ≤ idx)
    (hl : idx ≤ d.startOffset + d.length) (hc : d.allocatedEnd < idx) :
    d.removeBefore idx = none := by
  obtain ⟨hq, hm⟩ := removed_location d idx h
  have hge : d.blocks.length ≤ d.blockIndex idx := by
    by_contra hlt
    rw [not_le, blockIndex_lt_iff d h] at hlt
    unfold allocatedEnd at hc
    omega
  unfold removeBefore
  rw [if_neg (by omega), if_neg (by omega)]
  simp only
  rcases Nat.lt_or_eq_of_le hge with hlt | heq
  · rw [dropBlocks_none (by rw [hq]; exact hlt)]
  · -- all blocks are removed and the rest of the index has none
    have hpos : 0 < idx % B := by
      have hidx := Nat.div_add_mod idx B
      have hmul := d.mul_allocated idx
      have hsub := Nat.mul_le_mul_left B (Nat.div_le_div_right (c := B) h)
      rw [← heq] at hmul
      unfold allocatedEnd at hc
      omega
    rw [dropBlocks_eq _ _ _ (by rw [hq, heq]), hq, hm, ← heq, List.drop_length]
    simp only [if_pos hpos, clearFront]

end RawDeque

/-! ### Threads -/

/-- A push has not begun, has its index but no slot, or has returned. -/
inductive PushPhase where
  | idle
  | reserved (index : ℕ)
  | done (index : ℕ)
  deriving DecidableEq, Repr

inductive DequePanic where
  /-- a block index below zero -/
  | underflow
  /-- `remove(0)` or `first_mut().unwrap()` on an empty block list -/
  | missingBlock
  deriving DecidableEq, Repr

/-- A deque and the pushes on it. A thread that panics under the write lock poisons it, and
all others panic when they take it. -/
structure SharedDeque (T : Type) (B : ℕ) where
  deque : RawDeque T B
  pushes : ℕ → PushPhase
  panicked : Option DequePanic

inductive DequeAction where
  /-- the section of a push under the read lock -/
  | reserve (i : ℕ)
  /-- the section of a push under the write lock -/
  | place (i : ℕ)
  /-- `remove_before` with an index below the latest revision -/
  | remove (idx : ℕ)
  deriving DecidableEq, Repr

namespace SharedDeque

variable {T : Type} {B : ℕ} [NeZero B]

def start (d : BlockDeque T B) : SharedDeque T B := ⟨d.toRawDeque, fun _ => .idle, none⟩

/-- Push `i` pushes the value `values i`. -/
def step (values : ℕ → T) (s : SharedDeque T B) (a : DequeAction) : Option (SharedDeque T B) :=
  if s.panicked.isSome then none
  else match a with
  | .reserve i =>
    match s.pushes i with
    | .idle =>
      match s.deque.reserve (values i) with
      | some (index, true, d) => some { s with
          deque := d, pushes := Function.update s.pushes i (.done index) }
      | some (index, false, d) => some { s with
          deque := d, pushes := Function.update s.pushes i (.reserved index) }
      | none => some { s with panicked := some .underflow }
    | _ => none
  | .place i =>
    match s.pushes i with
    | .reserved index =>
      match s.deque.place index (values i) with
      | some d => some { s with
          deque := d, pushes := Function.update s.pushes i (.done index) }
      | none => some { s with panicked := some .underflow }
    | _ => none
  | .remove idx =>
    if idx < s.deque.latest then
      match s.deque.checkedRemoveBefore idx with
      | some (_, d) => some { s with deque := d }
      | none => some { s with panicked := some .missingBlock }
    else none

inductive Moves (values : ℕ → T) (s : SharedDeque T B) : DequeAction → SharedDeque T B → Prop
  /-- a push fills its slot in a block that is there -/
  | filled {i : ℕ} : s.pushes i = .idle → s.deque.blockIndex s.deque.latest < s.deque.blocks.length →
      Moves values s (.reserve i) { s with
        deque := s.deque.written 0 (s.deque.length + 1) s.deque.latest (values i)
        pushes := Function.update s.pushes i (.done s.deque.latest) }
  /-- a push has its index and waits for a block -/
  | waiting {i : ℕ} : s.pushes i = .idle →
      Moves values s (.reserve i) { s with
        deque := { s.deque with length := s.deque.length + 1 }
        pushes := Function.update s.pushes i (.reserved s.deque.latest) }
  /-- a push fills its slot, in a block that is new if need be -/
  | placed {i index m : ℕ} : s.pushes i = .reserved index →
      s.deque.startOffset / B ≤ index / B →
      s.deque.blockIndex index < s.deque.blocks.length + m →
      Moves values s (.place i) { s with
        deque := s.deque.written m s.deque.length index (values i)
        pushes := Function.update s.pushes i (.done index) }
  /-- the block of a push has been removed -/
  | lost {i index : ℕ} : s.pushes i = .reserved index →
      index / B < s.deque.startOffset / B →
      Moves values s (.place i) { s with panicked := some .underflow }
  /-- a removal of what is removed already -/
  | refused {idx : ℕ} : idx < s.deque.startOffset → Moves values s (.remove idx) s
  | removed {idx : ℕ} : s.deque.startOffset ≤ idx → idx < s.deque.latest →
      idx ≤ s.deque.allocatedEnd →
      Moves values s (.remove idx) { s with
        deque := ⟨s.deque.keptBlocks idx, idx, s.deque.latest - idx⟩ }
  /-- a removal of more than there are blocks -/
  | unallocated {idx : ℕ} : s.deque.startOffset ≤ idx → idx < s.deque.latest →
      s.deque.allocatedEnd < idx →
      Moves values s (.remove idx) { s with panicked := some .missingBlock }

theorem step_moves {values : ℕ → T} {s s' : SharedDeque T B} {a : DequeAction}
    (h : step values s a = some s') : s.panicked = none ∧ Moves values s a s' := by
  unfold step at h
  split_ifs at h with hp
  refine ⟨by simpa using hp, ?_⟩
  cases a with
  | reserve i =>
    cases hi : s.pushes i with
    | idle =>
      by_cases hb : s.deque.blockIndex s.deque.latest < s.deque.blocks.length
      · simp only [hi, RawDeque.reserve_eq, if_pos hb] at h
        cases h
        exact .filled hi hb
      · simp only [hi, RawDeque.reserve_eq, if_neg hb] at h
        cases h
        exact .waiting hi
    | reserved index => simp [hi] at h
    | done index => simp [hi] at h
  | place i =>
    cases hi : s.pushes i with
    | idle => simp [hi] at h
    | reserved index =>
      by_cases hle : s.deque.startOffset / B ≤ index / B
      · simp only [hi, RawDeque.place_eq, if_pos hle] at h
        cases h
        exact .placed hi hle (by omega)
      · simp only [hi, RawDeque.place_eq, if_neg hle] at h
        cases h
        exact .lost hi (by omega)
    | done index => simp [hi] at h
  | remove idx =>
    simp only [RawDeque.checkedRemoveBefore_eq] at h
    split_ifs at h with hlt
    by_cases hstart : s.deque.startOffset ≤ idx
    · have hle : idx ≤ s.deque.startOffset + s.deque.length := by
        unfold RawDeque.latest at hlt
        omega
      by_cases hc : idx ≤ s.deque.allocatedEnd
      · rw [RawDeque.removeBefore_allocated _ hstart hle hc] at h
        cases h
        rw [Nat.add_comm]
        exact .removed hstart hlt hc
      · rw [RawDeque.removeBefore_unallocated _ hstart hle (by omega)] at h
        cases h
        exact .unallocated hstart hlt (by omega)
    · have hrefused : s.deque.removeBefore idx = some (.error (), s.deque) := by
        unfold RawDeque.removeBefore
        unfold RawDeque.latest at hlt
        rw [if_neg (by omega), if_pos (by omega)]
      rw [hrefused] at h
      cases h
      exact .refused (by omega)

/-! ### The indexes of the pushes -/

/-- Push `i` has got the index `k`. -/
def HasIndex (s : SharedDeque T B) (i k : ℕ) : Prop :=
  s.pushes i = .reserved k ∨ s.pushes i = .done k

/-- The pushes share out the indexes from `first` to the latest revision. -/
structure Numbered (first : ℕ) (s : SharedDeque T B) : Prop where
  le : first ≤ s.deque.latest
  bounds : ∀ i k, s.HasIndex i k → first ≤ k ∧ k < s.deque.latest
  distinct : ∀ i j k, s.HasIndex i k → s.HasIndex j k → i = j
  taken : ∀ k, first ≤ k → k < s.deque.latest → ∃ i, s.HasIndex i k

omit [NeZero B] in
theorem Numbered.congr {first : ℕ} {s s' : SharedDeque T B} (h : Numbered first s)
    (hl : s'.deque.latest = s.deque.latest) (hi : ∀ i k, s'.HasIndex i k ↔ s.HasIndex i k) :
    Numbered first s' := by
  refine ⟨?_, ?_, ?_, ?_⟩
  · rw [hl]
    exact h.le
  · intro i k hk
    rw [hl]
    exact h.bounds i k ((hi i k).mp hk)
  · intro i j k hk hk'
    exact h.distinct i j k ((hi i k).mp hk) ((hi j k).mp hk')
  · intro k hf hk
    rw [hl] at hk
    obtain ⟨i, hik⟩ := h.taken k hf hk
    exact ⟨i, (hi i k).mpr hik⟩

omit [NeZero B] in
/-- A new push gets the next index. -/
theorem Numbered.reserve {first : ℕ} {s s' : SharedDeque T B} (h : Numbered first s) {i : ℕ}
    (hl : s'.deque.latest = s.deque.latest + 1)
    (hi : ∀ j k, s'.HasIndex j k ↔ j = i ∧ k = s.deque.latest ∨ s.HasIndex j k) :
    Numbered first s' := by
  have hle := h.le
  refine ⟨by omega, ?_, ?_, ?_⟩
  · intro j k hk
    rcases (hi j k).mp hk with ⟨_, rfl⟩ | hk
    · omega
    · have hb := h.bounds j k hk
      omega
  · intro j j' k hk hk'
    rcases (hi j k).mp hk with ⟨rfl, rfl⟩ | hk
    · rcases (hi j' _).mp hk' with ⟨rfl, _⟩ | hk'
      · rfl
      · exact absurd (h.bounds j' _ hk').2 (lt_irrefl _)
    · rcases (hi j' k).mp hk' with ⟨_, rfl⟩ | hk'
      · exact absurd (h.bounds j _ hk).2 (lt_irrefl _)
      · exact h.distinct j j' k hk hk'
  · intro k hf hk
    by_cases hlast : k = s.deque.latest
    · exact ⟨i, (hi i k).mpr (Or.inl ⟨rfl, hlast⟩)⟩
    · obtain ⟨j, hj⟩ := h.taken k hf (by omega)
      exact ⟨j, (hi j k).mpr (Or.inr hj)⟩

omit [NeZero B] in
/-- The indexes after the phase of push `i` has changed. -/
theorem hasIndex_update {s s' : SharedDeque T B} {i : ℕ} {phase : PushPhase}
    (hs : s'.pushes = Function.update s.pushes i phase) (j k : ℕ) :
    s'.HasIndex j k ↔
      j = i ∧ (phase = .reserved k ∨ phase = .done k) ∨ j ≠ i ∧ s.HasIndex j k := by
  unfold HasIndex
  rw [hs]
  by_cases hj : j = i
  · subst hj
    rw [Function.update_self]
    simp
  · rw [Function.update_of_ne hj]
    simp [hj]

omit [NeZero B] in
theorem hasIndex_of_idle {s s' : SharedDeque T B} {i n : ℕ} (hi : s.pushes i = .idle)
    {phase : PushPhase} (hp : phase = .reserved n ∨ phase = .done n)
    (hs : s'.pushes = Function.update s.pushes i phase) (j k : ℕ) :
    s'.HasIndex j k ↔ j = i ∧ k = n ∨ s.HasIndex j k := by
  have hphase : (phase = .reserved k ∨ phase = .done k) ↔ k = n := by
    rcases hp with rfl | rfl <;> simp [eq_comm]
  have hnone : ¬s.HasIndex i k := by
    unfold HasIndex
    rw [hi]
    simp
  rw [hasIndex_update hs, hphase]
  by_cases hj : j = i
  · subst hj
    simp [hnone]
  · simp [hj]

omit [NeZero B] in
theorem hasIndex_of_reserved {s s' : SharedDeque T B} {i n : ℕ}
    (hi : s.pushes i = .reserved n) (hs : s'.pushes = Function.update s.pushes i (.done n))
    (j k : ℕ) : s'.HasIndex j k ↔ s.HasIndex j k := by
  rw [hasIndex_update hs]
  by_cases hj : j = i
  · subst hj
    unfold HasIndex
    rw [hi]
    simp
  · simp [hj]

/-! ### What the slots hold -/

/-- Index `k` has the value `v`: it was in the deque `d` from which the run has begun, or
the push that got it has returned. -/
def Holds (d : BlockDeque T B) (values : ℕ → T) (s : SharedDeque T B) (k : ℕ) (v : T) : Prop :=
  d.at? k = some v ∨ ∃ i, s.pushes i = .done k ∧ values i = v

structure Orderly (d : BlockDeque T B) (values : ℕ → T) (s : SharedDeque T B) : Prop where
  calm : s.panicked = none
  later : d.earliestRevision ≤ s.deque.startOffset
  numbered : Numbered d.latestRevision s
  reach : ∀ i k, s.pushes i = .reserved k → s.deque.startOffset / B ≤ k / B
  held : ∀ k v, s.Holds d values k v → s.deque.startOffset ≤ k → s.deque.slot k = some v

/-- A removal finds the blocks that it removes and clears, and no push waits for one of
them. -/
def Safe (s : SharedDeque T B) : DequeAction → Prop
  | .remove idx => s.deque.startOffset ≤ idx → idx ≤ s.deque.allocatedEnd ∧
      ∀ i k, s.pushes i = .reserved k → idx / B ≤ k / B
  | _ => True

theorem at?_lt {d : BlockDeque T B} {k : ℕ} {v : T} (h : d.at? k = some v) :
    k < d.latestRevision := by
  unfold BlockDeque.at? at h
  unfold BlockDeque.latestRevision
  split_ifs at h with hk
  omega

theorem start_orderly (d : BlockDeque T B) (values : ℕ → T) : Orderly d values (start d) := by
  have hnone (i k : ℕ) : ¬(start d).HasIndex i k := by
    unfold HasIndex start
    simp
  refine ⟨rfl, le_refl _, ⟨le_refl _, ?_, ?_, ?_⟩, ?_, ?_⟩
  · intro i k hk
    exact absurd hk (hnone i k)
  · intro i j k hk
    exact absurd hk (hnone i k)
  · intro k hf hk
    exact absurd hk (Nat.not_lt.mpr hf)
  · intro i k hk
    cases hk
  · rintro k v (hv | ⟨i, hi, _⟩) hk
    · unfold BlockDeque.at? at hv
      split_ifs at hv
      exact hv
    · cases hi

omit [NeZero B] in
/-- A phase after one push has moved on is that push's new phase, or another's old one. -/
theorem phase_of_update {s : SharedDeque T B} {i j : ℕ} {phase p : PushPhase}
    (h : Function.update s.pushes i phase j = p) :
    j = i ∧ phase = p ∨ j ≠ i ∧ s.pushes j = p := by
  by_cases hj : j = i
  · rw [hj, Function.update_self] at h
    exact Or.inl ⟨hj, h⟩
  · rw [Function.update_of_ne hj] at h
    exact Or.inr ⟨hj, h⟩

/-- Push `i` fills the slot of its index; no other value is at stake. -/
theorem Orderly.held_written {d : BlockDeque T B} {values : ℕ → T} {s : SharedDeque T B}
    (h : Orderly d values s) {i index m length : ℕ} (hi : s.deque.startOffset / B ≤ index / B)
    (hb : s.deque.blockIndex index < s.deque.blocks.length + m)
    (hother : ∀ j, j ≠ i → s.pushes j ≠ .done index) (hfirst : d.latestRevision ≤ index)
    {k : ℕ} {v : T} (hk : s.deque.startOffset ≤ k)
    (hv : d.at? k = some v ∨
      ∃ j, Function.update s.pushes i (.done index) j = .done k ∧ values j = v) :
    (s.deque.written m length index (values i)).slot k = some v := by
  have hkb : s.deque.startOffset / B ≤ k / B := Nat.div_le_div_right hk
  have hold (hne : k ≠ index) (hv : s.Holds d values k v) :
      (s.deque.written m length index (values i)).slot k = some v :=
    s.deque.slot_written_of_ne length hi hb hkb hne (h.held k v hv hk)
  rcases hv with hv | ⟨j, hj, rfl⟩
  · have hlt := at?_lt hv
    exact hold (by omega) (Or.inl hv)
  · rcases phase_of_update hj with ⟨rfl, hp⟩ | ⟨hji, hp⟩
    · cases hp
      exact s.deque.slot_written_self length _ hi hb
    · refine hold ?_ (Or.inr ⟨j, hp, rfl⟩)
      rintro rfl
      exact hother j hji hp

omit [NeZero B] in
/-- A push that waits after another one has returned was waiting before. -/
theorem reserved_of_update_done {s : SharedDeque T B} {i n j k : ℕ}
    (h : Function.update s.pushes i (.done n) j = .reserved k) : s.pushes j = .reserved k := by
  rcases phase_of_update h with ⟨_, hp⟩ | ⟨_, hp⟩
  · cases hp
  · exact hp

/-- A step keeps order, a removal under its condition. -/
theorem Moves.orderly {d : BlockDeque T B} {values : ℕ → T} {s s' : SharedDeque T B}
    {a : DequeAction} (hm : Moves values s a s') (h : Orderly d values s) (hsafe : s.Safe a) :
    Orderly d values s' := by
  have hle : s.deque.startOffset / B ≤ s.deque.latest / B :=
    Nat.div_le_div_right (Nat.le_add_left _ _)
  have hnext : s.deque.length + 1 + s.deque.startOffset = s.deque.latest + 1 := by
    unfold RawDeque.latest
    omega
  cases hm with
  | @filled i hi hb =>
    refine ⟨h.calm, h.later, ?_, ?_, ?_⟩
    · exact h.numbered.reserve hnext (hasIndex_of_idle hi (Or.inr rfl) rfl)
    · intro j k hj
      exact h.reach j k (reserved_of_update_done hj)
    · -- the index is new, so that no push has returned with it
      intro k v hv hk
      refine h.held_written hle hb ?_ h.numbered.le hk hv
      intro j _ hj
      exact absurd (h.numbered.bounds j _ (Or.inr hj)).2 (lt_irrefl _)
  | @waiting i hi =>
    refine ⟨h.calm, h.later, ?_, ?_, ?_⟩
    · exact h.numbered.reserve hnext (hasIndex_of_idle hi (Or.inl rfl) rfl)
    · intro j k hj
      rcases phase_of_update hj with ⟨_, hp⟩ | ⟨_, hp⟩
      · cases hp
        exact hle
      · exact h.reach j k hp
    · rintro k v (hv | ⟨j, hj, rfl⟩) hk
      · exact h.held k v (Or.inl hv) hk
      · rcases phase_of_update hj with ⟨_, hp⟩ | ⟨_, hp⟩
        · cases hp
        · exact h.held k _ (Or.inr ⟨j, hp, rfl⟩) hk
  | @placed i index m hi hreach hb =>
    refine ⟨h.calm, h.later, ?_, ?_, ?_⟩
    · exact h.numbered.congr rfl (hasIndex_of_reserved hi rfl)
    · intro j k hj
      exact h.reach j k (reserved_of_update_done hj)
    · -- two pushes do not have one index
      intro k v hv hk
      refine h.held_written hreach hb ?_ (h.numbered.bounds i index (Or.inl hi)).1 hk hv
      intro j hji hj
      exact hji (h.numbered.distinct j i index (Or.inr hj) (Or.inl hi))
  | @lost i index hi hlost => exact absurd (h.reach i index hi) (by omega)
  | refused _ => exact h
  | @removed idx hstart hlt hc =>
    obtain ⟨_, hwait⟩ := hsafe hstart
    refine ⟨h.calm, h.later.trans hstart, ?_, hwait, ?_⟩
    · apply h.numbered.congr
      · change s.deque.latest - idx + idx = s.deque.latest
        omega
      · intro i k
        rfl
    · intro k v hv hk
      exact (RawDeque.removeBefore_slot s.deque idx _ k hstart hk).trans
        (h.held k v hv (hstart.trans hk))
  | unallocated hstart _ hc => exact absurd (hsafe hstart).1 (by omega)

/-- When no push waits, every index that is not removed holds its value. -/
theorem Orderly.contents {d : BlockDeque T B} {values : ℕ → T} {s : SharedDeque T B}
    (h : Orderly d values s) (hquiet : ∀ i k, s.pushes i ≠ .reserved k) {k : ℕ}
    (hk : s.deque.startOffset ≤ k) (hl : k < s.deque.latest) :
    ∃ v, s.Holds d values k v ∧ s.deque.slot k = some v := by
  have hholds : ∃ v, s.Holds d values k v := by
    by_cases hfirst : k < d.latestRevision
    · have hlater := h.later
      unfold BlockDeque.latestRevision at hfirst
      unfold BlockDeque.earliestRevision at hlater
      have hin : d.startOffset ≤ k ∧ k < d.startOffset + d.length := by omega
      obtain ⟨v, hv⟩ := Option.isSome_iff_exists.mp (d.wf.filled k hin.1 hin.2)
      refine ⟨v, Or.inl ?_⟩
      unfold BlockDeque.at?
      rw [if_pos hin]
      exact hv
    · obtain ⟨i, hi⟩ := h.numbered.taken k (by omega) hl
      exact ⟨values i, Or.inr ⟨i, hi.resolve_left (hquiet i k), rfl⟩⟩
  obtain ⟨v, hv⟩ := hholds
  exact ⟨v, hv, h.held k v hv hk⟩

/-! ### Whole runs -/

theorem le_allocatedEnd_of_slot {d : RawDeque T B} {k : ℕ} {v : T} (hk : d.startOffset ≤ k)
    (h : d.slot k = some v) : k ≤ d.allocatedEnd := by
  obtain ⟨b, hb, _⟩ := Option.bind_eq_some_iff.mp h
  obtain ⟨hlt, _⟩ := List.getElem?_eq_some_iff.mp hb
  have hblock : k / B < d.startOffset / B + d.blocks.length := by
    have hle : d.startOffset / B ≤ k / B := Nat.div_le_div_right hk
    unfold RawDeque.blockIndex at hlt
    omega
  rw [Nat.div_lt_iff_lt_mul (Nat.pos_of_ne_zero (NeZero.ne B)), Nat.add_mul] at hblock
  unfold RawDeque.allocatedEnd
  rw [Nat.mul_comm B, Nat.mul_comm B]
  exact hblock.le

/-- A push waits that has panicked beside another thread, or will panic since its block is
gone. -/
def Doomed (s : SharedDeque T B) : Prop :=
  ∃ i k, s.pushes i = .reserved k ∧ (s.panicked.isSome ∨ k / B < s.deque.startOffset / B)

theorem Moves.doomed {values : ℕ → T} {s s' : SharedDeque T B} {a : DequeAction}
    (hm : Moves values s a s') (hcalm : s.panicked = none) (h : s.Doomed) : s'.Doomed := by
  obtain ⟨i, k, hi, hk⟩ := h
  have hk : k / B < s.deque.startOffset / B := by
    rw [hcalm] at hk
    exact hk.resolve_left nofun
  have hkeep {j : ℕ} {phase : PushPhase} (hj : s.pushes j ≠ s.pushes i) :
      Function.update s.pushes j phase i = .reserved k := by
    rw [Function.update_of_ne (fun he => hj (by rw [he])), hi]
  cases hm with
  | filled hj _ => exact ⟨i, k, hkeep (by rw [hj, hi]; nofun), Or.inr hk⟩
  | waiting hj => exact ⟨i, k, hkeep (by rw [hj, hi]; nofun), Or.inr hk⟩
  | @placed j index m hj hreach _ =>
    refine ⟨i, k, hkeep ?_, Or.inr hk⟩
    rw [hj, hi]
    rintro ⟨⟩
    omega
  | lost _ _ => exact ⟨i, k, hi, Or.inl rfl⟩
  | refused _ => exact ⟨i, k, hi, Or.inr hk⟩
  | removed hstart _ _ =>
    exact ⟨i, k, hi, Or.inr (hk.trans_le (Nat.div_le_div_right hstart))⟩
  | unallocated _ _ _ => exact ⟨i, k, hi, Or.inl rfl⟩

/-- A removal without its condition panics beside a push that waits, or dooms one. -/
theorem Moves.doomed_of_not_safe {d : BlockDeque T B} {values : ℕ → T} {s s' : SharedDeque T B}
    {a : DequeAction} (hm : Moves values s a s') (ho : Orderly d values s) (h : ¬s.Safe a) :
    s'.Doomed := by
  cases hm with
  | refused hlt => exact absurd (fun hle => absurd hle (by omega)) h
  | @removed idx hstart hlt hc =>
    have hsome : ∃ i k, s.pushes i = .reserved k ∧ k / B < idx / B := by
      by_contra hnone
      apply h
      intro _
      refine ⟨hc, ?_⟩
      intro i k hi
      by_contra hgt
      exact hnone ⟨i, k, hi, by omega⟩
    obtain ⟨i, k, hi, hk⟩ := hsome
    exact ⟨i, k, hi, Or.inr hk⟩
  | unallocated hstart hlt hend =>
    -- an index whose push has returned has a block
    have hsome : ∃ i k, s.pushes i = .reserved k := by
      by_contra hnone
      obtain ⟨v, _, hslot⟩ := ho.contents (fun i k hi => hnone ⟨i, k, hi⟩) hstart hlt
      exact absurd (le_allocatedEnd_of_slot hstart hslot) (by omega)
    obtain ⟨i, k, hi⟩ := hsome
    exact ⟨i, k, hi, Or.inl rfl⟩
  | _ => exact absurd trivial h

def SafeRun (values : ℕ → T) (s : SharedDeque T B) (actions : List DequeAction) : Prop :=
  ∀ past a rest mid, actions = past ++ a :: rest → run (step values) s past = some mid → mid.Safe a

theorem run_doomed {values : ℕ → T} {s s' : SharedDeque T B} {actions : List DequeAction}
    (h : s.Doomed) (hrun : run (step values) s actions = some s') : s'.Doomed := by
  apply PartialRun.run_induct _ h hrun
  intro s s' a hs hstep
  obtain ⟨hcalm, hm⟩ := step_moves hstep
  exact hm.doomed hcalm hs

theorem run_orderly {d : BlockDeque T B} {values : ℕ → T} {s : SharedDeque T B}
    {actions : List DequeAction} (hsafe : SafeRun values (start d) actions)
    (hrun : run (step values) (start d) actions = some s) : Orderly d values s := by
  apply PartialRun.run_induct_of _ (start_orderly d values) hsafe hrun
  intro s s' a hs ha hstep
  exact (step_moves hstep).2.orderly hs ha

theorem run_orderly_or_doomed {d : BlockDeque T B} {values : ℕ → T} {s : SharedDeque T B}
    {actions : List DequeAction} (hrun : run (step values) (start d) actions = some s) :
    Orderly d values s ∨ s.Doomed := by
  have hstart : Orderly d values (start d) ∨ (start d).Doomed := Or.inl (start_orderly d values)
  refine PartialRun.run_induct (P := fun s => Orderly d values s ∨ s.Doomed) ?_ hstart hrun
  intro s s' a hs hstep
  obtain ⟨hcalm, hm⟩ := step_moves hstep
  rcases hs with ho | hd
  · by_cases hsafe : s.Safe a
    · exact Or.inl (hm.orderly ho hsafe)
    · exact Or.inr (hm.doomed_of_not_safe ho hsafe)
  · exact Or.inr (hm.doomed hcalm hd)

/-- After a removal without its condition a push waits that has panicked or will. -/
theorem safeRun_of_not_doomed {d : BlockDeque T B} {values : ℕ → T} {s : SharedDeque T B}
    {actions : List DequeAction} (hrun : run (step values) (start d) actions = some s)
    (h : ¬s.Doomed) : SafeRun values (start d) actions := by
  intro past a rest mid hsplit hmid
  by_contra hnot
  rw [hsplit] at hrun
  obtain ⟨mid', hmid', hrest⟩ := PartialRun.run_next hmid hrun
  obtain ⟨hcalm, hm⟩ := step_moves hmid'
  rcases run_orderly_or_doomed hmid with ho | hd
  · exact h (run_doomed (hm.doomed_of_not_safe ho hnot) hrest)
  · exact h (run_doomed (hm.doomed hcalm hd) hrest)

/-- Pushes that go on do not make a run unsafe. -/
theorem SafeRun.append_place {values : ℕ → T} {s : SharedDeque T B} {actions : List DequeAction}
    (h : SafeRun values s actions) (waiting : List ℕ) :
    SafeRun values s (actions ++ waiting.map .place) := by
  intro past a rest mid hsplit hmid
  rcases List.append_eq_append_iff.mp hsplit with ⟨more, _, hmore⟩ | ⟨more, hactions, hmore⟩
  · have ha : a ∈ waiting.map DequeAction.place := by
      rw [hmore]
      simp
    obtain ⟨i, _, rfl⟩ := List.mem_map.mp ha
    trivial
  · cases more with
    | nil =>
      have ha : a ∈ waiting.map DequeAction.place := by
        rw [List.nil_append] at hmore
        rw [← hmore]
        exact List.mem_cons_self
      obtain ⟨i, _, rfl⟩ := List.mem_map.mp ha
      trivial
    | cons b more =>
      obtain ⟨rfl, -⟩ := List.cons.inj hmore
      exact h past a more mid hactions hmid

/-- Any interleaving of pushes and removals, on any deque and with any block size. Every
removal finds the blocks up to its index, and no push that waits for a block before it, exactly
if no thread has panicked and none of the pushes that wait panics when it goes on. Once all
pushes have returned, that is so, and every index from the start offset to the latest revision
holds its value. -/
theorem pushes_and_removals_iff (d : BlockDeque T B) (values : ℕ → T)
    {actions : List DequeAction} {s : SharedDeque T B}
    (hrun : run (step values) (start d) actions = some s) :
    (SafeRun values (start d) actions ↔ ∀ (waiting : List ℕ) s',
      run (step values) s (waiting.map .place) = some s' → s'.panicked = none) ∧
    ((∀ i k, s.pushes i ≠ .reserved k) →
      SafeRun values (start d) actions ∧ s.panicked = none ∧
        ∀ k, s.deque.startOffset ≤ k → k < s.deque.latest →
          (∃ v, s.Holds d values k v) ∧ ∀ v, s.Holds d values k v → s.deque.slot k = some v) := by
  refine ⟨⟨?_, ?_⟩, ?_⟩
  · intro hsafe waiting s' hmore
    refine (@run_orderly _ _ _ d values s' _ (hsafe.append_place waiting) ?_).calm
    rw [PartialRun.run_append, hrun]
    exact hmore
  · intro hcalm
    have hnow : s.panicked = none := hcalm [] s rfl
    apply safeRun_of_not_doomed hrun
    rintro ⟨i, k, hi, hk⟩
    rw [hnow] at hk
    have hlost : ¬s.deque.startOffset / B ≤ k / B := not_le.mpr (hk.resolve_left nofun)
    have hstep : run (step values) s ([i].map .place) =
        some { s with panicked := some .underflow } := by
      simp [run, step, hnow, hi, RawDeque.place_eq, if_neg hlost]
    exact nomatch hcalm [i] _ hstep
  · intro hquiet
    have hsafe : SafeRun values (start d) actions :=
      safeRun_of_not_doomed hrun (fun ⟨i, k, hi, _⟩ => hquiet i k hi)
    have ho := run_orderly hsafe hrun
    refine ⟨hsafe, ho.calm, ?_⟩
    intro k hk hl
    obtain ⟨v, hv, _⟩ := ho.contents hquiet hk hl
    exact ⟨⟨v, hv⟩, fun w hw => ho.held k w hw hk⟩

def removedTrace : List DequeAction :=
  [.reserve 0, .place 0, .reserve 1, .reserve 2, .remove 1, .place 2]

theorem removal_after_push :
    ∃ s, run (step id) (start (BlockDeque.new : BlockDeque ℕ 2)) removedTrace = some s ∧
      s.deque.startOffset = 1 ∧ s.deque.latest = 3 ∧ s.panicked = none ∧
      SafeRun id (start (BlockDeque.new : BlockDeque ℕ 2)) removedTrace ∧
      s.deque.slot 1 = some 1 ∧ s.deque.slot 2 = some 2 := by
  have hrun : run (step id) (start (BlockDeque.new : BlockDeque ℕ 2)) removedTrace = some _ := rfl
  obtain ⟨hsafe, hcalm, hheld⟩ := (pushes_and_removals_iff BlockDeque.new id hrun).2 (by
    intro i k
    match i with
    | 0 => nofun
    | 1 => nofun
    | 2 => nofun
    | _ + 3 => nofun)
  exact ⟨_, hrun, rfl, rfl, hcalm, hsafe,
    (hheld 1 (by decide) (by decide)).2 1 (Or.inr ⟨1, rfl, rfl⟩),
    (hheld 2 (by decide) (by decide)).2 2 (Or.inr ⟨2, rfl, rfl⟩)⟩

/-- Two first pushes of the store's array, with blocks of 2^20, and a removal before
either of them has allocated the block; and two pushes with blocks of one, the second of
which allocates the block of the first before that is removed. -/
theorem removal_before_push_panics :
    (run (step id) (start (BlockDeque.new : BlockDeque ℕ 1048576))
        [.reserve 0, .reserve 1, .remove 1]).map (·.panicked) = some (some .missingBlock) ∧
    (run (step id) (start (BlockDeque.new : BlockDeque ℕ 1))
        [.reserve 0, .reserve 1, .place 1, .remove 1, .place 0]).map (·.panicked) =
      some (some .underflow) := by
  refine ⟨?_, ?_⟩ <;> decide

end SharedDeque
end MemEtcd
