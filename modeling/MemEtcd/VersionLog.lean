import Mathlib.Data.List.DropRight
import Mathlib.Tactic

/-! Multi-version cells over a log of changes. The log assigns revision `n+1`
to its change number `n`; a change with no value deletes its key. Everything a
reader at a past revision may see is determined by a prefix of the log. -/
namespace VersionLog

variable {K V : Type*}

/-- What a key holds: its value, the revision of its last change, the revision
that created it and the number of changes since. -/
structure Cell (V : Type*) where
  createRevision : ℤ
  modRevision : ℤ
  version : ℤ
  value : Option V
  deriving DecidableEq, Repr

def Cell.blank : Cell V := ⟨0, 0, 0, none⟩

/-- A change at revision `rev`. A key without a value is created anew. -/
def Cell.next (c : Cell V) (rev : ℤ) (v : Option V) : Cell V :=
  match c.value with
  | some _ => ⟨c.createRevision, rev, c.version + 1, v⟩
  | none => ⟨rev, rev, 1, v⟩

def Cell.live (c : Cell V) : Option (Cell V) := if c.value.isSome then some c else none

@[simp] theorem Cell.live_blank : (Cell.blank : Cell V).live = none := rfl

theorem Cell.live_of_isSome {c : Cell V} (h : c.value.isSome) : c.live = some c := if_pos h

theorem Cell.live_of_isNone {c : Cell V} (h : c.value = none) : c.live = none := by
  simp [live, h]

theorem Cell.live_eq_some_iff {c v : Cell V} : c.live = some v ↔ c = v ∧ c.value.isSome := by
  unfold live
  split_ifs with h
  · simp [h]
  · simp [h]

theorem Cell.live_isSome (c : Cell V) : c.live.isSome = c.value.isSome := by
  unfold live
  split_ifs with h
  · rw [h]
    rfl
  · simpa using h

@[simp] theorem Cell.next_modRevision (c : Cell V) (rev : ℤ) (v : Option V) :
    (c.next rev v).modRevision = rev := by
  unfold next
  split <;> rfl

@[simp] theorem Cell.next_value (c : Cell V) (rev : ℤ) (v : Option V) :
    (c.next rev v).value = v := by
  unfold next
  split <;> rfl

theorem Cell.next_version_pos {c : Cell V} (h : 0 ≤ c.version) (rev : ℤ) (v : Option V) :
    0 < (c.next rev v).version := by
  unfold next
  split
  · change 0 < c.version + 1
    omega
  · exact Int.one_pos

abbrev Log (K V : Type*) := List (K × Option V)

variable [DecidableEq K]

def advance (st : ℕ × (K → Cell V)) (c : K × Option V) : ℕ × (K → Cell V) :=
  (st.1 + 1, Function.update st.2 c.1 ((st.2 c.1).next (st.1 + 1) c.2))

def cells (log : Log K V) : K → Cell V := (log.foldl advance (0, fun _ => Cell.blank)).2

def revisionsOf (log : Log K V) (k : K) : List ℤ :=
  (log.zipIdx 1).filterMap (fun c => if c.1.1 = k then some (c.2 : ℤ) else none)

theorem foldl_advance_fst (log : Log K V) (st : ℕ × (K → Cell V)) :
    (log.foldl advance st).1 = st.1 + log.length := by
  induction log generalizing st with
  | nil => rfl
  | cons c log ih =>
    rw [List.foldl_cons, ih]
    simp only [advance, List.length_cons]
    omega

@[simp] theorem cells_nil (k : K) : cells ([] : Log K V) k = Cell.blank := rfl

theorem cells_append (log : Log K V) (c : K × Option V) (k : K) :
    cells (log ++ [c]) k =
      if k = c.1 then (cells log k).next (log.length + 1) c.2 else cells log k := by
  have hl : (log.foldl advance (0, fun _ => (Cell.blank : Cell V))).1 = log.length := by
    rw [foldl_advance_fst, Nat.zero_add]
  unfold cells
  rw [List.foldl_append, List.foldl_cons, List.foldl_nil]
  simp only [advance, Function.update_apply, hl]
  split_ifs with h
  · rw [h]
  · rfl

@[simp] theorem revisionsOf_nil (k : K) : revisionsOf ([] : Log K V) k = [] := rfl

theorem revisionsOf_append (log : Log K V) (c : K × Option V) (k : K) :
    revisionsOf (log ++ [c]) k =
      if k = c.1 then revisionsOf log k ++ [(log.length + 1 : ℤ)] else revisionsOf log k := by
  unfold revisionsOf
  rw [List.zipIdx_append, List.filterMap_append]
  by_cases h : k = c.1
  · subst h
    simp [add_comm]
  · simp [h, Ne.symm h]

/-- Every revision of a key is the number of a change of that key. -/
theorem mem_revisionsOf {log : Log K V} {k : K} {r : ℤ} :
    r ∈ revisionsOf log k ↔ ∃ n : ℕ, r = n + 1 ∧ ∃ v, log[n]? = some (k, v) := by
  unfold revisionsOf
  simp only [List.mem_filterMap, Prod.exists, List.mk_mem_zipIdx_iff_le_and_getElem?_sub]
  constructor
  · rintro ⟨k', v, i, ⟨hi, hg⟩, he⟩
    split_ifs at he with hk
    refine ⟨i - 1, ?_, v, ?_⟩
    · have := Option.some.inj he
      omega
    · rw [hg, ← hk]
  · rintro ⟨n, rfl, v, hg⟩
    refine ⟨k, v, n + 1, ⟨by omega, by simpa using hg⟩, ?_⟩
    simp

theorem revisionsOf_bounds {log : Log K V} {k : K} {r : ℤ} (h : r ∈ revisionsOf log k) :
    1 ≤ r ∧ r ≤ log.length := by
  obtain ⟨n, rfl, v, hg⟩ := mem_revisionsOf.mp h
  have hn : n < log.length := (List.getElem?_eq_some_iff.mp hg).1
  omega

theorem revisionsOf_sorted (log : Log K V) (k : K) : (revisionsOf log k).Pairwise (· < ·) := by
  induction log using List.reverseRecOn with
  | nil => exact List.Pairwise.nil
  | append_singleton log c ih =>
    rw [revisionsOf_append]
    split_ifs
    · refine List.pairwise_append.mpr ⟨ih, List.pairwise_singleton _ _, ?_⟩
      intro r hr m hm
      have hb := revisionsOf_bounds hr
      rw [List.mem_singleton.mp hm]
      omega
    · exact ih

/-- The last change of a key is recorded in its cell. -/
theorem getLast?_revisionsOf (log : Log K V) (k : K) :
    (revisionsOf log k).getLast? =
      if (cells log k).modRevision = 0 then none else some (cells log k).modRevision := by
  induction log using List.reverseRecOn with
  | nil => rfl
  | append_singleton log c ih =>
    rw [revisionsOf_append, cells_append]
    split_ifs with hk hz hz
    · rw [Cell.next_modRevision] at hz
      omega
    · rw [List.getLast?_append, Cell.next_modRevision]
      rfl
    · rw [ih, if_pos hz]
    · rw [ih, if_neg hz]

/-- A key with a change has a revision. -/
theorem modRevision_ne_zero {log : Log K V} {k : K} {v : Option V} (h : (k, v) ∈ log) :
    (cells log k).modRevision ≠ 0 := by
  intro hzero
  obtain ⟨n, hg⟩ := List.mem_iff_getElem?.mp h
  have hrev : ((n : ℤ) + 1) ∈ revisionsOf log k := mem_revisionsOf.mpr ⟨n, rfl, v, hg⟩
  have hlast := getLast?_revisionsOf log k
  rw [if_pos hzero, List.getLast?_eq_none_iff] at hlast
  rw [hlast] at hrev
  contradiction

theorem modRevision_bounds (log : Log K V) (k : K) :
    0 ≤ (cells log k).modRevision ∧ (cells log k).modRevision ≤ log.length := by
  have h := getLast?_revisionsOf log k
  by_cases hz : (cells log k).modRevision = 0
  · omega
  · rw [if_neg hz] at h
    have hb := revisionsOf_bounds (List.mem_of_getLast? h)
    omega

theorem modRevision_injective (log : Log K V) {k k' : K} (h : 0 < (cells log k).modRevision)
    (heq : (cells log k).modRevision = (cells log k').modRevision) : k = k' := by
  have hmem : ∀ {j : K}, 0 < (cells log j).modRevision →
      (cells log j).modRevision ∈ revisionsOf log j := by
    intro j hj
    apply List.mem_of_getLast?
    rw [getLast?_revisionsOf, if_neg (by omega)]
  obtain ⟨n, hn, v, hv⟩ := mem_revisionsOf.mp (hmem h)
  obtain ⟨n', hn', v', hv'⟩ := mem_revisionsOf.mp (hmem (heq ▸ h))
  have : n = n' := by omega
  rw [← this, hv] at hv'
  exact congrArg Prod.fst (Option.some.inj hv')

/-- A key that was never changed holds the blank cell. -/
theorem cells_of_modRevision_zero (log : Log K V) (k : K) (h : (cells log k).modRevision = 0) :
    cells log k = Cell.blank := by
  induction log using List.reverseRecOn with
  | nil => rfl
  | append_singleton log c ih =>
    rw [cells_append] at h ⊢
    split_ifs at h ⊢ with hk
    · rw [Cell.next_modRevision] at h
      omega
    · exact ih h

/-- The revisions of a prefix of the log are the small revisions. -/
theorem revisionsOf_take (log : Log K V) (k : K) (n : ℕ) :
    revisionsOf (log.take n) k = (revisionsOf log k).filter (· ≤ (n : ℤ)) := by
  induction log using List.reverseRecOn with
  | nil => simp
  | append_singleton log c ih =>
    by_cases hn : n ≤ log.length
    · rw [List.take_append_of_le_length hn, ih, revisionsOf_append]
      split_ifs with hk
      · rw [List.filter_append]
        have hf : ¬((log.length : ℤ) + 1 ≤ n) := by omega
        simp [hf]
      · rfl
    · rw [List.take_of_length_le (by simp only [List.length_append, List.length_singleton]; omega)]
      symm
      apply List.filter_eq_self.mpr
      intro r hr
      have hb := revisionsOf_bounds hr
      rw [List.length_append, List.length_singleton] at hb
      exact decide_eq_true (by omega)

/-- The cell of a key right after one of its changes. -/
theorem cells_take_succ {log : Log K V} {k : K} {v : Option V} {n : ℕ}
    (h : log[n]? = some (k, v)) :
    cells (log.take (n + 1)) k = (cells (log.take n) k).next (n + 1) v := by
  have hn : n < log.length := (List.getElem?_eq_some_iff.mp h).1
  rw [List.take_add_one, h, Option.toList_some, cells_append, if_pos rfl, List.length_take,
    Nat.min_eq_left hn.le]

theorem modRevision_cells_take {log : Log K V} {k : K} {r : ℤ} (h : r ∈ revisionsOf log k) :
    (cells (log.take r.toNat) k).modRevision = r := by
  obtain ⟨n, rfl, v, hg⟩ := mem_revisionsOf.mp h
  have hn : ((n : ℤ) + 1).toNat = n + 1 := by omega
  rw [hn, cells_take_succ hg, Cell.next_modRevision]

/-- A key keeps its cell from its last change on. -/
theorem cells_take_modRevision (log : Log K V) (k : K) (h : (cells log k).modRevision ≠ 0) :
    cells (log.take (cells log k).modRevision.toNat) k = cells log k := by
  induction log using List.reverseRecOn with
  | nil => exact absurd rfl h
  | append_singleton log c ih =>
    rw [cells_append] at h ⊢
    split_ifs at h ⊢ with hk
    · rw [Cell.next_modRevision, List.take_of_length_le, cells_append, if_pos hk]
      simp only [List.length_append, List.length_singleton]
      omega
    · have hb := modRevision_bounds log k
      rw [List.take_append_of_le_length (by omega)]
      exact ih h

/-- A key that has no change after revision `n` holds at `n` what it holds at
the end. -/
theorem cells_take_of_modRevision_le (log : Log K V) (k : K) (n : ℕ)
    (h : (cells log k).modRevision ≤ n) : cells (log.take n) k = cells log k := by
  induction log using List.reverseRecOn with
  | nil => simp
  | append_singleton log c ih =>
    by_cases hn : n ≤ log.length
    · rw [List.take_append_of_le_length hn]
      rw [cells_append] at h ⊢
      split_ifs at h ⊢ with hk
      · rw [Cell.next_modRevision] at h
        omega
      · exact ih h
    · rw [List.take_of_length_le]
      simp only [List.length_append, List.length_singleton]
      omega

/-- The value in force at revision `n` was written at a revision of the key. -/
theorem modRevision_take_mem (log : Log K V) (k : K) (n : ℕ)
    (h : (cells (log.take n) k).modRevision ≠ 0) :
    (cells (log.take n) k).modRevision ∈ revisionsOf log k ∧
      (cells (log.take n) k).modRevision ≤ n := by
  have hl := getLast?_revisionsOf (log.take n) k
  rw [if_neg h] at hl
  have hm := List.mem_of_getLast? hl
  rw [revisionsOf_take, List.mem_filter] at hm
  exact ⟨hm.1, of_decide_eq_true hm.2⟩

/-- A cell is as it was if the log has no change of its key in between. -/
theorem cells_take_eq {log : Log K V} {k : K} {m n : ℕ} (hmn : m ≤ n)
    (h : ∀ r ∈ revisionsOf log k, r ≤ n → r ≤ m) : cells (log.take n) k = cells (log.take m) k := by
  have hle : (cells (log.take n) k).modRevision ≤ m := by
    by_cases hz : (cells (log.take n) k).modRevision = 0
    · rw [hz]
      exact Int.natCast_nonneg m
    · obtain ⟨hmem, hn⟩ := modRevision_take_mem log k n hz
      exact h _ hmem hn
  have htake := cells_take_of_modRevision_le (log.take n) k m hle
  rw [List.take_take, min_eq_left hmn] at htake
  exact htake.symm

theorem version_nonneg (log : Log K V) (k : K) : 0 ≤ (cells log k).version := by
  induction log using List.reverseRecOn with
  | nil => exact le_refl _
  | append_singleton log c ih =>
    rw [cells_append]
    split_ifs
    · exact (Cell.next_version_pos ih _ _).le
    · exact ih

/-- The revisions of the puts of a key since its last deletion, or since its first
change. -/
def livePuts (log : Log K V) (k : K) : List ℤ :=
  (List.rtakeWhile (fun c => c.1.2.isSome)
    ((log.zipIdx 1).filter (fun c => c.1.1 = k))).map (fun c => (c.2 : ℤ))

theorem livePuts_append (log : Log K V) (c : K × Option V) (k : K) :
    livePuts (log ++ [c]) k =
      if k = c.1 then
        if c.2.isSome then livePuts log k ++ [(log.length + 1 : ℤ)] else []
      else livePuts log k := by
  unfold livePuts
  rw [List.zipIdx_append, List.filter_append, List.zipIdx_singleton]
  by_cases h : k = c.1
  · have hone : List.filter (fun c : (K × Option V) × ℕ => decide (c.1.1 = k))
        [(c, 1 + log.length)] = [(c, 1 + log.length)] := by
      rw [List.filter_cons_of_pos (by simp [h]), List.filter_nil]
    rw [if_pos h, hone, List.rtakeWhile_concat]
    split_ifs with hs
    · rw [List.map_append, List.map_singleton]
      push_cast
      rw [add_comm (1 : ℤ)]
    · rfl
  · have hnone : List.filter (fun c : (K × Option V) × ℕ => decide (c.1.1 = k))
        [(c, 1 + log.length)] = [] := by
      rw [List.filter_cons_of_neg (by simp [Ne.symm h]), List.filter_nil]
    rw [if_neg h, hnone, List.append_nil]

/-- A live cell was created by the first of these puts, and its version is their
number. -/
theorem livePuts_spec (log : Log K V) (k : K) :
    if (cells log k).value.isSome then
      (livePuts log k).head? = some (cells log k).createRevision ∧
        ((livePuts log k).length : ℤ) = (cells log k).version
    else livePuts log k = [] := by
  induction log using List.reverseRecOn with
  | nil =>
    rw [if_neg (by simp [Cell.blank])]
    rfl
  | append_singleton log c ih =>
    rw [cells_append, livePuts_append]
    by_cases hk : k = c.1
    · rw [if_pos hk, if_pos hk, Cell.next_value]
      by_cases hv : c.2.isSome
      · rw [if_pos hv, if_pos hv]
        unfold Cell.next
        cases hlive : (cells log k).value with
        | none =>
          rw [hlive, Option.isSome_none, if_neg Bool.false_ne_true] at ih
          rw [ih]
          exact ⟨rfl, rfl⟩
        | some v =>
          rw [hlive, Option.isSome_some, if_pos rfl] at ih
          refine ⟨?_, ?_⟩
          · rw [List.head?_append, ih.1]
            rfl
          · rw [List.length_append, List.length_singleton]
            push_cast
            rw [ih.2]
      · rw [if_neg hv, if_neg hv]
    · rw [if_neg hk, if_neg hk]
      exact ih

/-- A log in which a key is deleted only while it has a value. -/
inductive Effective : Log K V → Prop
  | nil : Effective []
  | append {log : Log K V} {k : K} {v : Option V} :
      Effective log → v.isSome ∨ (cells log k).value.isSome → Effective (log ++ [(k, v)])

/-! ### A part of the keys -/

/-- The changes of some of the keys give those keys the values they have. -/
theorem cells_filter_value (p : K → Bool) (log : Log K V) {k : K} (hk : p k = true) :
    (cells (log.filter (fun c => p c.1)) k).value = (cells log k).value := by
  induction log using List.reverseRecOn with
  | nil => rfl
  | append_singleton log c ih =>
    rw [List.filter_append, cells_append]
    by_cases hkc : k = c.1
    · rw [if_pos hkc, Cell.next_value, List.filter_singleton, ← hkc, hk, cond_true, cells_append,
        if_pos hkc, Cell.next_value]
    · rw [if_neg hkc, ← ih]
      cases hp : p c.1 with
      | true => rw [List.filter_singleton, hp, cond_true, cells_append, if_neg hkc]
      | false => rw [List.filter_singleton, hp, cond_false, List.append_nil]

/-- The other keys stay blank. -/
theorem cells_filter_of_not (p : K → Bool) (log : Log K V) {k : K} (hk : p k = false) :
    cells (log.filter (fun c => p c.1)) k = Cell.blank := by
  apply cells_of_modRevision_zero
  by_contra hne
  have hmem := modRevision_take_mem (log.filter (fun c => p c.1)) k
    (log.filter (fun c => p c.1)).length
  rw [List.take_length] at hmem
  obtain ⟨n, -, v, hg⟩ := mem_revisionsOf.mp (hmem hne).1
  have hp := (List.mem_filter.mp (List.mem_of_getElem? hg)).2
  rw [hk] at hp
  contradiction

theorem Effective.filter {log : Log K V} (h : Effective log) (p : K → Bool) :
    Effective (log.filter (fun c => p c.1)) := by
  induction h with
  | nil => exact Effective.nil
  | @append log k v _ heff ih =>
    rw [List.filter_append]
    cases hk : p k with
    | true =>
      rw [List.filter_singleton, hk, cond_true]
      apply ih.append
      rw [cells_filter_value p log hk]
      exact heff
    | false =>
      rw [List.filter_singleton, hk, cond_false, List.append_nil]
      exact ih

end VersionLog
