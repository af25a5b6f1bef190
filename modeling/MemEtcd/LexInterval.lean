import Mathlib.Tactic

/-! Intervals of the lexicographic order on lists. The lists that extend a given
one form an interval, which ends at the next letter; the successor of a list
appends the least letter. -/
namespace LexInterval

variable {α : Type*} [LT α] [Std.Irrefl fun a b : α => a < b]

theorem append_lt_append_iff (p a b : List α) : p ++ a < p ++ b ↔ a < b := by
  induction p with
  | nil => rfl
  | cons x p ih =>
    rw [List.cons_append, List.cons_append, List.cons_lt_cons_iff, ih]
    constructor
    · intro h
      rcases h with h | h
      · exact absurd h (Std.Irrefl.irrefl x)
      · exact h.2
    · intro h
      exact Or.inr ⟨rfl, h⟩

theorem append_le_append_iff (p a b : List α) : p ++ a ≤ p ++ b ↔ a ≤ b :=
  not_congr (append_lt_append_iff p b a)

variable [Std.Asymm fun a b : α => a < b] [Std.Trichotomous fun a b : α => a < b]

/-- What lies between two extensions of a list extends it as well. -/
theorem append_between_iff (p a b k : List α) :
    p ++ a ≤ k ∧ k < p ++ b ↔ ∃ t, k = p ++ t ∧ a ≤ t ∧ t < b := by
  constructor
  · intro h
    induction p generalizing k with
    | nil => exact ⟨k, rfl, h⟩
    | cons y p ih =>
      obtain ⟨h1, h2⟩ := h
      cases k with
      | nil => exact absurd (List.nil_lt_cons y (p ++ a)) h1
      | cons x k =>
        rw [List.cons_append, List.cons_le_cons_iff] at h1
        rw [List.cons_append, List.cons_lt_cons_iff] at h2
        have hxy : x = y := by
          rcases h1 with hyx | ⟨he, _⟩
          · rcases h2 with hxy | ⟨he, _⟩
            · exact absurd hxy (Std.Asymm.asymm y x hyx)
            · exact he
          · exact he.symm
        subst hxy
        have hirr : ¬x < x := Std.Irrefl.irrefl x
        obtain ⟨t, rfl, ht⟩ := ih k ⟨(h1.resolve_left hirr).2, (h2.resolve_left hirr).2⟩
        exact ⟨t, rfl, ht⟩
  · intro h
    obtain ⟨t, rfl, h1, h2⟩ := h
    exact ⟨(append_le_append_iff p a t).mpr h1, (append_lt_append_iff p t b).mpr h2⟩

/-- The extensions of `p ++ [a]` are the lists up to `p ++ [b]`, where `b` is the
next letter. -/
theorem between_iff_extends {a b : α} (hab : a < b) (hnext : ∀ c, a < c → ¬c < b)
    (p k : List α) : p ++ [a] ≤ k ∧ k < p ++ [b] ↔ p ++ [a] <+: k := by
  rw [append_between_iff]
  constructor
  · intro h
    obtain ⟨t, rfl, h1, h2⟩ := h
    rw [List.prefix_append_right_inj]
    cases t with
    | nil => exact absurd (List.nil_lt_cons a []) h1
    | cons x t =>
      rw [List.cons_le_cons_iff] at h1
      rw [List.cons_lt_cons_iff] at h2
      have hxb : x < b := h2.resolve_right (fun h => List.not_lt_nil t h.2)
      rcases h1 with hax | ⟨rfl, _⟩
      · exact absurd hxb (hnext x hax)
      · exact List.cons_prefix_cons.mpr ⟨rfl, List.nil_prefix⟩
  · intro h
    obtain ⟨t, rfl⟩ := h
    refine ⟨a :: t, by simp, ?_, ?_⟩
    · exact List.cons_le_cons_iff.mpr (Or.inr ⟨rfl, List.nil_le t⟩)
    · exact List.cons_lt_cons_iff.mpr (Or.inl hab)

variable [DecidableEq α] [DecidableLT α]

omit [Std.Irrefl fun a b : α => a < b] in
/-- The successor of a list appends the least letter. -/
theorem append_least_le_iff {least : α} (h : ∀ a, ¬a < least) (s k : List α) :
    s ++ [least] ≤ k ↔ s < k := by
  induction s generalizing k with
  | nil =>
    cases k with
    | nil => simp
    | cons x k =>
      have hx : least < x ∨ least = x := by
        by_contra hno
        exact hno (Or.inr (Std.Trichotomous.trichotomous least x (fun hlt => hno (Or.inl hlt))
          (h x)))
      rw [List.nil_append, List.cons_le_cons_iff]
      constructor
      · intro _
        exact List.nil_lt_cons x k
      · intro _
        exact hx.imp id (fun he => ⟨he, List.nil_le k⟩)
  | cons y s ih =>
    cases k with
    | nil => simp
    | cons x k => rw [List.cons_append, List.cons_le_cons_iff, ih, List.cons_lt_cons_iff]

end LexInterval
