import Mathlib.Data.List.DropRight
import Mathlib.Tactic

/-! Trimming at both ends. -/
namespace TextTrim

variable {α : Type*} (p : α → Bool)

def trim (l : List α) : List α := (l.dropWhile p).rdropWhile p

/-- Nothing at the ends could be trimmed. -/
structure Tight (l : List α) : Prop where
  head : ∀ x, l.head? = some x → p x = false
  last : ∀ x, l.getLast? = some x → p x = false

/-- The text is the core with trimmings around it. -/
def Padded (text core : List α) : Prop :=
  ∃ before after, text = before ++ core ++ after ∧ (∀ x ∈ before, p x = true) ∧
    ∀ x ∈ after, p x = true

variable {p}

theorem dropWhile_append_of_all {before rest : List α} (h : ∀ x ∈ before, p x = true)
    (hrest : ∀ x, rest.head? = some x → p x = false) :
    (before ++ rest).dropWhile p = rest := by
  induction before with
  | nil =>
    cases rest with
    | nil => rfl
    | cons x rest =>
      rw [List.nil_append, List.dropWhile_cons_of_neg]
      rw [hrest x rfl]
      exact Bool.false_ne_true
  | cons y before ih =>
    rw [List.cons_append, List.dropWhile_cons_of_pos (h y List.mem_cons_self)]
    exact ih (fun x hx => h x (List.mem_cons_of_mem _ hx))

theorem rdropWhile_append_of_all {rest after : List α} (h : ∀ x ∈ after, p x = true)
    (hrest : ∀ x, rest.getLast? = some x → p x = false) :
    (rest ++ after).rdropWhile p = rest := by
  unfold List.rdropWhile
  rw [List.reverse_append, dropWhile_append_of_all, List.reverse_reverse]
  · exact fun x hx => h x (List.mem_reverse.mp hx)
  · intro x hx
    rw [List.head?_reverse] at hx
    exact hrest x hx

/-- A text of which nothing is left. -/
theorem trim_eq_nil_iff {text : List α} : trim p text = [] ↔ ∀ x ∈ text, p x = true := by
  unfold trim
  rw [List.rdropWhile_eq_nil_iff]
  constructor
  · intro h x hx
    rw [← List.takeWhile_append_dropWhile (p := p) (l := text)] at hx
    rcases List.mem_append.mp hx with hx | hx
    · exact List.mem_takeWhile_imp hx
    · exact h x hx
  · intro h x hx
    exact h x ((List.dropWhile_sublist p).subset hx)

theorem trim_tight (text : List α) : Tight p (trim p text) := by
  constructor
  · intro x hx
    have hp := List.rdropWhile_prefix p (text.dropWhile p)
    obtain ⟨rest, hrest⟩ := hp
    have hhead : (text.dropWhile p).head? = some x := by
      rw [← hrest, List.head?_append, show (List.rdropWhile p (text.dropWhile p)).head? = _ from hx]
      rfl
    have hnot := List.head?_dropWhile_not p text
    rw [hhead] at hnot
    exact hnot
  · intro x hx
    have hne : (text.dropWhile p).rdropWhile p ≠ [] := by
      intro he
      unfold trim at hx
      rw [he] at hx
      contradiction
    have hlast := List.rdropWhile_last_not p _ hne
    unfold trim at hx
    rw [List.getLast?_eq_some_getLast hne] at hx
    rw [← Option.some.inj hx]
    exact Bool.not_eq_true _ ▸ hlast

theorem trim_padded (text : List α) : Padded p text (trim p text) := by
  refine ⟨text.takeWhile p, (text.dropWhile p).rtakeWhile p, ?_, ?_, ?_⟩
  · unfold trim
    rw [List.append_assoc, List.rdropWhile_append_rtakeWhile, List.takeWhile_append_dropWhile]
  · exact fun x hx => List.mem_takeWhile_imp hx
  · exact fun x hx => List.mem_rtakeWhile_imp hx

/-- What is left of a text is the core in its middle. -/
theorem trim_eq_iff {text core : List α} :
    trim p text = core ↔ Tight p core ∧ Padded p text core := by
  constructor
  · rintro rfl
    exact ⟨trim_tight text, trim_padded text⟩
  · rintro ⟨htight, before, after, rfl, hbefore, hafter⟩
    by_cases hcore : core = []
    · subst hcore
      rw [trim_eq_nil_iff]
      intro x hx
      rw [List.append_nil] at hx
      exact (List.mem_append.mp hx).elim (hbefore x) (hafter x)
    · unfold trim
      rw [List.append_assoc, dropWhile_append_of_all hbefore, rdropWhile_append_of_all hafter]
      · exact htight.last
      · intro x hx
        rw [List.head?_append_of_ne_nil _ hcore] at hx
        exact htight.head x hx

end TextTrim
