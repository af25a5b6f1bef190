import Mathlib.Tactic

/-! The handover from a list of past items to a live feed. Items carry a number;
the live feed is numbered in ascending order and may repeat items of the past
list. One threshold, the number of the last past item, decides which items of the
feed are repetitions. -/
namespace Handover

variable {α : Type*} (seq : α → ℤ)

/-- The number of the last item, zero if there is none. -/
def threshold (items : List α) : ℤ := (items.getLast?.map seq).getD 0

/-- What a reader is given: the past items, then the items taken from the feed
that the threshold lets through. -/
def delivered (past taken : List α) : List α :=
  past ++ taken.filter (fun x => threshold seq past < seq x)

variable {seq}

theorem threshold_append {items batch : List α} (h : batch ≠ []) :
    threshold seq (items ++ batch) = threshold seq batch := by
  unfold threshold
  rw [List.getLast?_append, List.getLast?_eq_some_getLast h]
  rfl

theorem threshold_mem {items : List α} (h : items ≠ []) :
    ∃ x ∈ items, threshold seq items = seq x := by
  refine ⟨items.getLast h, List.getLast_mem h, ?_⟩
  unfold threshold
  rw [List.getLast?_eq_some_getLast h]
  rfl

/-- In an ascending list no number is above that of the last item. -/
theorem le_threshold {items : List α} (h : items.Pairwise (fun a b => seq a < seq b)) {x : α}
    (hx : x ∈ items) : seq x ≤ threshold seq items := by
  have hne : items ≠ [] := List.ne_nil_of_mem hx
  have hlast : seq x ≤ seq (items.getLast hne) :=
    (h.imp (fun hab => le_of_lt hab)).rel_getLast hx
  unfold threshold
  rw [List.getLast?_eq_some_getLast hne]
  exact hlast

/-- A batch behind what was taken passes the running threshold exactly if it passes
that of the past items. -/
theorem delivered_append {past taken batch : List α}
    (h : (taken ++ batch).Pairwise (fun a b => seq a < seq b)) :
    delivered seq past (taken ++ batch) =
      delivered seq past taken ++
        batch.filter (fun x => threshold seq (delivered seq past taken) < seq x) := by
  unfold delivered
  rw [List.filter_append, ← List.append_assoc]
  congr 1
  apply List.filter_congr
  intro x hx
  rw [decide_eq_decide]
  by_cases hnone : taken.filter (fun x => threshold seq past < seq x) = []
  · rw [hnone, List.append_nil]
  · -- the last item let through is above the threshold and below the batch
    rw [threshold_append hnone]
    obtain ⟨y, hy, heq⟩ : ∃ y ∈ _, threshold seq _ = seq y := threshold_mem hnone
    have hpass := of_decide_eq_true (List.mem_filter.mp hy).2
    have hlt := (List.pairwise_append.mp h).2.2 y (List.mem_filter.mp hy).1 x hx
    omega

/-- A reader is given ascending numbers exactly if the past items ascend. -/
theorem delivered_sorted_iff {past taken : List α}
    (h : taken.Pairwise (fun a b => seq a < seq b)) :
    (delivered seq past taken).Pairwise (fun a b => seq a < seq b) ↔
      past.Pairwise (fun a b => seq a < seq b) := by
  unfold delivered
  rw [List.pairwise_append]
  constructor
  · intro hall
    exact hall.1
  · intro hpast
    refine ⟨hpast, h.filter _, ?_⟩
    intro x hx y hy
    have hle := le_threshold hpast hx
    have hpass := of_decide_eq_true (List.mem_filter.mp hy).2
    omega

/-- A reader is given no number twice, if the past items have different numbers and the
threshold keeps the repetitions back. -/
theorem delivered_nodup {past taken : List α} (hpast : (past.map seq).Nodup)
    (htaken : taken.Pairwise (fun a b => seq a < seq b))
    (hsep : ∀ x ∈ past, ∀ y ∈ taken, seq x = seq y → seq y ≤ threshold seq past) :
    ((delivered seq past taken).map seq).Nodup := by
  unfold delivered
  rw [List.map_append, List.nodup_append]
  refine ⟨hpast, ?_, ?_⟩
  · have hsorted := htaken.filter (fun x => decide (threshold seq past < seq x))
    rw [← List.pairwise_map] at hsorted
    exact hsorted.imp (fun h => ne_of_lt h)
  · intro n hn m hm heq
    obtain ⟨x, hx, rfl⟩ := List.mem_map.mp hn
    obtain ⟨y, hy, rfl⟩ := List.mem_map.mp hm
    obtain ⟨hy, hpass⟩ := List.mem_filter.mp hy
    have hpass := of_decide_eq_true hpass
    have hle := hsep x hx y hy heq
    omega

/-- In a list without repetitions an item is the only one with its number. -/
theorem filter_seq {items : List α} (h : (items.map seq).Nodup) {x : α} (hx : x ∈ items) :
    items.filter (fun y => seq y = seq x) = [x] := by
  induction items with
  | nil => contradiction
  | cons y items ih =>
    rw [List.map_cons, List.nodup_cons] at h
    rcases List.mem_cons.mp hx with rfl | hx
    · have hnone : items.filter (fun y => seq y = seq x) = [] := by
        apply List.filter_eq_nil_iff.mpr
        intro y hy hsame
        apply h.1
        rw [← of_decide_eq_true hsame]
        exact List.mem_map_of_mem hy
      rw [List.filter_cons, if_pos (decide_eq_true rfl), hnone]
    · have hne : seq y ≠ seq x := by
        intro hsame
        apply h.1
        rw [hsame]
        exact List.mem_map_of_mem hx
      rw [List.filter_cons_of_neg (by simpa using hne)]
      exact ih h.2 hx

end Handover
