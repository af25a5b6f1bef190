import Mathlib.Tactic

/-! A log whose entries carry distinct labels. The label of the entry that was applied
last says how much of the log has been applied. -/
namespace LogPrefix

variable {E I : Type*} [DecidableEq I] (label : E → I)

/-- How many entries of the log have been applied when the last one is labelled so. -/
def position (log : List E) : Option I → ℕ
  | none => 0
  | some i => (log.map label).idxOf i + 1

def upTo (log : List E) (last : Option I) : List E := log.take (position label log last)

def after (log : List E) (last : Option I) : List E := log.drop (position label log last)

/-- The label of the last entry of a batch, or what it was before. -/
def advance (last : Option I) (batch : List E) : Option I :=
  (batch.getLast?.map label).or last

variable {label}

theorem position_middle {l rest : List E} {e : E} (hn : ((l ++ e :: rest).map label).Nodup) :
    position label (l ++ e :: rest) (some (label e)) = l.length + 1 := by
  have hnot : label e ∉ l.map label := by
    rw [List.map_append, List.map_cons] at hn
    intro hmem
    exact (List.nodup_append.mp hn).2.2 _ hmem _ List.mem_cons_self rfl
  change ((l ++ e :: rest).map label).idxOf (label e) + 1 = l.length + 1
  rw [List.map_append, List.idxOf_append_of_notMem hnot, List.map_cons, List.idxOf_cons_self,
    List.length_map]

/-- A batch of the next entries takes one part of the log to a longer one. -/
theorem upTo_advance {log : List E} (hn : (log.map label).Nodup) (last : Option I) (n : ℕ) :
    upTo label log (advance label last ((after label log last).take n)) =
      upTo label log last ++ (after label log last).take n := by
  rcases List.eq_nil_or_concat' ((after label log last).take n) with hnil | ⟨batch, e, hbatch⟩
  · rw [hnil, List.append_nil]
    rfl
  · have hlog : log = (upTo label log last ++ batch) ++ e :: (after label log last).drop n := by
      calc
        log = upTo label log last ++ after label log last := (List.take_append_drop _ log).symm
        _ = upTo label log last ++ (batch ++ [e] ++ (after label log last).drop n) := by
          rw [← hbatch, List.take_append_drop]
        _ = _ := by
          rw [← List.append_cons, List.append_assoc]
    have hadvance : advance label last (batch ++ [e]) = some (label e) := by
      unfold advance
      rw [List.getLast?_concat]
      rfl
    rw [hbatch, hadvance]
    generalize upTo label log last = done at hlog ⊢
    generalize (after label log last).drop n = rest at hlog
    subst hlog
    unfold upTo
    rw [position_middle hn, List.append_cons, ← List.append_assoc]
    exact List.take_left' (by rw [List.length_append, List.length_singleton])

/-- What is behind a label comes with labels of higher rank, if the ranks ascend. -/
theorem rank_lt_of_mem_after {R : Type*} [Preorder R] {rank : I → R} {log : List E}
    (hs : log.Pairwise (fun a b => rank (label a) < rank (label b))) {i : I} {e : E}
    (he : e ∈ after label log (some i)) : rank i < rank (label e) := by
  by_cases hi : i ∈ log.map label
  · obtain ⟨x, hx, rfl⟩ := List.mem_map.mp hi
    obtain ⟨l, rest, rfl⟩ := List.append_of_mem hx
    have hn : ((l ++ x :: rest).map label).Nodup := by
      apply List.pairwise_map.mpr
      apply hs.imp
      intro a b hab heq
      exact ne_of_lt hab (congrArg rank heq)
    unfold after at he
    rw [position_middle hn, List.append_cons,
      List.drop_left' (by rw [List.length_append, List.length_singleton])] at he
    exact (List.pairwise_cons.mp (List.pairwise_append.mp hs).2.1).1 e he
  · have hnil : after label log (some i) = [] := by
      change log.drop ((log.map label).idxOf i + 1) = []
      rw [List.idxOf_of_notMem hi, List.length_map]
      exact List.drop_of_length_le (Nat.le_succ _)
    rw [hnil] at he
    contradiction

end LogPrefix
