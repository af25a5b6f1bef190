import MemEtcd.VersionLog

/-! A log that ends for every key at a revision of its own. The cells of such a
log are cells of the whole log at earlier revisions, except that the changes are
numbered anew. -/
namespace VersionLog

variable {K V : Type*}

/-- The same value after the same number of changes. -/
def Cell.SameContents (c d : Cell V) : Prop := c.version = d.version ∧ c.value = d.value

theorem Cell.SameContents.next {c d : Cell V} (h : c.SameContents d) (rev rev' : ℤ)
    (v : Option V) : (c.next rev v).SameContents (d.next rev' v) := by
  obtain ⟨hversion, hvalue⟩ := h
  unfold Cell.next
  rw [hversion, hvalue]
  cases d.value with
  | none => exact ⟨rfl, rfl⟩
  | some _ => exact ⟨rfl, rfl⟩

variable [DecidableEq K] (upto : K → ℕ)

/-- Of each key `k` the changes up to revision `upto k`. -/
def cutAt (log : Log K V) : Log K V :=
  ((log.zipIdx 1).filter (fun c => decide (c.2 ≤ upto c.1.1))).map Prod.fst

omit [DecidableEq K] in
theorem cutAt_append (log : Log K V) (c : K × Option V) :
    cutAt upto (log ++ [c]) =
      cutAt upto log ++ if log.length + 1 ≤ upto c.1 then [c] else [] := by
  unfold cutAt
  rw [List.zipIdx_append, List.filter_append, List.map_append]
  congr 1
  rw [List.zipIdx_singleton, List.filter_singleton, Nat.add_comm 1]
  split_ifs with h
  · rw [decide_eq_true h]
    rfl
  · rw [decide_eq_false h]
    rfl

theorem cells_cutAt (log : Log K V) (k : K) :
    (cells (cutAt upto log) k).SameContents (cells (log.take (upto k)) k) := by
  induction log using List.reverseRecOn with
  | nil =>
    rw [List.take_nil]
    exact ⟨rfl, rfl⟩
  | append_singleton log c ih =>
    rw [cutAt_append]
    by_cases hlong : log.length + 1 ≤ upto k
    · -- the whole log is before the end of `k`
      rw [List.take_of_length_le (by omega)] at ih
      rw [List.take_of_length_le (by simpa using hlong), cells_append]
      by_cases hk : k = c.1
      · rw [if_pos hk, ← hk, if_pos hlong, cells_append, if_pos hk]
        exact ih.next _ _ _
      · rw [if_neg hk]
        split_ifs
        · rw [cells_append, if_neg hk]
          exact ih
        · rw [List.append_nil]
          exact ih
    · rw [List.take_append_of_le_length (by omega)]
      split_ifs with hc
      · have hk : k ≠ c.1 := by
          intro he
          rw [he] at hlong
          exact hlong hc
        rw [cells_append, if_neg hk]
        exact ih
      · rw [List.append_nil]
        exact ih

theorem Effective.cutAt {log : Log K V} (h : Effective log) : Effective (cutAt upto log) := by
  induction h with
  | nil => exact Effective.nil
  | @append log k v _ heff ih =>
    rw [cutAt_append]
    split_ifs with hk
    · have hlen : log.length ≤ upto k := Nat.le_of_succ_le hk
      apply ih.append
      have hcell := (cells_cutAt upto log k).2
      rw [List.take_of_length_le hlen] at hcell
      rw [hcell]
      exact heff
    · rw [List.append_nil]
      exact ih

/-! ### Items in the order of their keys -/

section

variable {α : Type*} {key : α → ℤ}

variable (key) in
def lastKey (l : List α) : ℤ := (l.getLast?.map key).getD 0

theorem lastKey_mem {l : List α} (h : l ≠ []) : ∃ x ∈ l, lastKey key l = key x := by
  obtain ⟨init, last, rfl⟩ := (List.eq_nil_or_concat' l).resolve_left h
  refine ⟨last, by simp, ?_⟩
  unfold lastKey
  rw [List.getLast?_concat]
  rfl

theorem le_lastKey {l : List α} (hs : l.Pairwise (fun a b => key a < key b)) {x : α}
    (hx : x ∈ l) : key x ≤ lastKey key l := by
  obtain ⟨init, last, rfl⟩ := (List.eq_nil_or_concat' l).resolve_left (List.ne_nil_of_mem hx)
  unfold lastKey
  rw [List.getLast?_concat]
  rcases List.mem_append.mp hx with hx | hx
  · exact ((List.pairwise_append.mp hs).2.2 x hx last (List.mem_singleton_self _)).le
  · rw [List.mem_singleton.mp hx]
    exact le_refl _

/-- The first items are those up to the key of the last of them. -/
theorem prefix_eq_filter {front l : List α} (hp : front <+: l)
    (hs : l.Pairwise (fun a b => key a < key b)) (hpos : ∀ x ∈ l, 0 < key x) :
    front = l.filter (fun x => decide (key x ≤ lastKey key front)) := by
  obtain ⟨back, rfl⟩ := hp
  obtain ⟨hfront, -, hcross⟩ := List.pairwise_append.mp hs
  rw [List.filter_append, List.filter_eq_self.mpr, List.filter_eq_nil_iff.mpr, List.append_nil]
  · intro x hx
    rw [decide_eq_true_eq, not_le]
    by_cases hnil : front = []
    · subst hnil
      exact hpos x hx
    · obtain ⟨last, hlast, he⟩ := @lastKey_mem _ key _ hnil
      rw [he]
      exact hcross last hlast x hx
  · intro x hx
    exact decide_eq_true (le_lastKey hfront hx)

end

end VersionLog
