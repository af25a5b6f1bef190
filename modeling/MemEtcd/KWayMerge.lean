import Mathlib.Tactic

/-! Merging streams: again and again the least head of all streams is taken.
The order of the streams, and the choice among equal heads, are left open. -/
namespace KWayMerge

variable {α : Type*} (key : α → ℤ)

/-- `Merges key streams out`: taking least heads from the streams yields `out`. -/
inductive Merges : List (List α) → List α → Prop
  | done {streams : List (List α)} : (∀ s ∈ streams, s = []) → Merges streams []
  | step {streams : List (List α)} {i : ℕ} {x : α} {rest out : List α} :
      streams[i]? = some (x :: rest) →
      (∀ s ∈ streams, ∀ y ∈ s.head?, key x ≤ key y) →
      Merges (streams.set i rest) out → Merges streams (x :: out)

variable {key}

theorem perm_flatten_set {streams : List (List α)} {i : ℕ} {x : α} {rest : List α}
    (h : streams[i]? = some (x :: rest)) :
    streams.flatten.Perm (x :: (streams.set i rest).flatten) := by
  induction streams generalizing i with
  | nil => simp at h
  | cons s streams ih =>
    cases i with
    | zero =>
      rw [List.getElem?_cons_zero, Option.some_inj] at h
      rw [h, List.set_cons_zero, List.flatten_cons, List.flatten_cons, List.cons_append]
    | succ i =>
      rw [List.getElem?_cons_succ] at h
      rw [List.set_cons_succ, List.flatten_cons, List.flatten_cons]
      calc List.Perm (s ++ streams.flatten) (s ++ x :: (streams.set i rest).flatten) :=
            (ih h).append_left s
        List.Perm _ (x :: (s ++ (streams.set i rest).flatten)) := List.perm_middle

/-- Every item of every stream comes out once. -/
theorem Merges.perm {streams : List (List α)} {out : List α} (h : Merges key streams out) :
    out.Perm streams.flatten := by
  induction h with
  | done hall =>
    rw [List.flatten_eq_nil_iff.mpr hall]
  | step hget _ _ ih => exact (ih.cons _).trans (perm_flatten_set hget).symm

/-- Ascending streams are merged into an ascending list. -/
theorem Merges.sorted {streams : List (List α)} {out : List α} (h : Merges key streams out)
    (hs : ∀ s ∈ streams, s.Pairwise (fun a b => key a ≤ key b)) :
    out.Pairwise (fun a b => key a ≤ key b) := by
  induction h with
  | done _ => exact List.Pairwise.nil
  | @step streams i x rest out hget hmin hrest ih =>
    have hset : ∀ s ∈ streams.set i rest, s.Pairwise (fun a b => key a ≤ key b) := by
      intro s hmem
      rcases List.mem_or_eq_of_mem_set hmem with hmem | rfl
      · exact hs s hmem
      · exact (List.pairwise_cons.mp (hs _ (List.mem_of_getElem? hget))).2
    refine List.pairwise_cons.mpr ⟨?_, ih hset⟩
    -- the head is least: every later item lies behind some head
    intro y hy
    have hin : y ∈ streams.flatten :=
      (perm_flatten_set hget).mem_iff.mpr (List.mem_cons_of_mem _ (hrest.perm.mem_iff.mp hy))
    obtain ⟨s, hmem, hys⟩ := List.mem_flatten.mp hin
    cases s with
    | nil => contradiction
    | cons z zs =>
      have hz : key x ≤ key z := hmin _ hmem z rfl
      rcases List.mem_cons.mp hys with rfl | hys
      · exact hz
      · exact hz.trans ((List.pairwise_cons.mp (hs _ hmem)).1 y hys)

/-- `out` has the items of all streams and nothing else, those of each stream in their
order: the items can be labelled with the streams they come from. -/
def Interleaves (streams : List (List α)) (out : List α) : Prop :=
  ∃ labelled : List (ℕ × α), labelled.map Prod.snd = out ∧
    (∀ p ∈ labelled, p.1 < streams.length) ∧
    ∀ i s, streams[i]? = some s → (labelled.filter (fun p => p.1 = i)).map Prod.snd = s

/-- A merge keeps the order of every stream. -/
theorem Merges.interleaves {streams : List (List α)} {out : List α} (h : Merges key streams out) :
    Interleaves streams out := by
  induction h with
  | @done streams hall =>
    refine ⟨[], rfl, by simp, ?_⟩
    intro i s hi
    exact (hall s (List.mem_of_getElem? hi)).symm
  | @step streams i x rest out hget _ _ ih =>
    obtain ⟨labelled, hout, hbound, hparts⟩ := ih
    have hlt : i < streams.length := (List.getElem?_eq_some_iff.mp hget).1
    refine ⟨(i, x) :: labelled, by rw [List.map_cons, hout], ?_, ?_⟩
    · intro p hp
      rcases List.mem_cons.mp hp with rfl | hp
      · exact hlt
      · rw [← List.length_set]
        exact hbound p hp
    · intro j s hj
      by_cases hij : i = j
      · subst hij
        rw [hget] at hj
        cases hj
        have hrest := hparts i rest (List.getElem?_set_self hlt)
        rw [List.filter_cons_of_pos (by simp), List.map_cons, hrest]
      · rw [List.filter_cons_of_neg (by simpa using hij)]
        apply hparts j s
        rw [List.getElem?_set_ne hij]
        exact hj

/-- The streams as the one that is taken from and the others. -/
theorem perm_cons_eraseIdx {streams : List (List α)} {i : ℕ} {s : List α}
    (h : streams[i]? = some s) (rest : List α) :
    streams.Perm (s :: streams.eraseIdx i) ∧
      (streams.set i rest).Perm (rest :: streams.eraseIdx i) := by
  obtain ⟨hlt, rfl⟩ := List.getElem?_eq_some_iff.mp h
  exact ⟨(List.getElem_cons_eraseIdx_perm hlt).symm, List.set_perm_cons_eraseIdx hlt rest⟩

theorem Merges.eq_nil {streams : List (List α)} {out : List α} (h : Merges key streams out)
    (hall : ∀ s ∈ streams, s = []) : out = [] := by
  cases h with
  | done _ => rfl
  | step hget _ _ => exact absurd (hall _ (List.mem_of_getElem? hget)) (List.cons_ne_nil _ _)

/-- When all keys differ, two streams with one head are the same. -/
theorem eq_of_same_head {streams : List (List α)} {i : ℕ} {x : α} {rest rest' : List α}
    (hn : (streams.flatten.map key).Nodup) (hget : streams[i]? = some (x :: rest))
    (hmem : x :: rest' ∈ streams) : rest' = rest := by
  have hsplit := (perm_cons_eraseIdx hget rest).1
  rcases List.mem_cons.mp (hsplit.mem_iff.mp hmem) with he | hother
  · exact (List.cons.inj he).2
  · -- the head would be in two streams
    have htwice := (hsplit.flatten.map key).nodup_iff.mp hn
    rw [List.flatten_cons, List.cons_append, List.map_cons, List.nodup_cons] at htwice
    refine absurd (List.mem_map_of_mem (List.mem_append_right _ ?_)) htwice.1
    exact List.mem_flatten.mpr ⟨_, hother, List.mem_cons_self⟩

/-- All keys still differ after one of them is taken. -/
theorem nodup_keys_set {streams : List (List α)} {i : ℕ} {x : α} {rest : List α}
    (hn : (streams.flatten.map key).Nodup) (hget : streams[i]? = some (x :: rest)) :
    ((streams.set i rest).flatten.map key).Nodup := by
  have hall := ((perm_flatten_set hget).map key).nodup_iff.mp hn
  rw [List.map_cons] at hall
  exact (List.nodup_cons.mp hall).2

/-- When all keys differ there is only one merge, in whatever order the streams come. -/
theorem Merges.unique {streams streams' : List (List α)} {out out' : List α}
    (h : Merges key streams out) (h' : Merges key streams' out') (hp : streams'.Perm streams)
    (hn : (streams.flatten.map key).Nodup) : out' = out := by
  induction h generalizing streams' out' with
  | done hall => exact h'.eq_nil (fun s hs => hall s (hp.mem_iff.mp hs))
  | @step streams i x rest out hget hmin hrest ih =>
    obtain ⟨hsplit, hset⟩ := perm_cons_eraseIdx hget rest
    cases h' with
    | done hall =>
      have hnil := hall _ (hp.mem_iff.mpr (List.mem_of_getElem? hget))
      contradiction
    | @step _ i' x' rest' out' hget' hmin' hrest' =>
      obtain ⟨hsplit', hset'⟩ := perm_cons_eraseIdx hget' rest'
      have hmem := List.mem_of_getElem? hget
      have hmem' := hp.mem_iff.mp (List.mem_of_getElem? hget')
      -- both heads are least, and the keys differ
      have hkey : key x' = key x :=
        le_antisymm (hmin' _ (hp.mem_iff.mpr hmem) x rfl) (hmin _ hmem' x' rfl)
      have hx : x' = x := List.inj_on_of_nodup_map hn
        (List.mem_flatten.mpr ⟨_, hmem', List.mem_cons_self⟩)
        (List.mem_flatten.mpr ⟨_, hmem, List.mem_cons_self⟩) hkey
      subst hx
      have hsame : rest' = rest := eq_of_same_head hn hget hmem'
      subst hsame
      have hperm : ((x' :: rest') :: streams'.eraseIdx i').Perm
          ((x' :: rest') :: streams.eraseIdx i) := hsplit'.symm.trans (hp.trans hsplit)
      have hrests : (streams'.set i' rest').Perm (streams.set i rest') :=
        hset'.trans ((hperm.cons_inv.cons rest').trans hset.symm)
      rw [ih hrest' hrests (nodup_keys_set hn hget)]

/-- Splitting a list by a label and joining the parts again. -/
theorem perm_flatMap_filter {β : Type*} [DecidableEq β] (label : α → β) {labels : List β}
    (hn : labels.Nodup) (l : List α) (hl : ∀ x ∈ l, label x ∈ labels) :
    (labels.flatMap (fun p => l.filter (fun x => label x = p))).Perm l := by
  induction l with
  | nil => simp
  | cons x l ih =>
    obtain ⟨before, after, rfl⟩ := List.append_of_mem (hl x List.mem_cons_self)
    have hx : ∀ p ∈ before ++ after, label x ≠ p := by
      intro p hp he
      subst he
      have := (List.perm_middle.nodup_iff.mp hn)
      exact (List.nodup_cons.mp this).1 hp
    have hskip : ∀ ps : List β, (∀ p ∈ ps, label x ≠ p) →
        ps.flatMap (fun p => (x :: l).filter (fun y => label y = p)) =
          ps.flatMap (fun p => l.filter (fun y => label y = p)) := by
      intro ps hps
      apply List.flatMap_congr
      intro p hp
      rw [List.filter_cons, if_neg (by simpa using hps p hp)]
    have ih' := ih (fun y hy => hl y (List.mem_cons_of_mem _ hy))
    rw [List.flatMap_append, List.flatMap_cons] at ih' ⊢
    rw [hskip before (fun p hp => hx p (List.mem_append_left _ hp)),
      hskip after (fun p hp => hx p (List.mem_append_right _ hp)), List.filter_cons,
      if_pos (by simp), List.cons_append]
    exact List.perm_middle.trans (ih'.cons x)

/-- Merging the parts of a strictly ascending list gives the list back. -/
theorem Merges.eq_of_parts {β ι : Type*} [DecidableEq ι] (label : β → ι) (f : β → α)
    {labels : List ι} (hn : labels.Nodup) {l : List β} (hl : ∀ x ∈ l, label x ∈ labels)
    (hs : (l.map f).Pairwise (fun a b => key a < key b)) {out : List α}
    (h : Merges key (labels.map (fun p => (l.filter (fun x => label x = p)).map f)) out) :
    out = l.map f := by
  have hperm : out.Perm (l.map f) := by
    have hparts := (perm_flatMap_filter label hn l hl).map f
    rw [List.map_flatMap] at hparts
    exact h.perm.trans hparts
  have hsorted : out.Pairwise (fun a b => key a ≤ key b) := by
    apply h.sorted
    intro s hmem
    obtain ⟨p, _, rfl⟩ := List.mem_map.mp hmem
    have hsub : List.Sublist ((l.filter (fun x => label x = p)).map f) (l.map f) :=
      List.filter_sublist.map f
    exact (hs.sublist hsub).imp le_of_lt
  have hinj : ∀ a ∈ l.map f, ∀ b ∈ l.map f, key a = key b → a = b := by
    have hnodup : ((l.map f).map key).Nodup :=
      List.pairwise_map.mpr (hs.imp (fun hlt => hlt.ne))
    intro a ha b hb hab
    exact List.inj_on_of_nodup_map hnodup ha hb hab
  apply hperm.eq_of_pairwise _ hsorted (hs.imp le_of_lt)
  intro a b ha hb hab hba
  exact hinj a (hperm.mem_iff.mp ha) b hb (le_antisymm hab hba)

end KWayMerge
