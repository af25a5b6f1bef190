import MemEtcd.Keys

/-! Where `prefix_split` cuts a key. A key under `/registry/` is cut behind its
resource: one segment further when the first segment names an API group. -/
namespace MemEtcd

/-! ### Pieces of a key -/

theorem splitn_of_notMem {sep : UInt8} {s : Bytes} (h : sep ∉ s) (n : ℕ) :
    splitn sep (n + 2) s = [s] := by
  have hdrop : s.dropWhile (· != sep) = [] := by
    rw [List.dropWhile_eq_nil_iff]
    intro b hb
    exact bne_iff_ne.mpr (fun he => h (he ▸ hb))
  rw [splitn, hdrop]

theorem splitn_append {sep : UInt8} {x : Bytes} (h : sep ∉ x) (n : ℕ) (u : Bytes) :
    splitn sep (n + 2) (x ++ sep :: u) = x :: splitn sep (n + 1) u := by
  have hpass : ∀ b ∈ x, (b != sep) = true := by
    intro b hb
    exact bne_iff_ne.mpr (fun he => h (he ▸ hb))
  have hdrop : (x ++ sep :: u).dropWhile (· != sep) = sep :: u := by
    rw [List.dropWhile_append_of_pos hpass, List.dropWhile_cons_of_neg (by simp)]
  have htake : (x ++ sep :: u).takeWhile (· != sep) = x := by
    rw [List.takeWhile_append_of_pos hpass, List.takeWhile_cons_of_neg (by simp), List.append_nil]
  rw [splitn, hdrop]
  dsimp only
  rw [htake]

theorem splitn_ne_nil (sep : UInt8) (n : ℕ) (s : Bytes) : splitn sep (n + 1) s ≠ [] := by
  cases n with
  | zero => exact List.cons_ne_nil _ _
  | succ n =>
    rw [splitn]
    split <;> exact List.cons_ne_nil _ _

theorem splitn_registryRoot (t : Bytes) :
    splitn 47 5 (registryRoot ++ t) =
      [] :: [114, 101, 103, 105, 115, 116, 114, 121] :: splitn 47 3 t := by
  have hempty : (47 : UInt8) ∉ ([] : Bytes) := List.not_mem_nil
  have hregistry : (47 : UInt8) ∉ ([114, 101, 103, 105, 115, 116, 114, 121] : Bytes) := by decide
  have h1 := splitn_append hempty 3 ([114, 101, 103, 105, 115, 116, 114, 121] ++ 47 :: t)
  have h2 := splitn_append hregistry 2 t
  rw [h2] at h1
  exact h1

/-- The cut of a key under `/registry/`, in terms of the pieces of what follows. -/
theorem prefixEnd_registryRoot (t : Bytes) :
    prefixEnd (registryRoot ++ t) =
      10 + pieceOffset (splitn 47 3 t)
        (min ((splitn 47 3 t).length - 1)
          (if ((splitn 47 3 t).getD 0 []).contains 46 then 2 else 1)) := by
  have hroot : registryRoot.isPrefixOf (registryRoot ++ t) = true :=
    List.isPrefixOf_iff_prefix.mpr (List.prefix_append _ _)
  unfold prefixEnd
  rw [hroot, if_neg (by decide)]
  dsimp only
  rw [splitn_registryRoot]
  obtain ⟨p, rest, hp⟩ := List.exists_cons_of_ne_nil (splitn_ne_nil 47 2 t)
  rw [hp]
  have hoffset (i : ℕ) : pieceOffset ([] :: [114, 101, 103, 105, 115, 116, 114, 121] :: p :: rest)
      (i + 2) = 10 + pieceOffset (p :: rest) i := by
    unfold pieceOffset
    rw [List.take_succ_cons, List.take_succ_cons, List.map_cons, List.map_cons, List.sum_cons,
      List.sum_cons]
    simp only [List.length_nil, List.length_cons]
    omega
  rw [if_neg (by simp), ← hoffset]
  congr 1
  simp only [List.length_cons, List.getD_cons_succ, List.getD_cons_zero, Bool.true_and]
  split_ifs <;> omega

theorem prefixSplit_of_end {key p s : Bytes} (hk : key = p ++ s) (hp : prefixEnd key = p.length) :
    prefixSplit key = (p, s) := by
  unfold prefixSplit
  rw [hp, hk, List.take_left, List.drop_left]

/-! ### The four kinds of keys -/

/-- A key outside of `/registry/` is its own suffix. -/
theorem prefixSplit_outside {key : Bytes} (h : ¬registryRoot <+: key) :
    prefixSplit key = ([], key) := by
  refine prefixSplit_of_end rfl ?_
  have hroot : registryRoot.isPrefixOf key = false := by
    rw [← Bool.not_eq_true, List.isPrefixOf_iff_prefix]
    exact h
  unfold prefixEnd
  rw [if_pos hroot]
  rfl

/-- A key with one segment under `/registry/`. -/
theorem prefixSplit_root {t : Bytes} (ht : 47 ∉ t) :
    prefixSplit (registryRoot ++ t) = (registryRoot, t) := by
  refine prefixSplit_of_end rfl ?_
  rw [prefixEnd_registryRoot, splitn_of_notMem ht]
  rfl

/-- A key under one segment, which names no group or has one segment more. -/
theorem prefixSplit_resource {x u : Bytes} (hx : 47 ∉ x) (h : 46 ∉ x ∨ 47 ∉ u) :
    prefixSplit (registryRoot ++ x ++ [47] ++ u) = (registryRoot ++ x ++ [47], u) := by
  refine prefixSplit_of_end rfl ?_
  rw [List.append_assoc, List.append_assoc, List.singleton_append, prefixEnd_registryRoot,
    splitn_append hx]
  have hone : min ((x :: splitn 47 2 u).length - 1)
      (if ((x :: splitn 47 2 u).getD 0 []).contains 46 then 2 else 1) = 1 := by
    rw [List.getD_cons_zero, List.length_cons, Nat.add_sub_cancel]
    rcases h with h | h
    · have hlen : 1 ≤ (splitn 47 2 u).length := by
        rw [splitn]
        split <;> simp
      rw [if_neg (by simpa using h)]
      omega
    · rw [splitn_of_notMem h]
      split_ifs <;> rfl
  rw [hone]
  simp [pieceOffset, registryRoot]
  omega

/-- A key under a group and a resource. -/
theorem prefixSplit_custom {x y v : Bytes} (hx : 47 ∉ x) (hdot : 46 ∈ x) (hy : 47 ∉ y) :
    prefixSplit (registryRoot ++ x ++ [47] ++ y ++ [47] ++ v) =
      (registryRoot ++ x ++ [47] ++ y ++ [47], v) := by
  refine prefixSplit_of_end rfl ?_
  have hkey : registryRoot ++ x ++ [47] ++ y ++ [47] ++ v =
      registryRoot ++ (x ++ 47 :: (y ++ 47 :: v)) := by simp
  rw [hkey, prefixEnd_registryRoot, splitn_append hx, splitn_append hy, splitn,
    List.getD_cons_zero, if_pos (by simpa using hdot)]
  simp [pieceOffset, registryRoot]
  omega

theorem exists_segment {t : Bytes} (h : 47 ∈ t) : ∃ x u, t = x ++ [47] ++ u ∧ 47 ∉ x := by
  obtain ⟨x, u, ht, hx⟩ := List.eq_append_cons_of_mem h
  exact ⟨x, u, by rw [ht]; simp, hx⟩

/-- Every key is of one of the four kinds. -/
theorem key_cases (k : Bytes) :
    ¬registryRoot <+: k ∨
    (∃ t, k = registryRoot ++ t ∧ 47 ∉ t) ∨
    (∃ x u, k = registryRoot ++ x ++ [47] ++ u ∧ 47 ∉ x ∧ (46 ∉ x ∨ 47 ∉ u)) ∨
    (∃ x y v, k = registryRoot ++ x ++ [47] ++ y ++ [47] ++ v ∧ 47 ∉ x ∧ 46 ∈ x ∧ 47 ∉ y) := by
  by_cases hroot : registryRoot <+: k
  · obtain ⟨t, rfl⟩ := hroot
    refine Or.inr ?_
    by_cases ht : 47 ∈ t
    · obtain ⟨x, u, rfl, hx⟩ := exists_segment ht
      refine Or.inr ?_
      by_cases hu : 46 ∈ x ∧ 47 ∈ u
      · obtain ⟨y, v, rfl, hy⟩ := exists_segment hu.2
        exact Or.inr ⟨x, y, v, by simp, hx, hu.1, hy⟩
      · exact Or.inl ⟨x, u, by simp, hx, not_and_or.mp hu⟩
    · exact Or.inl ⟨t, rfl, ht⟩
  · exact Or.inl hroot

/-- A byte at the end that is no slash belongs to the suffix. -/
theorem prefixSplit_concat {b : UInt8} (hb : b ≠ 47) (k : Bytes) :
    prefixSplit (k ++ [b]) = ((prefixSplit k).1, (prefixSplit k).2 ++ [b]) := by
  have hnot {t : Bytes} (ht : 47 ∉ t) : 47 ∉ t ++ [b] := by
    simp [ht, Ne.symm hb]
  rcases key_cases k with h | ⟨t, rfl, ht⟩ | ⟨x, u, rfl, hx, hu⟩ | ⟨x, y, v, rfl, hx, hdot, hy⟩
  · have hout : ¬registryRoot <+: k ++ [b] := by
      intro hp
      rcases List.prefix_concat_iff.mp hp with he | hp
      · -- the last byte of `/registry/` is a slash
        have hlast := congrArg List.getLast? he
        rw [List.getLast?_concat] at hlast
        exact hb (Option.some.inj hlast).symm
      · exact h hp
    rw [prefixSplit_outside h, prefixSplit_outside hout]
  · rw [List.append_assoc, prefixSplit_root ht, prefixSplit_root (hnot ht)]
  · rw [List.append_assoc (registryRoot ++ x ++ [47]), prefixSplit_resource hx hu,
      prefixSplit_resource hx (hu.imp id hnot)]
  · rw [List.append_assoc (registryRoot ++ x ++ [47] ++ y ++ [47]), prefixSplit_custom hx hdot hy,
      prefixSplit_custom hx hdot hy]

/-! ### Buckets of one resource -/

/-- The buckets that are not divided further: all keys below such a prefix belong
to it. -/
inductive FullDepth : Bytes → Prop
  | resource {x : Bytes} : 47 ∉ x → 46 ∉ x → FullDepth (registryRoot ++ x ++ [47])
  | custom {x y : Bytes} : 47 ∉ x → 46 ∈ x → 47 ∉ y →
      FullDepth (registryRoot ++ x ++ [47] ++ y ++ [47])

theorem FullDepth.prefixSplit_append {d : Bytes} (h : FullDepth d) (t : Bytes) :
    prefixSplit (d ++ t) = (d, t) := by
  cases h with
  | resource hx hdot => exact prefixSplit_resource hx (Or.inl hdot)
  | custom hx hdot hy => exact prefixSplit_custom hx hdot hy

/-- Without its last slash the prefix falls into the bucket above. -/
theorem FullDepth.prefixSplit_sibling {d : Bytes} (h : FullDepth d) {b : UInt8} (hb : b ≠ 47) :
    ∃ parent leaf, d = parent ++ leaf ++ [47] ∧ d ≠ parent ∧
      prefixSplit (parent ++ leaf ++ [b]) = (parent, leaf ++ [b]) := by
  have hnot {t : Bytes} (ht : 47 ∉ t) : 47 ∉ t ++ [b] := by
    simp [ht, Ne.symm hb]
  have hlonger (p l : Bytes) : p ++ l ++ [47] ≠ p := by
    intro he
    have hlen := congrArg List.length he
    simp at hlen
  cases h with
  | @resource x hx hdot =>
    refine ⟨registryRoot, x, rfl, hlonger _ _, ?_⟩
    rw [List.append_assoc]
    exact prefixSplit_root (hnot hx)
  | @custom x y hx hdot hy =>
    refine ⟨registryRoot ++ x ++ [47], y, rfl, hlonger _ _, ?_⟩
    rw [List.append_assoc]
    exact prefixSplit_resource hx (Or.inr (hnot hy))

/-! ### The accesses of the split -/

/-- Every piece of a split string stands in it at the offset of the piece. -/
theorem splitn_piece {sep : UInt8} {n i : ℕ} {s piece : Bytes}
    (h : (splitn sep n s)[i]? = some piece) :
    ∃ before after, s = before ++ piece ++ after ∧
      before.length = pieceOffset (splitn sep n s) i := by
  -- the induction follows `splitn`: the first piece, or a piece of the rest
  induction n, s using splitn.induct sep generalizing i with
  | case1 s => simp [splitn] at h
  | case2 s =>
    rw [splitn] at h ⊢
    obtain ⟨rfl, rfl⟩ : i = 0 ∧ s = piece := by
      cases i with
      | zero => exact ⟨rfl, Option.some.inj h⟩
      | succ i => simp at h
    exact ⟨[], [], by simp, rfl⟩
  | case3 n s hrest =>
    rw [splitn, hrest] at h ⊢
    dsimp only at h ⊢
    obtain ⟨rfl, rfl⟩ : i = 0 ∧ s = piece := by
      cases i with
      | zero => exact ⟨rfl, Option.some.inj h⟩
      | succ i => simp at h
    exact ⟨[], [], by simp, rfl⟩
  | case4 n s b rest hrest ih =>
    have hs : s = s.takeWhile (· != sep) ++ b :: rest := by
      rw [← hrest, List.takeWhile_append_dropWhile]
    rw [splitn, hrest] at h ⊢
    dsimp only at h ⊢
    cases i with
    | zero =>
      obtain rfl := Option.some.inj h
      exact ⟨[], b :: rest, hs, rfl⟩
    | succ i =>
      obtain ⟨before, after, hr, hlen⟩ := ih h
      refine ⟨s.takeWhile (· != sep) ++ b :: before, after, ?_, ?_⟩
      · rw [List.append_assoc, List.append_assoc, List.cons_append, ← List.append_assoc, ← hr]
        exact hs
      · unfold pieceOffset at hlen ⊢
        rw [List.take_succ_cons, List.map_cons, List.sum_cons, ← hlen]
        simp only [List.length_append, List.length_cons]
        omega

/-- `Store::prefix_split` with its accesses in sight: nothing, if the length of the
segments underflows or a segment or a slice is out of bounds. -/
def checkedPrefixSplit (key : Bytes) : Option (Bytes × Bytes) :=
  if registryRoot.isPrefixOf key = false then some ([], key)
  else
    let segments := splitn 47 5 key
    if segments.length = 1 then some ([], key)
    else do
      guard (0 < segments.length)
      let second ← segments[2]?
      let lastSegment := min (segments.length - 1)
        (if registryRoot.isPrefixOf key && second.contains 46 then 4 else 3)
      let _ ← segments[lastSegment]?
      let prefixEnd := pieceOffset segments lastSegment
      guard (prefixEnd ≤ key.length)
      return (key.take prefixEnd, key.drop prefixEnd)

/-- A key under `/registry/` has at least three segments: all accesses are in bounds. -/
theorem checkedPrefixSplit_eq (key : Bytes) : checkedPrefixSplit key = some (prefixSplit key) := by
  unfold checkedPrefixSplit prefixSplit prefixEnd
  by_cases hroot : registryRoot.isPrefixOf key = false
  · rw [if_pos hroot, if_pos hroot]
    rfl
  · obtain ⟨t, rfl⟩ := List.isPrefixOf_iff_prefix.mp (Bool.not_eq_false _ ▸ hroot)
    obtain ⟨p, rest, hp⟩ := List.exists_cons_of_ne_nil (splitn_ne_nil 47 2 t)
    have hsegments : splitn 47 5 (registryRoot ++ t) =
        [] :: [114, 101, 103, 105, 115, 116, 114, 121] :: p :: rest := by
      rw [splitn_registryRoot, hp]
    rw [if_neg hroot, if_neg hroot]
    dsimp only
    have hone : (splitn 47 5 (registryRoot ++ t)).length ≠ 1 := by
      rw [hsegments]
      simp
    have hsecond : (splitn 47 5 (registryRoot ++ t))[2]? = some p := by
      rw [hsegments]
      rfl
    have hpos : 0 < (splitn 47 5 (registryRoot ++ t)).length := by
      rw [hsegments]
      simp
    rw [if_neg hone, if_neg hone, hsecond, List.getD_eq_getElem?_getD, hsecond, Option.getD_some]
    simp only [guard, if_pos hpos, Option.pure_def, Option.bind_eq_bind, Option.bind_some]
    generalize hlast : min ((splitn 47 5 (registryRoot ++ t)).length - 1)
      (if registryRoot.isPrefixOf (registryRoot ++ t) && p.contains 46 then 4 else 3) = last
    have hin : last < (splitn 47 5 (registryRoot ++ t)).length := by omega
    obtain ⟨before, after, hkey, hlen⟩ := splitn_piece (List.getElem?_eq_getElem hin)
    have hend : pieceOffset (splitn 47 5 (registryRoot ++ t)) last ≤ (registryRoot ++ t).length := by
      rw [← hlen, hkey]
      simp only [List.length_append]
      omega
    rw [List.getElem?_eq_getElem hin, Option.bind_some, if_pos hend, Option.bind_some]

theorem prefix_ends_in_slash (key : Bytes) :
    (prefixSplit key).1 = [] ∨ (prefixSplit key).1.getLast? = some 47 := by
  rcases key_cases key with h | ⟨t, rfl, ht⟩ | ⟨x, u, rfl, hx, hu⟩ | ⟨x, y, v, rfl, hx, hdot, hy⟩
  · rw [prefixSplit_outside h]
    exact Or.inl rfl
  · rw [prefixSplit_root ht]
    exact Or.inr rfl
  · rw [prefixSplit_resource hx hu]
    exact Or.inr (List.getLast?_concat ..)
  · rw [prefixSplit_custom hx hdot hy]
    exact Or.inr (List.getLast?_concat ..)

/-- The prefix of a key is a key of its own bucket. -/
theorem prefixSplit_prefixSplit (key : Bytes) :
    prefixSplit (prefixSplit key).1 = ((prefixSplit key).1, []) := by
  rcases key_cases key with h | ⟨t, rfl, ht⟩ | ⟨x, u, rfl, hx, hu⟩ | ⟨x, y, v, rfl, hx, hdot, hy⟩
  · rw [prefixSplit_outside h]
    change prefixSplit [] = ([], [])
    exact prefixSplit_outside (by decide)
  · rw [prefixSplit_root ht]
    exact prefixSplit_root List.not_mem_nil
  · rw [prefixSplit_resource hx hu]
    have h := prefixSplit_resource hx (Or.inr (List.not_mem_nil (a := 47)))
    rw [List.append_nil] at h
    exact h
  · rw [prefixSplit_custom hx hdot hy]
    have h := prefixSplit_custom (v := []) hx hdot hy
    rw [List.append_nil] at h
    exact h

/-- The split stays within its segments and cuts every key in two. The prefix is empty
or ends in a slash and is its own prefix, and a full-depth prefix is the bucket of
everything below it. -/
theorem prefixSplit_stable_bucketing (key : Bytes) :
    checkedPrefixSplit key = some (prefixSplit key) ∧
      (prefixSplit key).1 ++ (prefixSplit key).2 = key ∧
      ((prefixSplit key).1 = [] ∨ (prefixSplit key).1.getLast? = some 47) ∧
      prefixSplit (prefixSplit key).1 = ((prefixSplit key).1, []) ∧
      ∀ d t : Bytes, FullDepth d → prefixSplit (d ++ t) = (d, t) :=
  ⟨checkedPrefixSplit_eq key, prefixSplit_append key, prefix_ends_in_slash key,
    prefixSplit_prefixSplit key, fun _ t hd => hd.prefixSplit_append t⟩

end MemEtcd
