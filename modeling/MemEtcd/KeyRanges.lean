import MemEtcd.PrefixSplit
import MemEtcd.StoreLive

/-! Key ranges. A request names its keys by a start and an end in byte order;
`prefix_and_range_of_key` turns them into a bucket and bounds. This module
compares the two. -/
namespace MemEtcd

open LexInterval

abbrev bucketOf (key : Bytes) : Bytes := (prefixSplit key).1

/-- The keys that the API means by a start and an end. -/
def etcdRange (start endKey k : Bytes) : Prop :=
  if endKey = [] then k = start
  else if endKey = [0] then start ≤ k
  else start ≤ k ∧ k < endKey

instance (start endKey k : Bytes) : Decidable (etcdRange start endKey k) :=
  inferInstanceAs (Decidable (if endKey = [] then k = start
    else if endKey = [0] then start ≤ k else start ≤ k ∧ k < endKey))

/-- The end keys with a last zero byte that the translation takes for no end at
all: the start key with a zero byte, and the bucket with a zero byte in the place
of its last slash. -/
def ZeroEnd (start endKey : Bytes) : Prop :=
  endKey.getLast? = some 0 ∧ (endKey.dropLast = start ∨ bucketOf start = endKey.dropLast ++ [47])

theorem slash_next (c : UInt8) (h : 47 < c) : ¬c < 48 := by
  rw [UInt8.lt_iff_toNat_lt] at h ⊢
  change 47 < c.toNat at h
  change ¬c.toNat < 48
  omega

theorem zero_least (c : UInt8) : ¬c < 0 := by
  rw [UInt8.lt_iff_toNat_lt]
  exact Nat.not_lt_zero _

theorem bucketOf_begins (k : Bytes) : bucketOf k <+: k :=
  ⟨(prefixSplit k).2, prefixSplit_append k⟩

theorem bucketOf_concat_zero (k : Bytes) : bucketOf (k ++ [0]) = bucketOf k := by
  unfold bucketOf
  rw [prefixSplit_concat (by decide)]

/-- Within one bucket the suffixes are ordered as the keys. -/
theorem suffix_lt_iff {a b : Bytes} (h : bucketOf a = bucketOf b) :
    (prefixSplit a).2 < (prefixSplit b).2 ↔ a < b := by
  have hlt := append_lt_append_iff (bucketOf a) (prefixSplit a).2 (prefixSplit b).2
  have hb : bucketOf a ++ (prefixSplit b).2 = b := by
    rw [h]
    exact prefixSplit_append b
  rw [hb, prefixSplit_append a] at hlt
  exact hlt.symm

theorem suffix_le_iff {a b : Bytes} (h : bucketOf a = bucketOf b) :
    (prefixSplit a).2 ≤ (prefixSplit b).2 ↔ a ≤ b :=
  not_congr (suffix_lt_iff h.symm)

/-- The directory `p/` ends before `p0`. -/
theorem directory_iff (p k : Bytes) : p ++ [47] ≤ k ∧ k < p ++ [48] ↔ p ++ [47] <+: k :=
  between_iff_extends (by decide) slash_next p k

/-! ### What the translation accepts -/

/-- The last byte of a key is that of its suffix, if it has one. -/
theorem key_of_suffix_concat {k t : Bytes} {b : UInt8} (h : (prefixSplit k).2 = t ++ [b]) :
    k = bucketOf k ++ t ++ [b] := by
  rw [List.append_assoc, ← h]
  exact (prefixSplit_append k).symm

theorem eq_concat_of_getLast? {s : Bytes} {b : UInt8} (h : s.getLast? = some b) :
    s = s.dropLast ++ [b] := (List.dropLast_append_getLast? b h).symm

/-- An end key in the bucket of the start key is a zero end only if the
translation tests for it. -/
theorem not_zeroEnd_of_same {start endKey : Bytes} (hp : bucketOf start = bucketOf endKey)
    (h : ¬((prefixSplit endKey).2.getLast? = some 0 ∧
      (prefixSplit endKey).2.dropLast = (prefixSplit start).2)) : ¬ZeroEnd start endKey := by
  intro hz
  obtain ⟨hlast, hz⟩ := hz
  have hend := eq_concat_of_getLast? hlast
  rcases hz with hz | hz
  · -- the end key is the start key with a zero byte
    rw [hz] at hend
    apply h
    rw [hend, prefixSplit_concat (by decide)]
    exact ⟨List.getLast?_concat, List.dropLast_concat⟩
  · -- a bucket as long as its key is the key, but the last bytes differ
    have hpre := bucketOf_begins endKey
    rw [← hp, hz, hend, List.dropLast_concat, List.prefix_append_right_inj] at hpre
    exact absurd hpre (by decide)

theorem not_zeroEnd_of_last {start endKey p : Bytes} {b : UInt8} (he : endKey = p ++ [b])
    (hb : b ≠ 0) : ¬ZeroEnd start endKey := by
  intro hz
  have hlast := hz.1
  rw [he, List.getLast?_concat] at hlast
  exact hb (Option.some.inj hlast)

theorem concat_ne_zero {p : Bytes} {b : UInt8} (hb : b ≠ 0) : p ++ [b] ≠ [0] := by
  intro he
  have hlast := congrArg List.getLast? he
  rw [List.getLast?_concat] at hlast
  exact hb (Option.some.inj hlast)

/-- The bounds of an accepted request. -/
theorem accepted_cases {start endKey pfx : Bytes} {lo hi : Bound Bytes}
    (h : prefixAndRangeOfKey start endKey = .ok (pfx, lo, hi)) :
    pfx = bucketOf start ∧ lo = .included (prefixSplit start).2 ∧
      ((endKey = [] ∧ hi = .included (prefixSplit start).2) ∨
       (endKey ≠ [] ∧ (endKey = [0] ∨ ZeroEnd start endKey) ∧ hi = .unbounded) ∨
       (endKey ≠ [] ∧ endKey ≠ [0] ∧ ¬ZeroEnd start endKey ∧
         (∃ p, pfx = p ++ [47] ∧ endKey = p ++ [48]) ∧ hi = .unbounded) ∨
       (endKey ≠ [] ∧ endKey ≠ [0] ∧ ¬ZeroEnd start endKey ∧ bucketOf endKey = pfx ∧
         hi = .excluded (prefixSplit endKey).2)) := by
  unfold prefixAndRangeOfKey at h
  dsimp only at h
  split_ifs at h with hempty hzero hp hs hlast hsame
  · cases h
    exact ⟨rfl, rfl, Or.inl ⟨List.isEmpty_iff.mp hempty, rfl⟩⟩
  · cases h
    refine ⟨rfl, rfl, Or.inr (Or.inl ⟨?_, Or.inl hzero, rfl⟩)⟩
    rw [hzero]
    exact List.cons_ne_nil 0 []
  · cases h
    have hne : endKey ≠ [] := fun he => hempty (List.isEmpty_iff.mpr he)
    obtain ⟨hb, hpfx⟩ := hlast
    refine ⟨rfl, rfl, ?_⟩
    rcases hb with hb | hb
    · have hend := key_of_suffix_concat (eq_concat_of_getLast? hb)
      exact Or.inr (Or.inr (Or.inl ⟨hne, hzero, not_zeroEnd_of_last hend (by decide),
        ⟨_, hpfx, hend⟩, rfl⟩))
    · have hend := key_of_suffix_concat (eq_concat_of_getLast? hb)
      refine Or.inr (Or.inl ⟨hne, Or.inr ⟨?_, Or.inr ?_⟩, rfl⟩)
      · rw [hend, List.getLast?_concat]
      · rw [hend, List.dropLast_concat]
        exact hpfx
  · cases h
    have hne : endKey ≠ [] := fun he => hempty (List.isEmpty_iff.mpr he)
    have hend := key_of_suffix_concat (eq_concat_of_getLast? hsame.1)
    refine ⟨rfl, rfl, Or.inr (Or.inl ⟨hne, Or.inr ⟨?_, Or.inl ?_⟩, rfl⟩)⟩
    · rw [hend, List.getLast?_concat]
    · rw [hend, List.dropLast_concat, hsame.2]
      unfold bucketOf
      rw [← not_not.mp hp]
      exact prefixSplit_append start
  · cases h
    have hne : endKey ≠ [] := fun he => hempty (List.isEmpty_iff.mpr he)
    exact ⟨rfl, rfl, Or.inr (Or.inr (Or.inr ⟨hne, hzero,
      not_zeroEnd_of_same (not_not.mp hp) hsame, (not_not.mp hp).symm, rfl⟩))⟩

/-- The keys of an accepted request with an end key. -/
theorem requests_iff {start endKey pfx : Bytes} {lo hi : Bound Bytes}
    (h : prefixAndRangeOfKey start endKey = .ok (pfx, lo, hi)) (hne : endKey ≠ []) (k : Bytes) :
    requests start endKey k ↔ bucketOf k = bucketOf start ∧ start ≤ k ∧
      (endKey = [0] ∨ ZeroEnd start endKey ∨ k < endKey) := by
  rw [requests_of_accepted h]
  unfold selects
  obtain ⟨rfl, rfl, hcases⟩ := accepted_cases h
  apply and_congr_right
  intro hk
  have hlo : Bound.above (.included (prefixSplit start).2) (prefixSplit k).2 ↔ start ≤ k := by
    rw [← suffix_le_iff hk.symm]
    exact decide_eq_true_iff
  rw [hlo]
  apply and_congr_right
  intro hle
  rcases hcases with ⟨he, _⟩ | ⟨_, hz, rfl⟩ | ⟨_, _, _, ⟨p, hp, he⟩, rfl⟩ | ⟨_, h0, hz, hp, rfl⟩
  · exact absurd he hne
  · exact iff_of_true rfl (or_assoc.mp (Or.inl hz))
  · -- every key of the bucket is below the end
    refine iff_of_true rfl (Or.inr (Or.inr ?_))
    rw [he]
    apply ((directory_iff p k).mpr ?_).2
    rw [← hp, ← hk]
    exact bucketOf_begins k
  · have hlt : Bound.below (.excluded (prefixSplit endKey).2) (prefixSplit k).2 ↔ k < endKey := by
      rw [← suffix_lt_iff (hk.trans hp.symm)]
      exact decide_eq_true_iff
    rw [hlt]
    constructor
    · intro hend
      exact Or.inr (Or.inr hend)
    · intro hend
      exact (hend.resolve_left h0).resolve_left hz

theorem requests_single (start k : Bytes) : requests start [] k ↔ k = start := by
  rw [requests_of_accepted (prefixAndRangeOfKey_single start)]
  exact selects_single start k

/-- The key `/registry/p/x`. -/
def podKey : Bytes := registryRoot ++ [112, 47, 120]

/-! ### Agreement with the key range of the API -/

/-- No key from the bucket's start on lies before a zero end. -/
theorem ZeroEnd.not_lt {start endKey k : Bytes} (h : ZeroEnd start endKey)
    (hk : start ++ [0] ≤ k) : ¬k < endKey := by
  obtain ⟨hlast, h⟩ := h
  rw [eq_concat_of_getLast? hlast]
  rcases h with h | h
  · rw [h]
    exact List.not_lt.mpr hk
  · -- the slash of the bucket is above the zero byte
    have hslash : endKey.dropLast ++ [0] < endKey.dropLast ++ [47] :=
      (append_lt_append_iff _ _ _).mpr (by decide)
    have hstart : endKey.dropLast ++ [47] ≤ start := by
      rw [← h]
      exact (bucketOf_begins start).le
    have hconcat : start ≤ start ++ [0] := List.le_append_left
    apply List.not_lt.mpr
    exact List.le_trans (List.le_of_lt hslash) (List.le_trans hstart (List.le_trans hconcat hk))

/-- An accepted request decides a key as the API does, unless the key lies in the
range but in another bucket, or behind a zero end. -/
theorem requests_agrees_iff {start endKey pfx : Bytes} {lo hi : Bound Bytes}
    (h : prefixAndRangeOfKey start endKey = .ok (pfx, lo, hi)) (k : Bytes) :
    (requests start endKey k ↔ etcdRange start endKey k) ↔
      (etcdRange start endKey k → bucketOf k = bucketOf start) ∧
        (endKey ≠ [0] → ZeroEnd start endKey → bucketOf k = bucketOf start → start ≤ k →
          k < endKey) := by
  by_cases hne : endKey = []
  · subst hne
    have hz : ¬ZeroEnd start [] := fun hz => by simpa using hz.1
    have hrange : etcdRange start [] k ↔ k = start := by
      unfold etcdRange
      rw [if_pos rfl]
    rw [requests_single, hrange]
    refine iff_of_true Iff.rfl ⟨?_, fun _ hzero => absurd hzero hz⟩
    intro hk
    rw [hk]
  · rw [requests_iff h hne]
    unfold etcdRange
    rw [if_neg hne]
    by_cases h0 : endKey = [0]
    · simp only [h0, ne_eq, not_true_eq_false, true_or, and_true, false_implies]
      exact and_iff_right_iff_imp
    · simp only [h0, ne_eq, not_false_eq_true, false_or, true_implies]
      constructor
      · intro hiff
        refine ⟨fun hk => (hiff.mpr hk).1, ?_⟩
        intro hz hb hle
        exact (hiff.mp ⟨hb, hle, Or.inl hz⟩).2
      · intro hcond
        constructor
        · intro hk
          obtain ⟨hb, hle, hend⟩ := hk
          exact ⟨hle, hend.elim (fun hz => hcond.2 hz hb hle) id⟩
        · intro hk
          exact ⟨hcond.1 hk, hk.1, Or.inr hk.2⟩

/-- An accepted request selects exactly the keys of its range when it has no zero
end and its range lies in one bucket. -/
theorem requests_iff_etcdRange {start endKey pfx : Bytes} {lo hi : Bound Bytes}
    (h : prefixAndRangeOfKey start endKey = .ok (pfx, lo, hi)) :
    (∀ k, requests start endKey k ↔ etcdRange start endKey k) ↔
      (endKey = [0] ∨ ¬ZeroEnd start endKey) ∧
        ∀ k, etcdRange start endKey k → bucketOf k = bucketOf start := by
  simp only [requests_agrees_iff h, forall_and]
  rw [and_comm]
  apply and_congr_left
  intro _
  constructor
  · intro hend
    by_contra hz
    rw [not_or, not_not] at hz
    have hlt := hend _ hz.1 hz.2 (bucketOf_concat_zero start) List.le_append_left
    exact hz.2.not_lt (List.le_refl _) hlt
  · intro hz k h0 hzero
    exact absurd hzero (hz.resolve_left h0)

/-! ### Lists of one directory -/

/-- A list of a directory in the bucket of one resource is accepted, and its bounds
are in order. -/
theorem accepted_of_directory {d q start : Bytes} (hd : FullDepth d) (hq : d <+: q)
    (hslash : q.getLast? = some 47) (hs : q <+: start) :
    ∃ lo hi, prefixAndRangeOfKey start (q.dropLast ++ [48]) = .ok (d, lo, hi) ∧
      Bound.inverted lo hi = false := by
  obtain ⟨r, rfl⟩ := hq
  obtain ⟨t, rfl⟩ := hs
  have hstart : prefixSplit (d ++ r ++ t) = (d, r ++ t) := by
    rw [List.append_assoc]
    exact hd.prefixSplit_append _
  have hempty (p : Bytes) : (p ++ [48]).isEmpty = false := by simp
  unfold prefixAndRangeOfKey
  rw [hstart]
  dsimp only
  rw [if_neg (by rw [hempty]; decide), if_neg (concat_ne_zero (by decide))]
  rcases List.eq_nil_or_concat r with rfl | ⟨r, b, rfl⟩
  · -- the bucket itself: its end falls into the bucket above
    obtain ⟨parent, leaf, rfl, hne, hend⟩ := hd.prefixSplit_sibling (b := 48) (by decide)
    rw [List.append_nil, List.dropLast_concat, hend, List.getLast?_concat, List.dropLast_concat]
    dsimp only
    rw [if_pos hne, if_pos (hempty _), if_pos ⟨Or.inl rfl, rfl⟩]
    exact ⟨_, _, rfl, rfl⟩
  · -- a directory below: its end stays in the bucket
    rw [List.concat_eq_append, ← List.append_assoc] at hslash ⊢
    rw [List.getLast?_concat] at hslash
    cases Option.some.inj hslash
    rw [List.dropLast_concat, List.append_assoc d r [48], hd.prefixSplit_append,
      List.getLast?_concat]
    dsimp only
    rw [if_neg (not_not.mpr rfl), if_neg (by simp)]
    refine ⟨_, _, rfl, ?_⟩
    have hlt : r ++ [47] ++ t < r ++ [48] := by
      apply ((directory_iff r _).mpr ?_).2
      exact List.prefix_append _ _
    exact decide_eq_false (List.not_lt.mpr (List.le_of_lt hlt))

/-- The range of such a list is made of keys of the directory. -/
theorem extends_of_directory {q start k : Bytes} (hslash : q.getLast? = some 47)
    (hs : q <+: start) (hle : start ≤ k) (hlt : k < q.dropLast ++ [48]) : q <+: k := by
  have hq := eq_concat_of_getLast? hslash
  rw [hq]
  apply (directory_iff _ k).mp
  refine ⟨?_, hlt⟩
  rw [← hq]
  exact List.le_trans hs.le hle

theorem requests_directory {d q start : Bytes} (hd : FullDepth d) (hq : d <+: q)
    (hslash : q.getLast? = some 47) (hs : q <+: start) (k : Bytes) :
    requests start (q.dropLast ++ [48]) k ↔ start ≤ k ∧ k < q.dropLast ++ [48] := by
  obtain ⟨lo, hi, ha, _⟩ := accepted_of_directory hd hq hslash hs
  have hbucket {j : Bytes} (hj : q <+: j) : bucketOf j = d := by
    obtain ⟨u, rfl⟩ := hq.trans hj
    unfold bucketOf
    rw [hd.prefixSplit_append]
  have h0 : q.dropLast ++ [48] ≠ [0] := concat_ne_zero (by decide)
  rw [requests_iff ha (by simp)]
  constructor
  · intro h
    obtain ⟨_, hle, hend⟩ := h
    exact ⟨hle, (hend.resolve_left h0).resolve_left (not_zeroEnd_of_last rfl (by decide))⟩
  · intro h
    refine ⟨?_, h.1, Or.inr (Or.inr h.2)⟩
    rw [hbucket (extends_of_directory hslash hs h.1 h.2), hbucket hs]

/-- A list of a directory of one resource is accepted with bounds in order and
selects exactly the keys of its range. -/
theorem list_range_exact {d q start : Bytes} (hd : FullDepth d) (hq : d <+: q)
    (hslash : q.getLast? = some 47) (hs : q <+: start) :
    ∃ lo hi, prefixAndRangeOfKey start (q.dropLast ++ [48]) = .ok (d, lo, hi) ∧
      Bound.inverted lo hi = false ∧
      ∀ k, selects d lo hi k ↔ start ≤ k ∧ k < q.dropLast ++ [48] := by
  obtain ⟨lo, hi, ha, hb⟩ := accepted_of_directory hd hq hslash hs
  refine ⟨lo, hi, ha, hb, ?_⟩
  intro k
  rw [← requests_of_accepted ha]
  exact requests_directory hd hq hslash hs k

theorem list_range_exact_pods :
    ∃ lo hi, prefixAndRangeOfKey (registryRoot ++ [112] ++ [47] ++ [110, 47] ++ [97, 0])
        ((registryRoot ++ [112] ++ [47] ++ [110, 47]).dropLast ++ [48]) =
          .ok (registryRoot ++ [112] ++ [47], lo, hi) ∧
      Bound.inverted lo hi = false ∧
      ∀ k, selects (registryRoot ++ [112] ++ [47]) lo hi k ↔
        registryRoot ++ [112] ++ [47] ++ [110, 47] ++ [97, 0] ≤ k ∧
          k < (registryRoot ++ [112] ++ [47] ++ [110, 47]).dropLast ++ [48] :=
  list_range_exact (FullDepth.resource (by decide) (by decide)) (List.prefix_append _ _) (by decide)
    (List.prefix_append _ _)

end MemEtcd
