import Mathlib.Tactic

/-! A reorder buffer. Items numbered from 1 arrive in any order; an item is
released as soon as all items with smaller numbers have been. Items that arrive
early wait in a spool. -/
namespace ReorderBuffer

variable {J : Type*} (seq : J → ℤ)

/-- The numbers from 1 to `n`. -/
def upTo (n : ℕ) : List ℤ := (List.range n).map (fun i : ℕ => (i : ℤ) + 1)

theorem mem_upTo {n : ℕ} {x : ℤ} : x ∈ upTo n ↔ 1 ≤ x ∧ x ≤ n := by
  unfold upTo
  simp only [List.mem_map, List.mem_range]
  constructor
  · rintro ⟨i, hi, rfl⟩
    omega
  · rintro ⟨h1, h2⟩
    exact ⟨(x - 1).toNat, by omega, by omega⟩

theorem upTo_succ (n : ℕ) : upTo (n + 1) = upTo n ++ [(n : ℤ) + 1] := by
  simp [upTo, List.range_succ]

@[simp] theorem length_upTo (n : ℕ) : (upTo n).length = n := by simp [upTo]

theorem take_upTo {m n : ℕ} (h : m ≤ n) : (upTo n).take m = upTo m := by
  unfold upTo
  rw [← List.map_take, List.take_range, Nat.min_eq_left h]

theorem sorted_upTo (n : ℕ) : (upTo n).Pairwise (· < ·) := by
  apply List.pairwise_map.mpr
  apply List.pairwise_lt_range.imp
  intro a b h
  omega

theorem nodup_upTo (n : ℕ) : (upTo n).Nodup := (sorted_upTo n).imp (fun h => ne_of_lt h)

/-- The number of an item says its place. -/
theorem seq_of_getElem? {l : List J} {n i : ℕ} (h : l.map seq = upTo n) {a : J}
    (ha : l[i]? = some a) : seq a = i + 1 := by
  have hi : i < n := by
    have hlen := congrArg List.length h
    rw [List.length_map, length_upTo] at hlen
    rw [← hlen]
    exact (List.getElem?_eq_some_iff.mp ha).1
  have hnum := congrArg (fun l => l[i]?) h
  simp only [upTo, List.getElem?_map, ha, Option.map_some, List.getElem?_range hi] at hnum
  exact Option.some.inj hnum

/-- Two arrangements of the same items by their numbers are equal. -/
theorem eq_of_numbered {l l' : List J} {n : ℕ} (hp : l.Perm l') (h : l.map seq = upTo n)
    (h' : l'.map seq = upTo n) : l = l' := by
  have hs : l.Pairwise (fun a b => seq a < seq b) := by
    rw [← List.pairwise_map, h]
    exact sorted_upTo n
  have hs' : l'.Pairwise (fun a b => seq a < seq b) := by
    rw [← List.pairwise_map, h']
    exact sorted_upTo n
  apply hp.eq_of_pairwise ?_ hs hs'
  intro a b _ _ hab hba
  omega

/-- Ascending numbers that leave no room for a gap. -/
theorem eq_upTo {l : List ℤ} (hs : l.Pairwise (· < ·)) (hb : ∀ x ∈ l, 1 ≤ x ∧ x ≤ l.length) :
    l = upTo l.length := by
  have hnodup : l.Nodup := hs.imp (fun h => ne_of_lt h)
  have hsub : l ⊆ upTo l.length := fun x hx => mem_upTo.mpr (hb x hx)
  have hperm : l.Perm (upTo l.length) :=
    (hnodup.subperm hsub).perm_of_length_le (length_upTo l.length).le
  apply hperm.eq_of_pairwise ?_ hs (sorted_upTo l.length)
  intro a b _ _ hab hba
  omega

/-- Of numbered items, some that are themselves numbered from 1 are the first ones. -/
theorem eq_take_of_subset {l k : List J} {m n : ℕ} (h : l.map seq = upTo m)
    (hk : k.map seq = upTo n) (hsub : k ⊆ l) : k = l.take n := by
  have hlen : l.length = m := by simpa using congrArg List.length h
  have hlen' : k.length = n := by simpa using congrArg List.length hk
  have hnodup {k : List J} (hk : k.map seq = upTo n) : k.Nodup :=
    List.Nodup.of_map seq (hk ▸ nodup_upTo n)
  have hle : n ≤ m := by
    rw [← hlen, ← hlen']
    exact ((hnodup hk).subperm hsub).length_le
  have htake : (l.take n).map seq = upTo n := by rw [List.map_take, h, take_upTo hle]
  -- an item of either part is one of `l` whose number is at most `n`
  have hmem {k : List J} (hsub : k ⊆ l) (hk : k.map seq = upTo n) (a : J) :
      a ∈ k ↔ a ∈ l ∧ seq a ∈ upTo n := by
    rw [← hk]
    constructor
    · intro ha
      exact ⟨hsub ha, List.mem_map_of_mem ha⟩
    · rintro ⟨ha, hseq⟩
      obtain ⟨b, hb, hab⟩ := List.mem_map.mp hseq
      rwa [← List.inj_on_of_nodup_map (h ▸ nodup_upTo m) (hsub hb) ha hab]
  refine eq_of_numbered seq ?_ hk htake
  apply (List.perm_ext_iff_of_nodup (hnodup hk) (hnodup htake)).mpr
  intro a
  rw [hmem hsub hk, hmem (List.take_subset n l) htake]

/-- So a part that is itself numbered from 1 is an initial one. -/
theorem filter_eq_take {l : List J} {p : J → Bool} {m n : ℕ} (h : l.map seq = upTo m)
    (hp : (l.filter p).map seq = upTo n) : l.filter p = l.take n :=
  eq_take_of_subset seq h hp (List.filter_subset_self l)

def push (j : J) (spool : List J) : List J :=
  List.orderedInsert (fun a b => seq a ≤ seq b) j spool

/-- Releases the items of the spool that follow on number `next` without a gap:
the released items, the next number and the rest of the spool. -/
def drain : List J → ℤ → List J × ℤ × List J
  | [], next => ([], next, [])
  | j :: spool, next =>
    if seq j = next then
      let (released, next, rest) := drain spool (next + 1)
      (j :: released, next, rest)
    else ([], next, j :: spool)

/-- The state of a buffer: what has arrived was released in order or waits above
the next number. -/
structure Inv (arrived released spool : List J) (next : ℤ) : Prop where
  perm : arrived.Perm (released ++ spool)
  order : released.map seq = upTo released.length
  next_eq : next = released.length + 1
  sorted : spool.Pairwise (fun a b => seq a < seq b)
  above : ∀ j ∈ spool, next < seq j

theorem inv_nil : Inv seq [] [] [] 1 :=
  ⟨List.Perm.refl _, rfl, rfl, List.Pairwise.nil, by simp⟩

variable {seq}

theorem push_perm (j : J) (spool : List J) : (push seq j spool).Perm (j :: spool) :=
  List.perm_orderedInsert _ j spool

theorem push_sorted {j : J} {spool : List J} (h : spool.Pairwise (fun a b => seq a < seq b))
    (hj : seq j ∉ spool.map seq) : (push seq j spool).Pairwise (fun a b => seq a < seq b) := by
  induction spool with
  | nil => simp [push]
  | cons a spool ih =>
    obtain ⟨ha, hs⟩ := List.pairwise_cons.mp h
    rw [List.map_cons, List.mem_cons, not_or] at hj
    unfold push at ih ⊢
    rw [List.orderedInsert_cons]
    split_ifs with hle
    · refine List.pairwise_cons.mpr ⟨?_, h⟩
      intro b hb
      have hlt : seq j < seq a := lt_of_le_of_ne hle hj.1
      rcases List.mem_cons.mp hb with rfl | hb
      · exact hlt
      · exact hlt.trans (ha b hb)
    · refine List.pairwise_cons.mpr ⟨?_, ih hs hj.2⟩
      intro b hb
      rcases List.mem_cons.mp ((List.perm_orderedInsert _ j spool).mem_iff.mp hb) with rfl | hb
      · omega
      · exact ha b hb

/-- A drain splits the spool. -/
theorem drain_split (spool : List J) (next : ℤ) :
    (drain seq spool next).1 ++ (drain seq spool next).2.2 = spool := by
  induction spool generalizing next with
  | nil => rfl
  | cons j spool ih =>
    unfold drain
    split_ifs
    · exact congrArg (j :: ·) (ih (next + 1))
    · rfl

/-- Every released item takes a number. -/
theorem drain_next (spool : List J) (next : ℤ) :
    (drain seq spool next).2.1 = next + (drain seq spool next).1.length := by
  induction spool generalizing next with
  | nil => exact (add_zero next).symm
  | cons j spool ih =>
    unfold drain
    split_ifs
    · change (drain seq spool (next + 1)).2.1 =
        next + ((drain seq spool (next + 1)).1.length + 1 : ℕ)
      rw [ih (next + 1)]
      push_cast
      ring
    · exact (add_zero next).symm

/-- The items that a drain releases continue the order. -/
theorem drain_spec {released spool : List J} {next : ℤ}
    (ho : released.map seq = upTo released.length) (hn : next = released.length + 1)
    (hs : spool.Pairwise (fun a b => seq a < seq b)) (ha : ∀ j ∈ spool, next ≤ seq j) :
    spool = (drain seq spool next).1 ++ (drain seq spool next).2.2 ∧
      (released ++ (drain seq spool next).1).map seq =
        upTo (released ++ (drain seq spool next).1).length ∧
      (drain seq spool next).2.1 = (released ++ (drain seq spool next).1).length + 1 ∧
      ∀ j ∈ (drain seq spool next).2.2, (drain seq spool next).2.1 < seq j := by
  induction spool generalizing released next with
  | nil => simp [drain, ho, hn]
  | cons j spool ih =>
    obtain ⟨hj, hs'⟩ := List.pairwise_cons.mp hs
    unfold drain
    split_ifs with hnext
    · have ho' : (released ++ [j]).map seq = upTo (released ++ [j]).length := by
        rw [List.map_append, ho, List.length_append, List.length_singleton, upTo_succ,
          List.map_singleton, hnext, hn]
      have ha' : ∀ k ∈ spool, next + 1 ≤ seq k := by
        intro k hk
        have := hj k hk
        omega
      have hn' : next + 1 = ((released ++ [j]).length : ℤ) + 1 := by
        rw [List.length_append, List.length_singleton]
        omega
      obtain ⟨h1, h2, h3, h4⟩ := ih ho' hn' hs' ha'
      simp only [List.append_assoc, List.singleton_append] at h2 h3
      refine ⟨?_, h2, h3, h4⟩
      rw [List.cons_append, ← h1]
    · -- the head of the spool leaves a gap, and so do all items behind it
      refine ⟨rfl, by simpa using ho, by simpa using hn, ?_⟩
      have hgap : next < seq j := lt_of_le_of_ne (ha j List.mem_cons_self) (Ne.symm hnext)
      intro k hk
      rcases List.mem_cons.mp hk with rfl | hk
      · exact hgap
      · exact hgap.trans (hj k hk)

namespace Inv

variable {arrived released spool : List J} {next : ℤ}

/-- Only the arrivals as a whole matter, not their order. -/
theorem normalize (h : Inv seq arrived released spool next) :
    Inv seq (released ++ spool) released spool next :=
  ⟨List.Perm.refl _, h.order, h.next_eq, h.sorted, h.above⟩

/-- A new item is not below the next number. -/
theorem next_le (h : Inv seq arrived released spool next) {j : J} (h1 : 1 ≤ seq j)
    (hj : seq j ∉ arrived.map seq) : next ≤ seq j := by
  by_contra hlt
  have hmem : seq j ∈ released.map seq := by
    have hn := h.next_eq
    rw [h.order, mem_upTo]
    omega
  obtain ⟨i, hi, he⟩ := List.mem_map.mp hmem
  exact hj (List.mem_map.mpr ⟨i, h.perm.mem_iff.mpr (List.mem_append_left _ hi), he⟩)

/-- An early item is spooled. -/
theorem push (h : Inv seq arrived released spool next) {j : J} (hlt : next < seq j)
    (hj : seq j ∉ arrived.map seq) :
    Inv seq (arrived ++ [j]) released (push seq j spool) next := by
  have hspool : seq j ∉ spool.map seq := by
    intro hm
    obtain ⟨i, hi, he⟩ := List.mem_map.mp hm
    exact hj (List.mem_map.mpr ⟨i, h.perm.mem_iff.mpr (List.mem_append_right _ hi), he⟩)
  refine ⟨?_, h.order, h.next_eq, push_sorted h.sorted hspool, ?_⟩
  · calc List.Perm (arrived ++ [j]) (released ++ spool ++ [j]) := h.perm.append_right [j]
      List.Perm _ (released ++ j :: spool) := by
        rw [List.append_assoc]
        exact (List.perm_append_singleton j spool).append_left released
      List.Perm _ (released ++ ReorderBuffer.push seq j spool) :=
        (push_perm j spool).symm.append_left released
  · intro i hi
    rcases List.mem_cons.mp ((push_perm j spool).mem_iff.mp hi) with rfl | hi
    · exact hlt
    · exact h.above i hi

/-- The awaited item is released, and with it what it was holding up. -/
theorem release (h : Inv seq arrived released spool next) {j : J} (hj : seq j = next) :
    Inv seq (arrived ++ [j]) (released ++ j :: (drain seq spool (next + 1)).1)
      (drain seq spool (next + 1)).2.2 (drain seq spool (next + 1)).2.1 := by
  have hn := h.next_eq
  have ho : (released ++ [j]).map seq = upTo (released ++ [j]).length := by
    rw [List.map_append, h.order, List.length_append, List.length_singleton, upTo_succ,
      List.map_singleton, hj, hn]
  have hn' : next + 1 = ((released ++ [j]).length : ℤ) + 1 := by
    rw [List.length_append, List.length_singleton]
    omega
  obtain ⟨h1, h2, h3, h4⟩ := drain_spec ho hn' h.sorted
    (fun i hi => Int.add_one_le_of_lt (h.above i hi))
  simp only [List.append_assoc, List.singleton_append] at h2 h3
  refine ⟨?_, h2, h3, ?_, h4⟩
  · calc List.Perm (arrived ++ [j]) (released ++ spool ++ [j]) := h.perm.append_right [j]
      List.Perm _ (released ++ j :: spool) := by
        rw [List.append_assoc]
        exact (List.perm_append_singleton j spool).append_left released
      _ = (released ++ j :: (drain seq spool (next + 1)).1) ++
          (drain seq spool (next + 1)).2.2 := by
        rw [List.append_assoc, List.cons_append, ← h1]
  · exact (List.pairwise_append.mp (h1 ▸ h.sorted)).2.1

/-- Once all numbers up to `n` have arrived, everything has been released. -/
theorem complete (h : Inv seq arrived released spool next) {n : ℕ}
    (hall : (arrived.map seq).Perm (upTo n)) : spool = [] ∧ released.length = n := by
  have hn := h.next_eq
  have hspool : spool = [] := by
    apply List.eq_nil_iff_forall_not_mem.mpr
    intro j hj
    have habove := h.above j hj
    have hle : seq j ≤ n := by
      have hm : seq j ∈ arrived.map seq :=
        List.mem_map_of_mem (h.perm.mem_iff.mpr (List.mem_append_right _ hj))
      exact (mem_upTo.mp (hall.mem_iff.mp hm)).2
    -- the next number has arrived, but it is neither released nor in the spool
    obtain ⟨i, hi, he⟩ := List.mem_map.mp (hall.mem_iff.mpr (mem_upTo.mpr
      (show 1 ≤ next ∧ next ≤ n by omega)))
    rcases List.mem_append.mp (h.perm.mem_iff.mp hi) with hi | hi
    · have hm : next ∈ released.map seq := List.mem_map.mpr ⟨i, hi, he⟩
      rw [h.order, mem_upTo] at hm
      omega
    · have := h.above i hi
      omega
  have hlen := (h.perm.map seq).symm.trans hall
  rw [hspool, List.append_nil] at hlen
  exact ⟨hspool, by simpa using hlen.length_eq⟩

/-- The numbers that were released are the longest initial segment of those that
have arrived. -/
theorem greatest (h : Inv seq arrived released spool next) :
    IsGreatest {m : ℕ | ∀ r ∈ upTo m, r ∈ arrived.map seq} released.length := by
  have hmem (r : ℤ) : r ∈ arrived.map seq ↔ r ∈ upTo released.length ∨ r ∈ spool.map seq := by
    rw [(h.perm.map seq).mem_iff, List.map_append, List.mem_append, h.order]
  constructor
  · intro r hr
    exact (hmem r).mpr (Or.inl hr)
  · intro m hm
    by_contra hlt
    have hn := h.next_eq
    rcases (hmem next).mp (hm next (mem_upTo.mpr (by omega))) with hin | hin
    · rw [mem_upTo] at hin
      omega
    · obtain ⟨j, hj, he⟩ := List.mem_map.mp hin
      have := h.above j hj
      omega

/-- What has been released, and what waits, told by the numbers. -/
theorem split (h : Inv seq arrived released spool next) :
    released.Perm (arrived.filter (fun j => seq j ≤ released.length)) ∧
      spool.Perm (arrived.filter (fun j => released.length < seq j)) := by
  have hreleased : ∀ j ∈ released, seq j ≤ released.length := by
    intro j hj
    have hm : seq j ∈ upTo released.length := h.order ▸ List.mem_map_of_mem hj
    exact (mem_upTo.mp hm).2
  have hspool : ∀ j ∈ spool, (released.length : ℤ) < seq j := by
    intro j hj
    have := h.above j hj
    have := h.next_eq
    omega
  constructor
  · refine List.Perm.trans ?_ (h.perm.filter _).symm
    rw [List.filter_append, List.filter_eq_self.mpr (by simpa using hreleased),
      List.filter_eq_nil_iff.mpr (by simpa using hspool), List.append_nil]
  · refine List.Perm.trans ?_ (h.perm.filter _).symm
    rw [List.filter_append, List.filter_eq_nil_iff.mpr (by simpa using hreleased),
      List.filter_eq_self.mpr (by simpa using hspool), List.nil_append]

end Inv
end ReorderBuffer
