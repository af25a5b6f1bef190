import MemEtcd.LexInterval
import MemEtcd.StoreUpdate

/-! What `range` returns without a limit: the values in force at the requested
revision of exactly the items its bucket lists within the bounds, by ascending
key. -/
namespace MemEtcd

open Std (ExtTreeMap)

theorem compare_bytes_lt (a b : Bytes) : compare a b = .lt ↔ a < b := by
  change List.compareLex compare a b = .lt ↔ a < b
  induction a generalizing b with
  | nil => cases b <;> simp [List.compareLex_nil_nil, List.compareLex_nil_cons]
  | cons x a ih =>
    cases b with
    | nil => simp [List.compareLex_cons_nil]
    | cons y b =>
      rw [List.compareLex_cons_cons, List.cons_lt_cons_iff, Ordering.then_eq_lt, ih b,
        Std.compare_eq_lt, Std.LawfulEqCmp.compare_eq_iff_eq]

/-- Lists of key-values by strictly ascending key are determined by their
members. -/
theorem kvs_ext {l l' : List KeyValue} (h : l.Pairwise (fun a b => a.key < b.key))
    (h' : l'.Pairwise (fun a b => a.key < b.key)) (hm : ∀ kv, kv ∈ l ↔ kv ∈ l') : l = l' := by
  have hirr (a : KeyValue) : ¬a.key < a.key := List.lt_irrefl a.key
  have hn (l : List KeyValue) (hl : l.Pairwise (fun a b => a.key < b.key)) : l.Nodup := by
    apply hl.imp
    intro a b hab he
    rw [he] at hab
    exact hirr b hab
  have hp : l.Perm l' := (List.perm_ext_iff_of_nodup (hn l h) (hn l' h')).mpr hm
  apply hp.eq_of_pairwise ?_ h h'
  intro a b _ _ hab hba
  exact absurd (List.lt_trans hab hba) (hirr a)

/-- A key belongs to the bucket and the bounds of a request. -/
def selects (pfx : Bytes) (lo hi : Bound Bytes) (k : Bytes) : Prop :=
  (prefixSplit k).1 = pfx ∧ lo.above (prefixSplit k).2 ∧ hi.below (prefixSplit k).2

instance (pfx : Bytes) (lo hi : Bound Bytes) (k : Bytes) : Decidable (selects pfx lo hi k) :=
  inferInstanceAs (Decidable ((prefixSplit k).1 = pfx ∧ lo.above (prefixSplit k).2 ∧
    hi.below (prefixSplit k).2))

/-- A key belongs to the range of an accepted request. -/
def requests (start endKey k : Bytes) : Prop :=
  match prefixAndRangeOfKey start endKey with
  | .ok (pfx, lo, hi) => selects pfx lo hi k
  | .error _ => False

theorem requests_of_accepted {start endKey pfx : Bytes} {lo hi : Bound Bytes}
    (ha : prefixAndRangeOfKey start endKey = .ok (pfx, lo, hi)) (k : Bytes) :
    requests start endKey k ↔ selects pfx lo hi k := by
  unfold requests
  rw [ha]

theorem not_requests_of_error {start endKey : Bytes} {e : Status}
    (ha : prefixAndRangeOfKey start endKey = .error e) (k : Bytes) : ¬requests start endKey k := by
  unfold requests
  rw [ha]
  exact id

/-- Inverted bounds select nothing. -/
theorem not_selects_of_inverted {pfx : Bytes} {lo hi : Bound Bytes}
    (h : Bound.inverted lo hi = true) (k : Bytes) : ¬selects pfx lo hi k := by
  rintro ⟨_, hlo, hhi⟩
  unfold Bound.inverted at h
  have hno : ∀ a b x : Bytes, a ≤ x → x ≤ b → ¬b < a := fun a b x hax hxb =>
    List.not_lt.mpr (List.le_trans hax hxb)
  cases lo <;> cases hi <;> simp only [Bound.above, Bound.below, decide_eq_true_eq] at h hlo hhi
  · exact hno _ _ _ hlo hhi h
  · exact hno _ _ _ hlo (List.le_of_lt hhi) h
  · contradiction
  · exact hno _ _ _ (List.le_of_lt hlo) hhi h
  · exact List.not_lt.mpr h (List.lt_trans hlo hhi)
  · contradiction
  · contradiction
  · contradiction
  · contradiction

namespace Store

/-- The result of `find_value_for_revision` on a positive revision. -/
def foundValue (s : Store) (item : TreeItem) (rev : ℤ) : Option Value :=
  if rev ≥ item.latestValue.modRevision then some item.latestValue
  else match binarySearch item.revisions rev with
    | .ok i => s.valuesByRevision.at? ((item.revisions.getD i 0).toNat - 1)
    | .error i =>
      if i > 0 then s.valuesByRevision.at? ((item.revisions.getD (i - 1) 0).toNat - 1) else none

/-- The value of an item that `range` reports at a positive revision. -/
def liveAt (s : Store) (item : TreeItem) (rev : ℤ) : Option Value :=
  (s.foundValue item rev).bind VersionLog.Cell.live

def live (s : Store) (key : Bytes) : Option Value :=
  (s.view key).latestValue.live

theorem liveAt_isSome {s : Store} {item : TreeItem} {rev : ℤ} {v : Value}
    (h : s.liveAt item rev = some v) : v.value.isSome := by
  obtain ⟨c, _, hc⟩ := Option.bind_eq_some_iff.mp h
  obtain ⟨rfl, hs⟩ := VersionLog.Cell.live_eq_some_iff.mp hc
  exact hs

theorem get_toOption (d : BlockDeque Value storeBlock) (i : ℕ) :
    (d.get i).toOption = d.at? i := by
  rw [BlockDeque.get_eq_at?]
  cases d.at? i <;> rfl

theorem findValueForRevision_eq (s : Store) (item : TreeItem) (rev : ℤ) :
    s.findValueForRevision item rev =
      if rev ≤ 0 then .error (.panic .revisionAssertion) else .ok (s.foundValue item rev) := by
  unfold findValueForRevision foundValue
  simp only [get_toOption]
  split_ifs
  · rfl
  · rfl
  · cases binarySearch item.revisions rev with
    | ok i => rfl
    | error i =>
      dsimp only
      split_ifs <;> rfl

theorem liveAt_of_le (s : Store) (item : TreeItem) {rev : ℤ}
    (h : item.latestValue.modRevision ≤ rev) :
    s.liveAt item rev = item.latestValue.live := by
  unfold liveAt foundValue
  rw [if_pos h, Option.bind_some]

theorem liveAt_placeholder (s : Store) (k : Bytes) {rev : ℤ} (h : 0 ≤ rev) :
    s.liveAt (TreeItem.placeholder k) rev = none := by
  rw [liveAt_of_le s _ (show (TreeItem.placeholder k).latestValue.modRevision ≤ rev from h)]
  rfl

def scanned (s : Store) (rev : ℤ) (pfx : Bytes) (entries : List (Bytes × ℕ)) : List KeyValue :=
  entries.filterMap (fun e =>
    (s.liveAt (s.deref e.2) rev).map (fun v => asMvccKeyValue v (pfx ++ e.1)))

/-- An index entry contributes at most one key-value. -/
theorem scanned_cons (s : Store) (rev : ℤ) (pfx suffix : Bytes) (a : ℕ)
    (entries : List (Bytes × ℕ)) :
    s.scanned rev pfx ((suffix, a) :: entries) =
      ((s.liveAt (s.deref a) rev).map (fun v => asMvccKeyValue v (pfx ++ suffix))).toList ++
        s.scanned rev pfx entries := by
  unfold scanned
  rw [List.filterMap_cons]
  cases s.liveAt (s.deref a) rev <;> rfl

theorem liveAt_of_found {s : Store} {item : TreeItem} {rev : ℤ} {v : Value}
    (h : s.foundValue item rev = some v) : s.liveAt item rev = v.live := by
  unfold liveAt
  rw [h, Option.bind_some]

/-- Without a limit the loop of `range` collects every live value. -/
theorem scan_unlimited (s : Store) {rev : ℤ} (hr : 0 < rev) (pfx : Bytes)
    (entries : List (Bytes × ℕ)) (results : List KeyValue) (count : ℕ) :
    s.scan rev none pfx entries results count =
      .ok (results ++ s.scanned rev pfx entries, count + (s.scanned rev pfx entries).length) := by
  induction entries generalizing results count with
  | nil => simp [scan, scanned]
  | cons e entries ih =>
    obtain ⟨suffix, a⟩ := e
    have hf : s.findValueForRevision (s.deref a) rev = .ok (s.foundValue (s.deref a) rev) := by
      rw [findValueForRevision_eq, if_neg (by omega)]
    simp only [scan, Option.any_none, Bool.false_eq_true, if_false, hf, bind, Except.bind]
    rw [scanned_cons]
    cases hv : s.foundValue (s.deref a) rev with
    | none =>
      simp only [liveAt, hv, ih, Option.bind_none]
      rfl
    | some v =>
      by_cases hl : v.value.isSome
      · have hlive : s.liveAt (s.deref a) rev = some v := by
          rw [liveAt_of_found hv, VersionLog.Cell.live_of_isSome hl]
        simp [hlive, hl, ih, Nat.add_assoc, Nat.add_comm]
      · have hlive : s.liveAt (s.deref a) rev = none := by
          rw [liveAt_of_found hv, VersionLog.Cell.live_of_isNone (by simpa using hl)]
        simp only [hlive, hl, ih]
        rfl

/-- At a revision that is not positive the assertion fails on the first item. -/
theorem scan_nonpos (s : Store) {rev : ℤ} (hr : rev ≤ 0) (limit : Option ℕ) (pfx : Bytes)
    (entries : List (Bytes × ℕ)) (results : List KeyValue) (count : ℕ) :
    s.scan rev limit pfx entries results count =
      if entries = [] then .ok (results, count) else .error (.panic .revisionAssertion) := by
  cases entries with
  | nil => rfl
  | cons e entries =>
    rw [if_neg (List.cons_ne_nil e entries)]
    simp only [scan, findValueForRevision, hasValueForRevision, hr, if_true, bind, Except.bind]
    split_ifs <;> rfl

def selected (s : Store) (pfx : Bytes) (lo hi : Bound Bytes) : List (Bytes × ℕ) :=
  (((s.prefixMap[pfx]?).getD ∅).toList).filter (fun e => lo.above e.1 && hi.below e.1)

theorem selected_of_no_bucket {s : Store} {pfx : Bytes} (h : s.prefixMap[pfx]? = none)
    (lo hi : Bound Bytes) : s.selected pfx lo hi = [] := by
  unfold selected
  rw [h]
  rfl

theorem selected_of_bucket {s : Store} {pfx : Bytes} {btree : ExtTreeMap Bytes ℕ compare}
    (h : s.prefixMap[pfx]? = some btree) (lo hi : Bound Bytes) :
    s.selected pfx lo hi = btree.toList.filter (fun e => lo.above e.1 && hi.below e.1) := by
  unfold selected
  rw [h]
  rfl

theorem mem_selected (s : Store) (pfx : Bytes) (lo hi : Bound Bytes) (t : Bytes) (a : ℕ) :
    (t, a) ∈ s.selected pfx lo hi ↔ s.bucket? pfx t = some a ∧ lo.above t ∧ hi.below t := by
  unfold selected bucket?
  rw [List.mem_filter, ExtTreeMap.mem_toList_iff_getElem?_eq_some]
  simp only [Bool.and_eq_true]
  cases s.prefixMap[pfx]? with
  | none => simp
  | some btree => rfl

theorem selected_sorted (s : Store) (pfx : Bytes) (lo hi : Bound Bytes) :
    (s.selected pfx lo hi).Pairwise (fun a b => a.1 < b.1) := by
  apply List.Pairwise.filter
  apply ExtTreeMap.ordered_keys_toList.imp
  intro a b h
  exact (compare_bytes_lt a.1 b.1).mp h

theorem keyValues_sorted (value : Bytes × ℕ → Option Value) (pfx : Bytes)
    {entries : List (Bytes × ℕ)} (h : entries.Pairwise (fun a b => a.1 < b.1)) :
    (entries.filterMap (fun e =>
      (value e).map (fun v => asMvccKeyValue v (pfx ++ e.1)))).Pairwise
        (fun a b => a.key < b.key) := by
  apply List.Pairwise.filterMap _ _ h
  intro a b hab x hx y hy
  obtain ⟨v, _, rfl⟩ := Option.map_eq_some_iff.mp hx
  obtain ⟨w, _, rfl⟩ := Option.map_eq_some_iff.mp hy
  exact (LexInterval.append_lt_append_iff pfx a.1 b.1).mpr hab

/-- The key-values that a request at a positive revision selects. -/
def kvsAt (s : Store) (pfx : Bytes) (lo hi : Bound Bytes) (rev : ℤ) : List KeyValue :=
  s.scanned rev pfx (s.selected pfx lo hi)

theorem kvsAt_sorted (s : Store) (pfx : Bytes) (lo hi : Bound Bytes) (rev : ℤ) :
    (s.kvsAt pfx lo hi rev).Pairwise (fun a b => a.key < b.key) :=
  keyValues_sorted (fun e => s.liveAt (s.deref e.2) rev) pfx (selected_sorted s pfx lo hi)

/-- `range` selects the keys that are in the bucket and live at the revision. -/
theorem mem_kvsAt {s : Store} (hs : s.WF) (pfx : Bytes) (lo hi : Bound Bytes) {rev : ℤ}
    (hr : 0 < rev) (kv : KeyValue) :
    kv ∈ s.kvsAt pfx lo hi rev ↔ ∃ k v, selects pfx lo hi k ∧
      s.liveAt (s.view k) rev = some v ∧ kv = asMvccKeyValue v k := by
  unfold kvsAt scanned
  rw [List.mem_filterMap]
  constructor
  · rintro ⟨⟨t, a⟩, he, hv⟩
    obtain ⟨v, hl, rfl⟩ := Option.map_eq_some_iff.mp hv
    obtain ⟨hb, hlo, hhi⟩ := (mem_selected s pfx lo hi t a).mp he
    obtain ⟨k, hk, ha⟩ := hs.listed pfx t a hb
    have hkey : pfx ++ t = k := by rw [← prefixSplit_append k, hk]
    refine ⟨k, v, ⟨by rw [hk], by rw [hk]; exact hlo, by rw [hk]; exact hhi⟩, ?_, by rw [hkey]⟩
    rw [view_of_owned ha]
    exact hl
  · rintro ⟨k, v, ⟨hp, hlo, hhi⟩, hl, rfl⟩
    cases ha : s.treeMap[k]? with
    | none =>
      rw [view_of_vacant ha, liveAt_placeholder s k hr.le] at hl
      contradiction
    | some a =>
      rw [view_of_owned ha] at hl
      refine ⟨((prefixSplit k).2, a), ?_, ?_⟩
      · rw [← hp]
        exact (mem_selected s _ lo hi _ a).mpr ⟨hs.indexed k a ha, hlo, hhi⟩
      · rw [hl, ← hp, prefixSplit_append]
        rfl

/-- An accepted request scans the entries it selects. -/
theorem range_eq_scan (s : Store) {start endKey pfx : Bytes} {lo hi : Bound Bytes} {rev : ℤ}
    (ha : prefixAndRangeOfKey start endKey = .ok (pfx, lo, hi))
    (hi' : Bound.inverted lo hi = false) (hl : rev ≤ s.currentRevision)
    (hc : ¬(rev > 0 ∧ rev ≤ s.compactedRevision)) (limit : Option ℕ) :
    s.range start endKey rev limit =
      (s.scan (if rev = 0 then s.currentRevision else rev) limit pfx (s.selected pfx lo hi)
        [] 0).map (fun r => ⟨r.1, s.currentRevision, r.2⟩) := by
  have hg : ¬rev > s.currentRevision := by omega
  unfold range
  simp only [if_neg hg, if_neg hc, ha]
  cases hb : s.prefixMap[pfx]? with
  | none =>
    rw [selected_of_no_bucket hb]
    rfl
  | some btree =>
    rw [selected_of_bucket hb]
    simp only [btreeRange, hi', Bool.false_eq_true, if_false, bind, Except.bind]
    cases s.scan (if rev = 0 then s.currentRevision else rev) limit pfx _ [] 0 <;> rfl

theorem range_eq (s : Store) {start endKey pfx : Bytes} {lo hi : Bound Bytes} {rev : ℤ}
    (ha : prefixAndRangeOfKey start endKey = .ok (pfx, lo, hi))
    (hi' : Bound.inverted lo hi = false) (hr : 0 < rev) (hl : rev ≤ s.currentRevision)
    (hc : s.compactedRevision < rev) :
    s.range start endKey rev none =
      .ok ⟨s.kvsAt pfx lo hi rev, s.currentRevision, (s.kvsAt pfx lo hi rev).length⟩ := by
  rw [range_eq_scan s ha hi' hl (by omega), if_neg (by omega), scan_unlimited s hr,
    List.nil_append, Nat.zero_add]
  rfl

theorem range_unaccepted (s : Store) {start endKey : Bytes} {e : Status} {rev : ℤ}
    (ha : prefixAndRangeOfKey start endKey = .error e) (hl : rev ≤ s.currentRevision)
    (hc : ¬(rev > 0 ∧ rev ≤ s.compactedRevision)) (limit : Option ℕ) :
    s.range start endKey rev limit = .error (.status e) := by
  have hg : ¬rev > s.currentRevision := by omega
  unfold range
  simp only [if_neg hg, if_neg hc, ha]

theorem range_inverted (s : Store) {start endKey pfx : Bytes} {lo hi : Bound Bytes} {rev : ℤ}
    (ha : prefixAndRangeOfKey start endKey = .ok (pfx, lo, hi))
    (hi' : Bound.inverted lo hi = true) (hl : rev ≤ s.currentRevision)
    (hc : ¬(rev > 0 ∧ rev ≤ s.compactedRevision)) (limit : Option ℕ) :
    s.range start endKey rev limit =
      if (s.prefixMap[pfx]?).isSome then .error (.panic .rangeBounds)
      else .ok ⟨[], s.currentRevision, 0⟩ := by
  have hg : ¬rev > s.currentRevision := by omega
  unfold range
  simp only [if_neg hg, if_neg hc, ha]
  cases s.prefixMap[pfx]? with
  | none => rfl
  | some btree =>
    simp only [btreeRange, hi', if_true, bind, Except.bind]
    rfl

/-- A key-value of a live cell determines the cell. -/
theorem asMvccKeyValue_injective {v w : Value} {k l : Bytes} (hv : v.value.isSome)
    (hw : w.value.isSome) (h : asMvccKeyValue v k = asMvccKeyValue w l) : v = w ∧ k = l := by
  obtain ⟨vc, vm, vv, vval⟩ := v
  obtain ⟨wc, wm, wv, wval⟩ := w
  obtain ⟨x, rfl⟩ := Option.isSome_iff_exists.mp hv
  obtain ⟨y, rfl⟩ := Option.isSome_iff_exists.mp hw
  cases h
  exact ⟨rfl, rfl⟩

/-- Two stores report the same for a request exactly if the requested keys are
alike. -/
theorem kvsAt_eq_iff {s t : Store} (hs : s.WF) (ht : t.WF) (pfx : Bytes) (lo hi : Bound Bytes)
    {rev : ℤ} (hr : 0 < rev) :
    t.kvsAt pfx lo hi rev = s.kvsAt pfx lo hi rev ↔
      ∀ k, selects pfx lo hi k → t.liveAt (t.view k) rev = s.liveAt (s.view k) rev := by
  constructor
  · intro h k hk
    have hmem : ∀ {u u' : Store} (_ : u.WF) (_ : u'.WF),
        u.kvsAt pfx lo hi rev = u'.kvsAt pfx lo hi rev → ∀ v,
        u.liveAt (u.view k) rev = some v → u'.liveAt (u'.view k) rev = some v := by
      intro u u' hu hu' he v hv
      have hin := (mem_kvsAt hu pfx lo hi hr _).mpr ⟨k, v, hk, hv, rfl⟩
      rw [he, mem_kvsAt hu' pfx lo hi hr] at hin
      obtain ⟨k', v', _, hv', heq⟩ := hin
      obtain ⟨rfl, rfl⟩ := asMvccKeyValue_injective (liveAt_isSome hv) (liveAt_isSome hv') heq
      exact hv'
    ext v
    exact ⟨hmem ht hs h v, hmem hs ht h.symm v⟩
  · intro h
    apply kvs_ext (kvsAt_sorted _ _ _ _ _) (kvsAt_sorted _ _ _ _ _)
    intro kv
    rw [mem_kvsAt ht pfx lo hi hr, mem_kvsAt hs pfx lo hi hr]
    constructor
    · rintro ⟨k, v, hk, hv, rfl⟩
      exact ⟨k, v, hk, h k hk ▸ hv, rfl⟩
    · rintro ⟨k, v, hk, hv, rfl⟩
      exact ⟨k, v, hk, (h k hk).symm ▸ hv, rfl⟩

/-- The same for `range` as a whole, on stores with the same buckets. -/
theorem range_eq_iff {s t : Store} (hs : s.WF) (ht : t.WF) (hp : t.prefixMap = s.prefixMap)
    (hcur : s.currentRevision = t.currentRevision) {rev : ℤ} (hr : 0 < rev)
    (hl : rev ≤ t.currentRevision) (hct : t.compactedRevision < rev)
    (hcs : s.compactedRevision < rev) (start endKey : Bytes) :
    t.range start endKey rev none = s.range start endKey rev none ↔
      ∀ k, requests start endKey k → t.liveAt (t.view k) rev = s.liveAt (s.view k) rev := by
  cases ha : prefixAndRangeOfKey start endKey with
  | error e =>
    rw [range_unaccepted t ha hl (by omega), range_unaccepted s ha (by omega) (by omega)]
    exact iff_of_true rfl (fun k hk => absurd hk (not_requests_of_error ha k))
  | ok acc =>
    obtain ⟨pfx, lo, hi⟩ := acc
    simp only [requests_of_accepted ha]
    by_cases hinv : Bound.inverted lo hi = true
    · rw [range_inverted t ha hinv hl (by omega), range_inverted s ha hinv (by omega) (by omega),
        hp, hcur]
      exact iff_of_true rfl (fun k hk => absurd hk (not_selects_of_inverted hinv k))
    · have hinv' : Bound.inverted lo hi = false := by simpa using hinv
      rw [range_eq t ha hinv' hr hl hct, range_eq s ha hinv' hr (by omega) hcs, hcur,
        ← kvsAt_eq_iff hs ht pfx lo hi hr]
      constructor
      · intro h
        exact congrArg RangeResult.kvs (Except.ok.inj h)
      · intro h
        rw [h]

theorem range_current (s : Store) {start endKey pfx : Bytes} {lo hi : Bound Bytes}
    (ha : prefixAndRangeOfKey start endKey = .ok (pfx, lo, hi))
    (hi' : Bound.inverted lo hi = false) :
    s.range start endKey 0 none =
      if 0 < s.currentRevision then
        .ok ⟨s.kvsAt pfx lo hi s.currentRevision, s.currentRevision,
          (s.kvsAt pfx lo hi s.currentRevision).length⟩
      else if s.selected pfx lo hi = [] then .ok ⟨[], 0, 0⟩
      else .error (.panic .revisionAssertion) := by
  have hnn : 0 ≤ s.currentRevision := Int.natCast_nonneg _
  rw [range_eq_scan s ha hi' hnn (by omega), if_pos rfl]
  split_ifs with hr hsel
  · rw [scan_unlimited s hr, List.nil_append, Nat.zero_add]
    rfl
  · rw [hsel, show s.currentRevision = 0 by omega]
    rfl
  · rw [scan_nonpos s (by omega), if_neg hsel]
    rfl

end Store
end MemEtcd
