import MemEtcd.StoreRuns

/-! The live state of a store: the values of its keys at the current revision.
It decides what a read of a single key returns and what a write leads to. -/
namespace MemEtcd

open VersionLog (Cell cells)

/-- The next version of a key depends on its live value only. -/
theorem next_eq_of_live (c : Value) (rev : ℤ) (value : Option Bytes) :
    c.next rev value = (c.live.getD Cell.blank).next rev value := by
  by_cases h : c.value.isSome
  · rw [Cell.live_of_isSome h, Option.getD_some]
  · have hn : c.value = none := by simpa using h
    rw [Cell.live_of_isNone hn]
    unfold Cell.next
    rw [hn]
    rfl

/-! ### Requests for one key -/

theorem prefixAndRangeOfKey_single (key : Bytes) :
    prefixAndRangeOfKey key [] =
      .ok ((prefixSplit key).1, .included (prefixSplit key).2, .included (prefixSplit key).2) := rfl

theorem inverted_single (suffix : Bytes) :
    Bound.inverted (.included suffix) (.included suffix) = false := by
  simp [Bound.inverted]

theorem selects_single (key k : Bytes) :
    selects (prefixSplit key).1 (.included (prefixSplit key).2) (.included (prefixSplit key).2) k ↔
      k = key := by
  unfold selects Bound.above Bound.below
  simp only [decide_eq_true_eq]
  constructor
  · rintro ⟨hp, hlo, hhi⟩
    have hs : (prefixSplit k).2 = (prefixSplit key).2 := List.le_antisymm hhi hlo
    exact prefixSplit_injective (Prod.ext hp hs)
  · rintro rfl
    exact ⟨rfl, List.le_refl _, List.le_refl _⟩

namespace Store

def kvsOf (key : Bytes) (v : Option Value) : List KeyValue :=
  (v.map (fun v => asMvccKeyValue v key)).toList

theorem kvsAt_single {s : Store} (hs : s.WF) (key : Bytes) {rev : ℤ} (hr : 0 < rev) :
    s.kvsAt (prefixSplit key).1 (.included (prefixSplit key).2) (.included (prefixSplit key).2) rev =
      kvsOf key (s.liveAt (s.view key) rev) := by
  apply kvs_ext (kvsAt_sorted _ _ _ _ _)
  · unfold kvsOf
    cases s.liveAt (s.view key) rev <;> simp
  · intro kv
    rw [mem_kvsAt hs _ _ _ hr]
    simp only [selects_single]
    unfold kvsOf
    constructor
    · rintro ⟨k, v, rfl, hv, rfl⟩
      rw [hv]
      simp
    · intro hkv
      cases hv : s.liveAt (s.view key) rev with
      | none =>
        rw [hv] at hkv
        simp at hkv
      | some v =>
        rw [hv] at hkv
        exact ⟨key, v, rfl, hv, by simpa using hkv⟩

/-- A key has an index entry exactly if it has an item. -/
theorem selected_single {s : Store} (hs : s.WF) (key : Bytes) :
    s.selected (prefixSplit key).1 (.included (prefixSplit key).2)
        (.included (prefixSplit key).2) = [] ↔ s.treeMap[key]? = none := by
  constructor
  · intro h
    cases ha : s.treeMap[key]? with
    | none => rfl
    | some a =>
      obtain ⟨_, hlo, hhi⟩ := (selects_single key key).mpr rfl
      have hm := (mem_selected s _ _ _ _ a).mpr ⟨hs.indexed key a ha, hlo, hhi⟩
      rw [h] at hm
      contradiction
  · intro h
    -- an index entry within these bounds is that of the key, which has no item
    apply List.eq_nil_iff_forall_not_mem.mpr
    rintro ⟨t, a⟩ hm
    obtain ⟨hb, hlo, hhi⟩ := (mem_selected s _ _ _ t a).mp hm
    obtain ⟨k, hk, ha⟩ := hs.listed _ t a hb
    have hkey : k = key := by
      apply (selects_single key k).mp
      unfold selects
      rw [hk]
      exact ⟨rfl, hlo, hhi⟩
    rw [hkey, h] at ha
    contradiction

theorem scan_limit_one (s : Store) (rev : ℤ) (pfx : Bytes) {entries : List (Bytes × ℕ)}
    (h : entries.length ≤ 1) :
    s.scan rev (some 1) pfx entries [] 0 = s.scan rev none pfx entries [] 0 := by
  match entries, h with
  | [], _ => rfl
  | [(suffix, a)], _ =>
    unfold scan
    dsimp only [Option.any, Option.all]
    rw [if_neg (by decide), if_neg (by decide)]
    rfl

theorem length_selected_single (s : Store) (key : Bytes) :
    (s.selected (prefixSplit key).1 (.included (prefixSplit key).2)
      (.included (prefixSplit key).2)).length ≤ 1 := by
  have hsorted := selected_sorted s (prefixSplit key).1 (.included (prefixSplit key).2)
    (.included (prefixSplit key).2)
  have hkey : ∀ e ∈ s.selected (prefixSplit key).1 (.included (prefixSplit key).2)
      (.included (prefixSplit key).2), e.1 = (prefixSplit key).2 := by
    rintro ⟨t, a⟩ he
    obtain ⟨_, hlo, hhi⟩ := (mem_selected s _ _ _ t a).mp he
    exact List.le_antisymm (of_decide_eq_true hhi) (of_decide_eq_true hlo)
  match s.selected (prefixSplit key).1 (.included (prefixSplit key).2)
    (.included (prefixSplit key).2), hsorted, hkey with
  | [], _, _ => exact Nat.zero_le _
  | [_], _, _ => exact le_refl _
  | e :: e' :: _, hs, hk =>
    have hlt := (List.pairwise_cons.mp hs).1 e' List.mem_cons_self
    rw [hk e List.mem_cons_self, hk e' (List.mem_cons_of_mem _ List.mem_cons_self)] at hlt
    exact absurd hlt (List.lt_irrefl _)

/-- A read of one key has no use for a limit. -/
theorem range_limit_one (s : Store) (key : Bytes) (rev : ℤ) :
    s.range key [] rev (some 1) = s.range key [] rev none := by
  unfold range
  rw [prefixAndRangeOfKey_single]
  dsimp only
  generalize (if rev = 0 then s.currentRevision else rev) = rev'
  split_ifs
  · rfl
  · rfl
  · cases hb : s.prefixMap[(prefixSplit key).1]? with
    | none => rfl
    | some btree =>
      have hlen := length_selected_single s key
      rw [selected_of_bucket hb] at hlen
      simp only [btreeRange, inverted_single, Bool.false_eq_true, if_false, bind, Except.bind,
        scan_limit_one s _ _ hlen]

theorem range_single {s : Store} (hs : s.WF) (key : Bytes) {rev : ℤ} (hr : 0 < rev)
    (hl : rev ≤ s.currentRevision) (hc : s.compactedRevision < rev) :
    s.range key [] rev none =
      .ok ⟨kvsOf key (s.liveAt (s.view key) rev), s.currentRevision,
        (kvsOf key (s.liveAt (s.view key) rev)).length⟩ := by
  rw [range_eq s (prefixAndRangeOfKey_single key) (inverted_single _) hr hl hc,
    kvsAt_single hs key hr]

/-! ### Stores without values from the future -/

/-- Both indexes agree, and no item is newer than the current revision. -/
structure Coherent (s : Store) : Prop extends WF s where
  bounded : ∀ k, (s.view k).latestValue.modRevision ≤ s.currentRevision
  positive : ∀ k v, s.live k = some v → 0 < v.modRevision

theorem Represents.coherent {s : Store} (hs : s.WF) {log : History} (h : s.Represents log) :
    s.Coherent := by
  refine ⟨hs, ?_, ?_⟩
  · intro k
    rw [h.latest, h.currentRevision_eq]
    exact (VersionLog.modRevision_bounds log k).2
  · intro k v hv
    rw [live, h.latest] at hv
    have hb := VersionLog.modRevision_bounds log k
    by_cases hz : (cells log k).modRevision = 0
    · rw [VersionLog.cells_of_modRevision_zero log k hz] at hv
      contradiction
    · rw [← (Cell.live_eq_some_iff.mp hv).1]
      omega

/-- At revision zero nothing is alive. -/
theorem Coherent.live_eq_none {s : Store} (hs : s.Coherent) (h : s.currentRevision = 0)
    (k : Bytes) : s.live k = none := by
  cases hv : s.live k with
  | none => rfl
  | some v =>
    have hp := hs.positive k v hv
    have hb := hs.bounded k
    rw [(Cell.live_eq_some_iff.mp hv).1] at hb
    omega

theorem currentRevision_nonneg (s : Store) : 0 ≤ s.currentRevision := Int.natCast_nonneg _

/-- A current read of one key. At revision zero it fails on the placeholder of a
key that was never written. -/
theorem range_single_current {s : Store} (hs : s.Coherent) (key : Bytes) :
    s.range key [] 0 none =
      if 0 < s.currentRevision then
        .ok ⟨kvsOf key (s.live key), s.currentRevision, (kvsOf key (s.live key)).length⟩
      else if s.treeMap[key]? = none then .ok ⟨[], 0, 0⟩
      else .error (.panic .revisionAssertion) := by
  rw [range_current s (prefixAndRangeOfKey_single key) (inverted_single _)]
  simp only [selected_single hs.toWF]
  split_ifs with hr hn
  · rw [kvsAt_single hs.toWF key hr, liveAt_of_le s _ (hs.bounded key)]
    rfl
  · rfl
  · rfl

theorem live_set_accepted {s : Store} (hs : s.WF) {key : Bytes} {value : Option Bytes}
    {required : Option SetRequired} (h : checkItem (s.view key) value required = .ok ()) :
    (s.set key value required).1.currentRevision = s.currentRevision + 1 ∧
      ∀ k, (s.set key value required).1.live k =
        if k = key then
          (((s.live key).getD Cell.blank).next (s.currentRevision + 1) value).live
        else s.live k := by
  obtain ⟨_, hv, hd⟩ := set_accepted hs h
  constructor
  · unfold currentRevision
    rw [hd, latestRevision_commitValue]
    push_cast
    rfl
  · intro k
    unfold live
    rw [hv, Function.update_apply]
    split_ifs
    · rw [next_eq_of_live]
      rfl
    · rfl

theorem live_set_refused {s : Store} (hs : s.WF) {key : Bytes} {value : Option Bytes}
    {required : Option SetRequired} {kv : Option KeyValue}
    (h : checkItem (s.view key) value required = .error kv) :
    (s.set key value required).1.currentRevision = s.currentRevision ∧
      ∀ k, (s.set key value required).1.live k = s.live k := by
  obtain ⟨_, hv, hd⟩ := set_refused hs h
  refine ⟨?_, ?_⟩
  · unfold currentRevision
    rw [hd]
  · intro k
    unfold live
    rw [hv]

theorem Coherent.congr {s s' : Store} (h : s.Coherent) (hw : s'.WF) (hv : s'.view = s.view)
    (hc : s'.currentRevision = s.currentRevision) : s'.Coherent := by
  refine ⟨hw, ?_, ?_⟩
  · rw [hv, hc]
    exact h.bounded
  · unfold live
    rw [hv]
    exact h.positive

/-- A write gives its key the new revision, all other keys are below it. -/
theorem Coherent.write {s s' : Store} (h : s.Coherent) (hw : s'.WF) {key : Bytes}
    {revisions : List ℤ} {value : Option Bytes}
    (hv : s'.view = Function.update s.view key
      ⟨key, revisions, (s.view key).latestValue.next (s.valuesByRevision.latestRevision + 1) value⟩)
    (hc : s'.currentRevision = s.currentRevision + 1) : s'.Coherent := by
  have hn := currentRevision_nonneg s
  refine ⟨hw, ?_, ?_⟩
  · intro k
    have hb := h.bounded k
    rw [hv, hc, Function.update_apply]
    split_ifs
    · rw [Cell.next_modRevision]
      exact le_refl _
    · omega
  · intro k v hkv
    unfold live at hkv
    rw [hv, Function.update_apply] at hkv
    split_ifs at hkv
    · rw [← (Cell.live_eq_some_iff.mp hkv).1, Cell.next_modRevision]
      exact Int.lt_add_one_of_le hn
    · exact h.positive k v hkv

theorem set_coherent {s : Store} (hs : s.Coherent) (key : Bytes) (value : Option Bytes)
    (required : Option SetRequired) : (s.set key value required).1.Coherent := by
  have hw := set_wf hs.toWF key value required
  cases h : checkItem (s.view key) value required with
  | error kv =>
    exact hs.congr hw (set_refused hs.toWF h).2.1 (live_set_refused hs.toWF h).1
  | ok u =>
    exact hs.write hw (set_accepted hs.toWF h).2.1 (live_set_accepted hs.toWF h).1

end Store

/-! ### Calls that require a revision -/

/-- The call requires that its key has the revision `r`. -/
def Call.Swaps (c : Call) (r : ℤ) : Prop :=
  requiredLastRevision c.required = r ∧ compareResult c.required = 0

instance (c : Call) (r : ℤ) : Decidable (c.Swaps r) := inferInstanceAs (Decidable (_ ∧ _))

theorem Call.Swaps.found {c : Call} {r : ℤ} (h : c.Swaps r) (hr : 0 < r) {item : TreeItem}
    (hok : checkItem item c.value c.required = .ok ()) : item.latestValue.modRevision = r := by
  obtain ⟨hreq, hcmp⟩ := h
  unfold checkItem at hok
  rw [hreq, hcmp] at hok
  dsimp only at hok
  split_ifs at hok with hlive hfail hreqd hnone
  · -- the comparison did not fail
    by_contra hne
    apply hfail
    exact Or.inl ⟨hr.le, decide_eq_false hne⟩
  · exact absurd (Or.inl hr) hreqd

namespace Store

/-- No two keys have got the same revision. -/
def DistinctRevisions (s : Store) : Prop :=
  ∀ k k', 0 < (s.view k).latestValue.modRevision →
    (s.view k).latestValue.modRevision = (s.view k').latestValue.modRevision → k = k'

theorem Represents.distinctRevisions {s : Store} {log : History} (h : s.Represents log) :
    s.DistinctRevisions := by
  intro k k' hpos heq
  rw [h.latest] at hpos
  rw [h.latest, h.latest] at heq
  exact VersionLog.modRevision_injective log hpos heq

/-- A revision that no key has, and that will not be given out again. -/
def Gone (s : Store) (r : ℤ) : Prop :=
  r ≤ s.currentRevision ∧ ∀ k, (s.view k).latestValue.modRevision ≠ r

theorem call_modRevision {s : Store} (hs : s.WF) (c : Call) :
    (∃ kv, outcome (s.call c).2 = .error kv ∧ (s.call c).1.currentRevision = s.currentRevision ∧
      (s.call c).1.view = s.view) ∨
    (checkItem (s.view c.key) c.value c.required = .ok () ∧
      (s.call c).1.currentRevision = s.currentRevision + 1 ∧
      ∀ k, ((s.call c).1.view k).latestValue.modRevision =
        if k = c.key then s.currentRevision + 1 else (s.view k).latestValue.modRevision) := by
  unfold call
  cases h : checkItem (s.view c.key) c.value c.required with
  | error kv =>
    obtain ⟨hres, hv, _⟩ := set_refused hs h
    exact Or.inl ⟨kv, by rw [hres]; rfl, (live_set_refused hs h).1, hv⟩
  | ok u =>
    obtain ⟨_, hv, _⟩ := set_accepted hs h
    refine Or.inr ⟨rfl, (live_set_accepted hs h).1, ?_⟩
    intro k
    rw [hv, Function.update_apply]
    split_ifs
    · exact VersionLog.Cell.next_modRevision _ _ _
    · rfl

theorem call_distinctRevisions {s : Store} (hs : s.Coherent) (hd : s.DistinctRevisions) (c : Call) :
    (s.call c).1.DistinctRevisions := by
  rcases call_modRevision hs.toWF c with ⟨_, _, _, hv⟩ | ⟨_, _, hm⟩
  · unfold DistinctRevisions
    rw [hv]
    exact hd
  · intro k k' hpos heq
    have hk := hs.bounded k
    have hk' := hs.bounded k'
    rw [hm] at hpos heq
    rw [hm] at heq
    split_ifs at hpos heq with h h' h'
    · rw [h, h']
    · omega
    · omega
    · exact hd k k' hpos heq

theorem call_gone {s : Store} (hs : s.WF) {r : ℤ} (h : s.Gone r) (c : Call) :
    (s.call c).1.Gone r := by
  rcases call_modRevision hs c with ⟨_, _, hc, hv⟩ | ⟨_, hc, hm⟩
  · unfold Gone
    rw [hc, hv]
    exact h
  · refine ⟨by have := h.1; omega, ?_⟩
    intro k
    rw [hm]
    split_ifs
    · have := h.1
      omega
    · exact h.2 k

/-- The revision of a key never falls. -/
theorem run_modRevision_mono {s : Store} (hs : s.Coherent) (calls : List Call) (k : Bytes) :
    (s.view k).latestValue.modRevision ≤ ((s.run calls).view k).latestValue.modRevision := by
  induction calls generalizing s with
  | nil => exact le_refl _
  | cons c calls ih =>
    refine le_trans ?_ (ih (set_coherent hs c.key c.value c.required))
    rcases call_modRevision hs.toWF c with ⟨_, _, _, hv⟩ | ⟨_, _, hm⟩
    · exact le_of_eq (by rw [← hv])
    · have hb := hs.bounded k
      have hk := hm k
      change _ ≤ ((s.call c).1.view k).latestValue.modRevision
      split_ifs at hk
      · omega
      · omega

/-- After a run every successful call is in force or superseded. -/
theorem results_superseded {s : Store} (hs : s.Coherent) (calls : List Call) :
    ∀ p ∈ calls.zip (s.results calls), ∀ rev, p.2 = .ok rev →
      rev ≤ ((s.run calls).view p.1.key).latestValue.modRevision := by
  induction calls generalizing s with
  | nil =>
    intro p hp
    contradiction
  | cons c calls ih =>
    have hc : (s.call c).1.Coherent := set_coherent hs c.key c.value c.required
    intro p hp rev hrev
    rw [results, List.zip_cons_cons] at hp
    rcases List.mem_cons.mp hp with rfl | hp
    · apply le_trans (le_of_eq ?_) (run_modRevision_mono hc calls c.key)
      dsimp only at hrev
      rcases call_modRevision hs.toWF c with ⟨kv, hkv, _⟩ | ⟨hok, _, hm⟩
      · rw [hkv] at hrev
        contradiction
      · rw [hm, if_pos rfl]
        rw [call, (set_accepted hs.toWF hok).1] at hrev
        exact (Except.ok.inj hrev).symm
    · exact ih hc p hp rev hrev

/-- The call has required the revision `r`, and it has succeeded. -/
def Swapped (r : ℤ) (p : Call × Except (Option KeyValue) ℤ) : Prop :=
  p.1.Swaps r ∧ ∃ rev, p.2 = .ok rev

theorem swapped_found {s : Store} (hs : s.WF) {r : ℤ} (hr : 0 < r) {c : Call}
    (h : Swapped r (c, outcome (s.call c).2)) :
    (s.view c.key).latestValue.modRevision = r := by
  obtain ⟨hswaps, rev, hrev⟩ := h
  rcases call_modRevision hs c with ⟨kv, hkv, _⟩ | ⟨hok, _⟩
  · rw [hkv] at hrev
    contradiction
  · exact hswaps.found hr hok

theorem swapped_gone {s : Store} (hs : s.Coherent) (hd : s.DistinctRevisions) {r : ℤ} (hr : 0 < r)
    {c : Call} (h : Swapped r (c, outcome (s.call c).2)) : (s.call c).1.Gone r := by
  have hfound := swapped_found hs.toWF hr h
  have hb := hs.bounded c.key
  obtain ⟨_, rev, hrev⟩ := h
  rcases call_modRevision hs.toWF c with ⟨kv, hkv, _⟩ | ⟨_, hc, hm⟩
  · rw [hkv] at hrev
    contradiction
  · refine ⟨by omega, ?_⟩
    intro k
    rw [hm]
    split_ifs with hk
    · omega
    · intro he
      exact hk (hd k c.key (by omega) (by rw [he, hfound]))

theorem not_swapped_of_gone {s : Store} (hs : s.WF) {r : ℤ} (hr : 0 < r) (h : s.Gone r)
    (calls : List Call) : ∀ p ∈ calls.zip (s.results calls), ¬Swapped r p := by
  induction calls generalizing s with
  | nil =>
    intro p hp
    contradiction
  | cons c calls ih =>
    intro p hp
    rw [results, List.zip_cons_cons] at hp
    rcases List.mem_cons.mp hp with rfl | hp
    · intro hsw
      exact h.2 c.key (swapped_found hs hr hsw)
    · exact ih (call_wf hs c) (call_gone hs h c) p hp

/-- Of the calls of a run that require the same revision at most one succeeds. -/
theorem swapped_once {s : Store} (hs : s.Coherent) (hd : s.DistinctRevisions) {r : ℤ} (hr : 0 < r)
    (calls : List Call) :
    (calls.zip (s.results calls)).Pairwise (fun p q => ¬(Swapped r p ∧ Swapped r q)) := by
  induction calls generalizing s with
  | nil => exact List.Pairwise.nil
  | cons c calls ih =>
    have hc : (s.call c).1.Coherent := set_coherent hs c.key c.value c.required
    rw [results, List.zip_cons_cons, List.pairwise_cons]
    refine ⟨?_, ih hc (call_distinctRevisions hs hd c)⟩
    rintro q hq ⟨hp, hq'⟩
    exact not_swapped_of_gone hc.toWF hr (swapped_gone hs hd hr hp) calls q hq hq'

end Store
end MemEtcd
