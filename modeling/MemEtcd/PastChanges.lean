import MemEtcd.Bookkeeping
import MemEtcd.WatchCoverage

/-! The past changes that `watch` collects. It reads the requested items by
ascending key, and of each item the changes from the start revision on: across
keys the order of the revisions is not looked at. -/
namespace MemEtcd

open VersionLog (cells livePuts revisionsOf)

/-- The binary search starts the loop at or before the start revision. -/
theorem binarySearch_below {xs : List ℤ} (h : xs.Pairwise (· < ·)) (x : ℤ) {i : ℕ}
    (hi : binarySearch xs x = .ok i ∨ binarySearch xs x = .error i) : ∀ y ∈ xs.take i, y < x := by
  intro y hy
  unfold binarySearch at hi
  cases hx : xs.idxOf? x with
  | some j =>
    rw [hx] at hi
    obtain rfl : j = i := by simpa using hi
    obtain ⟨hlt, hget, _⟩ := List.idxOf?_eq_some_iff.mp hx
    obtain ⟨n, hn, hyn⟩ := List.mem_iff_getElem.mp hy
    rw [List.length_take] at hn
    rw [List.getElem_take] at hyn
    rw [← hyn, ← hget]
    exact List.pairwise_iff_getElem.mp h n j (by omega) hlt (by omega)
  | none =>
    rw [hx] at hi
    obtain rfl : (xs.takeWhile (· < x)).length = i := by simpa using hi
    have hpre : xs.takeWhile (· < x) <+: xs := List.takeWhile_prefix _
    rw [← List.prefix_iff_eq_take.mp hpre] at hy
    have hlt := List.mem_takeWhile_imp hy
    exact of_decide_eq_true hlt

/-- In a list that is sorted by `lt`, what holds of every pair holds of any two items
in their order. -/
theorem rel_of_sorted {α : Type} {lt R : α → α → Prop} {l : List α} (hs : l.Pairwise lt)
    (hR : l.Pairwise R) (hirr : ∀ a, ¬lt a a) (hasymm : ∀ a b, lt a b → ¬lt b a) {a b : α}
    (ha : a ∈ l) (hb : b ∈ l) (hab : lt a b) : R a b := by
  obtain ⟨i, hi, rfl⟩ := List.mem_iff_getElem.mp ha
  obtain ⟨j, hj, rfl⟩ := List.mem_iff_getElem.mp hb
  rcases lt_trichotomy i j with hij | hij | hij
  · exact List.pairwise_iff_getElem.mp hR i j hi hj hij
  · subst hij
    exact absurd hab (hirr _)
  · exact absurd (List.pairwise_iff_getElem.mp hs j i hj hi hij) (hasymm _ _ hab)

namespace Store

/-- The loop over the revisions of an item yields the stored values from the start
revision on. -/
theorem changesFrom_kvs (s : Store) (item : TreeItem) (startRev : ℤ) (wantPrevKv : Bool)
    (revisions : List ℤ) (prevKv : Option KeyValue) :
    (s.changesFrom item startRev wantPrevKv revisions prevKv).map (·.kv) =
      (revisions.filter (startRev ≤ ·)).filterMap (fun r =>
        (s.valuesByRevision.at? (r.toNat - 1)).map (fun v => asMvccKeyValue v item.key)) := by
  induction revisions generalizing prevKv with
  | nil => rfl
  | cons r revisions ih =>
    have hget := s.valuesByRevision.get_eq_at? (r.toNat - 1)
    unfold changesFrom
    cases hv : s.valuesByRevision.at? (r.toNat - 1) with
    | none =>
      rw [hv] at hget
      rw [hget]
      dsimp only
      rw [ih, List.filter_cons]
      split_ifs
      · rw [List.filterMap_cons_none]
        rw [hv]
        rfl
      · rfl
    | some v =>
      rw [hv] at hget
      rw [hget]
      dsimp only
      rw [List.map_append, ih, List.filter_cons]
      by_cases hr : startRev ≤ r
      · rw [if_pos hr, if_pos (decide_eq_true hr), List.filterMap_cons_some]
        · rfl
        · rw [hv]
          rfl
      · rw [if_neg hr, if_neg (by simpa using hr)]
        rfl

/-- The past changes of an item are its stored values from the start revision on. -/
theorem itemChanges_kvs (s : Store) {item : TreeItem} (h : item.revisions.Pairwise (· < ·))
    (startRev : ℤ) (wantPrevKv : Bool) :
    (s.itemChanges startRev wantPrevKv item).map (·.kv) =
      (item.revisions.filter (startRev ≤ ·)).filterMap (fun r =>
        (s.valuesByRevision.at? (r.toNat - 1)).map (fun v => asMvccKeyValue v item.key)) := by
  -- what the loop skips is below the start revision
  have hskip (n i : ℕ) (hi : binarySearch item.revisions startRev = .ok i ∨
      binarySearch item.revisions startRev = .error i) (hn : n ≤ i) :
      (item.revisions.drop n).filter (startRev ≤ ·) = item.revisions.filter (startRev ≤ ·) := by
    have hbelow : (item.revisions.take n).filter (startRev ≤ ·) = [] := by
      apply List.filter_eq_nil_iff.mpr
      intro y hy
      have hlt := binarySearch_below h startRev hi y (List.take_subset_take_left _ hn hy)
      simpa using hlt
    have hsplit := congrArg (List.filter (startRev ≤ ·)) (List.take_append_drop n item.revisions)
    rw [List.filter_append, hbelow, List.nil_append] at hsplit
    exact hsplit
  unfold itemChanges
  dsimp only
  rw [changesFrom_kvs]
  cases hb : binarySearch item.revisions startRev with
  | ok i =>
    dsimp only
    split_ifs
    · rw [hskip (i - 1) i (Or.inl hb) (Nat.sub_le _ _)]
    · rw [hskip i i (Or.inl hb) (le_refl _)]
  | error i =>
    dsimp only
    split_ifs
    · rw [hskip (i - 1) i (Or.inr hb) (Nat.sub_le _ _)]
    · rw [hskip i i (Or.inr hb) (le_refl _)]

/-- The past changes of a key are its changes from the start revision on. -/
theorem Represents.itemChanges_view {s : Store} {log : History} (hs : s.HeapOk)
    (h : s.Represents log) {startRev : ℤ} (hc : s.compactedRevision < startRev)
    (wantPrevKv : Bool) (k : Bytes) :
    (s.itemChanges startRev wantPrevKv (s.view k)).map (·.kv) =
      ((revisionsOf log k).filter (startRev ≤ ·)).map
        (fun r => asMvccKeyValue (cells (log.take r.toNat) k) k) := by
  obtain ⟨d, hd, hr⟩ := h.revisions k
  have hkeep : ((revisionsOf log k).filter (d ≤ ·)).filter (startRev ≤ ·) =
      (revisionsOf log k).filter (startRev ≤ ·) := by
    rw [List.filter_filter]
    apply List.filter_congr
    intro r _
    rw [← Bool.decide_and, decide_eq_decide]
    unfold compactedRevision at hc
    omega
  rw [itemChanges_kvs s (h.revisions_sorted k), hr, hkeep, view_key hs,
    List.filterMap_eq_map_iff_forall_eq_some]
  intro r hr
  obtain ⟨hmem, hle⟩ := List.mem_filter.mp hr
  have hle := of_decide_eq_true hle
  have hpos := (VersionLog.revisionsOf_bounds hmem).1
  unfold compactedRevision at hc
  rw [h.stored k r.toNat (by omega) (by rw [Int.toNat_of_nonneg (by omega)]; exact hmem)]
  rfl

theorem Represents.itemChanges_rev {s : Store} {log : History} (hs : s.HeapOk)
    (h : s.Represents log) {startRev : ℤ} (hc : s.compactedRevision < startRev)
    (wantPrevKv : Bool) (k : Bytes) :
    (s.itemChanges startRev wantPrevKv (s.view k)).map (·.kv.modRevision) =
      (revisionsOf log k).filter (startRev ≤ ·) := by
  have hkvs := congrArg (List.map KeyValue.modRevision) (h.itemChanges_view hs hc wantPrevKv k)
  rw [List.map_map, List.map_map] at hkvs
  refine hkvs.trans ?_
  have hself : ∀ r ∈ (revisionsOf log k).filter (startRev ≤ ·),
      (asMvccKeyValue (cells (log.take r.toNat) k) k).modRevision = r :=
    fun r hr => VersionLog.modRevision_cells_take (List.mem_filter.mp hr).1
  calc ((revisionsOf log k).filter (startRev ≤ ·)).map
        (fun r => (asMvccKeyValue (cells (log.take r.toNat) k) k).modRevision)
      = ((revisionsOf log k).filter (startRev ≤ ·)).map (fun r => r) := List.map_congr_left hself
    _ = (revisionsOf log k).filter (startRev ≤ ·) := List.map_id _

/-- The items that `watch` reads are those of the requested keys. -/
theorem deref_selected {s : Store} (hs : s.HeapOk) {pfx : Bytes} {lo hi : Bound Bytes}
    {e : Bytes × ℕ} (he : e ∈ s.selected pfx lo hi) :
    s.treeMap[pfx ++ e.1]? = some e.2 ∧ selects pfx lo hi (pfx ++ e.1) := by
  obtain ⟨hb, hlo, hhi⟩ := (mem_selected s pfx lo hi e.1 e.2).mp he
  obtain ⟨k, hk, ha⟩ := hs.listed pfx e.1 e.2 hb
  have hkey : pfx ++ e.1 = k := by
    have happ := prefixSplit_append k
    rwa [hk] at happ
  rw [hkey]
  unfold selects
  rw [hk]
  exact ⟨ha, rfl, hlo, hhi⟩

theorem selected_of_listed {s : Store} {pfx : Bytes} {lo hi : Bound Bytes} {k : Bytes}
    (hk : selects pfx lo hi k) {a : ℕ}
    (ha : s.bucket? (prefixSplit k).1 (prefixSplit k).2 = some a) :
    ((prefixSplit k).2, a) ∈ s.selected pfx lo hi := by
  obtain ⟨hp, hlo, hhi⟩ := hk
  rw [mem_selected, ← hp]
  exact ⟨ha, hlo, hhi⟩

end Store

/-- The requested keys were changed in their order: from the start revision on, all
changes of a key come before those of the keys behind it. -/
def InKeyOrder (writes : List Write) (start endKey : Bytes) (startRev : ℤ) : Prop :=
  ∀ w ∈ writes, ∀ w' ∈ writes, requests start endKey w.key → requests start endKey w'.key →
    startRev ≤ w.rev → startRev ≤ w'.rev → w.key < w'.key → w.rev < w'.rev

namespace Store

theorem Tracked.write_of_revision {s : Store} {writes : List Write} (h : s.Tracked writes)
    {k : Bytes} {r : ℤ} (hr : r ∈ revisionsOf (writes.map Write.change) k) :
    ∃ w ∈ writes, w.rev = r ∧ w.key = k := by
  obtain ⟨n, hn, v, hg⟩ := VersionLog.mem_revisionsOf.mp hr
  rw [List.getElem?_map] at hg
  obtain ⟨w, hw, hchange⟩ := Option.map_eq_some_iff.mp hg
  have hmem := List.mem_of_getElem? hw
  refine ⟨w, hmem, ?_, congrArg Prod.fst hchange⟩
  have hrev := congrArg (·[n]?) h.revisions
  have hlt := (List.getElem?_eq_some_iff.mp hw).1
  rw [List.getElem?_map, hw] at hrev
  have : w.rev = n + 1 := by simpa [ReorderBuffer.upTo, hlt] using hrev
  rw [this, hn]

def keyValueOf (writes : List Write) (w : Write) : KeyValue :=
  asMvccKeyValue (cells ((writes.map Write.change).take w.rev.toNat) w.key) w.key

/-- The scan of an item finds the writes of its key from the start revision on, in their
order. -/
theorem Tracked.itemChanges_spec {s : Store} {writes : List Write} (h : s.Tracked writes)
    {startRev : ℤ} (hc : s.compactedRevision < startRev) (wantPrevKv : Bool) {k : Bytes} {a : ℕ}
    (ha : s.treeMap[k]? = some a) :
    (∀ p ∈ s.itemChanges startRev wantPrevKv (s.deref a), ∃ w ∈ writes, w.key = k ∧
      startRev ≤ w.rev ∧ p.kv = keyValueOf writes w) ∧
    (∀ w ∈ writes, w.key = k → startRev ≤ w.rev →
      ∃ p ∈ s.itemChanges startRev wantPrevKv (s.deref a), p.kv = keyValueOf writes w) ∧
    (s.itemChanges startRev wantPrevKv (s.deref a)).Pairwise
      (fun p q => p.kv.modRevision < q.kv.modRevision) := by
  rw [← view_of_owned ha]
  have hkvs := h.represents.itemChanges_view h.heap hc wantPrevKv k
  have hrevs := h.represents.itemChanges_rev h.heap hc wantPrevKv k
  refine ⟨?_, ?_, ?_⟩
  · intro p hp
    have hmem : p.kv ∈ (s.itemChanges startRev wantPrevKv (s.view k)).map (·.kv) :=
      List.mem_map.mpr ⟨p, hp, rfl⟩
    rw [hkvs] at hmem
    obtain ⟨n, hn, hkv⟩ := List.mem_map.mp hmem
    obtain ⟨hn, hle⟩ := List.mem_filter.mp hn
    obtain ⟨w, hw, hrev, hkey⟩ := h.write_of_revision hn
    refine ⟨w, hw, hkey, hrev ▸ of_decide_eq_true hle, ?_⟩
    unfold keyValueOf
    rw [hrev, hkey]
    exact hkv.symm
  · intro w hw hkey hle
    have hmem : keyValueOf writes w ∈
        (s.itemChanges startRev wantPrevKv (s.view k)).map (·.kv) := by
      have hn := h.mem_revisionsOf hw
      unfold keyValueOf
      rw [hkey] at hn ⊢
      rw [hkvs]
      exact List.mem_map.mpr ⟨w.rev, List.mem_filter.mpr ⟨hn, decide_eq_true hle⟩, rfl⟩
    obtain ⟨p, hp, hkv⟩ := List.mem_map.mp hmem
    exact ⟨p, hp, hkv⟩
  · rw [← List.pairwise_map, hrevs]
    exact (VersionLog.revisionsOf_sorted _ _).filter _

theorem Tracked.modRevision_keyValueOf {s : Store} {writes : List Write} (h : s.Tracked writes)
    {w : Write} (hw : w ∈ writes) : (keyValueOf writes w).modRevision = w.rev :=
  VersionLog.modRevision_cells_take (h.mem_revisionsOf hw)

/-- A written key has an index entry. -/
theorem Tracked.owned {s : Store} {writes : List Write} (h : s.Tracked writes) {w : Write}
    (hw : w ∈ writes) : ∃ a, s.treeMap[w.key]? = some a := by
  obtain ⟨item, hi, _⟩ := h.item hw
  unfold item? at hi
  obtain ⟨a, ha, _⟩ := Option.map_eq_some_iff.mp hi
  exact ⟨a, ha⟩

/-- A requested write from the start revision on is found in the item of its key. -/
theorem Bookkept.found {s : Store} {writes : List Write} (h : s.Bookkept writes) {startRev : ℤ}
    (hc : s.compactedRevision < startRev) (wantPrevKv : Bool) {pfx : Bytes} {lo hi : Bound Bytes}
    {w : Write} (hw : w ∈ writes) (hsel : selects pfx lo hi w.key) (hle : startRev ≤ w.rev) :
    ∃ e ∈ s.selected pfx lo hi, pfx ++ e.1 = w.key ∧
      ∃ c ∈ s.itemChanges startRev wantPrevKv (s.deref e.2), c.kv = keyValueOf writes w := by
  obtain ⟨a, hown⟩ := h.owned hw
  have he := selected_of_listed hsel (h.wf.indexed _ _ hown)
  have hkey : pfx ++ (prefixSplit w.key).2 = w.key := by
    rw [← hsel.1]
    exact prefixSplit_append w.key
  obtain ⟨c, hc, hkv⟩ := (h.itemChanges_spec hc wantPrevKv (deref_selected h.heap he).1).2.1 w hw
    hkey.symm hle
  exact ⟨_, he, hkey, c, hc, hkv⟩

/-- Everything that is found in an item was written under its key. -/
theorem Tracked.written {s : Store} {writes : List Write} (h : s.Tracked writes) {startRev : ℤ}
    (hc : s.compactedRevision < startRev) {wantPrevKv : Bool} {pfx : Bytes} {lo hi : Bound Bytes}
    {e : Bytes × ℕ} (he : e ∈ s.selected pfx lo hi) {c : KeyValueWithPrev}
    (hmem : c ∈ s.itemChanges startRev wantPrevKv (s.deref e.2)) :
    ∃ w ∈ writes, w.key = pfx ++ e.1 ∧ selects pfx lo hi w.key ∧ startRev ≤ w.rev ∧
      c.kv = keyValueOf writes w := by
  obtain ⟨hown, hsel⟩ := deref_selected h.heap he
  obtain ⟨w, hw, hkey, hle, hkv⟩ := (h.itemChanges_spec hc wantPrevKv hown).1 c hmem
  exact ⟨w, hw, hkey, hkey.symm ▸ hsel, hle, hkv⟩

/-- The past changes are in the order of their revisions exactly if the requested
keys were changed in their order. -/
theorem Bookkept.past_sorted_iff {s s' : Store} {writes : List Write} (h : s.Bookkept writes)
    {start endKey : Bytes} {rev id : ℤ} {wantPrevKv : Bool} {past : List KeyValueWithPrev}
    (hrev : 0 < rev) (hw : s.watch start endKey rev wantPrevKv = (s', .ok (.ok (past, id)))) :
    past.Pairwise (fun a b => a.kv.modRevision < b.kv.modRevision) ↔
      InKeyOrder writes start endKey rev := by
  obtain ⟨_, _, hc, pfx, lo, hi, ha, _, rfl⟩ := watch_ok hrev hw
  rw [List.pairwise_flatMap]
  constructor
  · -- two writes under different keys are found in different items, of which the
    -- smaller key's is read first
    intro hall w hw w' hw' hreq hreq' hle hle' hlt
    obtain ⟨e, he, hkey, c, hmem, hkv⟩ :=
      h.found hc wantPrevKv hw ((requests_of_accepted ha w.key).mp hreq) hle
    obtain ⟨e', he', hkey', c', hmem', hkv'⟩ :=
      h.found hc wantPrevKv hw' ((requests_of_accepted ha w'.key).mp hreq') hle'
    have hsuffix : e.1 < e'.1 := by
      rw [← LexInterval.append_lt_append_iff pfx, hkey, hkey']
      exact hlt
    have hrel := rel_of_sorted (selected_sorted s pfx lo hi) hall.2
      (fun a => List.lt_irrefl a.1) (fun a b hab => List.not_lt.mpr (List.le_of_lt hab)) he he' hsuffix
    have hlt := hrel c hmem c' hmem'
    rw [hkv, hkv', h.modRevision_keyValueOf hw, h.modRevision_keyValueOf hw'] at hlt
    exact hlt
  · intro horder
    refine ⟨?_, ?_⟩
    · -- within an item the revisions ascend in any case
      intro e he
      exact (h.itemChanges_spec hc wantPrevKv (deref_selected h.heap he).1).2.2
    · apply (selected_sorted s pfx lo hi).imp_of_mem
      intro e e' he he' hlt c hmem c' hmem'
      obtain ⟨w, hw, hkey, hsel, hle, hkv⟩ := h.written hc he hmem
      obtain ⟨w', hw', hkey', hsel', hle', hkv'⟩ := h.written hc he' hmem'
      rw [hkv, hkv', h.modRevision_keyValueOf hw, h.modRevision_keyValueOf hw']
      apply horder w hw w' hw' _ _ hle hle'
      · rw [hkey, hkey']
        exact (LexInterval.append_lt_append_iff pfx e.1 e'.1).mpr hlt
      · exact (requests_of_accepted ha w.key).mpr hsel
      · exact (requests_of_accepted ha w'.key).mpr hsel'

/-! ### The scan as a whole -/

/-- The event of a write, in terms of the writes so far: a put carries the revision of the
first put since the last deletion of its key and the number of puts since then, a
deletion carries neither. -/
def changeEvent (writes : List Write) (w : Write) : KeyValue :=
  let puts := livePuts ((writes.map Write.change).take w.rev.toNat) w.key
  match w.value with
  | some v => ⟨w.key, v, puts.head?.getD 0, w.rev, puts.length, 0⟩
  | none => ⟨w.key, [], 0, w.rev, 0, 0⟩

theorem Tracked.keyValueOf_eq {s : Store} {writes : List Write} (h : s.Tracked writes)
    {w : Write} (hw : w ∈ writes) : keyValueOf writes w = changeEvent writes w := by
  have hmod := h.modRevision_keyValueOf hw
  obtain ⟨n, hrev, hget⟩ := h.getElem? hw
  have hlog : (writes.map Write.change)[n]? = some (w.key, w.value) := by
    rw [List.getElem?_map, hget]
    rfl
  have hvalue : (cells ((writes.map Write.change).take w.rev.toNat) w.key).value = w.value := by
    have hn : w.rev.toNat = n + 1 := by omega
    rw [hn, VersionLog.cells_take_succ hlog, VersionLog.Cell.next_value]
  have hputs := VersionLog.livePuts_spec ((writes.map Write.change).take w.rev.toNat) w.key
  unfold keyValueOf at hmod ⊢
  unfold changeEvent
  generalize cells ((writes.map Write.change).take w.rev.toNat) w.key = cell at *
  generalize livePuts ((writes.map Write.change).take w.rev.toNat) w.key = puts at *
  have hmod : cell.modRevision = w.rev := hmod
  rw [hvalue] at hputs
  cases hv : w.value with
  | some v =>
    rw [hv] at hputs hvalue
    obtain ⟨hfirst, hcount⟩ := hputs
    simp [asMvccKeyValue, hvalue, hfirst, hcount, hmod]
  | none =>
    rw [hv] at hvalue
    simp [asMvccKeyValue, hvalue, hmod]

theorem Tracked.nodup_events {s : Store} {writes : List Write} (h : s.Tracked writes)
    (p : Write → Bool) : ((writes.filter p).map (keyValueOf writes)).Nodup := by
  have hrevs : (writes.map Write.rev).Nodup := by
    rw [h.revisions]
    exact ReorderBuffer.nodup_upTo _
  refine ((List.Nodup.of_map _ hrevs).filter p).map_on ?_
  intro w hw w' hw' he
  have hw := (List.mem_filter.mp hw).1
  have hw' := (List.mem_filter.mp hw').1
  apply List.inj_on_of_nodup_map hrevs hw hw'
  rw [← h.modRevision_keyValueOf hw, ← h.modRevision_keyValueOf hw', he]

/-- The scan meets every requested write from the start revision on once, and nothing else. -/
theorem Bookkept.scan_perm {s : Store} {writes : List Write} (h : s.Bookkept writes)
    {startRev : ℤ} (hc : s.compactedRevision < startRev) (wantPrevKv : Bool) (pfx : Bytes)
    (lo hi : Bound Bytes) :
    ((s.selected pfx lo hi).flatMap
        (fun e => s.itemChanges startRev wantPrevKv (s.deref e.2)) |>.map (·.kv)).Perm
      ((writes.filter (fun w => selects pfx lo hi w.key ∧ startRev ≤ w.rev)).map
        (keyValueOf writes)) := by
  have hscan : ((s.selected pfx lo hi).flatMap
      (fun e => s.itemChanges startRev wantPrevKv (s.deref e.2)) |>.map (·.kv)).Nodup := by
    rw [List.map_flatMap, List.nodup_flatMap]
    refine ⟨?_, ?_⟩
    · -- the changes of an item have ascending revisions
      intro e he
      have hsorted := (h.itemChanges_spec hc wantPrevKv (deref_selected h.heap he).1).2.2
      refine List.pairwise_map.mpr (hsorted.imp ?_)
      intro p q hlt he
      rw [he] at hlt
      exact lt_irrefl _ hlt
    · -- and those of two items different keys
      apply (selected_sorted s pfx lo hi).imp_of_mem
      intro e e' he he' hlt kv hkv hkv'
      obtain ⟨c, hmem, rfl⟩ := List.mem_map.mp hkv
      obtain ⟨c', hmem', hsame⟩ := List.mem_map.mp hkv'
      obtain ⟨w, _, hkey, _, _, hw⟩ := h.written hc he hmem
      obtain ⟨w', _, hkey', _, _, hw'⟩ := h.written hc he' hmem'
      have hkeys : w'.key = w.key := congrArg KeyValue.key (hw'.symm.trans (hsame.trans hw))
      rw [hkey, hkey', List.append_cancel_left_eq] at hkeys
      rw [hkeys] at hlt
      exact List.lt_irrefl _ hlt
  apply (List.perm_ext_iff_of_nodup hscan (h.nodup_events _)).mpr
  intro kv
  simp only [List.mem_map, List.mem_flatMap, List.mem_filter, decide_eq_true_eq]
  constructor
  · rintro ⟨c, ⟨e, he, hmem⟩, rfl⟩
    obtain ⟨w, hw, _, hsel, hle, hkv⟩ := h.written hc he hmem
    exact ⟨w, ⟨hw, hsel, hle⟩, hkv.symm⟩
  · rintro ⟨w, ⟨hw, hsel, hle⟩, rfl⟩
    obtain ⟨e, he, _, c, hmem, hkv⟩ := h.found hc wantPrevKv hw hsel hle
    exact ⟨c, ⟨e, he, hmem⟩, hkv⟩

/-- The past changes of an accepted watch are the events of the committed changes of the
keys in its bounds from its revision on: each of them once, and nothing else. -/
theorem past_changes_complete (wal : Option WalMode) (ops : List Operation)
    (start endKey : Bytes) (rev : ℤ) (wantPrevKv : Bool) (hrev : 0 < rev) (s' : Store)
    (past : List KeyValueWithPrev) (id : ℤ)
    (hw : ((new wal).performAll ops).1.watch start endKey rev wantPrevKv =
      (s', .ok (.ok (past, id)))) :
    ∃ pfx lo hi, prefixAndRangeOfKey start endKey = .ok (pfx, lo, hi) ∧
      (past.map (·.kv)).Perm
        ((((new wal).performAll ops).2.filter
            (fun w => selects pfx lo hi w.key ∧ rev ≤ w.rev)).map
          (changeEvent ((new wal).performAll ops).2)) := by
  have h := performAll_bookkept (new_bookkept wal) ops
  rw [List.nil_append] at h
  obtain ⟨_, _, hc, pfx, lo, hi, ha, _, rfl⟩ := watch_ok hrev hw
  refine ⟨pfx, lo, hi, ha, (h.scan_perm hc wantPrevKv pfx lo hi).trans ?_⟩
  refine List.Perm.of_eq (List.map_congr_left ?_)
  intro w hw
  exact h.keyValueOf_eq (List.mem_filter.mp hw).1

/-- `a` is put and deleted, `b` is put, the first revision is compacted. -/
theorem past_changes_after_compaction :
    let ops : List Operation := [.call ⟨[97], some [1], none⟩, .call ⟨[97], none, none⟩,
      .call ⟨[98], some [2], none⟩, .compact 2]
    ∃ past pfx lo hi,
      (((new none).performAll ops).1.watch [97] [99] 2 true).2 = .ok (.ok (past, 1)) ∧
      prefixAndRangeOfKey [97] [99] = .ok (pfx, lo, hi) ∧
      (past.map (·.kv)).Perm
        ((((new none).performAll ops).2.filter
            (fun w => selects pfx lo hi w.key ∧ 2 ≤ w.rev)).map
          (changeEvent ((new none).performAll ops).2)) := by
  intro ops
  have hw : ((new none).performAll ops).1.watch [97] [99] 2 true = (_, .ok (.ok (_, 1))) := rfl
  obtain ⟨pfx, lo, hi, ha, hp⟩ :=
    past_changes_complete none ops [97] [99] 2 true (by decide) _ _ 1 hw
  exact ⟨_, pfx, lo, hi, congrArg Prod.snd hw, ha, hp⟩

end Store
end MemEtcd
