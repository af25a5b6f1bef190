import MemEtcd.StoreRange

/-! The history of a store. A store is the image of the log of its successful
writes: the newest cell of every key, the revisions of every item and the array
of values by revision are functions of that log, up to what compaction took
away. Reads at past revisions are then reads of a prefix of the log. -/
namespace MemEtcd

open VersionLog (Log Cell cells revisionsOf)

/-! ### Increasing lists of revisions -/

/-- A comparison with `x` cuts an increasing list in two. -/
theorem sorted_cut {xs : List ℤ} (h : xs.Pairwise (· < ·)) (x : ℤ) :
    xs.takeWhile (· < x) = xs.filter (· < x) ∧
      xs.drop (partitionPoint xs x) = xs.filter (x ≤ ·) := by
  unfold partitionPoint
  induction xs with
  | nil => exact ⟨rfl, rfl⟩
  | cons y ys ih =>
    obtain ⟨hy, hys⟩ := List.pairwise_cons.mp h
    obtain ⟨ih1, ih2⟩ := ih hys
    by_cases hlt : y < x
    · have hle : ¬x ≤ y := by omega
      simp only [List.takeWhile_cons, List.filter_cons, hlt, hle, decide_true, decide_false,
        if_true, List.length_cons, List.drop_succ_cons, ih1]
      rw [ih1] at ih2
      exact ⟨trivial, by simpa using ih2⟩
    · -- every later element is above `x` as well
      have hall : ∀ z ∈ y :: ys, x ≤ z := by
        intro z hz
        rcases List.mem_cons.mp hz with rfl | hz
        · omega
        · have := hy z hz
          omega
      have hnone : (y :: ys).filter (· < x) = [] := by
        apply List.filter_eq_nil_iff.mpr
        intro z hz
        have := hall z hz
        simpa using this
      have hself : (y :: ys).filter (x ≤ ·) = y :: ys :=
        List.filter_eq_self.mpr (fun z hz => decide_eq_true (hall z hz))
      have htake : (y :: ys).takeWhile (· < x) = [] := by simp [hlt]
      rw [hnone, hself, htake]
      exact ⟨rfl, rfl⟩

theorem getLast?_of_max {xs : List ℤ} (h : xs.Pairwise (· < ·)) {m : ℤ} (hm : m ∈ xs)
    (hle : ∀ x ∈ xs, x ≤ m) : xs.getLast? = some m := by
  have hne : xs ≠ [] := List.ne_nil_of_mem hm
  have hge : m ≤ xs.getLast hne := (h.imp (fun hlt => le_of_lt hlt)).rel_getLast hm
  have hlast : xs.getLast hne ≤ m := hle _ (List.getLast_mem hne)
  rw [List.getLast?_eq_some_getLast hne, le_antisymm hlast hge]

/-- The revisions that a `set` keeps are those from the earliest one on. -/
theorem drainRevisions_eq {xs : List ℤ} (h : xs.Pairwise (· < ·)) (e : ℤ) :
    drainRevisions xs e = xs.filter (e ≤ ·) := by
  unfold drainRevisions
  split_ifs with hd
  · exact (sorted_cut h e).2
  · symm
    apply List.filter_eq_self.mpr
    intro x hx
    cases xs with
    | nil => contradiction
    | cons y ys =>
      rw [List.head?_cons, Option.getD_some] at hd
      rcases List.mem_cons.mp hx with rfl | hx
      · exact decide_eq_true (by omega)
      · have := (List.pairwise_cons.mp h).1 x hx
        exact decide_eq_true (by omega)

/-- The binary search of a read finds the last revision up to `rev`. -/
theorem foundValue_eq_floor (s : Store) {item : TreeItem} (h : item.revisions.Pairwise (· < ·))
    {rev : ℤ} (hr : rev < item.latestValue.modRevision) :
    s.foundValue item rev = (item.revisions.filter (· ≤ rev)).getLast?.bind
      (fun r => s.valuesByRevision.at? (r.toNat - 1)) := by
  have hge : ¬rev ≥ item.latestValue.modRevision := by omega
  unfold Store.foundValue binarySearch
  rw [if_neg hge]
  cases hx : item.revisions.idxOf? rev with
  | some i =>
    obtain ⟨hi, hget, _⟩ := List.idxOf?_eq_some_iff.mp hx
    have hmem : rev ∈ item.revisions := hget ▸ List.getElem_mem hi
    have hlast : (item.revisions.filter (· ≤ rev)).getLast? = some rev := by
      apply getLast?_of_max (h.filter _)
      · exact List.mem_filter.mpr ⟨hmem, by simp⟩
      · intro x hx
        exact of_decide_eq_true (List.mem_filter.mp hx).2
    dsimp only
    rw [hlast, Option.bind_some, List.getD_eq_getElem?_getD, List.getElem?_eq_getElem hi, hget]
    rfl
  | none =>
    have hnot : rev ∉ item.revisions := List.idxOf?_eq_none_iff.mp hx
    have hfilter : item.revisions.takeWhile (· < rev) = item.revisions.filter (· ≤ rev) := by
      rw [(sorted_cut h rev).1]
      apply List.filter_congr
      intro x hx
      have : x ≠ rev := fun e => hnot (e ▸ hx)
      exact decide_eq_decide.mpr (by omega)
    have hpre := List.takeWhile_prefix (l := item.revisions) (fun x => decide (x < rev))
    rw [← hfilter, List.getLast?_eq_getElem?]
    generalize item.revisions.takeWhile (· < rev) = small at hpre
    dsimp only
    split_ifs with hpos
    · have hlt : small.length - 1 < small.length := by omega
      have hget := hpre.getElem hlt
      rw [List.getElem?_eq_getElem hlt, Option.bind_some, List.getD_eq_getElem?_getD,
        List.getElem?_eq_getElem (lt_of_lt_of_le hlt hpre.length_le), hget]
      rfl
    · have hnil : small = [] := List.length_eq_zero_iff.mp (by omega)
      rw [hnil]
      rfl

/-! ### The log behind a store -/

abbrev History := Log Bytes Bytes

namespace Store

/-- The store is the image of a log. The revisions of an item may have lost
those below some bound that compaction has passed; the array holds the value of
every change above the start offset. -/
structure Represents (s : Store) (log : History) : Prop where
  length : s.valuesByRevision.latestRevision = log.length
  latest : ∀ k, (s.view k).latestValue = cells log k
  revisions : ∀ k, ∃ d : ℤ, d ≤ s.valuesByRevision.earliestRevision ∧
    (s.view k).revisions = (revisionsOf log k).filter (d ≤ ·)
  stored : ∀ k (n : ℕ), s.valuesByRevision.earliestRevision < n → (n : ℤ) ∈ revisionsOf log k →
    s.valuesByRevision.at? (n - 1) = some (cells (log.take n) k)

theorem new_represents (wal : Option WalMode) : (new wal).Represents [] where
  length := rfl
  latest k := by simp [view, item?, new, TreeItem.placeholder]
  revisions k := ⟨0, by simp [new], by simp [view, item?, new, TreeItem.placeholder]⟩
  stored k n _ hm := by simp at hm

/-- Only the items and the revision array matter. -/
theorem Represents.congr {s s' : Store} {log : History} (h : s.Represents log)
    (hv : s'.view = s.view) (hd : s'.valuesByRevision = s.valuesByRevision) :
    s'.Represents log := by
  refine ⟨?_, ?_, ?_, ?_⟩
  · rw [hd]
    exact h.length
  · rw [hv]
    exact h.latest
  · rw [hv, hd]
    exact h.revisions
  · rw [hd]
    exact h.stored

theorem Represents.currentRevision_eq {s : Store} {log : History} (h : s.Represents log) :
    s.currentRevision = log.length := by
  unfold currentRevision
  rw [h.length]

theorem Represents.revisions_sorted {s : Store} {log : History} (h : s.Represents log)
    (k : Bytes) : (s.view k).revisions.Pairwise (· < ·) := by
  obtain ⟨d, _, hr⟩ := h.revisions k
  rw [hr]
  exact (VersionLog.revisionsOf_sorted log k).filter _

theorem Represents.earliest_le {s : Store} {log : History} (h : s.Represents log) :
    s.valuesByRevision.earliestRevision ≤ log.length := by
  rw [← h.length]
  exact Nat.le_add_left _ _

/-- A write extends the log: `kept` is what the write leaves of the revisions
of the item. -/
theorem Represents.write {s s' : Store} {log : History} (h : s.Represents log) {key : Bytes}
    {value : Option Bytes} {d : ℤ} (hd : d ≤ s.valuesByRevision.earliestRevision)
    (hv : s'.view = Function.update s.view key
      ⟨key, (revisionsOf log key).filter (d ≤ ·) ++ [(s.valuesByRevision.latestRevision + 1 : ℤ)],
        (s.view key).latestValue.next (s.valuesByRevision.latestRevision + 1) value⟩)
    (hc : s'.valuesByRevision = commitValue s.valuesByRevision
      ((s.view key).latestValue.next (s.valuesByRevision.latestRevision + 1) value)) :
    s'.Represents (log ++ [(key, value)]) := by
  have hlen := h.length
  have hel := h.earliest_le
  have hnext : (s.view key).latestValue.next (s.valuesByRevision.latestRevision + 1) value =
      cells (log ++ [(key, value)]) key := by
    rw [VersionLog.cells_append, if_pos rfl, h.latest, hlen]
  rw [hnext] at hv hc
  refine ⟨?_, ?_, ?_, ?_⟩
  · rw [hc, latestRevision_commitValue, hlen, List.length_append, List.length_singleton]
  · intro k
    rw [hv, Function.update_apply]
    split_ifs with hk
    · rw [hk]
    · rw [h.latest, VersionLog.cells_append, if_neg hk]
  · intro k
    rw [hv, hc, earliestRevision_commitValue, Function.update_apply, VersionLog.revisionsOf_append]
    by_cases hk : k = key
    · have hkeep : d ≤ (log.length + 1 : ℤ) := by omega
      refine ⟨d, hd, ?_⟩
      rw [if_pos hk, if_pos hk, List.filter_append, hk, hlen]
      simp [hkeep]
    · rw [if_neg hk, if_neg hk]
      exact h.revisions k
  · intro k n hn hm
    rw [hc, earliestRevision_commitValue] at hn
    rw [hc, at?_commitValue, hlen]
    have hb := VersionLog.revisionsOf_bounds hm
    rw [List.length_append, List.length_singleton] at hb
    rw [VersionLog.revisionsOf_append] at hm
    by_cases hlast : n = log.length + 1
    · -- the new change belongs to the written key only
      have hk : k = key := by
        by_contra hk
        rw [if_neg hk] at hm
        have := VersionLog.revisionsOf_bounds hm
        omega
      rw [if_pos (by omega), hlast, hk, List.take_of_length_le (by simp)]
    · have hm' : (n : ℤ) ∈ revisionsOf log k := by
        split_ifs at hm with hk
        · rcases List.mem_append.mp hm with hm | hm
          · exact hm
          · rw [List.mem_singleton] at hm
            omega
        · exact hm
      rw [if_neg (by omega), List.take_append_of_le_length (by omega)]
      exact h.stored k n hn hm'

theorem locked_represents {s : Store} (hs : s.HeapOk) {log : History} (h : s.Represents log)
    {key : Bytes} {a : ℕ} (ha : s.treeMap[key]? = some a) (isNew : Bool) {value : Option Bytes}
    {required : Option SetRequired} (hok : checkItem (s.view key) value required = .ok ()) :
    (s.locked a isNew value required).1.Represents (log ++ [(key, value)]) := by
  obtain ⟨_, hv, hd⟩ := locked_ok hs ha isNew hok
  obtain ⟨d, hde, hr⟩ := h.revisions key
  rw [drainRevisions_eq (h.revisions_sorted key), hr, List.filter_filter] at hv
  refine h.write (le_refl _) ?_ hd
  rw [hv]
  congr 3
  apply List.filter_congr
  intro r _
  have hiff : ((s.valuesByRevision.earliestRevision : ℤ) ≤ r ∧ d ≤ r) ↔
      (s.valuesByRevision.earliestRevision : ℤ) ≤ r := by omega
  rw [← Bool.decide_and, decide_eq_decide]
  exact hiff

theorem update_represents {s : Store} (hs : s.WF) {log : History} (h : s.Represents log)
    {key : Bytes} {value : Option Bytes} {required : Option SetRequired}
    (hok : checkItem (s.view key) value required = .ok ()) :
    (s.update key value required).1.Represents (log ++ [(key, value)]) := by
  have hview := view_touch hs.toHeapOk key
  rw [← hview] at hok
  exact locked_represents (touch_wf hs key).toHeapOk
    (h.congr hview (touch_valuesByRevision s key)) (touch_owned s key) _ hok

/-! ### Compaction -/

theorem compact_error {s : Store} {c : ℤ} {e : Status} (h : (s.compact c).2 = .error e) :
    (s.compact c).1 = s := by
  unfold compact at h ⊢
  split_ifs with hc
  · rfl
  · have hf := s.valuesByRevision.removeBefore_fst (c - 1).toNat
    by_cases hin : s.valuesByRevision.earliestRevision ≤ (c - 1).toNat ∧
        (c - 1).toNat ≤ s.valuesByRevision.latestRevision
    · rw [if_neg hc] at h
      rw [if_pos hin] at hf
      generalize s.valuesByRevision.removeBefore (c - 1).toNat = res at hf h
      obtain ⟨res, values⟩ := res
      cases hf
      contradiction
    · have hs := s.valuesByRevision.removeBefore_failed (c - 1).toNat hin
      rw [if_neg hin] at hf
      generalize s.valuesByRevision.removeBefore (c - 1).toNat = res at hf hs
      obtain ⟨res, values⟩ := res
      cases hf
      cases hs
      rfl

/-- A compaction at `c` removes the values below `c` from the array. -/
theorem compact_ok {s : Store} {c : ℤ} (h : (s.compact c).2 = .ok ()) :
    ∃ n : ℕ, c = n + 1 ∧ s.valuesByRevision.earliestRevision ≤ n ∧
      n < s.valuesByRevision.latestRevision ∧
      (s.compact c).1 =
        { s with valuesByRevision := (s.valuesByRevision.removeBefore n).2 } := by
  unfold compact at h ⊢
  unfold currentRevision at h ⊢
  split_ifs at h with hc
  have hf := s.valuesByRevision.removeBefore_fst (c - 1).toNat
  split_ifs at hf with hin
  · refine ⟨(c - 1).toNat, by omega, hin.1, by omega, ?_⟩
    rw [if_neg hc]
    generalize s.valuesByRevision.removeBefore (c - 1).toNat = res at hf
    obtain ⟨res, values⟩ := res
    cases hf
    rfl
  · generalize s.valuesByRevision.removeBefore (c - 1).toNat = res at hf h
    obtain ⟨res, values⟩ := res
    cases hf
    contradiction

theorem compact_heapOk {s : Store} (hs : s.HeapOk) (c : ℤ) : (s.compact c).1.HeapOk := by
  cases h : (s.compact c).2 with
  | error e =>
    rw [compact_error h]
    exact hs
  | ok u =>
    obtain ⟨n, _, _, _, he⟩ := compact_ok h
    rw [he]
    exact ⟨hs.owned, hs.listed⟩

@[simp] theorem compact_treeMap (s : Store) (c : ℤ) : (s.compact c).1.treeMap = s.treeMap := by
  cases h : (s.compact c).2 with
  | error e => rw [compact_error h]
  | ok u =>
    obtain ⟨n, _, _, _, he⟩ := compact_ok h
    rw [he]

@[simp] theorem compact_bucket? (s : Store) (c : ℤ) (p t : Bytes) :
    (s.compact c).1.bucket? p t = s.bucket? p t := by
  cases h : (s.compact c).2 with
  | error e => rw [compact_error h]
  | ok u =>
    obtain ⟨n, _, _, _, he⟩ := compact_ok h
    rw [he]
    rfl

theorem compact_wf {s : Store} (hs : s.WF) (c : ℤ) : (s.compact c).1.WF := by
  refine ⟨compact_heapOk hs.toHeapOk c, fun k a hk => ?_⟩
  rw [compact_treeMap] at hk
  rw [compact_bucket?]
  exact hs.indexed k a hk

theorem compact_represents {s : Store} {log : History} (h : s.Represents log) (c : ℤ) :
    (s.compact c).1.Represents log := by
  cases hc : (s.compact c).2 with
  | error e =>
    rw [compact_error hc]
    exact h
  | ok u =>
    obtain ⟨n, _, hlo, hhi, he⟩ := compact_ok hc
    have hb : s.valuesByRevision.earliestRevision ≤ n ∧ n ≤ s.valuesByRevision.latestRevision :=
      ⟨hlo, hhi.le⟩
    rw [he]
    refine ⟨?_, h.latest, ?_, ?_⟩
    · exact (BlockDeque.latestRevision_removeBefore _ n hb).trans h.length
    · intro k
      obtain ⟨d, hd, hr⟩ := h.revisions k
      refine ⟨d, ?_, hr⟩
      change d ≤ ((s.valuesByRevision.removeBefore n).2.earliestRevision : ℤ)
      rw [BlockDeque.earliestRevision_removeBefore _ n hb]
      omega
    · intro k m hm hmem
      change (s.valuesByRevision.removeBefore n).2.earliestRevision < m at hm
      rw [BlockDeque.earliestRevision_removeBefore _ n hb] at hm
      change (s.valuesByRevision.removeBefore n).2.at? (m - 1) = _
      rw [BlockDeque.at?_removeBefore _ n hb, if_pos (by omega)]
      exact h.stored k m (by omega) hmem

/-! ### Reads at past revisions -/

theorem at?_of_lt {d : BlockDeque Value storeBlock} {k : ℕ} (h : k < d.earliestRevision) :
    d.at? k = none := by
  unfold BlockDeque.at?
  exact if_neg (fun hk => absurd hk.1 (Nat.not_le.mpr h))

/-- The last revision up to `r` among those an item has kept. -/
theorem getLast?_kept (log : History) (k : Bytes) (d : ℤ) (r : ℕ)
    (hz : (cells (log.take r) k).modRevision ≠ 0) :
    (((revisionsOf log k).filter (d ≤ ·)).filter (· ≤ (r : ℤ))).getLast? =
      if d ≤ (cells (log.take r) k).modRevision then some (cells (log.take r) k).modRevision
      else none := by
  have hmem := VersionLog.modRevision_take_mem log k r hz
  have hsort := ((VersionLog.revisionsOf_sorted log k).filter (fun x => decide (d ≤ x))).filter
    (fun x => decide (x ≤ (r : ℤ)))
  -- no revision of the key up to `r` is above the one in force at `r`
  have hmax : ∀ x ∈ revisionsOf log k, x ≤ r → x ≤ (cells (log.take r) k).modRevision := by
    intro x hx hxr
    have hx' : x ∈ revisionsOf (log.take r) k := by
      rw [VersionLog.revisionsOf_take]
      exact List.mem_filter.mpr ⟨hx, decide_eq_true hxr⟩
    have hlast := VersionLog.getLast?_revisionsOf (log.take r) k
    rw [if_neg hz] at hlast
    obtain ⟨ys, hys⟩ := List.getLast?_eq_some_iff.mp hlast
    have hp := VersionLog.revisionsOf_sorted (log.take r) k
    rw [hys] at hx' hp
    rcases List.mem_append.mp hx' with hx' | hx'
    · exact ((List.pairwise_append.mp hp).2.2 x hx' _ (List.mem_singleton_self _)).le
    · rw [List.mem_singleton.mp hx']
  split_ifs with hd
  · apply getLast?_of_max hsort
    · simp only [List.mem_filter, decide_eq_true_eq]
      exact ⟨⟨hmem.1, hd⟩, hmem.2⟩
    · intro x hx
      simp only [List.mem_filter, decide_eq_true_eq] at hx
      exact hmax x hx.1.1 hx.2
  · rw [List.getLast?_eq_none_iff, List.filter_eq_nil_iff]
    intro x hx
    simp only [List.mem_filter, decide_eq_true_eq] at hx ⊢
    intro hxr
    have := hmax x hx.1 hxr
    omega

/-- What a read at revision `r` finds: the cell in force at `r`, unless the key
was changed since and the cell is not in the array any more. -/
theorem Represents.liveAt_eq {s : Store} {log : History} (h : s.Represents log) (k : Bytes)
    (r : ℕ) :
    s.liveAt (s.view k) r =
      if (cells log k).modRevision ≤ r ∨
          (s.valuesByRevision.earliestRevision : ℤ) < (cells (log.take r) k).modRevision then
        (cells (log.take r) k).live
      else none := by
  by_cases hle : (cells log k).modRevision ≤ r
  · rw [if_pos (Or.inl hle), VersionLog.cells_take_of_modRevision_le log k r hle, ← h.latest k]
    apply liveAt_of_le
    rw [h.latest k]
    exact hle
  · obtain ⟨d, hd, hr⟩ := h.revisions k
    have hlt : (r : ℤ) < (s.view k).latestValue.modRevision := by
      rw [h.latest k]
      omega
    have hfloor := foundValue_eq_floor s (h.revisions_sorted k) hlt
    unfold liveAt
    rw [hfloor, hr]
    by_cases hz : (cells (log.take r) k).modRevision = 0
    · -- the key had not been written at `r`
      have hrev : (revisionsOf log k).filter (· ≤ (r : ℤ)) = [] := by
        have hlast := VersionLog.getLast?_revisionsOf (log.take r) k
        rw [if_pos hz, List.getLast?_eq_none_iff] at hlast
        rw [← VersionLog.revisionsOf_take, hlast]
      rw [List.filter_comm, hrev, VersionLog.cells_of_modRevision_zero _ k hz]
      simp
    · have hmem := VersionLog.modRevision_take_mem log k r hz
      have hpos := (VersionLog.revisionsOf_bounds hmem.1).1
      rw [getLast?_kept log k d r hz]
      generalize hm : (cells (log.take r) k).modRevision = m at *
      by_cases hs : (s.valuesByRevision.earliestRevision : ℤ) < m
      · have hcell : cells (log.take m.toNat) k = cells (log.take r) k := by
          have ht := VersionLog.cells_take_modRevision (log.take r) k (by rw [hm]; exact hz)
          rw [hm, List.take_take, Nat.min_eq_left (by omega)] at ht
          exact ht
        rw [if_pos (by omega), if_pos (Or.inr hs), Option.bind_some,
          h.stored k m.toNat (by omega) (by rw [Int.toNat_of_nonneg (by omega)]; exact hmem.1),
          hcell]
        rfl
      · rw [if_neg (by omega : ¬((cells log k).modRevision ≤ r ∨ _))]
        split_ifs with hdm
        · rw [Option.bind_some, at?_of_lt (by omega)]
          rfl
        · rfl

/-- Without compaction a read at revision `r` finds every key as the first `r`
changes left it. -/
theorem Represents.liveAt_uncompacted {s : Store} {log : History} (h : s.Represents log)
    (he : s.valuesByRevision.earliestRevision = 0) (k : Bytes) (r : ℕ) :
    s.liveAt (s.view k) r = (cells (log.take r) k).live := by
  rw [h.liveAt_eq, he]
  have hb := VersionLog.modRevision_bounds (log.take r) k
  by_cases hz : (cells (log.take r) k).modRevision = 0
  · rw [VersionLog.cells_of_modRevision_zero _ k hz]
    simp
  · rw [if_pos (Or.inr (by omega))]

theorem Represents.live_eq {s : Store} {log : History} (h : s.Represents log) (k : Bytes) :
    s.live k = (cells log k).live := by
  unfold live
  rw [h.latest k]

end Store
end MemEtcd
