import MemEtcd.StoreRuns

/-! Reads at past revisions, without and with a compaction in between. -/
namespace MemEtcd

open VersionLog (Cell cells)

namespace Store

/-- Time travel: after any run of calls, `range` at revision `r` reports the
selected keys with the values they had right after the `r`-th successful call,
by ascending key. A request it does not accept gets its error at every
revision; inverted bounds select nothing and panic on an existing bucket. -/
theorem range_at_revision (wal : Option WalMode) (calls : List Call) (start endKey : Bytes)
    (r : ℕ) (h1 : 1 ≤ r) (hr : (r : ℤ) ≤ ((new wal).run calls).currentRevision) :
    ∃ past, (new wal).afterSuccess calls r = some past ∧
      match prefixAndRangeOfKey start endKey with
      | .error e => ((new wal).run calls).range start endKey r none = .error (.status e)
      | .ok (pfx, lo, hi) =>
        if Bound.inverted lo hi then
          ((new wal).run calls).range start endKey r none =
            if (((new wal).run calls).prefixMap[pfx]?).isSome then .error (.panic .rangeBounds)
            else .ok ⟨[], ((new wal).run calls).currentRevision, 0⟩
        else
          ∃ kvs, ((new wal).run calls).range start endKey r none =
              .ok ⟨kvs, ((new wal).run calls).currentRevision, kvs.length⟩ ∧
            kvs.Pairwise (fun a b => a.key < b.key) ∧
            ∀ kv, kv ∈ kvs ↔ ∃ k v, selects pfx lo hi k ∧ past.live k = some v ∧
              kv = asMvccKeyValue v k := by
  obtain ⟨hw, hrep, he⟩ := run_represents (new_wf wal) (new_represents wal) calls
  have hzero : (new wal).valuesByRevision.earliestRevision = 0 := rfl
  rw [hzero] at he
  have hlen := hrep.currentRevision_eq
  obtain ⟨past, hpast, _, hprep⟩ :=
    afterSuccess_represents (new_wf wal) (new_represents wal) calls (r := r)
      (by rw [List.length_nil]; omega)
  rw [List.length_nil, Nat.zero_add] at hprep
  have hpos : (0 : ℤ) < r := by omega
  have hcomp : ((new wal).run calls).compactedRevision < (r : ℤ) := by
    unfold compactedRevision
    omega
  refine ⟨past, hpast, ?_⟩
  split
  · rename_i e ha
    exact range_unaccepted _ ha hr (by omega) none
  · rename_i pfx lo hi ha
    by_cases hinv : Bound.inverted lo hi
    · rw [if_pos hinv]
      exact range_inverted _ ha hinv hr (by omega) none
    · rw [if_neg hinv]
      refine ⟨_, range_eq _ ha (by simpa using hinv) hpos hr hcomp, kvsAt_sorted _ _ _ _ _, ?_⟩
      intro kv
      rw [mem_kvsAt hw pfx lo hi hpos]
      simp only [hrep.liveAt_uncompacted he, hprep.live_eq]

/-- Create `a`, create `b`, try to create `b` again, delete `a`, change `b`. -/
def editCalls : List Call :=
  [⟨[97], some [1], none⟩, ⟨[98], some [2], none⟩, ⟨[98], some [9], some ⟨some 0, none, 0⟩⟩,
    ⟨[97], none, none⟩, ⟨[98], some [3], none⟩]

theorem range_at_revision_two_of_edits :
    ∃ past, (new none).afterSuccess editCalls 2 = some past ∧
      ∃ kvs, ((new none).run editCalls).range [97] [99] 2 none =
          .ok ⟨kvs, ((new none).run editCalls).currentRevision, kvs.length⟩ ∧
        kvs.Pairwise (fun a b => a.key < b.key) ∧
        ∀ kv, kv ∈ kvs ↔ ∃ k v, selects [] (.included [97]) (.excluded [99]) k ∧
          past.live k = some v ∧ kv = asMvccKeyValue v k :=
  range_at_revision none editCalls [97] [99] 2 (by decide) (by decide)

example : (((new none).run editCalls).range [97] [99] 2 none).toOption.map (·.kvs) =
    some [⟨[97], [1], 1, 1, 1, 0⟩, ⟨[98], [2], 2, 2, 1, 0⟩] := by decide

/-! ### Compaction -/

/-- The stores reachable from an empty one by `set`, `delete` and `compact`, each
with the log of its successful changes. -/
inductive Reachable (wal : Option WalMode) : Store → History → Prop
  | new : Reachable wal (Store.new wal) []
  | call {s : Store} {log : History} (c : Call) :
      Reachable wal s log → Reachable wal (s.call c).1 (logCall log c)
  | compact {s : Store} {log : History} (rev : ℤ) :
      Reachable wal s log → Reachable wal (s.compact rev).1 log

theorem Reachable.represents {wal : Option WalMode} {s : Store} {log : History}
    (h : Reachable wal s log) : s.WF ∧ s.Represents log := by
  induction h with
  | new => exact ⟨new_wf wal, new_represents wal⟩
  | call c _ ih => exact ⟨call_wf ih.1 c, call_represents ih.1 ih.2 c⟩
  | compact rev _ ih => exact ⟨compact_wf ih.1 rev, compact_represents ih.2 rev⟩

/-- Two stores whose indexes are the same and point into heaps of one size. -/
structure SameIndex (s t : Store) : Prop where
  treeMap : s.treeMap = t.treeMap
  prefixMap : s.prefixMap = t.prefixMap
  heap : s.items.length = t.items.length

theorem SameIndex.index {s t : Store} (h : SameIndex s t) (key : Bytes) (a : ℕ) :
    SameIndex (s.index key a) (t.index key a) := by
  refine ⟨h.treeMap, ?_, h.heap⟩
  unfold Store.index
  rw [h.prefixMap]

theorem SameIndex.entry {s t : Store} (h : SameIndex s t) (key : Bytes) :
    SameIndex (s.entry key).1 (t.entry key).1 ∧ (s.entry key).2 = (t.entry key).2 := by
  unfold Store.entry
  rw [h.treeMap, h.heap]
  cases t.treeMap[key]? with
  | some a => exact ⟨h, rfl⟩
  | none =>
    refine ⟨⟨rfl, h.prefixMap, ?_⟩, rfl⟩
    simp only [List.length_append, h.heap]

theorem SameIndex.touch {s t : Store} (h : SameIndex s t) (key : Bytes) :
    SameIndex (s.touch key) (t.touch key) := by
  obtain ⟨he, ha⟩ := h.entry key
  unfold Store.touch
  rw [ha]
  split_ifs
  · exact he.index key _
  · exact he

/-- The section under the lock leaves the indexes. -/
theorem locked_sameIndex (s : Store) (a : ℕ) (isNew : Bool) (value : Option Bytes)
    (required : Option SetRequired) : SameIndex (s.locked a isNew value required).1 s := by
  rcases locked_cases s a isNew value required with ⟨kv, _, he⟩ | ⟨_, he⟩
  · rw [he]
    exact ⟨rfl, rfl, rfl⟩
  · rw [he]
    exact ⟨rfl, rfl, List.length_set⟩

theorem SameIndex.trans {s t u : Store} (h : SameIndex s t) (h' : SameIndex t u) :
    SameIndex s u :=
  ⟨h.treeMap.trans h'.treeMap, h.prefixMap.trans h'.prefixMap, h.heap.trans h'.heap⟩

theorem SameIndex.symm {s t : Store} (h : SameIndex s t) : SameIndex t s :=
  ⟨h.treeMap.symm, h.prefixMap.symm, h.heap.symm⟩

theorem call_sameIndex (s : Store) (c : Call) : SameIndex (s.call c).1 (s.touch c.key) := by
  have hu : SameIndex (s.update c.key c.value c.required).1 (s.touch c.key) := by
    rw [update_eq_locked]
    exact locked_sameIndex _ _ _ _ _
  unfold call
  rcases set_cases s c.key c.value c.required with ⟨kv, _, he⟩ | ⟨d, _, he⟩
  · rw [he]
    exact hu
  · rw [he]
    exact ⟨hu.treeMap, hu.prefixMap, hu.heap⟩

/-- The indexes do not depend on which calls succeed. -/
theorem SameIndex.run {s t : Store} (h : SameIndex s t) (calls : List Call) :
    SameIndex (s.run calls) (t.run calls) := by
  induction calls generalizing s t with
  | nil => exact h
  | cons c calls ih =>
    apply ih
    exact (call_sameIndex s c).trans ((h.touch c.key).trans (call_sameIndex t c).symm)

theorem compact_sameIndex (s : Store) (c : ℤ) : SameIndex (s.compact c).1 s := by
  cases h : (s.compact c).2 with
  | error e =>
    rw [compact_error h]
    exact ⟨rfl, rfl, rfl⟩
  | ok u =>
    obtain ⟨n, _, _, _, he⟩ := compact_ok h
    rw [he]
    exact ⟨rfl, rfl, rfl⟩

/-- The key has a value at revision `r`, written after `lo` and before `hi`, and
is changed after `r`. -/
def Superseded (log : History) (k : Bytes) (r : ℕ) (lo hi : ℤ) : Prop :=
  (cells (log.take r) k).value.isSome ∧ lo < (cells (log.take r) k).modRevision ∧
    (cells (log.take r) k).modRevision < hi ∧ r < (cells log k).modRevision

/-- The effect of compaction on one key: a value written before the compaction
point is lost to a read at `r` as soon as the key is changed after `r`. -/
theorem liveAt_compacted_iff {s t : Store} {log : History} (hs : s.Represents log)
    (ht : t.Represents log)
    (hle : s.valuesByRevision.earliestRevision ≤ t.valuesByRevision.earliestRevision)
    (k : Bytes) (r : ℕ) :
    t.liveAt (t.view k) r = s.liveAt (s.view k) r ↔
      ¬Superseded log k r s.compactedRevision (t.compactedRevision + 1) := by
  rw [hs.liveAt_eq, ht.liveAt_eq]
  unfold Superseded compactedRevision
  by_cases hlive : (cells (log.take r) k).value.isSome
  · rw [Cell.live_of_isSome hlive]
    split_ifs with h1 h2 h2
    · exact iff_of_true rfl (by omega)
    · omega
    · exact iff_of_false (by simp) (not_not.mpr ⟨hlive, by omega, by omega, by omega⟩)
    · exact iff_of_true rfl (by omega)
  · rw [Cell.live_of_isNone (Option.not_isSome_iff_eq_none.mp hlive), ite_self, ite_self]
    exact iff_of_true rfl (fun h => hlive h.1)

/-- A compaction at `c` is invisible to a read at `r ≥ c` exactly if no requested
key has at `r` a value that was written before `c`, was still there before the
compaction, and is overwritten or deleted after `r`. -/
theorem range_after_compact_iff {wal : Option WalMode} {s : Store} {log : History}
    (hs : Reachable wal s log) {c : ℤ} (hc : (s.compact c).2 = .ok ()) (calls : List Call)
    {r : ℕ} (hcr : c ≤ r) (hr : (r : ℤ) ≤ ((s.compact c).1.run calls).currentRevision)
    (start endKey : Bytes) :
    ((s.compact c).1.run calls).range start endKey r none =
        (s.run calls).range start endKey r none ↔
      ∀ k, requests start endKey k →
        ¬Superseded (logCalls log calls) k r s.compactedRevision c := by
  obtain ⟨hw, hl⟩ := hs.represents
  obtain ⟨huw, hu, hue⟩ := run_represents hw hl calls
  obtain ⟨htw, ht, hte⟩ := run_represents (compact_wf hw c) (compact_represents hl c) calls
  have hsame := (compact_sameIndex s c).run calls
  obtain ⟨n, hcn, hlo, _, he⟩ := compact_ok hc
  have hearly : (s.compact c).1.valuesByRevision.earliestRevision = n := by
    rw [he]
    exact BlockDeque.earliestRevision_removeBefore _ n ⟨hlo, by omega⟩
  have hcs : (s.run calls).compactedRevision = s.compactedRevision := by
    unfold compactedRevision
    rw [hue]
  have hct : ((s.compact c).1.run calls).compactedRevision + 1 = c := by
    unfold compactedRevision
    rw [hte, hearly, hcn]
  have hle : s.compactedRevision ≤ n := Int.ofNat_le.mpr hlo
  have hcur : (s.run calls).currentRevision = ((s.compact c).1.run calls).currentRevision := by
    rw [hu.currentRevision_eq, ht.currentRevision_eq]
  have hkey : ∀ k, ((s.compact c).1.run calls).liveAt (((s.compact c).1.run calls).view k) r =
      (s.run calls).liveAt ((s.run calls).view k) r ↔
        ¬Superseded (logCalls log calls) k r s.compactedRevision c := by
    intro k
    rw [liveAt_compacted_iff hu ht (by omega), hcs, hct]
  rw [range_eq_iff huw htw hsame.prefixMap hcur (by omega) hr (by omega) (by omega)]
  exact forall₂_congr (fun k _ => hkey k)

def twoKeys : Store := (new none).run [⟨[97], some [1], none⟩, ⟨[98], some [2], none⟩]

def twoChanges : History := [([97], some [1]), ([98], some [2])]

theorem twoKeys_reachable : Reachable none twoKeys twoChanges :=
  .call ⟨[98], some [2], none⟩ (.call ⟨[97], some [1], none⟩ .new)

/-- `b` was written at the compaction point: overwriting it hides nothing. -/
theorem range_after_compact_of_recent_key :
    ((twoKeys.compact 2).1.run [⟨[98], some [3], none⟩]).range [98] [] (2 : ℕ) none =
        (twoKeys.run [⟨[98], some [3], none⟩]).range [98] [] (2 : ℕ) none ↔
      ∀ k, requests [98] [] k →
        ¬Superseded (logCalls twoChanges [⟨[98], some [3], none⟩]) k 2
          twoKeys.compactedRevision 2 :=
  range_after_compact_iff twoKeys_reachable (by decide) _ (by decide) (by decide) [98] []

/-- `a` is written at 1, the store is compacted at 2, `a` is overwritten at 3: a
read of `a` at 2 finds nothing. -/
theorem compact_hides_older_value :
    Reachable none twoKeys twoChanges ∧ (twoKeys.compact 2).2 = .ok () ∧
      ((twoKeys.compact 2).1.run [⟨[97], some [3], none⟩]).range [97] [] 2 none =
        .ok ⟨[], 3, 0⟩ ∧
      (twoKeys.run [⟨[97], some [3], none⟩]).range [97] [] 2 none =
        .ok ⟨[⟨[97], [1], 1, 1, 1, 0⟩], 3, 1⟩ :=
  ⟨twoKeys_reachable, by decide, by decide, by decide⟩

end Store
end MemEtcd
