import MemEtcd.RangeService
import MemEtcd.WatchCoverage

/-! The queries that panic. `find_value_for_revision` and `has_value_for_revision` assert a
positive revision, and `BTreeMap::range` panics if its lower bound is above its upper one.
Both depend on what the client sends and on what the store has seen before. -/
namespace MemEtcd

/-- The end key of a request lies before its start key, in the same bucket. -/
def RunsBackwards (start endKey : Bytes) : Prop :=
  endKey ≠ [] ∧ endKey ≠ [0] ∧ bucketOf start = bucketOf endKey ∧ endKey < start

instance (start endKey : Bytes) : Decidable (RunsBackwards start endKey) :=
  inferInstanceAs (Decidable (_ ∧ _))

theorem RunsBackwards.accepted {start endKey : Bytes} (h : RunsBackwards start endKey) :
    prefixAndRangeOfKey start endKey =
      .ok (bucketOf start, .included (prefixSplit start).2, .excluded (prefixSplit endKey).2) := by
  obtain ⟨hne, hnz, hb, hlt⟩ := h
  have hb' : (prefixSplit start).1 = (prefixSplit endKey).1 := hb
  -- an end key that appends a zero byte to the start key lies behind it
  have hzero : ¬((prefixSplit endKey).2.getLast? = some 0 ∧
      (prefixSplit endKey).2.dropLast = (prefixSplit start).2) := by
    rintro ⟨hlast, hdrop⟩
    have hs := (suffix_lt_iff hb.symm).mpr hlt
    rw [← hdrop] at hs
    exact absurd (List.dropLast_prefix _).le (List.not_le.mpr hs)
  unfold prefixAndRangeOfKey
  dsimp only
  rw [if_neg (by simpa using hne), if_neg hnz, if_neg (not_not.mpr hb'), if_neg hzero]

/-- The bounds of an accepted request are inverted exactly if it runs backwards. -/
theorem inverted_iff_runsBackwards {start endKey pfx : Bytes} {lo hi : Bound Bytes}
    (ha : prefixAndRangeOfKey start endKey = .ok (pfx, lo, hi)) :
    Bound.inverted lo hi = true ↔ RunsBackwards start endKey := by
  constructor
  · intro hinv
    obtain ⟨rfl, rfl, hend⟩ := accepted_cases ha
    rcases hend with ⟨_, rfl⟩ | ⟨_, _, rfl⟩ | ⟨_, _, _, _, rfl⟩ | ⟨hne, hnz, _, hb, rfl⟩
    · exact absurd (of_decide_eq_true hinv) (List.lt_irrefl _)
    · exact absurd hinv Bool.false_ne_true
    · exact absurd hinv Bool.false_ne_true
    · exact ⟨hne, hnz, hb.symm, (suffix_lt_iff hb).mp (of_decide_eq_true hinv)⟩
  · intro h
    have hb := h.2.2.1
    have hlt := h.2.2.2
    cases ha.symm.trans h.accepted
    exact decide_eq_true ((suffix_lt_iff hb.symm).mpr hlt)

theorem not_requests_of_runsBackwards {start endKey : Bytes} (h : RunsBackwards start endKey)
    (k : Bytes) : ¬requests start endKey k := by
  rw [requests_of_accepted h.accepted]
  exact not_selects_of_inverted ((inverted_iff_runsBackwards h.accepted).mpr h) k

namespace Store

/-- A request finds an index entry exactly if one of its keys has an item. -/
theorem selected_ne_nil_iff {s : Store} (hs : s.WF) (pfx : Bytes) (lo hi : Bound Bytes) :
    s.selected pfx lo hi ≠ [] ↔ ∃ k, selects pfx lo hi k ∧ (s.treeMap[k]?).isSome := by
  constructor
  · intro h
    obtain ⟨⟨t, a⟩, he⟩ := List.exists_mem_of_ne_nil _ h
    obtain ⟨hb, hlo, hhi⟩ := (mem_selected s pfx lo hi t a).mp he
    obtain ⟨k, hk, ha⟩ := hs.listed pfx t a hb
    refine ⟨k, ⟨by rw [hk], by rw [hk]; exact hlo, by rw [hk]; exact hhi⟩, ?_⟩
    rw [ha]
    rfl
  · rintro ⟨k, ⟨rfl, hlo, hhi⟩, hk⟩
    obtain ⟨a, ha⟩ := Option.isSome_iff_exists.mp hk
    exact List.ne_nil_of_mem ((mem_selected s _ lo hi _ a).mpr ⟨hs.indexed k a ha, hlo, hhi⟩)

/-- `range` panics exactly on a request that passes both revision checks and either runs
backwards in a bucket that exists, or reads at a revision that is not positive and meets
an item, live or not. -/
theorem range_panics_iff {s : Store} (hs : s.WF) (start endKey : Bytes) (rev : ℤ)
    (limit : Option ℕ) :
    (∃ p, s.range start endKey rev limit = .error (.panic p)) ↔
      rev ≤ s.currentRevision ∧ ¬(rev > 0 ∧ rev ≤ s.compactedRevision) ∧
      ((RunsBackwards start endKey ∧ (s.prefixMap[bucketOf start]?).isSome) ∨
        (s.readRevision rev ≤ 0 ∧ ∃ k, requests start endKey k ∧ (s.treeMap[k]?).isSome)) := by
  by_cases hrev : rev > s.currentRevision ∨ rev > 0 ∧ rev ≤ s.compactedRevision
  · rw [range_refused_revision s hrev]
    refine iff_of_false (by rintro ⟨p, ⟨⟩⟩) ?_
    rintro ⟨hl, hc, _⟩
    exact hrev.elim (fun hf => absurd hl (by omega)) hc
  · obtain ⟨hf, hc⟩ := not_or.mp hrev
    have hl : rev ≤ s.currentRevision := by omega
    rw [and_iff_right hl, and_iff_right hc]
    cases ha : prefixAndRangeOfKey start endKey with
    | error e =>
      rw [range_unaccepted s ha hl hc]
      refine iff_of_false (by rintro ⟨p, ⟨⟩⟩) ?_
      rintro (⟨hb, _⟩ | ⟨_, k, hk, _⟩)
      · exact absurd (ha.symm.trans hb.accepted) (by nofun)
      · exact not_requests_of_error ha k hk
    | ok acc =>
      obtain ⟨pfx, lo, hi⟩ := acc
      have hpfx := (accepted_cases ha).1
      by_cases hinv : Bound.inverted lo hi = true
      · have hback := (inverted_iff_runsBackwards ha).mp hinv
        have hnone : ¬∃ k, requests start endKey k ∧ (s.treeMap[k]?).isSome :=
          fun ⟨k, hk, _⟩ => not_requests_of_runsBackwards hback k hk
        rw [range_inverted s ha hinv hl hc, ← hpfx]
        simp only [hback, true_and, hnone, and_false, or_false]
        cases s.prefixMap[pfx]? with
        | none => exact iff_of_false (by rintro ⟨p, ⟨⟩⟩) (by nofun)
        | some btree => exact iff_of_true ⟨_, rfl⟩ rfl
      · have hback : ¬RunsBackwards start endKey :=
          fun h => hinv ((inverted_iff_runsBackwards ha).mpr h)
        rw [range_read s ha (Bool.not_eq_true _ ▸ hinv) hl hc]
        simp only [hback, false_and, false_or, requests_of_accepted ha]
        rw [← selected_ne_nil_iff hs, ← not_lt, ne_eq, ← not_or]
        by_cases hread : 0 < s.readRevision rev ∨ s.selected pfx lo hi = []
        · rw [if_pos hread]
          exact iff_of_false (by rintro ⟨p, ⟨⟩⟩) (not_not.mpr hread)
        · rw [if_neg hread]
          exact iff_of_true ⟨_, rfl⟩ hread

/-- `watch` panics exactly on a request for past changes that runs backwards in a bucket
that exists. -/
theorem watch_panics_iff (s : Store) (start endKey : Bytes) (rev : ℤ) (wantPrevKv : Bool) :
    (∃ p, (s.watch start endKey rev wantPrevKv).2 = .error p) ↔
      0 < rev ∧ s.compactedRevision < rev ∧
        RunsBackwards start endKey ∧ (s.prefixMap[bucketOf start]?).isSome := by
  unfold watch
  dsimp only
  generalize (if rev ≤ 0 then s.currentRevision else rev) = startRev
  by_cases hc : rev > 0 ∧ rev ≤ s.compactedRevision
  · rw [if_pos hc]
    exact iff_of_false (by rintro ⟨p, ⟨⟩⟩) (fun h => absurd h.2.1 (by omega))
  · rw [if_neg hc]
    by_cases hpos : rev > 0
    · rw [if_pos hpos, and_iff_right hpos, and_iff_right (by omega)]
      cases ha : prefixAndRangeOfKey start endKey with
      | error e =>
        refine iff_of_false (by rintro ⟨p, ⟨⟩⟩) (fun h => ?_)
        exact absurd (ha.symm.trans h.1.accepted) (by nofun)
      | ok acc =>
        obtain ⟨pfx, lo, hi⟩ := acc
        rw [← inverted_iff_runsBackwards ha, ← (accepted_cases ha).1]
        have hsame : (s.register start endKey startRev).prefixMap = s.prefixMap := rfl
        dsimp only
        rw [hsame]
        cases s.prefixMap[pfx]? with
        | none => exact iff_of_false (by rintro ⟨p, ⟨⟩⟩) (fun h => Bool.false_ne_true h.2)
        | some btree =>
          dsimp only [btreeRange]
          by_cases hinv : Bound.inverted lo hi = true
          · rw [if_pos hinv]
            exact iff_of_true ⟨_, rfl⟩ ⟨hinv, rfl⟩
          · rw [if_neg hinv]
            exact iff_of_false (by rintro ⟨p, ⟨⟩⟩) (fun h => hinv h.1)
    · rw [if_neg hpos]
      exact iff_of_false (by rintro ⟨p, ⟨⟩⟩) (fun h => hpos h.1)

/-! ### The revisions of an item -/

/-- Every revision of an item is positive, so that the place in the array that it stands
for, `rev as usize - 1`, does not underflow. -/
def Dated (s : Store) : Prop := ∀ k, ∀ r ∈ (s.view k).revisions, 0 < r

theorem Dated.write {s t : Store} (h : s.Dated) {key : Bytes} {revisions : List ℤ} {n : ℕ}
    {v : Value} (hsub : ∀ r ∈ revisions, r ∈ (s.view key).revisions)
    (hview : t.view = Function.update s.view key ⟨key, revisions ++ [(n + 1 : ℤ)], v⟩) :
    t.Dated := by
  intro k r hr
  rw [hview] at hr
  by_cases hk : k = key
  · subst hk
    rw [Function.update_self] at hr
    rcases List.mem_append.mp hr with hold | hnew
    · exact h k r (hsub r hold)
    · rw [List.mem_singleton.mp hnew]
      omega
  · rw [Function.update_of_ne hk] at hr
    exact h k r hr

theorem Dated.congr {s t : Store} (h : s.Dated) (hv : t.view = s.view) : t.Dated := by
  unfold Dated
  rw [hv]
  exact h

theorem mem_of_mem_drainRevisions {revisions : List ℤ} {earliest r : ℤ}
    (h : r ∈ drainRevisions revisions earliest) : r ∈ revisions := by
  unfold drainRevisions at h
  split_ifs at h
  · exact List.mem_of_mem_drop h
  · exact h

theorem Reached.dated {s : Store} (h : s.Reached) : s.Dated := by
  induction h with
  | new wal =>
    intro k r hr
    rw [view_of_vacant (by simp [Store.new])] at hr
    contradiction
  | @call s c hs ih =>
    have hw := hs.coherent.toWF
    cases hc : checkItem (s.view c.key) c.value c.required with
    | error kv => exact ih.congr (set_refused hw hc).2.1
    | ok u => exact ih.write (fun r => mem_of_mem_drainRevisions) (set_accepted hw hc).2.1
  | @replay s key value hs ih =>
    by_cases heff : value.isSome ∨ (s.view key).latestValue.value.isSome
    · exact ih.write (fun r => id) (setForReplay_spec hs.coherent.toWF heff).2.1
    · rw [setForReplay_dead heff]
      exact ih
  | compact rev _ ih => exact ih.congr (compact_view _ rev)
  | @watch s start endKey rev wantPrevKv _ ih =>
    rcases s.watch_store start endKey rev wantPrevKv with he | ⟨startRev, he⟩
    · rw [he]
      exact ih
    · rw [he]
      exact ih.congr rfl
  | unwatch start watcherId _ ih => exact ih.congr rfl
  | dispatch _ _ ih => exact ih.congr rfl
  | @load s t entries hexport ht _ _ _ =>
    obtain ⟨_, hin, hout, _⟩ := s.importSnapshotData_items hexport.keys_nodup
    intro k r hr
    by_cases hk : k ∈ entries.map (·.key)
    · obtain ⟨e, he, rfl⟩ := List.mem_map.mp hk
      rw [hin e he] at hr
      rw [List.mem_singleton.mp hr]
      exact hexport.positive ht.coherent e he
    · rw [hout k hk] at hr
      contradiction

/-- In every reachable state, exactly these queries panic: a `range` or a `watch` for past
changes that runs backwards in a bucket that exists, and a `range` of a key with an item
at a revision below zero, or at revision zero while nothing has been written. A `range`
has passed its revision checks then, and the `watch` the check for compaction; and no
revision of an item is a reason to panic. -/
theorem queries_panic_iff {s : Store} (hs : s.Reached) (start endKey : Bytes) (rev : ℤ)
    (limit : Option ℕ) (wantPrevKv : Bool) :
    ((∃ p, s.range start endKey rev limit = .error (.panic p)) ↔
      rev ≤ s.currentRevision ∧ ¬(rev > 0 ∧ rev ≤ s.compactedRevision) ∧
      ((RunsBackwards start endKey ∧ (s.prefixMap[bucketOf start]?).isSome) ∨
        ((rev < 0 ∨ rev = 0 ∧ s.currentRevision = 0) ∧
          ∃ k, requests start endKey k ∧ (s.treeMap[k]?).isSome))) ∧
    ((∃ p, (s.watch start endKey rev wantPrevKv).2 = .error p) ↔
      0 < rev ∧ s.compactedRevision < rev ∧
        RunsBackwards start endKey ∧ (s.prefixMap[bucketOf start]?).isSome) ∧
    ∀ k, ∀ r ∈ (s.view k).revisions, 0 < r := by
  have hnn := currentRevision_nonneg s
  have hread : s.readRevision rev ≤ 0 ↔ rev < 0 ∨ rev = 0 ∧ s.currentRevision = 0 := by
    unfold readRevision
    split_ifs <;> omega
  rw [← hread]
  exact ⟨range_panics_iff hs.coherent.toWF start endKey rev limit,
    watch_panics_iff s start endKey rev wantPrevKv, hs.dated⟩

/-- A store with the key `a` at revision 1, and a request that is answered. -/
theorem queries_answered_in_order :
    let s := ((new none).call ⟨[97], some [1], none⟩).1
    (¬∃ p, s.range [97] [98] 1 none = .error (.panic p)) ∧
      ¬∃ p, (s.watch [97] [98] 1 true).2 = .error p := by
  have h := queries_panic_iff (.call ⟨[97], some [1], none⟩ (.new none)) [97] [98] 1 none true
  have hback : ¬RunsBackwards [97] [98] := by decide
  refine ⟨fun hp => ?_, fun hp => ?_⟩
  · rcases (h.1.mp hp).2.2 with ⟨hb, _⟩ | ⟨hrev, _⟩
    · exact hback hb
    · omega
  · exact hback (h.2.1.mp hp).2.2.1

/-- The queries that panic: a read at revision -1 of a key that exists, a read of a key
whose deletion has failed in a store without revisions, and the keys from `b` up to `a`,
read and watched. -/
theorem queries_panic :
    let s := ((new none).call ⟨[97], some [1], none⟩).1
    let t := ((new none).call ⟨[97], none, none⟩).1
    s.Reached ∧ t.Reached ∧
      s.range [97] [] (-1) none = .error (.panic .revisionAssertion) ∧
      t.range [97] [] 0 none = .error (.panic .revisionAssertion) ∧
      s.range [98] [97] 0 none = .error (.panic .rangeBounds) ∧
      (s.watch [98] [97] 1 false).2 = .error .rangeBounds := by
  refine ⟨.call _ (.new none), .call _ (.new none), ?_, ?_, ?_, ?_⟩ <;> decide

end Store
end MemEtcd
