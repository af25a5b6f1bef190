import MemEtcd.RangeService
import MemEtcd.StoreReach

/-! A snapshot carries the live data of a store to another one. What the other
store held before leaves no trace in its buckets, its key map or its revisions. -/
namespace MemEtcd
namespace Store

theorem importEntry_prefixMap (s : Store) (e : SnapshotEntry) (pfx : Bytes) :
    ((s.importEntry e).prefixMap[pfx]?).isSome ↔
      (s.prefixMap[pfx]?).isSome ∨ (prefixSplit e.key).1 = pfx := by
  unfold importEntry index
  dsimp only
  rw [Std.ExtTreeMap.getElem?_insert]
  by_cases hp : (prefixSplit e.key).1 = pfx
  · rw [if_pos (Std.LawfulEqCmp.compare_eq_iff_eq.mpr hp)]
    exact iff_of_true rfl (Or.inr hp)
  · rw [if_neg (fun h => hp (Std.LawfulEqCmp.compare_eq_iff_eq.mp h))]
    simp only [hp, or_false]

/-- An import makes a bucket for the keys it brings, and no other. -/
theorem importSnapshotData_prefixMap (t : Store) (entries : List SnapshotEntry) (pfx : Bytes) :
    ((t.importSnapshotData entries).prefixMap[pfx]?).isSome ↔
      ∃ e ∈ entries, (prefixSplit e.key).1 = pfx := by
  have hfold (es : List SnapshotEntry) (s : Store) :
      ((es.foldl importEntry s).prefixMap[pfx]?).isSome ↔
        (s.prefixMap[pfx]?).isSome ∨ ∃ e ∈ es, (prefixSplit e.key).1 = pfx := by
    induction es generalizing s with
    | nil => simp
    | cons e es ih =>
      rw [List.foldl_cons, ih, importEntry_prefixMap, List.exists_mem_cons_iff, or_assoc]
  refine (hfold entries _).trans (or_iff_right ?_)
  rw [Std.ExtTreeMap.getElem?_empty]
  exact Bool.false_ne_true

/-- A bucket with a live key exists. -/
theorem prefixMap_of_live {s : Store} (hs : s.WF) {k : Bytes} (h : s.live k ≠ none) :
    (s.prefixMap[(prefixSplit k).1]?).isSome := by
  have hitem : s.treeMap[k]? ≠ none := by
    intro hnone
    apply h
    rw [live, view_of_vacant hnone]
    rfl
  obtain ⟨a, ha⟩ := Option.ne_none_iff_exists'.mp hitem
  have hbucket := hs.indexed k a ha
  unfold bucket? at hbucket
  cases hp : s.prefixMap[(prefixSplit k).1]? with
  | none =>
    rw [hp] at hbucket
    contradiction
  | some btree => rfl

/-- A store without an item in a range selects nothing there. -/
theorem selected_eq_nil {s : Store} (hs : s.WF) (htree : ∀ k : Bytes, s.treeMap[k]? = none)
    (pfx : Bytes) (lo hi : Bound Bytes) : s.selected pfx lo hi = [] := by
  apply List.eq_nil_iff_forall_not_mem.mpr
  rintro ⟨t, a⟩ he
  obtain ⟨hbucket, -, -⟩ := (mem_selected s pfx lo hi t a).mp he
  obtain ⟨k, -, hk⟩ := hs.listed _ _ _ hbucket
  rw [htree k] at hk
  contradiction

/-- A successful current `range` with its bounds in order, told by the live values. -/
theorem range_ok {s : Store} {start endKey pfx : Bytes} {lo hi : Bound Bytes}
    (ha : prefixAndRangeOfKey start endKey = .ok (pfx, lo, hi))
    (hi' : Bound.inverted lo hi = false) {limit : Option ℕ} {r : RangeResult}
    (hr : s.range start endKey 0 limit = .ok r) :
    (0 < s.currentRevision ∧ r = ⟨upToLimit limit (s.kvsAt pfx lo hi s.currentRevision),
      s.currentRevision, (s.kvsAt pfx lo hi s.currentRevision).length⟩) ∨
    (s.currentRevision = 0 ∧ s.selected pfx lo hi = [] ∧ r = ⟨[], 0, 0⟩) := by
  rw [range_now s ha hi'] at hr
  split_ifs at hr with hpos hsel
  · exact Or.inl ⟨hpos, (Except.ok.inj hr).symm⟩
  · have hnn := currentRevision_nonneg s
    exact Or.inr ⟨by omega, hsel, (Except.ok.inj hr).symm⟩

/-- A store whose live values are those of `s`, and whose items and buckets are all
of live keys, answers what `s` answers. -/
theorem range_of_live {s t : Store} (hs : s.Coherent) (ht : t.Coherent)
    (hlive : ∀ k, t.live k = s.live k) (htree : ∀ k : Bytes, t.treeMap[k]? = none ↔ s.live k = none)
    (hbuckets : ∀ pfx : Bytes, (t.prefixMap[pfx]?).isSome → (s.prefixMap[pfx]?).isSome)
    {start endKey : Bytes} {limit : Option ℕ} {r : RangeResult}
    (hr : s.range start endKey 0 limit = .ok r) :
    ∃ r', t.range start endKey 0 limit = .ok r' ∧ r'.kvs = r.kvs ∧ r'.count = r.count := by
  have hsn := currentRevision_nonneg s
  have htn := currentRevision_nonneg t
  cases ha : prefixAndRangeOfKey start endKey with
  | error e =>
    rw [range_unaccepted s ha hsn (by omega)] at hr
    contradiction
  | ok acc =>
    obtain ⟨pfx, lo, hi⟩ := acc
    cases hinv : Bound.inverted lo hi with
    | true =>
      -- bounds in the wrong order are only noticed when there is a bucket
      rw [range_inverted s ha hinv hsn (by omega)] at hr
      split_ifs at hr with hb
      have hnone : ¬(t.prefixMap[pfx]?).isSome := fun h => hb (hbuckets pfx h)
      refine ⟨⟨[], t.currentRevision, 0⟩, ?_, ?_⟩
      · rw [range_inverted t ha hinv htn (by omega), if_neg hnone]
      · cases hr
        exact ⟨rfl, rfl⟩
    | false =>
      rw [range_now t ha hinv]
      rcases range_ok ha hinv hr with ⟨hpos, rfl⟩ | ⟨hzero, -, rfl⟩
      · by_cases htpos : 0 < t.currentRevision
        · rw [if_pos htpos]
          have hkvs := kvsAt_of_live ht hs htpos hpos (fun k (_ : selects pfx lo hi k) => hlive k)
          exact ⟨_, rfl, by rw [hkvs], by rw [hkvs]⟩
        · -- at revision zero the store is empty, and `s` has no live key
          have hdead : ∀ k, s.live k = none := by
            intro k
            rw [← hlive k]
            exact ht.live_eq_none (by omega) k
          have hempty : s.kvsAt pfx lo hi s.currentRevision = [] := by
            apply List.eq_nil_iff_forall_not_mem.mpr
            intro kv hkv
            obtain ⟨k, v, -, hv, -⟩ := (mem_kvsAt_current hs hpos pfx lo hi kv).mp hkv
            rw [hdead k] at hv
            contradiction
          rw [if_neg htpos, if_pos (selected_eq_nil ht.toWF (fun k => (htree k).mpr (hdead k)) _ _ _),
            hempty]
          exact ⟨_, rfl, (upToLimit_nil limit).symm, rfl⟩
      · have hdead := hs.live_eq_none hzero
        have hnil : t.selected pfx lo hi = [] :=
          selected_eq_nil ht.toWF (fun k => (htree k).mpr (hdead k)) pfx lo hi
        by_cases htpos : 0 < t.currentRevision
        · have hempty : t.kvsAt pfx lo hi t.currentRevision = [] := by
            unfold kvsAt
            rw [hnil]
            rfl
          rw [if_pos htpos, hempty]
          exact ⟨_, rfl, upToLimit_nil limit, rfl⟩
        · rw [if_neg htpos, if_pos hnil]
          exact ⟨_, rfl, rfl, rfl⟩

/-- An export that is imported into any store gives the answers of the store it was
taken from, and is what the importing store exports. -/
theorem import_of_export {s : Store} (hs : s.Reached) {entries : List SnapshotEntry}
    (he : s.IsExport entries) (t : Store) :
    (∀ start endKey limit r, s.range start endKey 0 limit = .ok r →
      ∃ r', (t.importSnapshotData entries).range start endKey 0 limit = .ok r' ∧
        r'.kvs = r.kvs ∧ r'.count = r.count) ∧
    ∀ entries', (t.importSnapshotData entries).IsExport entries' → entries'.Perm entries := by
  have hcoh := hs.coherent
  obtain ⟨ht, -, hlive, htree⟩ := t.importSnapshotData_spec hcoh he
  constructor
  · intro start endKey limit r hr
    apply range_of_live hcoh ht hlive htree ?_ hr
    intro pfx hp
    obtain ⟨e, hein, rfl⟩ := (t.importSnapshotData_prefixMap entries pfx).mp hp
    apply prefixMap_of_live hcoh.toWF
    rw [(he.mem_iff_live e).mp hein]
    exact Option.some_ne_none _
  · intro entries' he'
    have hnodup {u : Store} {es : List SnapshotEntry} (h : u.IsExport es) : es.Nodup :=
      List.Nodup.of_map _ h.keys_nodup
    apply (List.perm_ext_iff_of_nodup (hnodup he') (hnodup he)).mpr
    intro e
    rw [he'.mem_iff_live, he.mem_iff_live, hlive]

/-- Two live keys and a deleted one, read with a limit after they were imported into
a store that held another key. -/
theorem import_of_export_deleted :
    ∃ r', (((new none).run [⟨[122], some [9], none⟩]).importSnapshotData
        ((new none).run [⟨[97], some [1], none⟩, ⟨[98], some [2], none⟩, ⟨[97], none, none⟩,
          ⟨[99], some [3], none⟩]).exportSnapshotData).range [97] [122] 0 (some 1) = .ok r' ∧
      r'.kvs = [⟨[98], [2], 2, 2, 1, 0⟩] ∧ r'.count = 2 := by
  have hs : ((new none).run [⟨[97], some [1], none⟩, ⟨[98], some [2], none⟩, ⟨[97], none, none⟩,
      ⟨[99], some [3], none⟩]).Reached :=
    .call ⟨[99], some [3], none⟩ (.call ⟨[97], none, none⟩ (.call ⟨[98], some [2], none⟩
      (.call ⟨[97], some [1], none⟩ (.new none))))
  exact (import_of_export hs (List.Perm.refl _) _).1 [97] [122] (some 1)
    ⟨[⟨[98], [2], 2, 2, 1, 0⟩], 4, 2⟩ rfl

end Store
end MemEtcd
