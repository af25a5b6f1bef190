import MemEtcd.KeyRanges
import MemEtcd.StoreReach

/-! Which keys a watch covers. The scan for past changes goes by the bucket and
the bounds of the request, the live path by the byte order of the keys. -/
namespace MemEtcd

instance : Std.LawfulEqCmp watcherOrder where
  eq_of_compare := by
    intro a b h
    obtain ⟨h1, h2⟩ := Ordering.then_eq_eq.mp h
    exact Prod.ext (Std.LawfulEqCmp.compare_eq_iff_eq.mp h1)
      (Std.LawfulEqCmp.compare_eq_iff_eq.mp h2)

namespace Store

/-! ### The registered watchers -/

/-- Every watcher is filed under its start key and its id, which names its
channel and is used once. -/
structure Enrolled (s : Store) : Prop where
  counter : 0 ≤ s.watchCounter
  entry : ∀ (start : Bytes) (id : ℤ) (w : Watcher), s.watchers[(start, id)]? = some w →
    w.keyRangeStart = start ∧ w.ch = id.toNat ∧ 0 < id ∧ id ≤ s.watchCounter
  unique : ∀ (start start' : Bytes) (id : ℤ), (s.watchers[(start, id)]?).isSome →
    (s.watchers[(start', id)]?).isSome → start = start'

theorem new_enrolled (wal : Option WalMode) : (new wal).Enrolled := by
  have hnone (e : Bytes × ℤ) : (new wal).watchers[e]? = none := by simp [new]
  refine ⟨le_refl _, ?_, ?_⟩
  · intro start id w h
    rw [hnone] at h
    contradiction
  · intro start start' id h
    rw [hnone] at h
    contradiction

theorem Enrolled.congr {s t : Store} (h : s.Enrolled) (hw : t.watchers = s.watchers)
    (hc : t.watchCounter = s.watchCounter) : t.Enrolled := by
  refine ⟨?_, ?_, ?_⟩
  · rw [hc]
    exact h.counter
  · rw [hw, hc]
    exact h.entry
  · rw [hw]
    exact h.unique

theorem getElem?_register (s : Store) (start endKey : Bytes) (startRev : ℤ) (e : Bytes × ℤ) :
    (s.register start endKey startRev).watchers[e]? =
      if (start, s.watchCounter + 1) = e then
        some ⟨startRev, start, endKey, (s.watchCounter + 1).toNat⟩
      else s.watchers[e]? := by
  unfold register
  rw [Std.ExtTreeMap.getElem?_insert]
  simp only [Std.LawfulEqCmp.compare_eq_iff_eq]

theorem register_enrolled {s : Store} (h : s.Enrolled) (start endKey : Bytes) (startRev : ℤ) :
    (s.register start endKey startRev).Enrolled := by
  have hc := h.counter
  have hcounter : (s.register start endKey startRev).watchCounter = s.watchCounter + 1 := rfl
  have hold {k : Bytes} {id : ℤ} (hk : (s.watchers[(k, id)]?).isSome) : id ≤ s.watchCounter := by
    obtain ⟨w, hw⟩ := Option.isSome_iff_exists.mp hk
    exact (h.entry k id w hw).2.2.2
  refine ⟨by omega, ?_, ?_⟩
  · intro k id w hw
    rw [getElem?_register] at hw
    rw [hcounter]
    split_ifs at hw with he
    · cases he
      cases hw
      exact ⟨rfl, rfl, by omega, le_refl _⟩
    · obtain ⟨hk, hch, hpos, hle⟩ := h.entry k id w hw
      exact ⟨hk, hch, hpos, by omega⟩
  · intro k k' id hk hk'
    rw [getElem?_register] at hk hk'
    split_ifs at hk hk' with he he' he'
    · exact (congrArg Prod.fst he).symm.trans (congrArg Prod.fst he')
    · have hid : s.watchCounter + 1 = id := congrArg Prod.snd he
      have := hold hk'
      omega
    · have hid : s.watchCounter + 1 = id := congrArg Prod.snd he'
      have := hold hk
      omega
    · exact h.unique k k' id hk hk'

theorem unwatch_enrolled {s : Store} (h : s.Enrolled) (start : Bytes) (watcherId : ℤ) :
    (s.unwatch start watcherId).Enrolled := by
  have hsub {e : Bytes × ℤ} {w : Watcher}
      (hw : (s.unwatch start watcherId).watchers[e]? = some w) : s.watchers[e]? = some w := by
    unfold unwatch at hw
    rw [Std.ExtTreeMap.getElem?_erase] at hw
    split_ifs at hw
    exact hw
  refine ⟨h.counter, fun k id w hw => h.entry k id w (hsub hw), ?_⟩
  intro k k' id hk hk'
  obtain ⟨w, hw⟩ := Option.isSome_iff_exists.mp hk
  obtain ⟨w', hw'⟩ := Option.isSome_iff_exists.mp hk'
  apply h.unique k k' id
  · rw [hsub hw]
    rfl
  · rw [hsub hw']
    rfl

theorem call_watchers (s : Store) (c : Call) :
    (s.call c).1.watchers = s.watchers ∧ (s.call c).1.watchCounter = s.watchCounter := by
  have hu := update_sameNotify s c.key c.value c.required
  unfold call
  rcases set_cases s c.key c.value c.required with ⟨kv, _, he⟩ | ⟨d, _, he⟩
  · rw [he]
    exact ⟨hu.watchers, hu.watchCounter⟩
  · rw [he]
    exact ⟨hu.watchers, hu.watchCounter⟩

theorem Reached.enrolled {s : Store} (h : s.Reached) : s.Enrolled := by
  induction h with
  | new wal => exact new_enrolled wal
  | @call s c _ ih => exact ih.congr (s.call_watchers c).1 (s.call_watchers c).2
  | @replay s key value _ ih =>
    have hn := s.setForReplay_sameNotify key value
    exact ih.congr hn.watchers hn.watchCounter
  | @compact s rev _ ih =>
    have hn := s.compact_sameNotify rev
    exact ih.congr hn.watchers hn.watchCounter
  | @watch s start endKey rev wantPrevKv _ ih =>
    rcases s.watch_store start endKey rev wantPrevKv with he | ⟨startRev, he⟩
    · rw [he]
      exact ih
    · rw [he]
      exact register_enrolled ih start endKey startRev
  | unwatch start watcherId _ ih => exact unwatch_enrolled ih start watcherId
  | dispatch _ _ ih => exact ih.congr rfl rfl
  | @load s t entries _ _ _ _ ih =>
    have hn := s.importSnapshotData_sameNotify entries
    exact ih.congr hn.watchers hn.watchCounter

/-! ### The live path -/

/-- The live path sends a change of `key` to the watcher of the given start, end
and id, if the watcher's revision allows it. -/
def Covers (start endKey : Bytes) (watcherId : ℤ) (key : Bytes) : Prop :=
  (start < key ∨ (start = key ∧ watcherId < 9223372036854775807)) ∧
    (if endKey.isEmpty then key = start else key < endKey ∧ start ≤ key)

/-- A registered watcher is notified of exactly the changes it covers. -/
theorem Enrolled.mem_watchersToNotify {s : Store} (h : s.Enrolled) {start : Bytes} {id : ℤ}
    {w : Watcher} (hw : s.watchers[(start, id)]? = some w) (key : Bytes) (rev : ℤ) :
    w.ch ∈ s.watchersToNotify key rev ↔
      w.startRevision ≤ rev ∧ Covers start w.keyRangeEnd id key := by
  obtain ⟨hstart, hch, hpos, _⟩ := h.entry start id w hw
  unfold watchersToNotify Covers
  simp only [List.mem_filterMap, Prod.exists, Std.ExtTreeMap.mem_toList_iff_getElem?_eq_some,
    Option.ite_none_right_eq_some, Option.some.injEq]
  constructor
  · intro hex
    obtain ⟨start', id', w', hw', hc, hsend⟩ := hex
    obtain ⟨_, hch', hpos', _⟩ := h.entry start' id' w' hw'
    have hid : id' = id := by omega
    have hsame : start' = start := by
      apply h.unique start' start id
      · rw [← hid, hw']
        rfl
      · rw [hw]
        rfl
    rw [hid, hsame, hw] at hw'
    cases hw'
    rw [hid, hsame, hstart] at hc
    exact ⟨hc.2.1, hc.1, hc.2.2⟩
  · intro hc
    refine ⟨start, id, w, hw, ?_, rfl⟩
    rw [hstart]
    exact ⟨hc.2.1, hc.1, hc.2.2⟩

/-- The past changes of an item depend on the revision array only. -/
theorem itemChanges_congr {s t : Store} (h : t.valuesByRevision = s.valuesByRevision)
    (startRev : ℤ) (wantPrevKv : Bool) (item : TreeItem) :
    t.itemChanges startRev wantPrevKv item = s.itemChanges startRev wantPrevKv item := by
  have hloop (revisions : List ℤ) (prevKv : Option KeyValue) :
      t.changesFrom item startRev wantPrevKv revisions prevKv =
        s.changesFrom item startRev wantPrevKv revisions prevKv := by
    induction revisions generalizing prevKv with
    | nil => rfl
    | cons r revisions ih => simp only [changesFrom, h, ih]
  exact hloop _ none

/-- What `watch` does when it returns past changes. -/
theorem watch_ok {s s' : Store} {start endKey : Bytes} {rev id : ℤ} {wantPrevKv : Bool}
    {past : List KeyValueWithPrev} (hrev : 0 < rev)
    (h : s.watch start endKey rev wantPrevKv = (s', .ok (.ok (past, id)))) :
    s' = s.register start endKey rev ∧ id = s.watchCounter + 1 ∧ s.compactedRevision < rev ∧
      ∃ pfx lo hi, prefixAndRangeOfKey start endKey = .ok (pfx, lo, hi) ∧
        (s.prefixMap[pfx]? = none ∨ Bound.inverted lo hi = false) ∧
        past = (s.selected pfx lo hi).flatMap
          (fun e => s.itemChanges rev wantPrevKv (s.deref e.2)) := by
  unfold watch at h
  rw [if_neg (by omega : ¬rev ≤ 0)] at h
  dsimp only at h
  rw [if_pos (show rev > 0 from hrev)] at h
  split_ifs at h with hold
  · cases h
  have hc : s.compactedRevision < rev := by omega
  cases ha : prefixAndRangeOfKey start endKey with
  | error e =>
    rw [ha] at h
    cases h
  | ok acc =>
    obtain ⟨pfx, lo, hi⟩ := acc
    rw [ha] at h
    dsimp only at h
    have hmap : (s.register start endKey rev).prefixMap = s.prefixMap := rfl
    rw [hmap] at h
    cases hb : s.prefixMap[pfx]? with
    | none =>
      rw [hb] at h
      cases h
      refine ⟨rfl, rfl, hc, pfx, lo, hi, rfl, Or.inl hb, ?_⟩
      rw [selected_of_no_bucket hb]
      rfl
    | some btree =>
      rw [hb] at h
      dsimp only at h
      unfold btreeRange at h
      split_ifs at h with hinv
      · cases h
      · cases h
        refine ⟨rfl, rfl, hc, pfx, lo, hi, rfl, Or.inr (by simpa using hinv), ?_⟩
        rw [selected_of_bucket hb]
        apply List.flatMap_congr
        intro e _
        exact itemChanges_congr (s := s) (t := s.register start endKey rev) rfl _ _ _

/-- A watch that returns past changes has taken the next id. -/
theorem watch_id {s : Store} {start endKey : Bytes} {rev id : ℤ} {wantPrevKv : Bool}
    {past : List KeyValueWithPrev}
    (h : (s.watch start endKey rev wantPrevKv).2 = .ok (.ok (past, id))) :
    id = s.watchCounter + 1 := by
  unfold watch at h
  dsimp only at h
  generalize (if rev ≤ 0 then s.currentRevision else rev) = startRev at h
  split_ifs at h
  · cases h
  · cases ha : prefixAndRangeOfKey start endKey with
    | error e =>
      rw [ha] at h
      cases h
    | ok acc =>
      obtain ⟨pfx, lo, hi⟩ := acc
      rw [ha] at h
      dsimp only at h
      split at h
      · cases h
        rfl
      · split at h
        · cases h
        · cases h
          rfl
  · cases h
    rfl

/-! ### The two halves of a watch -/

theorem covers_single (start : Bytes) (id : ℤ) (k : Bytes) :
    Covers start [] id k ↔ k = start ∧ id < 9223372036854775807 := by
  have hempty : ([] : Bytes).isEmpty = true := rfl
  unfold Covers
  rw [if_pos hempty]
  constructor
  · intro h
    obtain ⟨hlive, rfl⟩ := h
    exact ⟨rfl, (hlive.resolve_left (List.lt_irrefl k)).2⟩
  · intro h
    exact ⟨Or.inr ⟨h.1.symm, h.2⟩, h.1⟩

theorem covers_range {start endKey : Bytes} (hne : endKey ≠ []) (id : ℤ) (k : Bytes) :
    Covers start endKey id k ↔
      start ≤ k ∧ k < endKey ∧ (k = start → id < 9223372036854775807) := by
  have hempty : ¬endKey.isEmpty = true := fun h => hne (List.isEmpty_iff.mp h)
  unfold Covers
  rw [if_neg hempty]
  constructor
  · intro h
    obtain ⟨hlive, hlt, hle⟩ := h
    refine ⟨hle, hlt, ?_⟩
    intro he
    rw [he] at hlive
    exact (hlive.resolve_left (List.lt_irrefl start)).2
  · intro h
    obtain ⟨hle, hlt, hid⟩ := h
    refine ⟨?_, hlt, hle⟩
    by_cases he : k = start
    · exact Or.inr ⟨he.symm, hid he⟩
    · refine Or.inl ?_
      by_contra hnot
      exact he (List.le_antisymm (List.not_lt.mp hnot) hle)

/-- The scan and the live path agree about a key, unless the key lies in the range
but in another bucket, or in the bucket but behind an end that the scan takes for
no end, or is the start key of the watcher with the largest id. -/
theorem requests_iff_covers {start endKey pfx : Bytes} {lo hi : Bound Bytes}
    (h : prefixAndRangeOfKey start endKey = .ok (pfx, lo, hi)) (id : ℤ) (k : Bytes) :
    (requests start endKey k ↔ Covers start endKey id k) ↔
      (start ≤ k → k < endKey → bucketOf k = bucketOf start) ∧
      (endKey = [0] ∨ ZeroEnd start endKey → bucketOf k = bucketOf start → start ≤ k →
        k < endKey) ∧
      (k = start → endKey = [] ∨ start < endKey → id < 9223372036854775807) := by
  by_cases hne : endKey = []
  · subst hne
    have hz : ¬ZeroEnd start [] := fun hz => by simpa using hz.1
    have hlt : ¬k < [] := List.not_lt_nil k
    rw [requests_single, covers_single]
    simp only [hlt, hz, true_or, true_implies, false_implies, implies_true, true_and,
      List.nil_eq, List.cons_ne_nil, or_self]
    constructor
    · intro hiff hk
      exact (hiff.mp hk).2
    · intro hid
      exact ⟨fun hk => ⟨hk, hid hk⟩, And.left⟩
  · rw [requests_iff h hne, covers_range hne]
    simp only [hne, false_or]
    constructor
    · intro hiff
      refine ⟨?_, ?_, ?_⟩
      · intro hle hlt
        by_cases he : k = start
        · rw [he]
        · exact (hiff.mpr ⟨hle, hlt, fun h => absurd h he⟩).1
      · intro hend hb hle
        exact (hiff.mp ⟨hb, hle, or_assoc.mp (Or.inl hend)⟩).2.1
      · -- the live path looks up `(start, i64::MAX)` exclusively
        intro he hlt
        rw [he] at hiff
        exact (hiff.mp ⟨rfl, List.le_refl _, Or.inr (Or.inr hlt)⟩).2.2 rfl
    · intro hcond
      obtain ⟨hone, hzero, hid⟩ := hcond
      constructor
      · intro hk
        obtain ⟨hb, hle, hend⟩ := hk
        have hlt : k < endKey := (or_assoc.mpr hend).elim (fun hz => hzero hz hb hle) (fun hlt => hlt)
        exact ⟨hle, hlt, fun he => hid he (he ▸ hlt)⟩
      · intro hk
        exact ⟨hone hk.1 hk.2.1, hk.1, Or.inr (Or.inr hk.2.1)⟩

/-- A watch that returned past changes. In every store in which its watcher is
still registered, the live path covers a key exactly if the scan for past changes
did, unless the key is in the range but in another bucket, or in the bucket but
behind an end that the scan takes for no end, or is the start key of the watcher
with the largest id. -/
theorem watch_halves_agree_iff {s s' t : Store} {start endKey : Bytes} {rev id : ℤ}
    {wantPrevKv : Bool} {past : List KeyValueWithPrev} (hrev : 0 < rev)
    (hw : s.watch start endKey rev wantPrevKv = (s', .ok (.ok (past, id)))) (ht : t.Reached)
    (hkept : t.watchers[(start, id)]? = s'.watchers[(start, id)]?) {n : ℤ} (hn : rev ≤ n)
    (k : Bytes) :
    (requests start endKey k ↔ id.toNat ∈ t.watchersToNotify k n) ↔
      (start ≤ k → k < endKey → bucketOf k = bucketOf start) ∧
      (endKey = [0] ∨ ZeroEnd start endKey → bucketOf k = bucketOf start → start ≤ k →
        k < endKey) ∧
      (k = start → endKey = [] ∨ start < endKey → id < 9223372036854775807) := by
  obtain ⟨rfl, rfl, _, pfx, lo, hi, ha, _, _⟩ := watch_ok hrev hw
  rw [getElem?_register, if_pos rfl] at hkept
  have hmem := ht.enrolled.mem_watchersToNotify hkept k n
  rw [hmem, and_iff_right hn]
  exact requests_iff_covers ha _ k

/-- The watch of the bucket `/registry/p/` in an empty store, and a key in it. -/
theorem watch_halves_agree_in_bucket :
    (requests (registryRoot ++ [112, 47]) (registryRoot ++ [112, 48]) podKey ↔
        (1 : ℤ).toNat ∈ ((new none).watch (registryRoot ++ [112, 47])
          (registryRoot ++ [112, 48]) 1 false).1.watchersToNotify podKey 1) ↔
      (registryRoot ++ [112, 47] ≤ podKey → podKey < registryRoot ++ [112, 48] →
        bucketOf podKey = bucketOf (registryRoot ++ [112, 47])) ∧
      (registryRoot ++ [112, 48] = [0] ∨
          ZeroEnd (registryRoot ++ [112, 47]) (registryRoot ++ [112, 48]) →
        bucketOf podKey = bucketOf (registryRoot ++ [112, 47]) →
        registryRoot ++ [112, 47] ≤ podKey → podKey < registryRoot ++ [112, 48]) ∧
      (podKey = registryRoot ++ [112, 47] →
        registryRoot ++ [112, 48] = [] ∨ registryRoot ++ [112, 47] < registryRoot ++ [112, 48] →
        (1 : ℤ) < 9223372036854775807) :=
  have hwatch : (new none).watch (registryRoot ++ [112, 47]) (registryRoot ++ [112, 48]) 1 false =
      (_, .ok (.ok ([], 1))) := rfl
  watch_halves_agree_iff (by decide) hwatch (.watch _ _ 1 false (.new none)) rfl (le_refl 1) podKey

/-- The watch of `a` up to `a` with a zero byte scans for past changes of `b` and
is never told of a new one; the watch of `/` up to `0` is told of changes of
`/registry/p/x` and does not scan for them. -/
theorem watch_halves_disagree :
    let zero := (new none).watch [97] [97, 0] 1 false
    let slash := (new none).watch [47] [48] 1 false
    zero.2 = .ok (.ok ([], 1)) ∧ requests [97] [97, 0] [98] ∧
      1 ∉ zero.1.watchersToNotify [98] 1 ∧
    slash.2 = .ok (.ok ([], 1)) ∧ ¬requests [47] [48] podKey ∧
      1 ∈ slash.1.watchersToNotify podKey 1 := by
  refine ⟨rfl, ?_, by decide, rfl, ?_, by decide⟩
  · change selects [] (.included [97]) .unbounded [98]
    exact ⟨rfl, by decide, rfl⟩
  · change ¬selects [] (.included [47]) (.excluded [48]) podKey
    intro h
    exact absurd h.1 (by decide)

end Store
end MemEtcd
