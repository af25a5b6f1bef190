import MemEtcd.KeyRanges
import MemEtcd.StoreReach

/-! Which keys `range` returns, compared with the keys that its start and its end
mean. -/
namespace MemEtcd
namespace Store

/-- A range at the current revision returns the live keys it requests, in order. -/
theorem mem_range_current {s : Store} (hs : s.Coherent) {start endKey : Bytes} {r : RangeResult}
    (hr : s.range start endKey 0 none = .ok r) :
    r.kvs.Pairwise (fun a b => a.key < b.key) ∧
      ∀ kv, kv ∈ r.kvs ↔ ∃ k v, requests start endKey k ∧ s.live k = some v ∧
        kv = asMvccKeyValue v k := by
  have hn := currentRevision_nonneg s
  cases ha : prefixAndRangeOfKey start endKey with
  | error e =>
    rw [range_unaccepted s ha hn (by omega)] at hr
    contradiction
  | ok acc =>
    obtain ⟨pfx, lo, hi⟩ := acc
    simp only [requests_of_accepted ha]
    by_cases hinv : Bound.inverted lo hi = true
    · rw [range_inverted s ha hinv hn (by omega)] at hr
      split_ifs at hr
      cases hr
      refine ⟨List.Pairwise.nil, fun kv => iff_of_false List.not_mem_nil ?_⟩
      intro h
      obtain ⟨k, v, hk, _⟩ := h
      exact not_selects_of_inverted hinv k hk
    · rw [range_current s ha (Bool.not_eq_true _ ▸ hinv)] at hr
      split_ifs at hr with hpos hsel
      · cases hr
        refine ⟨kvsAt_sorted _ _ _ _ _, ?_⟩
        intro kv
        rw [mem_kvsAt hs.toWF pfx lo hi hpos]
        have hlive (k : Bytes) : s.liveAt (s.view k) s.currentRevision = s.live k :=
          liveAt_of_le s _ (hs.bounded k)
        simp only [hlive]
      · -- at revision zero there is no live key
        cases hr
        refine ⟨List.Pairwise.nil, fun kv => iff_of_false List.not_mem_nil ?_⟩
        intro h
        obtain ⟨k, v, _, hv, _⟩ := h
        rw [hs.live_eq_none (by omega)] at hv
        contradiction

theorem mem_range_keys {s : Store} (hs : s.Coherent) {start endKey : Bytes} {r : RangeResult}
    (hr : s.range start endKey 0 none = .ok r) (k : Bytes) :
    k ∈ r.kvs.map (·.key) ↔ (s.live k).isSome ∧ requests start endKey k := by
  rw [List.mem_map]
  constructor
  · intro h
    obtain ⟨kv, hkv, rfl⟩ := h
    obtain ⟨k, v, hk, hv, rfl⟩ := ((mem_range_current hs hr).2 kv).mp hkv
    exact ⟨Option.isSome_iff_exists.mpr ⟨v, hv⟩, hk⟩
  · intro h
    obtain ⟨v, hv⟩ := Option.isSome_iff_exists.mp h.1
    exact ⟨asMvccKeyValue v k, ((mem_range_current hs hr).2 _).mpr ⟨k, v, h.2, hv, rfl⟩, rfl⟩

/-- The result has exactly the live keys of the range that the API means, in
ascending order. -/
def ReadsExactly (s : Store) (start endKey : Bytes) (r : RangeResult) : Prop :=
  (r.kvs.map (·.key)).Pairwise (· < ·) ∧
    ∀ k, k ∈ r.kvs.map (·.key) ↔ (s.live k).isSome ∧ etcdRange start endKey k

theorem accepted_of_range {s : Store} {start endKey : Bytes} {r : RangeResult}
    (hr : s.range start endKey 0 none = .ok r) :
    ∃ pfx lo hi, prefixAndRangeOfKey start endKey = .ok (pfx, lo, hi) := by
  cases ha : prefixAndRangeOfKey start endKey with
  | error e =>
    rw [range_unaccepted s ha (currentRevision_nonneg s) (by omega)] at hr
    contradiction
  | ok acc => exact ⟨acc.1, acc.2.1, acc.2.2, rfl⟩

/-- A range is exact if and only if every live key of the range is in the bucket
of the start key, and no live key of the bucket lies behind a zero end. The keys
that the translation selects are those of the range for every store if and only
if there is no zero end and the whole range lies in one bucket. -/
theorem range_exact_iff {s : Store} (hs : s.Reached) {start endKey : Bytes} {r : RangeResult}
    (hr : s.range start endKey 0 none = .ok r) :
    (s.ReadsExactly start endKey r ↔
      ∀ k, (s.live k).isSome →
        (etcdRange start endKey k → bucketOf k = bucketOf start) ∧
          (endKey ≠ [0] → ZeroEnd start endKey → bucketOf k = bucketOf start → start ≤ k →
            k < endKey)) ∧
    ((∀ k, requests start endKey k ↔ etcdRange start endKey k) ↔
      (endKey = [0] ∨ ¬ZeroEnd start endKey) ∧
        ∀ k, etcdRange start endKey k → bucketOf k = bucketOf start) := by
  obtain ⟨pfx, lo, hi, ha⟩ := accepted_of_range hr
  have hsorted := (mem_range_current hs.coherent hr).1
  refine ⟨?_, requests_iff_etcdRange ha⟩
  unfold ReadsExactly
  rw [and_iff_right (List.pairwise_map.mpr hsorted)]
  apply forall_congr'
  intro k
  rw [mem_range_keys hs.coherent hr, ← requests_agrees_iff ha]
  constructor
  · intro hiff hlive
    rw [and_iff_right hlive, and_iff_right hlive] at hiff
    exact hiff
  · intro hiff
    exact and_congr_right hiff

/-- A store with the keys `a`, `b` and `/registry/p/x`. -/
def mixedKeys : Store :=
  (new none).run [⟨[97], some [1], none⟩, ⟨[98], some [2], none⟩, ⟨podKey, some [3], none⟩]

theorem mixedKeys_reached : mixedKeys.Reached :=
  .call ⟨podKey, some [3], none⟩ (.call ⟨[98], some [2], none⟩
    (.call ⟨[97], some [1], none⟩ (.new none)))

/-- A list of the bucket `/registry/p/`. -/
theorem range_exact_of_directory :
    (mixedKeys.ReadsExactly (registryRoot ++ [112, 47]) (registryRoot ++ [112, 48])
        ⟨[⟨podKey, [3], 3, 3, 1, 0⟩], 3, 1⟩ ↔
      ∀ k, (mixedKeys.live k).isSome →
        (etcdRange (registryRoot ++ [112, 47]) (registryRoot ++ [112, 48]) k →
          bucketOf k = bucketOf (registryRoot ++ [112, 47])) ∧
          (registryRoot ++ [112, 48] ≠ [0] →
            ZeroEnd (registryRoot ++ [112, 47]) (registryRoot ++ [112, 48]) →
            bucketOf k = bucketOf (registryRoot ++ [112, 47]) → registryRoot ++ [112, 47] ≤ k →
            k < registryRoot ++ [112, 48])) ∧
    ((∀ k, requests (registryRoot ++ [112, 47]) (registryRoot ++ [112, 48]) k ↔
        etcdRange (registryRoot ++ [112, 47]) (registryRoot ++ [112, 48]) k) ↔
      (registryRoot ++ [112, 48] = [0] ∨
          ¬ZeroEnd (registryRoot ++ [112, 47]) (registryRoot ++ [112, 48])) ∧
        ∀ k, etcdRange (registryRoot ++ [112, 47]) (registryRoot ++ [112, 48]) k →
          bucketOf k = bucketOf (registryRoot ++ [112, 47])) :=
  range_exact_iff mixedKeys_reached rfl

/-- The keys `a` and `b` with their values. -/
def bothKeys : RangeResult := ⟨[⟨[97], [1], 1, 1, 1, 0⟩, ⟨[98], [2], 2, 2, 1, 0⟩], 3, 2⟩

/-- The range of all keys from `/` on leaves out the key under `/registry/`; the
range from `a` up to `a` with a zero byte returns `b` as well. -/
theorem range_not_exact :
    mixedKeys.Reached ∧
      mixedKeys.range [47] [0] 0 none = .ok bothKeys ∧
      ¬mixedKeys.ReadsExactly [47] [0] bothKeys ∧
      mixedKeys.range [97] [97, 0] 0 none = .ok bothKeys ∧
      ¬mixedKeys.ReadsExactly [97] [97, 0] bothKeys := by
  refine ⟨mixedKeys_reached, rfl, ?_, rfl, ?_⟩
  · intro h
    have hrange : etcdRange [47] [0] podKey := by
      change [47] ≤ podKey
      decide
    have hmem := (h.2 podKey).mpr ⟨rfl, hrange⟩
    exact absurd hmem (by decide)
  · intro h
    have hrange : ¬etcdRange [97] [97, 0] [98] := by
      change ¬([97] ≤ [98] ∧ [98] < [97, 0])
      decide
    exact hrange ((h.2 [98]).mp (by decide)).2

end Store
end MemEtcd
