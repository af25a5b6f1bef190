import MemEtcd.KvService
import MemEtcd.StoreReach

/-! The range handler of the KV service: a read with a limit and what it tells its
client about the keys behind the limit. -/
namespace MemEtcd

/-- The fields of a `RangeRequest` that the range handler reads. -/
structure RangeQuery extends RangeRequest where
  limit : ℤ
  revision : ℤ
  countOnly : Bool
  deriving DecidableEq, Repr

/-- The limit of a query, `req.limit as usize` of an `i64`. -/
def RangeQuery.storeLimit (req : RangeQuery) : Option ℕ :=
  if req.countOnly then some 0
  else if req.limit = 0 then none
  else some (req.limit % 2 ^ 64).toNat

namespace Store

/-- `KvService::range`. -/
def serveRange (s : Store) (req : RangeQuery) : Except Fault RangeResponse := do
  let limit := req.storeLimit
  let result ← s.range req.key req.rangeEnd req.revision limit
  -- `limit.unwrap() as i64`
  let more := match limit with
    | none => false
    | some l => if req.countOnly then false else decide ((result.count : ℤ) > Int.bmod l (2 ^ 64))
  return ⟨responseHeader result.latestRev, result.kvs, more, result.count⟩

/-! ### Reads with a limit -/

theorem hasValueForRevision_eq (s : Store) (item : TreeItem) {rev : ℤ} (hr : 0 < rev) :
    s.hasValueForRevision item rev = .ok (s.liveAt item rev).isSome := by
  have hlive (i : ℕ) : s.valuesByRevision.getWith i
      (fun x => x.any (fun v => v.value.isSome)) =
        ((s.valuesByRevision.at? i).bind VersionLog.Cell.live).isSome := by
    rw [BlockDeque.getWith_eq_at?]
    cases s.valuesByRevision.at? i with
    | none => rfl
    | some v => exact (VersionLog.Cell.live_isSome v).symm
  unfold hasValueForRevision liveAt foundValue
  rw [if_neg (by omega)]
  split_ifs
  · rw [Option.bind_some, VersionLog.Cell.live_isSome]
  · cases binarySearch item.revisions rev with
    | ok i => exact congrArg Except.ok (hlive _)
    | error i =>
      dsimp only
      split_ifs
      · refine congrArg Except.ok (Eq.trans ?_ (hlive _))
        congr 1
        funext x
        cases x <;> rfl
      · rfl

/-- One round of the loop behind the limit only counts. -/
theorem scan_behind_limit (s : Store) {rev : ℤ} (hr : 0 < rev) {limit count : ℕ}
    (hc : limit ≤ count) (pfx suffix : Bytes) (a : ℕ) (entries : List (Bytes × ℕ))
    (results : List KeyValue) :
    s.scan rev (some limit) pfx ((suffix, a) :: entries) results count =
      s.scan rev (some limit) pfx entries results
        (if (s.liveAt (s.deref a) rev).isSome then count + 1 else count) := by
  rw [scan, if_pos (by simpa using hc), hasValueForRevision_eq s _ hr]
  rfl

/-- One round before the limit collects the value, if it is live. -/
theorem scan_before_limit (s : Store) {rev : ℤ} (hr : 0 < rev) {limit count : ℕ}
    (hc : count < limit) (pfx suffix : Bytes) (a : ℕ) (entries : List (Bytes × ℕ))
    {results : List KeyValue} (hl : results.length = count) :
    s.scan rev (some limit) pfx ((suffix, a) :: entries) results count =
      match s.liveAt (s.deref a) rev with
      | some v =>
        s.scan rev (some limit) pfx entries (results ++ [asMvccKeyValue v (pfx ++ suffix)])
          (count + 1)
      | none => s.scan rev (some limit) pfx entries results count := by
  have hf : s.findValueForRevision (s.deref a) rev = .ok (s.foundValue (s.deref a) rev) := by
    rw [findValueForRevision_eq, if_neg (by omega)]
  have hroom : (Option.all (fun l => decide (results.length < l)) (some limit)) = true := by
    rw [Option.all_some, hl]
    exact decide_eq_true hc
  rw [scan, if_neg (by simpa using hc), hf]
  simp only [bind, Except.bind, hroom, if_true]
  cases hv : s.foundValue (s.deref a) rev with
  | none =>
    have hlive : s.liveAt (s.deref a) rev = none := by
      unfold liveAt
      rw [hv, Option.bind_none]
    rw [hlive]
  | some v =>
    rw [liveAt_of_found hv]
    dsimp only
    by_cases hsome : v.value.isSome
    · rw [if_pos hsome, VersionLog.Cell.live_of_isSome hsome]
    · rw [if_neg hsome, VersionLog.Cell.live_of_isNone (by simpa using hsome)]

/-- The loop of `range` collects live values up to the limit and counts them all. -/
theorem scan_limited (s : Store) {rev : ℤ} (hr : 0 < rev) (limit : ℕ) (pfx : Bytes)
    (entries : List (Bytes × ℕ)) {results : List KeyValue} {count : ℕ}
    (hc : results.length = min count limit) :
    s.scan rev (some limit) pfx entries results count =
      .ok (results ++ (s.scanned rev pfx entries).take (limit - results.length),
        count + (s.scanned rev pfx entries).length) := by
  induction entries generalizing results count with
  | nil => simp [scan, scanned]
  | cons e entries ih =>
    obtain ⟨suffix, a⟩ := e
    rw [scanned_cons]
    by_cases hle : limit ≤ count
    · -- nothing is collected any more
      have hfull : limit - results.length = 0 := by omega
      rw [scan_behind_limit s hr hle, hfull, List.take_zero]
      cases hlive : s.liveAt (s.deref a) rev with
      | none =>
        have hih := ih hc
        rw [hfull, List.take_zero] at hih
        exact hih
      | some v =>
        have hc' : results.length = min (count + 1) limit := by omega
        have hih := ih hc'
        rw [hfull, List.take_zero] at hih
        refine hih.trans ?_
        simp only [Option.map_some, Option.toList_some, List.length_append, List.length_singleton]
        rw [Nat.add_assoc]
    · have hlen : results.length = count := by omega
      rw [scan_before_limit s hr (by omega) pfx suffix a entries hlen]
      cases hlive : s.liveAt (s.deref a) rev with
      | none => exact ih hc
      | some v =>
        have hlen' : (results ++ [asMvccKeyValue v (pfx ++ suffix)]).length = count + 1 := by
          rw [List.length_append, List.length_singleton, hlen]
        obtain ⟨room, hroom⟩ : ∃ room, limit - count = room + 1 := ⟨limit - count - 1, by omega⟩
        have hrest : limit - (count + 1) = room := by omega
        dsimp only
        rw [ih (by omega), hlen', hlen, hroom, hrest, Option.map_some, Option.toList_some,
          List.singleton_append, List.take_succ_cons, List.append_assoc, List.singleton_append,
          List.length_cons]
        congr 2
        omega

def upToLimit (limit : Option ℕ) (kvs : List KeyValue) : List KeyValue :=
  match limit with
  | none => kvs
  | some n => kvs.take n

@[simp] theorem upToLimit_nil (limit : Option ℕ) : upToLimit limit [] = [] := by
  cases limit with
  | none => rfl
  | some n => exact List.take_nil

/-- Collecting goes on up to the limit, counting goes on to the end. -/
theorem scan_collected (s : Store) {rev : ℤ} (hr : 0 < rev) (limit : Option ℕ) (pfx : Bytes)
    (entries : List (Bytes × ℕ)) (collected : List KeyValue) :
    s.scan rev limit pfx entries (upToLimit limit collected) collected.length =
      .ok (upToLimit limit (collected ++ s.scanned rev pfx entries),
        (collected ++ s.scanned rev pfx entries).length) := by
  rw [List.length_append]
  cases limit with
  | none => exact scan_unlimited s hr pfx entries collected collected.length
  | some n =>
    have hlen : (collected.take n).length = min collected.length n := by
      rw [List.length_take, min_comm]
    have hroom : n - (collected.take n).length = n - collected.length := by omega
    refine (scan_limited s hr n pfx entries hlen).trans ?_
    rw [hroom, ← List.take_append]
    rfl

/-- The loop of `range` collects the live values up to the limit and counts all. -/
theorem scan_eq (s : Store) {rev : ℤ} (hr : 0 < rev) (limit : Option ℕ) (pfx : Bytes)
    (entries : List (Bytes × ℕ)) :
    s.scan rev limit pfx entries [] 0 =
      .ok (upToLimit limit (s.scanned rev pfx entries), (s.scanned rev pfx entries).length) := by
  have h := scan_collected s hr limit pfx entries []
  rw [upToLimit_nil] at h
  exact h

/-- The revision at which `range` reads: the current one, if the request names none. -/
def readRevision (s : Store) (rev : ℤ) : ℤ := if rev = 0 then s.currentRevision else rev

/-- An accepted `range` with any limit reads the live values at its revision. It panics
if this is not positive and there is an item to look at. -/
theorem range_read (s : Store) {start endKey pfx : Bytes} {lo hi : Bound Bytes} {rev : ℤ}
    (ha : prefixAndRangeOfKey start endKey = .ok (pfx, lo, hi))
    (hi' : Bound.inverted lo hi = false) (hl : rev ≤ s.currentRevision)
    (hc : ¬(rev > 0 ∧ rev ≤ s.compactedRevision)) (limit : Option ℕ) :
    s.range start endKey rev limit =
      if 0 < s.readRevision rev ∨ s.selected pfx lo hi = [] then
        .ok ⟨upToLimit limit (s.kvsAt pfx lo hi (s.readRevision rev)), s.currentRevision,
          (s.kvsAt pfx lo hi (s.readRevision rev)).length⟩
      else .error (.panic .revisionAssertion) := by
  rw [range_eq_scan s ha hi' hl hc]
  change (s.scan (s.readRevision rev) limit pfx (s.selected pfx lo hi) [] 0).map _ = _
  unfold kvsAt
  by_cases hsel : s.selected pfx lo hi = []
  · rw [if_pos (Or.inr hsel), hsel]
    change Except.ok (RangeResult.mk [] _ 0) = .ok ⟨upToLimit limit [], _, 0⟩
    rw [upToLimit_nil]
  · by_cases hr : 0 < s.readRevision rev
    · rw [if_pos (Or.inl hr), scan_eq s hr]
      rfl
    · rw [if_neg (not_or.mpr ⟨hr, hsel⟩), scan_nonpos s (by omega), if_neg hsel]
      rfl

/-- A current `range` with any limit. -/
theorem range_now (s : Store) {start endKey pfx : Bytes} {lo hi : Bound Bytes}
    (ha : prefixAndRangeOfKey start endKey = .ok (pfx, lo, hi))
    (hi' : Bound.inverted lo hi = false) (limit : Option ℕ) :
    s.range start endKey 0 limit =
      if 0 < s.currentRevision then
        .ok ⟨upToLimit limit (s.kvsAt pfx lo hi s.currentRevision), s.currentRevision,
          (s.kvsAt pfx lo hi s.currentRevision).length⟩
      else if s.selected pfx lo hi = [] then .ok ⟨[], 0, 0⟩
      else .error (.panic .revisionAssertion) := by
  have hnn := currentRevision_nonneg s
  have hread : s.readRevision 0 = s.currentRevision := if_pos rfl
  rw [range_read s ha hi' hnn (by omega), hread]
  by_cases hr : 0 < s.currentRevision
  · rw [if_pos (Or.inl hr), if_pos hr]
  · rw [if_neg hr]
    by_cases hsel : s.selected pfx lo hi = []
    · have hkvs : s.kvsAt pfx lo hi s.currentRevision = [] := by
        unfold kvsAt
        rw [hsel]
        rfl
      rw [if_pos (Or.inr hsel), if_pos hsel, hkvs, upToLimit_nil,
        show s.currentRevision = 0 by omega]
      rfl
    · rw [if_neg (not_or.mpr ⟨hr, hsel⟩), if_neg hsel]

/-- A request that `range` turns down for its revision is turned down with any limit. -/
theorem range_refused_revision (s : Store) {rev : ℤ}
    (h : rev > s.currentRevision ∨ rev > 0 ∧ rev ≤ s.compactedRevision) (start endKey : Bytes)
    (limit : Option ℕ) :
    s.range start endKey rev limit =
      .error (.status (if rev > s.currentRevision then futureRevision
        else compactedRevisionStatus)) := by
  unfold range
  by_cases hf : rev > s.currentRevision
  · simp only [if_pos hf]
  · simp only [if_neg hf, if_pos (h.resolve_left hf)]

/-- Both lookups of an item agree: `has_value_for_revision` says whether
`find_value_for_revision` yields a live value, and both panic on the same revisions. -/
theorem hasValueForRevision_eq_find (s : Store) (item : TreeItem) (rev : ℤ) :
    s.hasValueForRevision item rev =
      (s.findValueForRevision item rev).map (fun found => found.any (·.value.isSome)) := by
  rw [findValueForRevision_eq]
  by_cases hr : rev ≤ 0
  · rw [if_pos hr]
    unfold hasValueForRevision
    rw [if_pos hr]
    rfl
  · rw [if_neg hr, hasValueForRevision_eq s item (by omega)]
    change Except.ok _ = Except.ok (Option.any _ _)
    unfold liveAt
    cases s.foundValue item rev with
    | none => rfl
    | some v => rw [Option.bind_some, VersionLog.Cell.live_isSome, Option.any_some]

/-- A limit cuts the answer off and changes nothing else of it. -/
theorem range_upToLimit (s : Store) (start endKey : Bytes) (rev : ℤ) (limit : Option ℕ) :
    s.range start endKey rev limit =
      (s.range start endKey rev none).map
        (fun r => ⟨upToLimit limit r.kvs, r.latestRev, r.kvs.length⟩) := by
  by_cases hrev : rev > s.currentRevision ∨ rev > 0 ∧ rev ≤ s.compactedRevision
  · simp only [range_refused_revision s hrev]
    rfl
  · obtain ⟨hf, hc⟩ := not_or.mp hrev
    have hl : rev ≤ s.currentRevision := by omega
    cases ha : prefixAndRangeOfKey start endKey with
    | error e =>
      simp only [range_unaccepted s ha hl hc]
      rfl
    | ok acc =>
      obtain ⟨pfx, lo, hi⟩ := acc
      by_cases hinv : Bound.inverted lo hi = true
      · simp only [range_inverted s ha hinv hl hc]
        split
        · rfl
        · simp [Except.map]
      · simp only [range_read s ha (Bool.not_eq_true _ ▸ hinv) hl hc]
        split <;> rfl

/-- With a limit `range` accepts the same requests, and its answer is the answer without
one, cut off behind the limit; it counts all the keys in both cases. -/
theorem limit_truncates (s : Store) (start endKey : Bytes) (rev : ℤ) (limit : ℕ) :
    s.range start endKey rev (some limit) =
        (s.range start endKey rev none).map
          (fun r => ⟨r.kvs.take limit, r.latestRev, r.kvs.length⟩) ∧
      (s.range start endKey rev none).map (·.count) =
        (s.range start endKey rev none).map (·.kvs.length) ∧
      ∀ (item : TreeItem) (itemRev : ℤ), s.hasValueForRevision item itemRev =
        (s.findValueForRevision item itemRev).map (fun found => found.any (·.value.isSome)) := by
  have hcount : (s.range start endKey rev none).map (·.count) =
      (s.range start endKey rev none).map (·.kvs.length) := by
    have h := range_upToLimit s start endKey rev none
    cases hr : s.range start endKey rev none with
    | error e => rfl
    | ok r =>
      rw [hr] at h
      exact congrArg (Except.map (·.count)) h
  exact ⟨range_upToLimit s start endKey rev (some limit), hcount, hasValueForRevision_eq_find s⟩

/-! ### What lies behind the limit -/

/-- The casts of the handler take a limit of an `i64` to a `usize` and back. -/
theorem limit_roundtrip {limit : ℤ} (hmin : -2 ^ 63 ≤ limit) (hmax : limit < 2 ^ 63) :
    ((limit % 2 ^ 64).toNat : ℤ) = (if limit < 0 then limit + 2 ^ 64 else limit) ∧
      Int.bmod ((limit % 2 ^ 64).toNat : ℤ) (2 ^ 64) = limit := by
  have hnat : ((limit % 2 ^ 64).toNat : ℤ) = limit % 2 ^ 64 :=
    Int.toNat_of_nonneg (Int.emod_nonneg _ (by norm_num))
  refine ⟨?_, ?_⟩
  · rw [hnat]
    split_ifs with hneg
    · rw [← Int.add_emod_right, Int.emod_eq_of_lt (by omega) (by omega)]
    · rw [Int.emod_eq_of_lt (by omega) (by omega)]
  · rw [hnat]
    exact (Int.emod_bmod limit (2 ^ 64)).trans (Int.bmod_eq_of_le (by omega) (by omega))

/-- An answered query: the key-values up to the limit, and the number of all. -/
theorem serveRange_answered {s : Store} {req : RangeQuery} {r : RangeResponse}
    (h : s.serveRange req = .ok r) :
    ∃ whole, s.range req.key req.rangeEnd req.revision none = .ok whole ∧
      r.kvs = upToLimit req.storeLimit whole.kvs ∧ r.count = whole.kvs.length ∧
      r.more = match req.storeLimit with
        | none => false
        | some l =>
          if req.countOnly then false
          else decide ((whole.kvs.length : ℤ) > Int.bmod l (2 ^ 64)) := by
  unfold serveRange at h
  dsimp only at h
  rw [range_upToLimit] at h
  cases hw : s.range req.key req.rangeEnd req.revision none with
  | error e =>
    rw [hw] at h
    cases h
  | ok whole =>
    rw [hw] at h
    cases h
    exact ⟨whole, rfl, rfl, rfl, rfl⟩

/-- The flag `more` of an answer tells whether key-values are missing exactly if the limit
is not negative. A negative limit is read as one of at least `2 ^ 63`, which leaves out
nothing of a range of that size, and `more` is set. -/
theorem more_exact_iff (s : Store) (req : RangeQuery) (hcount : req.countOnly = false)
    (hmin : -2 ^ 63 ≤ req.limit) (hmax : req.limit < 2 ^ 63) (r : RangeResponse)
    (h : s.serveRange req = .ok r) :
    ∃ whole, s.range req.key req.rangeEnd req.revision none = .ok whole ∧
      r.kvs <+: whole.kvs ∧ r.count = whole.kvs.length ∧
      ((r.more = true ↔ (r.kvs.length : ℤ) < r.count) ↔
        0 ≤ req.limit ∨ req.limit + 2 ^ 64 < r.count) := by
  obtain ⟨whole, hw, hkvs, hc, hmore⟩ := serveRange_answered h
  refine ⟨whole, hw, ?_, hc, ?_⟩
  · rw [hkvs]
    cases req.storeLimit with
    | none => exact List.prefix_rfl
    | some n => exact List.take_prefix n _
  · rw [hkvs, hc, hmore]
    unfold RangeQuery.storeLimit
    rw [hcount, if_neg Bool.false_ne_true]
    by_cases hzero : req.limit = 0
    · rw [if_pos hzero]
      simp [upToLimit, hzero]
    · obtain ⟨hnat, hint⟩ := limit_roundtrip hmin hmax
      rw [if_neg hzero]
      simp only [upToLimit, List.length_take, hint, Bool.false_eq_true, if_false,
        decide_eq_true_eq]
      -- the kept part is as long as the smaller of the cast limit and the range
      split_ifs at hnat with hneg
      · omega
      · omega

/-- One of the two keys of a store is asked for. -/
theorem more_of_first_key :
    let s := (((new none).call ⟨[97], some [1], none⟩).1.call ⟨[98], some [2], none⟩).1
    ∃ r, s.serveRange ⟨⟨[97], [99]⟩, 1, 0, false⟩ = .ok r ∧
      (r.more = true ↔ (r.kvs.length : ℤ) < r.count) := by
  intro s
  obtain ⟨r, hr⟩ : ∃ r, s.serveRange ⟨⟨[97], [99]⟩, 1, 0, false⟩ = .ok r := ⟨_, rfl⟩
  obtain ⟨_, _, _, _, hiff⟩ := more_exact_iff s ⟨⟨[97], [99]⟩, 1, 0, false⟩ rfl (by norm_num)
    (by norm_num) r hr
  exact ⟨r, hr, hiff.mpr (Or.inl (by norm_num))⟩

/-- A store with the key `a`, read with the limit -1: the answer has the key and says that
there are more. -/
theorem more_of_negative_limit :
    let s := ((new none).call ⟨[97], some [1], none⟩).1
    s.Reached ∧ s.serveRange ⟨⟨[97], []⟩, -1, 0, false⟩ =
      .ok ⟨responseHeader 1, [⟨[97], [1], 1, 1, 1, 0⟩], true, 1⟩ :=
  ⟨.call _ (.new none), by decide⟩

/-- The live values of a coherent store at its current revision. -/
theorem mem_kvsAt_current {s : Store} (hs : s.Coherent) (hr : 0 < s.currentRevision)
    (pfx : Bytes) (lo hi : Bound Bytes) (kv : KeyValue) :
    kv ∈ s.kvsAt pfx lo hi s.currentRevision ↔
      ∃ k v, selects pfx lo hi k ∧ s.live k = some v ∧ kv = asMvccKeyValue v k := by
  rw [mem_kvsAt hs.toWF _ _ _ hr]
  have hlive (k : Bytes) : s.liveAt (s.view k) s.currentRevision = s.live k :=
    liveAt_of_le s _ (hs.bounded k)
  simp only [hlive]

/-- Stores with the same live values show the same key-values, whatever their
revisions are. -/
theorem kvsAt_of_live {s t : Store} (hs : s.Coherent) (ht : t.Coherent)
    (hsr : 0 < s.currentRevision) (htr : 0 < t.currentRevision) {pfx : Bytes}
    {lo hi : Bound Bytes} (hlive : ∀ k, selects pfx lo hi k → s.live k = t.live k) :
    s.kvsAt pfx lo hi s.currentRevision = t.kvsAt pfx lo hi t.currentRevision := by
  apply kvs_ext (kvsAt_sorted _ _ _ _ _) (kvsAt_sorted _ _ _ _ _)
  intro kv
  rw [mem_kvsAt_current hs hsr, mem_kvsAt_current ht htr]
  constructor
  · rintro ⟨k, v, hk, hv, rfl⟩
    exact ⟨k, v, hk, hlive k hk ▸ hv, rfl⟩
  · rintro ⟨k, v, hk, hv, rfl⟩
    exact ⟨k, v, hk, (hlive k hk).symm ▸ hv, rfl⟩

end Store
end MemEtcd
