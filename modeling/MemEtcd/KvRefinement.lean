import MemEtcd.EtcdSpec
import MemEtcd.PartialRun

/-! The KV service of a single node refines its specification: on every sequence of requests
that `Etcd.Covers` admits it answers as the specification says, whatever the layout of the
store has become. What `Covers` leaves out is where the service deviates from the API. -/

namespace MemEtcd

open VersionLog

namespace KvService

/-- The handler `compact`. -/
def compact (debugStatus : Status → String) (svc : KvService) (revision : ℤ) :
    KvService × Except Fault ResponseHeader :=
  let (store, result) := svc.machine.store.compact revision
  ({ svc with machine := { svc.machine with store := store } },
    match result with
    | .ok () => .ok (responseHeader store.currentRevision)
    | .error e => .error (.status ⟨.internal, s!"Compaction operation failed: {debugStatus e}"⟩))

def serve (debug : ℤ × Option KeyValue → String) (debugStatus : Status → String)
    (outcome : Except String LogId) (svc : KvService) :
    KvRequest → KvService × Except Fault KvResponse
  | .range req => (svc, (svc.machine.store.serveRange req).map .range)
  | .put req => Prod.map id (Except.map .write) (svc.put debug outcome req)
  | .deleteRange req => Prod.map id (Except.map .write) (svc.deleteRange debug outcome req)
  | .txn req => Prod.map id (Except.map .txn) (svc.txn outcome req)
  | .compact revision => Prod.map id (Except.map .compact) (svc.compact debugStatus revision)

end KvService

/-! ### The requests that are covered -/

/-- A transaction of the only shape the service carries out: one compare, one write of the
compared key, and possibly a read of it if the compare fails. -/
structure GuardedWrite where
  compare : Compare
  required : SetRequired
  value : Option Bytes
  readBack : Bool
  key_ne : compare.key ≠ []
  required_eq : compare.required = .ok required
  target_nonneg : 0 ≤ compare.target
  result_known : 0 ≤ compare.result ∧ compare.result ≤ 3

namespace GuardedWrite

def operation (w : GuardedWrite) : Request :=
  match w.value with
  | some v => .put ⟨w.compare.key, v⟩
  | none => .deleteRange ⟨w.compare.key, []⟩

def request (w : GuardedWrite) : TxnRequest where
  compare := [w.compare]
  success := [⟨some w.operation⟩]
  failure := if w.readBack then [⟨some (.range ⟨w.compare.key, []⟩)⟩] else []

/-- On an absent key the service compares without the operator, reports a delete that finds
nothing as a failed compare, and counts one key in what it reads back. -/
def Agrees (w : GuardedWrite) (kv : Option KeyValue) : Prop :=
  kv.isSome ∨
    (w.value.isSome ∧
      (w.compare.result = 0 ∨ (w.compare.result = 1 ∧ 0 < w.compare.target)) ∧
      (w.readBack = true → w.compare.target = 0)) ∨
    (w.value = none ∧ w.compare.holds none = false ∧ w.readBack = false)

end GuardedWrite

/-- The service reads one bucket between two bounds; these are the keys of the range. -/
def OneBucket (req : RangeRequest) : Prop :=
  ∃ pfx lo hi, prefixAndRangeOfKey req.key req.rangeEnd = .ok (pfx, lo, hi) ∧
    Bound.inverted lo hi = false ∧
    ∀ k, requests req.key req.rangeEnd k ↔ etcdRange req.key req.rangeEnd k

namespace Etcd

/-- What was there after `n` changes is still to be had: it was written after the
compaction, or it has not been changed since. -/
def Retained (e : Etcd) (n : ℕ) (k : Bytes) : Prop :=
  ∀ kv, keyValue (e.history.take n) k = some kv →
    (e.compacted : ℤ) ≤ kv.modRevision ∨ ∀ c ∈ e.history.drop n, c.1 ≠ k

/-- The requests that the service answers as the API describes, in a given state. Reads need
a first change to have been made. -/
def Covers (e : Etcd) : KvRequest → Prop
  | .range req =>
    0 < e.revision ∧ 0 ≤ req.revision ∧ 0 ≤ req.limit ∧ req.limit < 2 ^ 63 ∧ req.key ≠ [] ∧
      OneBucket req.toRangeRequest ∧
      (req.revision = 0 ∨ (e.compacted : ℤ) ≤ req.revision →
        ∀ k, etcdRange req.key req.rangeEnd k → e.Retained (e.seenAt req.revision) k)
  | .put req =>
    req.key ≠ [] ∧ (req.ignoreValue = true → req.value = []) ∧
      (req.prevKv = true ∨ req.ignoreValue = true → 0 < e.revision)
  | .deleteRange req => req.key ≠ [] ∧ req.rangeEnd = [] ∧ 0 < e.revision
  | .txn req => ∃ w : GuardedWrite, req = w.request ∧ w.Agrees (e.lookup w.compare.key)
  | .compact revision => (e.compacted : ℤ) < revision ∧ revision ≤ e.revision

theorem retained_now (e : Etcd) (k : Bytes) : e.Retained e.history.length k := by
  intro kv _
  apply Or.inr
  intro c hc
  rw [List.drop_length] at hc
  contradiction

end Etcd

theorem OneBucket.single (key : Bytes) : OneBucket ⟨key, []⟩ :=
  ⟨_, _, _, prefixAndRangeOfKey_single key, inverted_single _, requests_single key⟩

/-! ### The refinement relation -/

namespace Store

/-- The store holds the history of a state, except for values that a compaction at
`compacted` has removed. -/
structure Realizes (s : Store) (e : Etcd) : Prop where
  wf : s.WF
  represents : s.Represents e.history
  earliest : s.valuesByRevision.earliestRevision = e.compacted - 1

theorem new_realizes (wal : Option WalMode) : (new wal).Realizes ⟨[], 0⟩ :=
  ⟨new_wf wal, new_represents wal, rfl⟩

variable {s : Store} {e : Etcd}

theorem Realizes.currentRevision_eq (h : s.Realizes e) : s.currentRevision = e.revision :=
  h.represents.currentRevision_eq

theorem Realizes.currentKv_eq (h : s.Realizes e) (k : Bytes) : s.currentKv k = e.lookup k := by
  unfold currentKv Etcd.lookup
  rw [h.represents.live_eq, keyValue_eq]

theorem Realizes.coherent (h : s.Realizes e) : s.Coherent := h.represents.coherent h.wf

/-- The read that a write handler makes first. -/
theorem Realizes.readKey_eq (h : s.Realizes e) (hpos : 0 < e.revision) (k : Bytes) :
    s.readKey k = .ok (e.lookup k) := by
  rw [← h.currentRevision_eq] at hpos
  unfold readKey
  rw [range_limit_one, range_single_current h.coherent, if_pos hpos, ← h.currentKv_eq]
  unfold currentKv kvsOf
  cases s.live k <;> rfl

/-- A call of `set` that passes its checks makes one change. -/
theorem Realizes.set_accepted (h : s.Realizes e) {k : Bytes} {v : Option Bytes}
    {required : Option SetRequired}
    (hc : checkCompare (e.lookup k) required ∧ ((e.lookup k).isSome ∨ v.isSome)) :
    (s.set k v required).2 = .ok (e.revision + 1) ∧
      (s.set k v required).1.Realizes ⟨e.history ++ [(k, v)], e.compacted⟩ := by
  have hv : verdict e.history ⟨k, v, required⟩ = .ok () := by
    rw [← h.represents.checkItem_view h.wf, checkItem_view h.wf, h.currentKv_eq, if_pos hc]
  obtain ⟨hres, hrep, hearly⟩ := call_accepted h.wf h.represents hv
  exact ⟨hres, call_wf h.wf ⟨k, v, required⟩, hrep, hearly.trans h.earliest⟩

/-- A call that does not pass them changes nothing that the specification sees. -/
theorem Realizes.set_refused (h : s.Realizes e) {k : Bytes} {v : Option Bytes}
    {required : Option SetRequired}
    (hc : ¬(checkCompare (e.lookup k) required ∧ ((e.lookup k).isSome ∨ v.isSome))) :
    (s.set k v required).2 = .error (e.revision, e.lookup k) ∧
      (s.set k v required).1.Realizes e := by
  have hv : verdict e.history ⟨k, v, required⟩ = .error (e.lookup k) := by
    rw [← h.represents.checkItem_view h.wf, checkItem_view h.wf, h.currentKv_eq, if_neg hc]
  obtain ⟨hres, hview, hdeque⟩ := call_refused h.wf h.represents hv
  refine ⟨?_, call_wf h.wf ⟨k, v, required⟩, h.represents.congr hview hdeque, ?_⟩
  · rw [← h.currentRevision_eq]
    exact hres
  · exact (congrArg _ hdeque).trans h.earliest

/-! ### Reads -/

/-- A key without a change among the later ones was last changed before. -/
theorem modRevision_le_of_unchanged {log : History} {n : ℕ} {k : Bytes}
    (h : ∀ c ∈ log.drop n, c.1 ≠ k) : (cells log k).modRevision ≤ n := by
  by_contra hlt
  have hlast := getLast?_revisionsOf log k
  rw [if_neg (by omega)] at hlast
  obtain ⟨m, hm, v, hv⟩ := mem_revisionsOf.mp (List.mem_of_getLast? hlast)
  have hmem : (k, v) ∈ log.drop n := by
    apply List.mem_of_getElem? (i := m - n)
    rw [List.getElem?_drop, Nat.add_sub_cancel' (by omega)]
    exact hv
  exact h _ hmem rfl

/-- A read of a retained key sees it as it was. -/
theorem Realizes.liveAt_retained (h : s.Realizes e) {n : ℕ} {k : Bytes} (hk : e.Retained n k) :
    s.liveAt (s.view k) n = (cells (e.history.take n) k).live := by
  rw [h.represents.liveAt_eq]
  split_ifs with hc
  · rfl
  · rw [not_or] at hc
    cases hv : (cells (e.history.take n) k).live with
    | none => rfl
    | some v =>
      -- a live cell is retained, so one of the two conditions holds
      obtain ⟨hcell, -⟩ := Cell.live_eq_some_iff.mp hv
      have hkv : keyValue (e.history.take n) k = some (asMvccKeyValue v k) := by
        rw [keyValue_eq, hv, Option.map_some]
      have hmod : (asMvccKeyValue v k).modRevision = (cells (e.history.take n) k).modRevision := by
        rw [hcell]
        rfl
      have hearly := h.earliest
      rcases hk _ hkv with hnew | hsame
      · rw [hmod] at hnew
        have hpos : (cells (e.history.take n) k).modRevision ≠ 0 := by
          intro hz
          rw [cells_of_modRevision_zero _ k hz] at hv
          contradiction
        have hbounds := modRevision_bounds (e.history.take n) k
        omega
      · exact absurd (modRevision_le_of_unchanged hsame) (by omega)

/-- A read returns the listing of its range. -/
theorem Realizes.lists_kvsAt (h : s.Realizes e) {req : RangeRequest} {pfx : Bytes}
    {lo hi : Bound Bytes} (ha : prefixAndRangeOfKey req.key req.rangeEnd = .ok (pfx, lo, hi))
    (hreq : ∀ k, requests req.key req.rangeEnd k ↔ etcdRange req.key req.rangeEnd k) {n : ℕ}
    (hn : 0 < n) (hkept : ∀ k, etcdRange req.key req.rangeEnd k → e.Retained n k) :
    Lists (e.history.take n) req (s.kvsAt pfx lo hi n) := by
  have hsel (k : Bytes) : selects pfx lo hi k ↔ etcdRange req.key req.rangeEnd k :=
    (requests_of_accepted ha k).symm.trans (hreq k)
  refine ⟨kvsAt_sorted _ _ _ _ _, fun kv => ?_⟩
  rw [mem_kvsAt h.wf pfx lo hi (by exact_mod_cast hn)]
  constructor
  · intro hkv
    obtain ⟨k, v, hk, hv, rfl⟩ := hkv
    have hrange := (hsel k).mp hk
    rw [h.liveAt_retained (hkept k hrange)] at hv
    refine ⟨hrange, ?_⟩
    rw [keyValue_eq]
    exact congrArg (Option.map _) hv
  · intro hkv
    rw [keyValue_eq] at hkv
    obtain ⟨v, hv, heq⟩ := Option.map_eq_some_iff.mp hkv.2
    refine ⟨kv.key, v, (hsel _).mpr hkv.1, ?_, heq.symm⟩
    rw [h.liveAt_retained (hkept _ hkv.1)]
    exact hv

/-- The handler cuts the page out of what the store returns. -/
theorem serveRange_eq_page {req : RangeQuery} {kvs : List KeyValue}
    (h : s.range req.key req.rangeEnd req.revision req.storeLimit =
      .ok ⟨upToLimit req.storeLimit kvs, s.currentRevision, kvs.length⟩)
    (hmin : 0 ≤ req.limit) (hmax : req.limit < 2 ^ 63) :
    s.serveRange req = .ok (req.page s.currentRevision kvs) := by
  unfold serveRange
  dsimp only
  rw [h]
  unfold RangeQuery.page
  by_cases hcount : req.countOnly = true
  · have hl : req.storeLimit = some 0 := if_pos hcount
    rw [if_pos hcount, hl]
    simp only [bind, Except.bind, hcount, if_true]
    rfl
  · by_cases hlim : req.limit = 0
    · have hl : req.storeLimit = none := by
        unfold RangeQuery.storeLimit
        rw [if_neg hcount, if_pos hlim]
      rw [if_neg hcount, if_pos hlim, hl]
      rfl
    · have hl : req.storeLimit = some req.limit.toNat := by
        unfold RangeQuery.storeLimit
        rw [if_neg hcount, if_neg hlim, Int.emod_eq_of_lt hmin (by omega)]
      have hround := (limit_roundtrip (by omega) hmax).2
      rw [Int.emod_eq_of_lt hmin (by omega)] at hround
      rw [if_neg hcount, if_neg hlim, hl]
      simp only [bind, Except.bind, if_neg hcount, hround]
      rfl

/-- Every covered range request is answered as specified. -/
theorem Realizes.serveRange_answers (h : s.Realizes e) {req : RangeQuery}
    (hc : e.Covers (.range req)) :
    e.Answers (.range req) ((s.serveRange req).map .range) := by
  obtain ⟨hpos, hrev, hmin, hmax, -, ⟨pfx, lo, hi, ha, hinv, hreq⟩, hkept⟩ := hc
  have hcur := h.currentRevision_eq
  have hcomp : s.compactedRevision = (e.compacted - 1 : ℕ) := congrArg _ h.earliest
  change e.AnswersRange req _
  unfold Etcd.AnswersRange
  split_ifs with hbad
  · -- the future and the compacted past are refused before the keys are looked at
    have hrefused : req.revision > s.currentRevision ∨
        req.revision > 0 ∧ req.revision ≤ s.compactedRevision := by omega
    unfold serveRange
    dsimp only
    rw [range_refused_revision s hrefused]
    by_cases hfuture : req.revision > s.currentRevision
    · rw [if_pos hfuture]
      exact ⟨_, rfl⟩
    · rw [if_neg hfuture]
      exact ⟨_, rfl⟩
  · have hread : s.readRevision req.revision = (e.seenAt req.revision : ℕ) := by
      unfold readRevision Etcd.seenAt
      unfold Etcd.revision at hcur
      split_ifs
      · exact hcur
      · omega
    have hseen : 0 < e.seenAt req.revision := by
      unfold Etcd.seenAt
      unfold Etcd.revision at hpos
      split_ifs <;> omega
    refine ⟨s.kvsAt pfx lo hi (e.seenAt req.revision : ℕ),
      h.lists_kvsAt ha hreq hseen (hkept (by omega)), ?_⟩
    have hpast : req.revision ≤ s.currentRevision := by omega
    have hrange := range_read s ha hinv hpast (by omega) req.storeLimit
    rw [hread, if_pos (Or.inl (by omega))] at hrange
    rw [serveRange_eq_page hrange hmin hmax, hcur]
    rfl

/-! ### Compaction -/

theorem compact_succeeds {s : Store} {rev : ℤ}
    (hlo : (s.valuesByRevision.earliestRevision : ℤ) < rev) (hhi : rev ≤ s.currentRevision) :
    (s.compact rev).2 = .ok () := by
  have hlatest : s.currentRevision = (s.valuesByRevision.latestRevision : ℕ) := rfl
  have hremoved := s.valuesByRevision.removeBefore_fst (rev - 1).toNat
  rw [if_pos (by omega)] at hremoved
  unfold compact
  rw [if_neg (by omega)]
  generalize s.valuesByRevision.removeBefore (rev - 1).toNat = res at hremoved
  obtain ⟨res, values⟩ := res
  cases hremoved
  rfl

theorem Realizes.compact_step (h : s.Realizes e) {rev : ℤ} (hlo : (e.compacted : ℤ) < rev)
    (hhi : rev ≤ e.revision) :
    (s.compact rev).2 = .ok () ∧ (s.compact rev).1.Realizes ⟨e.history, rev.toNat⟩ := by
  have hearly := h.earliest
  have hok : (s.compact rev).2 = .ok () :=
    compact_succeeds (by omega) (by rw [h.currentRevision_eq]; exact hhi)
  refine ⟨hok, compact_wf h.wf rev, compact_represents h.represents rev, ?_⟩
  obtain ⟨n, hn, hle, hlt, heq⟩ := compact_ok hok
  rw [heq]
  change (s.valuesByRevision.removeBefore n).2.earliestRevision = rev.toNat - 1
  rw [BlockDeque.earliestRevision_removeBefore _ n ⟨hle, hlt.le⟩]
  omega

end Store

/-! ### The handlers -/

namespace KvService

/-- A service of a single node whose store holds the history. -/
structure Realizes (svc : KvService) (e : Etcd) : Prop where
  single : svc.raft = none
  store : svc.machine.store.Realizes e

variable {svc : KvService} {e : Etcd} (debug : ℤ × Option KeyValue → String)
  (debugStatus : Status → String) (outcome : Except String LogId)

/-- Without a requirement every key passes the compare. -/
theorem checkCompare_free (kv : Option KeyValue) : checkCompare kv none = true := by
  cases kv with
  | none => rfl
  | some kv => rfl

/-- What the handler of a put makes of its request. -/
theorem Realizes.put_plan (h : svc.Realizes e) {req : PutQuery}
    (hread : req.prevKv = true ∨ req.ignoreValue = true → 0 < e.revision) :
    req.plan svc.machine.store =
      match e.putValue req with
      | none => .error (.status (.invalidArgument "ignore_value set but key does not exist"))
      | some v => .ok (.put req.key v (if req.prevKv then e.lookup req.key else none)) := by
  unfold PutQuery.plan Etcd.putValue
  cases hi : req.ignoreValue with
  | true =>
    rw [h.store.readKey_eq (hread (Or.inr hi)), Bool.or_true]
    cases e.lookup req.key <;> rfl
  | false =>
    cases hp : req.prevKv with
    | true =>
      rw [h.store.readKey_eq (hread (Or.inl hp))]
      rfl
    | false => rfl

theorem Realizes.delete_plan (h : svc.Realizes e) {req : DeleteRangeQuery}
    (hend : req.rangeEnd = []) (hpos : 0 < e.revision) :
    req.plan svc.machine.store =
      .ok (.deleteRange req.key (e.lookup req.key).toList.length
        (if req.prevKv then (e.lookup req.key).toList else [])) := by
  unfold DeleteRangeQuery.plan
  rw [if_neg (not_not_intro hend), h.store.readKey_eq hpos]
  cases e.lookup req.key <;> rfl

/-- The local write of a put. -/
theorem Realizes.write_put (h : svc.Realizes e) (k v : Bytes) (prev : Option KeyValue) :
    (svc.write debug outcome (.ok (.put k v prev))).2 =
        .ok (.put ⟨responseHeader (e.revision + 1), prev⟩) ∧
      (svc.write debug outcome (.ok (.put k v prev))).1.Realizes
        ⟨e.history ++ [(k, some v)], e.compacted⟩ := by
  obtain ⟨m, raft⟩ := svc
  obtain ⟨rfl, hstore⟩ := h
  obtain ⟨hres, hafter⟩ :=
    hstore.set_accepted (v := some v) (k := k) ⟨checkCompare_free _, Or.inr rfl⟩
  unfold write writeLocal
  dsimp only
  generalize m.store.set k (some v) none = out at hres hafter
  obtain ⟨store, res⟩ := out
  cases hres
  exact ⟨rfl, rfl, hafter⟩

/-- The local write of a delete: one change if the key is there, none otherwise. -/
theorem Realizes.write_delete (h : svc.Realizes e) (k : Bytes) (deleted : ℤ)
    (prev : List KeyValue) :
    let e' : Etcd := ⟨e.history ++ e.opChanges (.deleteRange ⟨k, []⟩), e.compacted⟩
    (svc.write debug outcome (.ok (.deleteRange k deleted prev))).2 =
        .ok (.deleteRange ⟨responseHeader e'.revision, deleted, prev⟩) ∧
      (svc.write debug outcome (.ok (.deleteRange k deleted prev))).1.Realizes e' := by
  obtain ⟨m, raft⟩ := svc
  obtain ⟨rfl, hstore⟩ := h
  unfold write writeLocal Store.delete Etcd.opChanges Etcd.revision
  dsimp only
  by_cases hk : (e.lookup k).isSome = true
  · obtain ⟨hres, hafter⟩ :=
      hstore.set_accepted (v := none) (k := k) ⟨checkCompare_free _, Or.inl hk⟩
    rw [if_pos hk]
    generalize m.store.set k none none = out at hres hafter
    obtain ⟨store, res⟩ := out
    cases hres
    refine ⟨?_, rfl, hafter⟩
    rw [List.length_append]
    rfl
  · have hfail : ¬(checkCompare (e.lookup k) none = true ∧
        ((e.lookup k).isSome = true ∨ (none : Option Bytes).isSome = true)) :=
      fun hpass => hk (hpass.2.resolve_right Bool.false_ne_true)
    obtain ⟨hres, hafter⟩ := hstore.set_refused hfail
    rw [if_neg hk, List.append_nil]
    generalize m.store.set k none none = out at hres hafter
    obtain ⟨store, res⟩ := out
    cases hres
    exact ⟨rfl, rfl, hafter⟩

theorem Realizes.put_step (h : svc.Realizes e) {req : PutQuery} (hc : e.Covers (.put req)) :
    e.Answers (.put req) (svc.serve debug debugStatus outcome (.put req)).2 ∧
      (svc.serve debug debugStatus outcome (.put req)).1.Realizes (e.next (.put req)) := by
  have hserve : svc.serve debug debugStatus outcome (.put req) =
      Prod.map id (Except.map .write) (svc.write debug outcome (req.plan svc.machine.store)) := rfl
  rw [hserve, h.put_plan hc.2.2]
  change e.AnswersPut req _ ∧ _
  unfold Etcd.AnswersPut
  cases hv : e.putValue req with
  | none =>
    rw [Etcd.next_put_none hv]
    exact ⟨⟨_, rfl⟩, h⟩
  | some v =>
    obtain ⟨hres, hafter⟩ := h.write_put debug outcome req.key v
      (if req.prevKv then e.lookup req.key else none)
    rw [Etcd.next_put_some hv, Etcd.revision_concat]
    exact ⟨congrArg (Except.map KvResponse.write) hres, hafter⟩

theorem Realizes.deleteRange_step (h : svc.Realizes e) {req : DeleteRangeQuery}
    (hc : e.Covers (.deleteRange req)) :
    e.Answers (.deleteRange req) (svc.serve debug debugStatus outcome (.deleteRange req)).2 ∧
      (svc.serve debug debugStatus outcome (.deleteRange req)).1.Realizes
        (e.next (.deleteRange req)) := by
  obtain ⟨-, hend, hpos⟩ := hc
  have hserve : svc.serve debug debugStatus outcome (.deleteRange req) =
      Prod.map id (Except.map .write) (svc.write debug outcome (req.plan svc.machine.store)) := rfl
  obtain ⟨hres, hafter⟩ := h.write_delete debug outcome req.key (e.lookup req.key).toList.length
    (if req.prevKv then (e.lookup req.key).toList else [])
  rw [hserve, h.delete_plan hend hpos]
  exact ⟨congrArg (Except.map KvResponse.write) hres, hafter⟩

theorem Realizes.compact_step (h : svc.Realizes e) {revision : ℤ}
    (hc : e.Covers (.compact revision)) :
    e.Answers (.compact revision) (svc.serve debug debugStatus outcome (.compact revision)).2 ∧
      (svc.serve debug debugStatus outcome (.compact revision)).1.Realizes
        (e.next (.compact revision)) := by
  obtain ⟨hres, hafter⟩ := h.store.compact_step hc.1 hc.2
  have hcur := hafter.currentRevision_eq
  have hnext : e.next (.compact revision) = ⟨e.history, revision.toNat⟩ :=
    congrArg (Etcd.mk · revision.toNat) (List.append_nil _)
  have hserve : svc.serve debug debugStatus outcome (.compact revision) =
      Prod.map id (Except.map .compact) (svc.compact debugStatus revision) := rfl
  rw [hserve, hnext]
  unfold compact
  generalize svc.machine.store.compact revision = out at hres hafter hcur
  obtain ⟨store, res⟩ := out
  cases hres
  refine ⟨?_, h.single, hafter⟩
  change Except.ok (KvResponse.compact (responseHeader store.currentRevision)) = _
  rw [hcur]
  rfl

/-! ### Transactions -/

end KvService

namespace GuardedWrite

variable (w : GuardedWrite)

def plan : TxnPlan := ⟨w.compare, w.required, w.value, w.readBack⟩

theorem plan_request : w.request.plan = .ok w.plan := by
  unfold plan request TxnRequest.plan
  dsimp only
  rw [w.required_eq]
  unfold operation checkSuccess
  cases w.readBack <;> cases w.value <;> simp [checkFailure, w.key_ne, Except.map]

/-- The call of `set` that carries out the transaction. -/
def Passes (kv : Option KeyValue) : Prop :=
  checkCompare kv (some w.required) ∧ (kv.isSome ∨ w.value.isSome)

/-- Where the service agrees with the API, the checks of `set` are the compare. -/
theorem passes_iff {kv : Option KeyValue} (h : w.Agrees kv) :
    w.Passes kv ↔ w.compare.holds kv = true := by
  unfold Passes
  cases kv with
  | some kv =>
    rw [checkCompare_some w.required_eq w.target_nonneg]
    exact and_iff_left (Or.inl rfl)
  | none =>
    have hnonneg := w.target_nonneg
    rw [checkCompare_none w.required_eq]
    rcases h with hsome | ⟨hput, hop, -⟩ | ⟨hdel, hfails, -⟩
    · contradiction
    · -- a put: the operators for which the code's test of the target is the compare
      rw [Compare.holds_none w.required_eq,
        ← (KvService.absent_put_iff w.result_known hnonneg).mpr hop]
      constructor
      · intro hpass
        omega
      · intro htarget
        exact ⟨by omega, Or.inr hput⟩
    · -- a delete is refused, and the compare fails
      rw [hfails, hdel]
      constructor
      · intro hpass
        exact absurd (hpass.2.resolve_left Bool.false_ne_true) Bool.false_ne_true
      · intro hholds
        contradiction

/-- A transaction that reads its key back finds it. -/
theorem Agrees.present {w : GuardedWrite} {kv : Option KeyValue} (h : w.Agrees kv)
    (hfails : w.compare.holds kv = false) (hread : w.readBack = true) : kv.isSome = true := by
  cases kv with
  | some kv => rfl
  | none =>
    exfalso
    have hnot : ¬w.Passes none := by
      rw [w.passes_iff h, hfails]
      exact Bool.false_ne_true
    rcases h with hsome | ⟨hput, -, hzero⟩ | ⟨-, -, hquiet⟩
    · contradiction
    · exact hnot ⟨(checkCompare_none w.required_eq).mpr (hzero hread).le, Or.inr hput⟩
    · rw [hquiet] at hread
      contradiction

end GuardedWrite

namespace Etcd

variable (e : Etcd) (w : GuardedWrite)

theorem succeeds_guarded : e.succeeds w.request = w.compare.holds (e.lookup w.compare.key) := by
  unfold succeeds GuardedWrite.request
  rw [List.all_cons, List.all_nil, Bool.and_true]

theorem branch_of_holds (h : w.compare.holds (e.lookup w.compare.key) = true) :
    e.branch w.request = [w.operation] := by
  unfold branch
  rw [e.succeeds_guarded, if_pos h]
  rfl

theorem branch_of_fails (h : w.compare.holds (e.lookup w.compare.key) = false) :
    e.branch w.request = if w.readBack then [.range ⟨w.compare.key, []⟩] else [] := by
  unfold branch
  rw [e.succeeds_guarded, h, if_neg Bool.false_ne_true]
  unfold GuardedWrite.request
  cases w.readBack <;> rfl

theorem opChanges_operation (h : (e.lookup w.compare.key).isSome ∨ w.value.isSome) :
    e.opChanges w.operation = [(w.compare.key, w.value)] := by
  unfold GuardedWrite.operation
  cases hv : w.value with
  | some v => rfl
  | none =>
    rw [hv] at h
    rw [opChanges, if_pos (h.resolve_right Bool.false_ne_true)]

/-- The response to a write that was carried out. -/
theorem respond_of_holds (h : (e.lookup w.compare.key).isSome ∨ w.value.isSome) (rev : ℤ) :
    w.plan.respond (.ok rev) =
      ⟨responseHeader rev, true, [w.operation].filterMap (e.opResponse rev)⟩ := by
  unfold TxnPlan.respond GuardedWrite.plan GuardedWrite.operation
  cases hv : w.value with
  | some v => rfl
  | none =>
    -- a delete that was carried out has found its key
    rw [hv] at h
    obtain ⟨kv, hkv⟩ := Option.isSome_iff_exists.mp (h.resolve_right Bool.false_ne_true)
    rw [List.filterMap_cons_some (by rw [opResponse, hkv])]
    rfl

/-- The response to a write whose compare failed. -/
theorem respond_of_fails (h : w.readBack = true → (e.lookup w.compare.key).isSome = true) :
    w.plan.respond (.error (e.revision, e.lookup w.compare.key)) =
      ⟨responseHeader e.revision, false,
        (if w.readBack then [Request.range ⟨w.compare.key, []⟩] else []).filterMap
          (e.opResponse e.revision)⟩ := by
  unfold GuardedWrite.plan
  cases hr : w.readBack with
  | false => rfl
  | true =>
    obtain ⟨kv, hkv⟩ := Option.isSome_iff_exists.mp (h hr)
    rw [if_pos rfl, List.filterMap_cons_some (by rw [opResponse, hkv]), hkv]
    rfl

end Etcd

namespace KvService

variable {svc : KvService} {e : Etcd} (debug : ℤ × Option KeyValue → String)
  (debugStatus : Status → String) (outcome : Except String LogId)

theorem Realizes.txn_step (h : svc.Realizes e) {req : TxnRequest} (hc : e.Covers (.txn req)) :
    e.Answers (.txn req) (svc.serve debug debugStatus outcome (.txn req)).2 ∧
      (svc.serve debug debugStatus outcome (.txn req)).1.Realizes (e.next (.txn req)) := by
  obtain ⟨w, rfl, hag⟩ := hc
  obtain ⟨m, raft⟩ := svc
  obtain ⟨rfl, hstore⟩ := h
  have hserve : serve debug debugStatus outcome ⟨m, none⟩ (.txn w.request) =
      Prod.map id (Except.map .txn) (txn ⟨m, none⟩ outcome w.request) := rfl
  rw [hserve, txn_local m outcome w.plan_request]
  change e.AnswersTxn w.request _ ∧ _
  unfold Etcd.AnswersTxn
  dsimp only
  cases hholds : w.compare.holds (e.lookup w.compare.key) with
  | true =>
    have hpass := (w.passes_iff hag).mpr hholds
    obtain ⟨hres, hafter⟩ := hstore.set_accepted hpass
    have hnext : e.next (.txn w.request) =
        ⟨e.history ++ [(w.compare.key, w.value)], e.compacted⟩ := by
      unfold Etcd.next
      rw [Etcd.changes, e.branch_of_holds w hholds, List.flatMap_singleton,
        e.opChanges_operation w hpass.2]
    rw [hnext, Etcd.revision_concat, e.branch_of_holds w hholds, e.succeeds_guarded, hholds]
    refine ⟨?_, rfl, hafter⟩
    calc Except.ok (KvResponse.txn (w.plan.respond (m.store.set _ _ _).2))
        = .ok (.txn (w.plan.respond (.ok (e.revision + 1)))) :=
          congrArg (fun res => Except.ok (KvResponse.txn (w.plan.respond res))) hres
      _ = _ := by rw [e.respond_of_holds w hpass.2]
  | false =>
    have hfail : ¬w.Passes (e.lookup w.compare.key) := by
      rw [w.passes_iff hag, hholds]
      exact Bool.false_ne_true
    obtain ⟨hres, hafter⟩ := hstore.set_refused hfail
    have hnext : e.next (.txn w.request) = e := by
      unfold Etcd.next
      rw [Etcd.changes, e.branch_of_fails w hholds]
      cases w.readBack
      · exact congrArg (Etcd.mk · e.compacted) (List.append_nil _)
      · exact congrArg (Etcd.mk · e.compacted) (List.append_nil _)
    rw [hnext, e.branch_of_fails w hholds, e.succeeds_guarded, hholds]
    refine ⟨?_, rfl, hafter⟩
    calc Except.ok (KvResponse.txn (w.plan.respond (m.store.set _ _ _).2))
        = .ok (.txn (w.plan.respond (.error (e.revision, e.lookup w.compare.key)))) :=
          congrArg (fun res => Except.ok (KvResponse.txn (w.plan.respond res))) hres
      _ = _ := by rw [e.respond_of_fails w (hag.present hholds)]

/-- One covered request is answered as specified and leads to the specified state. -/
theorem Realizes.step (h : svc.Realizes e) {req : KvRequest} (hc : e.Covers req) :
    e.Answers req (svc.serve debug debugStatus outcome req).2 ∧
      (svc.serve debug debugStatus outcome req).1.Realizes (e.next req) := by
  cases req with
  | range req =>
    have hnext : e.next (.range req) = e :=
      congrArg (Etcd.mk · e.compacted) (List.append_nil _)
    rw [hnext]
    exact ⟨h.store.serveRange_answers hc, h⟩
  | put req => exact h.put_step debug debugStatus outcome hc
  | deleteRange req => exact h.deleteRange_step debug debugStatus outcome hc
  | txn req => exact h.txn_step debug debugStatus outcome hc
  | compact revision => exact h.compact_step debug debugStatus outcome hc

/-- A service of a single node, in any state that the specification can be in, answers
every sequence of covered requests as the specification does, and holds the history of the
specification afterwards. -/
theorem refines_etcd {svc : KvService} {e : Etcd} (h : svc.Realizes e) {reqs : List KvRequest}
    (hc : PartialRun.Covered Etcd.next Etcd.Covers e reqs) :
    PartialRun.Allowed Etcd.next Etcd.Answers e reqs
        (PartialRun.outputs (serve debug debugStatus outcome) svc reqs).2 ∧
      (PartialRun.outputs (serve debug debugStatus outcome) svc reqs).1.Realizes
        (reqs.foldl Etcd.next e) := by
  apply PartialRun.outputs_allowed Etcd.next _ h hc
  intro svc e req hrel hcov
  exact hrel.step debug debugStatus outcome hcov

/-! A session on a fresh store. -/

/-- The first put of the key `a`, a write that depends on it, a compaction at the second
revision, reads behind and before the compaction, a delete, and what then finds nothing. -/
def session : List KvRequest :=
  [.put ⟨⟨[97], [1]⟩, false, false⟩,
    .txn ⟨[⟨0, [97], some (.modRevision 1)⟩], [⟨some (.put ⟨[97], [2]⟩)⟩],
      [⟨some (.range ⟨[97], []⟩)⟩]⟩,
    .compact 2,
    .range ⟨⟨[97], []⟩, 0, 2, false⟩,
    .range ⟨⟨[97], []⟩, 0, 1, false⟩,
    .deleteRange ⟨⟨[97], []⟩, true⟩,
    .range ⟨⟨[97], []⟩, 1, 0, false⟩,
    .put ⟨⟨[97], []⟩, false, true⟩]

def sessionWrite : GuardedWrite where
  compare := ⟨0, [97], some (.modRevision 1)⟩
  required := ⟨some 1, none, 0⟩
  value := some [2]
  readBack := true
  key_ne := List.cons_ne_nil _ _
  required_eq := rfl
  target_nonneg := by decide
  result_known := by decide

theorem session_covered : PartialRun.Covered Etcd.next Etcd.Covers ⟨[], 0⟩ session := by
  refine ⟨And.intro (by decide) (by decide), ⟨sessionWrite, rfl, Or.inl (by decide)⟩,
    And.intro (by decide) (by decide), ?_, ?_, And.intro (by decide) (by decide), ?_,
    And.intro (by decide) (by decide), trivial⟩
  · -- the value at revision 2 was written at the compacted revision
    refine And.intro (by decide) ⟨by decide, by decide, by decide, by decide, .single _, ?_⟩
    intro _ k hk
    obtain rfl : k = [97] := hk
    intro kv hkv
    cases hkv
    exact Or.inl (by decide)
  · -- revision 1 is refused
    refine And.intro (by decide) ⟨by decide, by decide, by decide, by decide, .single _, ?_⟩
    intro hserved
    exact absurd hserved (by decide)
  · refine And.intro (by decide) ⟨by decide, by decide, by decide, by decide, .single _, ?_⟩
    intro _ k _
    exact Etcd.retained_now _ k

theorem emptyMachine_realizes : (KvService.mk emptyMachine none).Realizes ⟨[], 0⟩ :=
  ⟨rfl, Store.new_realizes none⟩

theorem refines_etcd_session :
    PartialRun.Allowed Etcd.next Etcd.Answers ⟨[], 0⟩ session
      [.ok (.write (.put ⟨responseHeader 1, none⟩)),
        .ok (.txn ⟨responseHeader 2, true, [.put ⟨responseHeader 2, none⟩]⟩),
        .ok (.compact (responseHeader 2)),
        .ok (.range ⟨responseHeader 2, [⟨[97], [2], 1, 2, 2, 0⟩], false, 1⟩),
        .error (.status compactedRevisionStatus),
        .ok (.write (.deleteRange ⟨responseHeader 3, 1, [⟨[97], [2], 1, 2, 2, 0⟩]⟩)),
        .ok (.range ⟨responseHeader 3, [], false, 0⟩),
        .error (.status (.invalidArgument "ignore_value set but key does not exist"))] :=
  (refines_etcd (fun _ => "") (fun _ => "") (.error "") emptyMachine_realizes session_covered).1

end KvService
end MemEtcd
