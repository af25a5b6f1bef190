import MemEtcd.Bookkeeping
import MemEtcd.KeyRanges
import MemEtcd.Paging
import MemEtcd.RangeService

/-! Lists in pages. The first page fixes a revision; the next ones are reads at
that revision, whatever was written in the meantime. -/
namespace MemEtcd

open VersionLog (cells)

namespace Store

/-! ### The range handler -/

/-- A page: the first key-values of the range, and whether there are more. -/
theorem serveRange_page (s : Store) {start endKey pfx : Bytes} {lo hi : Bound Bytes}
    (ha : prefixAndRangeOfKey start endKey = .ok (pfx, lo, hi))
    (hi' : Bound.inverted lo hi = false) {limit : ℤ} (h1 : 1 ≤ limit) (h63 : limit < 2 ^ 63)
    {revision rev : ℤ} (hrev : (if revision = 0 then s.currentRevision else revision) = rev)
    (hpos : 0 < rev) (hl : revision ≤ s.currentRevision) (hc : s.compactedRevision = 0) :
    s.serveRange ⟨⟨start, endKey⟩, limit, revision, false⟩ =
      .ok ⟨responseHeader s.currentRevision, (s.kvsAt pfx lo hi rev).take limit.toNat,
        decide (limit.toNat < (s.kvsAt pfx lo hi rev).length), (s.kvsAt pfx lo hi rev).length⟩ := by
  have hzero : ¬limit = 0 := by omega
  obtain ⟨hcast, hint⟩ := limit_roundtrip (show -2 ^ 63 ≤ limit by omega) h63
  have hnat : (limit % 2 ^ 64).toNat = limit.toNat := by
    rw [if_neg (by omega)] at hcast
    omega
  rw [hnat] at hint
  have hlimit : RangeQuery.storeLimit ⟨⟨start, endKey⟩, limit, revision, false⟩ =
      some limit.toNat := by
    unfold RangeQuery.storeLimit
    rw [if_neg Bool.false_ne_true, if_neg hzero, hnat]
  have hmore (n : ℕ) : decide ((n : ℤ) > limit) = decide (limit.toNat < n) :=
    decide_eq_decide.mpr (by omega)
  unfold serveRange
  rw [hlimit]
  dsimp only
  rw [range_eq_scan s ha hi' hl (by omega), hrev, scan_limited s hpos limit.toNat pfx _ rfl]
  simp only [Except.map, bind, Except.bind, pure, Except.pure, List.nil_append, List.length_nil,
    Nat.sub_zero, Nat.zero_add, Bool.false_eq_true, if_false, hint, hmore]
  rfl

/-- The whole range in one answer. -/
theorem serveRange_unlimited (s : Store) {start endKey pfx : Bytes} {lo hi : Bound Bytes}
    (ha : prefixAndRangeOfKey start endKey = .ok (pfx, lo, hi))
    (hi' : Bound.inverted lo hi = false) {rev : ℤ} (hpos : 0 < rev)
    (hl : rev ≤ s.currentRevision) (hc : s.compactedRevision = 0) :
    s.serveRange ⟨⟨start, endKey⟩, 0, rev, false⟩ =
      .ok ⟨responseHeader s.currentRevision, s.kvsAt pfx lo hi rev, false,
        (s.kvsAt pfx lo hi rev).length⟩ := by
  have hlimit : RangeQuery.storeLimit ⟨⟨start, endKey⟩, 0, rev, false⟩ = none := rfl
  unfold serveRange
  rw [hlimit]
  dsimp only
  rw [range_eq s ha hi' hpos hl (by omega)]
  rfl

/-! ### The client -/

/-- The store when a client asks for its page number `i`. -/
def storeAt (s : Store) (between : ℕ → List Call) : ℕ → Store
  | 0 => s
  | i + 1 => (s.storeAt between i).run (between i)

/-- The answer to a client's request for page number `i`: the first one is at the
current revision, the others at the revision `rev`. -/
def page (s : Store) (endKey : Bytes) (limit rev : ℤ) (between : ℕ → List Call) (i : ℕ)
    (key : Bytes) : Except Fault (List KeyValue × Bool) :=
  ((s.storeAt between i).serveRange
    ⟨⟨key, endKey⟩, limit, if i = 0 then 0 else rev, false⟩).map (fun res => (res.kvs, res.more))

/-- The key behind the last one of a page. -/
def nextKey (kv : KeyValue) : Bytes := kv.key ++ [0]

theorem storeAt_eq_run (s : Store) (between : ℕ → List Call) (i : ℕ) :
    ∃ calls, s.storeAt between i = s.run calls := by
  induction i with
  | zero => exact ⟨[], rfl⟩
  | succ i ih =>
    obtain ⟨calls, hcalls⟩ := ih
    refine ⟨calls ++ between i, ?_⟩
    rw [storeAt, hcalls]
    exact List.foldl_append.symm

/-! ### Stores that were never compacted -/

/-- Only a compaction removes values from the array. -/
theorem perform_earliest {s : Store} {writes : List Write} (h : s.Bookkept writes)
    {op : Operation} (hop : ∀ rev, op ≠ .compact rev) :
    (s.perform op).1.valuesByRevision.earliestRevision =
      s.valuesByRevision.earliestRevision := by
  cases op with
  | call c =>
    have he := call_earliest h.wf h.represents c
    cases hres : (s.call c).2 with
    | error e => rw [perform_refused hres, he]
    | ok rev => rw [perform_accepted hres, he]
  | replay key value =>
    change (s.setForReplay key value).valuesByRevision.earliestRevision = _
    by_cases heff : value.isSome ∨ (s.view key).latestValue.value.isSome
    · rw [(setForReplay_spec h.wf heff).2.2, earliestRevision_commitValue]
    · rw [setForReplay_dead heff]
  | compact rev => exact absurd rfl (hop rev)

theorem performAll_earliest {s : Store} {writes : List Write} (h : s.Bookkept writes)
    {ops : List Operation} (hops : ∀ op ∈ ops, ∀ rev, op ≠ .compact rev) :
    (s.performAll ops).1.valuesByRevision.earliestRevision =
      s.valuesByRevision.earliestRevision := by
  induction ops generalizing s writes with
  | nil => rfl
  | cons op ops ih =>
    have hrest := ih (perform_bookkept h op) (fun o ho => hops o (List.mem_cons_of_mem _ ho))
    rw [perform_earliest h (hops op List.mem_cons_self)] at hrest
    exact hrest

theorem performAll_uncompacted (wal : Option WalMode) {ops : List Operation}
    (hops : ∀ op ∈ ops, ∀ rev, op ≠ .compact rev) :
    ∃ log, ((new wal).performAll ops).1.Uncompacted log := by
  have h := performAll_bookkept (new_bookkept wal) ops
  exact ⟨_, h.wf, h.represents, performAll_earliest (new_bookkept wal) hops⟩

/-! ### Pages of one snapshot -/

/-- What a list of a directory reports at a past revision depends on the log only. -/
theorem Uncompacted.mem_kvsAt {s : Store} {log : History} (h : s.Uncompacted log)
    {d q start : Bytes} (hd : FullDepth d) (hq : d <+: q) (hslash : q.getLast? = some 47)
    (hs : q <+: start) {lo hi : Bound Bytes}
    (ha : prefixAndRangeOfKey start (q.dropLast ++ [48]) = .ok (d, lo, hi)) {r : ℕ} (hr : 0 < r)
    (kv : KeyValue) :
    kv ∈ s.kvsAt d lo hi r ↔ ∃ k v, (start ≤ k ∧ k < q.dropLast ++ [48]) ∧
      (cells (log.take r) k).live = some v ∧ kv = asMvccKeyValue v k := by
  rw [Store.mem_kvsAt h.wf d lo hi (by omega)]
  simp only [← requests_of_accepted ha, requests_directory hd hq hslash hs,
    h.represents.liveAt_uncompacted h.earliest]

def keysFrom (all : List KeyValue) (key : Bytes) : List KeyValue :=
  all.filter (fun kv => decide (key ≤ kv.key))

/-- A list from a later start, in a later store, is the rest of the list. -/
theorem kvsAt_later {s t : Store} {log log' : History} (hs : s.Uncompacted log)
    (ht : t.Uncompacted log') (hext : log <+: log') {d q start key : Bytes} (hd : FullDepth d)
    (hq : d <+: q) (hslash : q.getLast? = some 47) (hstart : q <+: start) (hkey : q <+: key)
    (hle : start ≤ key) {lo hi lo' hi' : Bound Bytes}
    (ha : prefixAndRangeOfKey start (q.dropLast ++ [48]) = .ok (d, lo, hi))
    (ha' : prefixAndRangeOfKey key (q.dropLast ++ [48]) = .ok (d, lo', hi')) {r : ℕ} (hr : 0 < r)
    (hrl : r ≤ log.length) :
    t.kvsAt d lo' hi' r = keysFrom (s.kvsAt d lo hi r) key := by
  have htake : log'.take r = log.take r := by
    obtain ⟨more, rfl⟩ := hext
    exact List.take_append_of_le_length hrl
  apply kvs_ext (kvsAt_sorted _ _ _ _ _) ((kvsAt_sorted _ _ _ _ _).filter _)
  intro kv
  rw [List.mem_filter, ht.mem_kvsAt hd hq hslash hkey ha' hr, hs.mem_kvsAt hd hq hslash hstart ha hr,
    htake]
  constructor
  · intro h
    obtain ⟨k, v, hk, hv, rfl⟩ := h
    exact ⟨⟨k, v, ⟨List.le_trans hle hk.1, hk.2⟩, hv, rfl⟩, decide_eq_true hk.1⟩
  · intro h
    obtain ⟨⟨k, v, hk, hv, rfl⟩, hkey⟩ := h
    exact ⟨k, v, ⟨of_decide_eq_true hkey, hk.2⟩, hv, rfl⟩

/-- Behind a page the list goes on at the next key. -/
theorem keysFrom_nextKey {all : List KeyValue} (hsorted : all.Pairwise (fun a b => a.key < b.key))
    {key : Bytes} {n : ℕ} {x : KeyValue} (hx : (keysFrom all key)[n]? = some x) :
    keysFrom all (nextKey x) = (keysFrom all key).drop (n + 1) := by
  have hmem : x ∈ keysFrom all key := List.mem_of_getElem? hx
  have hle : key ≤ x.key := of_decide_eq_true (List.mem_filter.mp hmem).2
  have hirr (a : KeyValue) : ¬a.key < a.key := List.lt_irrefl a.key
  have hasymm (a b : KeyValue) (hab : a.key < b.key) : ¬b.key < a.key :=
    List.not_lt.mpr (List.le_of_lt hab)
  have habove := Paging.filter_above hirr hasymm (hsorted.filter _) hx
  refine Eq.trans ?_ habove
  unfold keysFrom nextKey
  rw [List.filter_filter]
  apply List.filter_congr
  intro kv _
  rw [← Bool.decide_and, decide_eq_decide,
    LexInterval.append_least_le_iff zero_least x.key kv.key]
  constructor
  · intro hlt
    exact ⟨hlt, List.le_trans hle (List.le_of_lt hlt)⟩
  · intro h
    exact h.1

section Directory

variable {s : Store} {log : History} {d q start : Bytes} {lo hi : Bound Bytes}

/-- After any calls, a list from any key of the directory on is accepted and
reports at the old revision the rest of the old list. -/
theorem Uncompacted.list_later (hs : s.Uncompacted log) (hpos : 0 < log.length)
    (hd : FullDepth d) (hq : d <+: q) (hslash : q.getLast? = some 47) (hstart : q <+: start)
    (ha : prefixAndRangeOfKey start (q.dropLast ++ [48]) = .ok (d, lo, hi)) (calls : List Call)
    {key : Bytes} (hkey : q <+: key) (hle : start ≤ key) :
    ∃ lo' hi', prefixAndRangeOfKey key (q.dropLast ++ [48]) = .ok (d, lo', hi') ∧
      Bound.inverted lo' hi' = false ∧ (s.run calls).compactedRevision = 0 ∧
      s.currentRevision ≤ (s.run calls).currentRevision ∧
      (s.run calls).kvsAt d lo' hi' s.currentRevision =
        keysFrom (s.kvsAt d lo hi s.currentRevision) key := by
  have ht := hs.run calls
  have hext := logCalls_extends log calls
  obtain ⟨lo', hi', ha', hinv'⟩ := accepted_of_directory hd hq hslash hkey
  rw [hs.represents.currentRevision_eq]
  refine ⟨lo', hi', ha', hinv', ht.compactedRevision, ?_, ?_⟩
  · rw [ht.represents.currentRevision_eq]
    exact_mod_cast hext.length_le
  · exact kvsAt_later hs ht hext hd hq hslash hstart hkey hle ha ha' hpos (le_refl _)

/-- Every page is cut from the old list. -/
theorem Uncompacted.page_eq (hs : s.Uncompacted log) (hpos : 0 < log.length) (hd : FullDepth d)
    (hq : d <+: q) (hslash : q.getLast? = some 47) (hstart : q <+: start)
    (ha : prefixAndRangeOfKey start (q.dropLast ++ [48]) = .ok (d, lo, hi)) {limit : ℤ}
    (h1 : 1 ≤ limit) (h63 : limit < 2 ^ 63) (between : ℕ → List Call) (i : ℕ) {key : Bytes}
    (hkey : q <+: key) (hle : start ≤ key) :
    s.page (q.dropLast ++ [48]) limit s.currentRevision between i key =
      .ok ((keysFrom (s.kvsAt d lo hi s.currentRevision) key).take limit.toNat,
        decide (limit.toNat < (keysFrom (s.kvsAt d lo hi s.currentRevision) key).length)) := by
  have hcur := hs.represents.currentRevision_eq
  obtain ⟨calls, hcalls⟩ := s.storeAt_eq_run between i
  obtain ⟨lo', hi', ha', hinv', hc', hl', hkvs'⟩ :=
    hs.list_later hpos hd hq hslash hstart ha calls hkey hle
  -- the first page asks for revision zero, which is the current one then
  have hrevision : (if (if i = 0 then 0 else s.currentRevision) = 0 then
      (s.run calls).currentRevision else (if i = 0 then 0 else s.currentRevision)) =
      s.currentRevision := by
    by_cases hi0 : i = 0
    · rw [if_pos hi0, if_pos rfl, ← hcalls, hi0]
      rfl
    · rw [if_neg hi0, if_neg (by omega)]
  unfold page
  rw [hcalls, serveRange_page _ ha' hinv' h1 h63 hrevision (by omega) (by split_ifs <;> omega) hc',
    hkvs']
  rfl

end Directory

/-- A list in pages. In a store that was never compacted, with at least one
revision, the pages of a list of a directory make up what the list without a limit
reports at the revision of the first page, in order and each key once, whatever is
written between the pages; and the client comes to an end. -/
theorem pages_make_up_the_list (wal : Option WalMode) {ops : List Operation}
    (hops : ∀ op ∈ ops, ∀ rev, op ≠ .compact rev)
    (hrev : 1 ≤ ((new wal).performAll ops).1.currentRevision) {d q start : Bytes}
    (hd : FullDepth d) (hq : d <+: q) (hslash : q.getLast? = some 47) (hstart : q <+: start)
    {limit : ℤ} (h1 : 1 ≤ limit) (h63 : limit < 2 ^ 63) (between : ℕ → List Call) :
    let s := ((new wal).performAll ops).1
    let endKey := q.dropLast ++ [48]
    ∃ first all,
      s.serveRange ⟨⟨start, endKey⟩, limit, 0, false⟩ = .ok first ∧
      (∀ calls, ∃ whole, (s.run calls).serveRange
          ⟨⟨start, endKey⟩, 0, first.header.revision, false⟩ = .ok whole ∧ whole.kvs = all) ∧
      all.Pairwise (fun a b => a.key < b.key) ∧
      ∃ n, ∀ fuel ≥ n, Paging.collect (s.page endKey limit first.header.revision between) nextKey
        fuel 0 start = .ok (some all) := by
  obtain ⟨log, hs⟩ := performAll_uncompacted wal hops
  generalize ((new wal).performAll ops).1 = s at hrev hs
  have hcur := hs.represents.currentRevision_eq
  have hpos : 0 < log.length := by omega
  obtain ⟨lo, hi, ha, hinv⟩ := accepted_of_directory hd hq hslash hstart
  have hlist := hs.list_later hpos hd hq hslash hstart ha
  -- a page at the revision of the first one depends on the log up to there only, so
  -- what is written in between does not show
  have hpages (i : ℕ) (key : Bytes) (hkey : q <+: key ∧ start ≤ key) :=
    hs.page_eq hpos hd hq hslash hstart ha h1 h63 between i hkey.1 hkey.2
  have hcurrent : (if (0 : ℤ) = 0 then s.currentRevision else 0) = s.currentRevision := if_pos rfl
  have hfirst := serveRange_page s ha hinv h1 h63 hcurrent (by omega) (by omega)
    hs.compactedRevision
  have hsorted := kvsAt_sorted s d lo hi s.currentRevision
  have hrange : ∀ kv ∈ s.kvsAt d lo hi s.currentRevision,
      start ≤ kv.key ∧ kv.key < q.dropLast ++ [48] := by
    intro kv hkv
    rw [hcur] at hkv
    obtain ⟨k, v, hk, _, rfl⟩ := (hs.mem_kvsAt hd hq hslash hstart ha hpos kv).mp hkv
    exact hk
  refine ⟨_, s.kvsAt d lo hi s.currentRevision, hfirst, ?_, hsorted, ?_⟩
  all_goals
    generalize s.kvsAt d lo hi s.currentRevision = all at hlist hpages hsorted hrange
    have hall : keysFrom all start = all :=
      List.filter_eq_self.mpr (fun kv hkv => decide_eq_true (hrange kv hkv).1)
  · intro calls
    obtain ⟨lo', hi', ha', hinv', hc', hl', hkvs'⟩ := hlist calls hstart (List.le_refl _)
    have hcur0 : 0 < s.currentRevision := by omega
    refine ⟨_, serveRange_unlimited _ ha' hinv' hcur0 hl' hc', ?_⟩
    exact hkvs'.trans hall
  · refine ⟨all.length + 1, fun fuel hfuel => ?_⟩
    -- nothing lies between a key and its successor: the next page begins right behind
    -- this one
    have hnext (key : Bytes) (x : KeyValue) (_ : q <+: key ∧ start ≤ key)
        (hx : (keysFrom all key)[limit.toNat - 1]? = some x) :
        (q <+: nextKey x ∧ start ≤ nextKey x) ∧
          keysFrom all (nextKey x) = (keysFrom all key).drop limit.toNat := by
      obtain ⟨hge, hlt⟩ := hrange x (List.mem_filter.mp (List.mem_of_getElem? hx)).1
      have hdir := extends_of_directory hslash hstart hge hlt
      refine ⟨⟨hdir.trans (List.prefix_append _ _), List.le_trans hge List.le_append_left⟩, ?_⟩
      rw [keysFrom_nextKey hsorted hx]
      congr 1
      omega
    have hone : 1 ≤ limit.toNat := by omega
    have henough : (keysFrom all start).length < fuel := by
      rw [hall]
      omega
    have hcollect := Paging.collect_eq hone hpages hnext ⟨hstart, List.le_refl _⟩ 0 henough
    rw [hall] at hcollect
    exact hcollect

/-- Two pods in pages of one. Behind the first page the second pod is deleted and the first
one written again; the pages still show both as they were. -/
theorem pages_of_two_pods :
    let dir := registryRoot ++ [112] ++ [47]
    let s := ((new none).performAll
      [.call ⟨dir ++ [120], some [1], none⟩, .call ⟨dir ++ [121], some [2], none⟩]).1
    let endKey := dir.dropLast ++ [48]
    let between (i : ℕ) : List Call :=
      if i = 0 then [⟨dir ++ [121], none, none⟩, ⟨dir ++ [120], some [3], none⟩] else []
    s.serveRange ⟨⟨dir, endKey⟩, 1, 0, false⟩ =
        .ok ⟨responseHeader 2, [⟨dir ++ [120], [1], 1, 1, 1, 0⟩], true, 2⟩ ∧
      (s.run (between 0)).serveRange ⟨⟨dir, endKey⟩, 0, 0, false⟩ =
        .ok ⟨responseHeader 4, [⟨dir ++ [120], [3], 1, 4, 2, 0⟩], false, 1⟩ ∧
      ∃ n, ∀ fuel ≥ n, Paging.collect (s.page endKey 1 2 between) nextKey fuel 0 dir =
        .ok (some [⟨dir ++ [120], [1], 1, 1, 1, 0⟩, ⟨dir ++ [121], [2], 2, 2, 1, 0⟩]) := by
  intro dir s endKey between
  have hpage : s.serveRange ⟨⟨dir, endKey⟩, 1, 0, false⟩ =
      .ok ⟨responseHeader 2, [⟨dir ++ [120], [1], 1, 1, 1, 0⟩], true, 2⟩ := by decide
  have hwhole : (s.run []).serveRange ⟨⟨dir, endKey⟩, 0, 2, false⟩ =
      .ok ⟨responseHeader 2, [⟨dir ++ [120], [1], 1, 1, 1, 0⟩, ⟨dir ++ [121], [2], 2, 2, 1, 0⟩],
        false, 2⟩ := by decide
  have hdir : FullDepth dir := FullDepth.resource (by decide) (by decide)
  obtain ⟨first, all, hfirst, hall, -, hcollect⟩ :=
    @pages_make_up_the_list none
      [.call ⟨dir ++ [120], some [1], none⟩, .call ⟨dir ++ [121], some [2], none⟩] (by simp)
      (by decide) dir dir dir hdir (List.prefix_refl _) (by decide) (List.prefix_refl _) 1
      (le_refl 1) (by decide) between
  cases hpage.symm.trans hfirst
  obtain ⟨whole, hread, rfl⟩ := hall []
  cases hwhole.symm.trans hread
  exact ⟨hpage, by decide, hcollect⟩

end Store
end MemEtcd
