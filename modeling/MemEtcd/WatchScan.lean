import MemEtcd.WatchOrder

/-! The scan of a watch beside its live path. A change reaches the client through the
scan for past changes, through the channel, or through both, and the revision of
the last past change decides what is held back. This module follows the changes
through the scan: which of them it finds, and which of those are still to come on
the channel. -/
namespace MemEtcd

open Handover (threshold)

abbrev Committed.kv (c : Committed) : KeyValue := asMvccKeyValue c.value c.key

abbrev WatchCreateRequest.names (req : WatchCreateRequest) (k : Bytes) : Prop :=
  etcdRange req.key req.rangeEnd k

namespace Server

/-! ### What is to come on a channel -/

/-- The change with revision `n` is for the channel: its call has still to collect the
watchers, or has found the channel among them. -/
def Owes (s : Server) (ch : ℕ) (n : ℤ) : Prop :=
  (∃ d ∈ s.committed, d.1.value.modRevision = n) ∨
    ∃ job ∈ s.jobs, job.rev = n ∧ ch ∈ job.watchers

theorem owes_congr {s t : Server} (hc : t.committed = s.committed) (hj : t.jobs.Perm s.jobs)
    (ch : ℕ) (n : ℤ) : t.Owes ch n ↔ s.Owes ch n := by
  unfold Owes
  rw [hc]
  simp only [hj.mem_iff]

/-- No step makes an old change one for the channel. -/
theorem Owes.of_step {s : Server} {a : Action} (ha : a ≠ .receive) {draining : Bool}
    (ho : (s.step a).Orderly draining) {ch : ℕ} {n : ℤ} (hn : n ≤ s.successes.length)
    (h : (s.step a).Owes ch n) : s.Owes ch n := by
  rcases s.step_accounts ha with ⟨_, hc, hj⟩ | ⟨_, _, done, _, _, _, hs, hc, hj⟩ |
    ⟨i, done, pfx, _, hi, _, hc, hj⟩
  · exact (owes_congr hc hj ch n).mp h
  · unfold Owes at h
    rw [hc, hj] at h
    rcases h with ⟨d, hd, hrev⟩ | hjob
    · rcases List.mem_append.mp hd with hd | hd
      · exact Or.inl ⟨d, hd, hrev⟩
      · -- the new call has a later revision
        rw [List.mem_singleton.mp hd] at hrev
        have hnew := ho.newRev_last hs
        have hmod : done.value.modRevision = done.newRev := by
          apply ho.success_rev
          rw [hs]
          exact List.mem_append_right _ (List.mem_singleton_self _)
        dsimp only at hrev
        omega
    · exact Or.inr hjob
  · unfold Owes at h
    rw [hc, hj] at h
    rcases h with ⟨d, hd, hrev⟩ | ⟨job, hjob, hrev, hch⟩
    · exact Or.inl ⟨d, List.mem_of_mem_eraseIdx hd, hrev⟩
    · rcases List.mem_append.mp hjob with hjob | hjob
      · exact Or.inr ⟨job, hjob, hrev, hch⟩
      · rw [List.mem_singleton.mp hjob] at hrev
        exact Or.inl ⟨_, List.mem_of_getElem? hi, hrev⟩

/-- A change stays one for the channel as long as its watcher is registered. -/
theorem Owes.step {s : Server} {a : Action} (ha : a ≠ .receive) {draining : Bool}
    (ho : s.Orderly draining) {ch : ℕ} {c : Committed} (hc : c ∈ s.successes)
    (hch : ch ∈ s.store.watchersToNotify c.key c.newRev) (h : s.Owes ch c.newRev) :
    (s.step a).Owes ch c.newRev := by
  rcases s.step_accounts ha with ⟨_, hcom, hj⟩ | ⟨_, _, done, _, _, _, _, hcom, hj⟩ |
    ⟨i, done, pfx, _, hi, _, hcom, hj⟩
  · exact (owes_congr hcom hj ch _).mpr h
  · unfold Owes
    rw [hcom, hj]
    rcases h with ⟨d, hd, hrev⟩ | hjob
    · exact Or.inl ⟨d, List.mem_append_left _ hd, hrev⟩
    · exact Or.inr hjob
  · unfold Owes
    rw [hcom, hj]
    rcases h with ⟨d, hd, hrev⟩ | ⟨job, hjob, hrev⟩
    · rcases List.mem_cons.mp ((perm_eraseIdx hi).mem_iff.mp hd) with rfl | hd'
      · -- the call that collects is `c`, as its revision says
        have hevent := ho.event_of_rev (Or.inr ⟨_, hd, rfl⟩) hc hrev
        have hkey : c.key = done.key := congrArg (fun e => e.2.kv.key) hevent
        refine Or.inr ⟨_, List.mem_append_right _ (List.mem_singleton_self _), hrev, ?_⟩
        change ch ∈ s.store.watchersToNotify done.key done.value.modRevision
        dsimp only at hrev
        rw [hrev, ← hkey]
        exact hch
      · exact Or.inl ⟨d, hd', hrev⟩
    · exact Or.inr ⟨job, List.mem_append_left _ hjob, hrev⟩

/-- The successful calls after a step: the old ones, and perhaps one more, which is for
every channel until it has collected its watchers. -/
theorem step_successes {s : Server} {a : Action} (ha : a ≠ .receive) {draining : Bool}
    (ho : (s.step a).Orderly draining) :
    (∀ c ∈ s.successes, c ∈ (s.step a).successes) ∧
      ∀ c ∈ (s.step a).successes, c ∈ s.successes ∨
        c.newRev = s.successes.length + 1 ∧ (∀ ch, (s.step a).Owes ch c.newRev) ∧
          ∃ i p, a = .lock i ∧ s.pending[i]? = some p ∧ (p.locked s.store).2 = .ok c := by
  rcases s.step_accounts ha with ⟨hs, _, _⟩ | ⟨i, call, done, ha, hi, hu, hs, hcom, _⟩ |
    ⟨_, _, _, _, _, hs, _, _⟩
  · rw [hs]
    exact ⟨fun c hc => hc, fun c hc => Or.inl hc⟩
  · have hdone : done ∈ (s.step a).successes := by
      rw [hs]
      exact List.mem_append_right _ (List.mem_singleton_self _)
    have howes (ch : ℕ) : (s.step a).Owes ch done.newRev := by
      left
      rw [hcom]
      exact ⟨_, List.mem_append_right _ (List.mem_singleton_self _), ho.success_rev hdone⟩
    have hnew := ho.newRev_last hs
    constructor
    · intro c hc
      rw [hs]
      exact List.mem_append_left _ hc
    · intro c hc
      rw [hs] at hc
      rcases List.mem_append.mp hc with hc | hc
      · exact Or.inl hc
      · rw [List.mem_singleton.mp hc]
        exact Or.inr ⟨hnew, howes, i, call, ha, hi, hu⟩
  · rw [hs]
    exact ⟨fun c hc => hc, fun c hc => Or.inl hc⟩

theorem Chronicled.locked_key {s : Server} (h : s.Chronicled) {i : ℕ} {p : PendingCall}
    (hi : s.pending[i]? = some p) {c : Committed} (hc : (p.locked s.store).2 = .ok c) :
    c.key = p.call.key :=
  (PendingCall.locked_done hc).2.1.trans (h.tidy.keyed p (List.mem_of_getElem? hi))

/-- No step moves an index entry, and only a compaction compacts. -/
theorem step_index (s : Server) {a : Action} (hk : a.keepsNumbering) :
    (∀ (k : Bytes) (x : ℕ), s.store.treeMap[k]? = some x →
        (s.step a).store.treeMap[k]? = some x) ∧
      ((∀ rev, a ≠ .compact rev) →
        (s.step a).store.compactedRevision = s.store.compactedRevision) := by
  unfold Store.compactedRevision
  rcases s.step_cases a with he | ⟨c, rfl⟩ | ⟨i, p, _, _, _, he⟩ | ⟨i, p, kv, _, _, _, _, he⟩ |
    ⟨i, p, done, _, _, _, hdone, he⟩ | ⟨rev, rfl⟩ | ⟨entries, rfl⟩
  · rw [he.data.treeMap, he.data.valuesByRevision]
    exact ⟨fun _ _ h => h, fun _ => rfl⟩
  · refine ⟨fun _ _ h => Store.entry_treeMap_mono _ _ h, fun _ => ?_⟩
    exact congrArg (fun d => (d.earliestRevision : ℤ)) (s.store.entry_valuesByRevision c.key)
  · rw [he]
    exact ⟨fun _ _ h => h, fun _ => rfl⟩
  · rw [he]
    exact ⟨fun _ _ h => h, fun _ => rfl⟩
  · rw [he]
    dsimp only
    rw [(PendingCall.locked_done hdone).2.2.2, earliestRevision_commitValue]
    refine ⟨fun k x h => ?_, fun _ => rfl⟩
    exact (congrArg (fun m : Std.ExtTreeMap Bytes ℕ compare => m[k]?)
      (Store.locked_treeMap ..)).trans h
  · refine ⟨fun k x h => ?_, fun hne => absurd rfl (hne rev)⟩
    exact (congrArg (fun m : Std.ExtTreeMap Bytes ℕ compare => m[k]?)
      (Store.compact_treeMap s.store rev)).trans h
  · contradiction

/-- The changes of keys whose item some call has still to put into `prefix_map`. -/
def unlisted (s : Server) : List Committed :=
  s.successes.filter (fun c => s.pending.any (fun p => p.call.key = c.key && !p.listed))

/-- All other changes can be found through `prefix_map`. -/
theorem Chronicled.listed {s : Server} (h : s.Chronicled) {c : Committed} (hc : c ∈ s.successes)
    (hun : c ∉ s.unlisted) :
    ∃ a, s.store.treeMap[c.key]? = some a ∧
      s.store.bucket? (prefixSplit c.key).1 (prefixSplit c.key).2 = some a := by
  obtain ⟨a, ha⟩ : ∃ a, s.store.treeMap[c.key]? = some a :=
    h.tracked.owned (List.mem_map_of_mem hc)
  refine ⟨a, ha, (h.tidy.indexed _ _ ha).resolve_right ?_⟩
  rintro ⟨p, hp, hkey, hlisted⟩
  apply hun
  refine List.mem_filter.mpr ⟨hc, List.any_eq_true.mpr ⟨p, hp, ?_⟩⟩
  simp [hkey, hlisted]

/-- The scan of an item finds the changes of its key from the start revision on. -/
theorem Chronicled.itemChanges {s : Server} (h : s.Chronicled) {startRev : ℤ}
    (hc : s.store.compactedRevision < startRev) (wantPrevKv : Bool) {k : Bytes} {a : ℕ}
    (ha : s.store.treeMap[k]? = some a) :
    (∀ p ∈ s.store.itemChanges startRev wantPrevKv (s.store.deref a),
      ∃ c ∈ s.successes, c.key = k ∧ startRev ≤ c.newRev ∧ p.kv = c.kv) ∧
    (∀ c ∈ s.successes, c.key = k → startRev ≤ c.newRev →
      ∃ p ∈ s.store.itemChanges startRev wantPrevKv (s.store.deref a), p.kv = c.kv) ∧
    (s.store.itemChanges startRev wantPrevKv (s.store.deref a)).Pairwise
      (fun p q => p.rev < q.rev) := by
  have hkv {c : Committed} (hcs : c ∈ s.successes) :
      Store.keyValueOf s.writes c.write = c.kv := by
    unfold Committed.kv
    rw [h.values c hcs]
    rfl
  obtain ⟨hfound, hall, hsorted⟩ := h.tracked.itemChanges_spec hc wantPrevKv ha
  refine ⟨?_, ?_, hsorted⟩
  · intro p hp
    obtain ⟨w, hw, hkey, hle, hp⟩ := hfound p hp
    obtain ⟨c, hcs, rfl⟩ := List.mem_map.mp hw
    exact ⟨c, hcs, hkey, hle, hp.trans (hkv hcs)⟩
  · intro c hcs hkey hle
    obtain ⟨p, hp, hp'⟩ := hall c.write (List.mem_map_of_mem hcs) hkey hle
    exact ⟨p, hp, hp'.trans (hkv hcs)⟩

end Server

/-! ### After the scan -/

/-- The past changes cover the named changes, those apart that the threshold lets
through and that are for the channel; and of the past changes none is both. -/
structure Handed (s : Server) (req : WatchCreateRequest) (ch : ℕ)
    (past : List KeyValueWithPrev) : Prop where
  nodup : (past.map KeyValueWithPrev.rev).Nodup
  known : ∀ p ∈ past, ∃ c ∈ s.successes, p.kv = c.kv
  once : ∀ p ∈ past, s.Owes ch p.rev → p.rev ≤ threshold KeyValueWithPrev.rev past
  all : ∀ c ∈ s.successes, req.names c.key → req.startRevision ≤ c.newRev →
    (∃ p ∈ past, p.kv = c.kv) ∨
      threshold KeyValueWithPrev.rev past < c.newRev ∧ s.Owes ch c.newRev

/-- A past change is a successful call, and has its revision. -/
theorem rev_of_known {s : Server} {draining : Bool} (ho : s.Orderly draining)
    {p : KeyValueWithPrev} {c : Committed} (hc : c ∈ s.successes) (hp : p.kv = c.kv) :
    p.rev = c.newRev := by
  rw [← ho.success_rev hc]
  exact congrArg KeyValue.modRevision hp

theorem Handed.congr {s t : Server} {req : WatchCreateRequest} {ch : ℕ}
    {past : List KeyValueWithPrev} (h : Handed s req ch past) (hs : t.successes = s.successes)
    (hc : t.committed = s.committed) (hj : t.jobs.Perm s.jobs) : Handed t req ch past := by
  refine ⟨h.nodup, ?_, ?_, ?_⟩
  · rw [hs]
    exact h.known
  · intro p hp howes
    exact h.once p hp ((Server.owes_congr hc hj ch _).mp howes)
  · intro c hcs hname hle
    rw [hs] at hcs
    rw [Server.owes_congr hc hj]
    exact h.all c hcs hname hle

theorem Handed.step {s : Server} {req : WatchCreateRequest} {ch : ℕ}
    {past : List KeyValueWithPrev} (h : Handed s req ch past) {a : Action} (ha : a ≠ .receive)
    {draining : Bool} (ho : s.Orderly draining) (ho' : (s.step a).Orderly draining)
    (hch : ∀ k n, req.names k → req.startRevision ≤ n → ch ∈ s.store.watchersToNotify k n) :
    Handed (s.step a) req ch past := by
  obtain ⟨hold, hnew⟩ := Server.step_successes ha ho'
  have hle {p : KeyValueWithPrev} (hp : p ∈ past) : p.rev ≤ s.successes.length := by
    obtain ⟨c, hc, hkv⟩ := h.known p hp
    rw [rev_of_known ho hc hkv]
    exact (ho.newRev_bounds hc).2
  refine ⟨h.nodup, ?_, ?_, ?_⟩
  · intro p hp
    obtain ⟨c, hc, hkv⟩ := h.known p hp
    exact ⟨c, hold c hc, hkv⟩
  · intro p hp howes
    exact h.once p hp (howes.of_step ha ho' (hle hp))
  · intro c hc hname hrev
    rcases hnew c hc with hc | ⟨hlast, howes, _⟩
    · rcases h.all c hc hname hrev with hpast | ⟨hlt, howes⟩
      · exact Or.inl hpast
      · exact Or.inr ⟨hlt, howes.step ha ho hc (hch _ _ hname hrev)⟩
    · -- a new change is above all past ones
      refine Or.inr ⟨?_, howes ch⟩
      by_cases hnil : past = []
      · rw [hnil]
        change 0 < c.newRev
        omega
      · obtain ⟨p, hp, heq⟩ : ∃ p ∈ past, threshold KeyValueWithPrev.rev past = p.rev :=
          Handover.threshold_mem hnil
        have hple := hle hp
        omega

/-! ### During the scan -/

/-- Nothing from the start revision on is compacted, and no change in a watched range is
still to come on the channel. -/
structure Still (s : Server) (req : WatchCreateRequest) (ch : ℕ) : Prop where
  kept : s.store.compactedRevision < req.startRevision
  quiet : req.rangeEnd ≠ [] → ∀ c ∈ s.successes, req.names c.key → ¬s.Owes ch c.newRev

def WatchCreateRequest.itemKey (req : WatchCreateRequest) (e : Bytes × ℕ) : Bytes :=
  bucketOf req.key ++ e.1

/-- The scan has the items `left` ahead of it and has found the changes of the other
named keys. -/
structure Scans (s : Server) (req : WatchCreateRequest) (ch : ℕ) (left : List (Bytes × ℕ))
    (past : List KeyValueWithPrev) : Prop extends Still s req ch where
  entry : ∀ e ∈ left, s.store.treeMap[req.itemKey e]? = some e.2 ∧ req.names (req.itemKey e)
  distinct : (left.map req.itemKey).Nodup
  nodup : (past.map KeyValueWithPrev.rev).Nodup
  read : ∀ p ∈ past, ∃ c ∈ s.successes, p.kv = c.kv ∧ req.names c.key ∧
    c.key ∉ left.map req.itemKey
  all : ∀ c ∈ s.successes, req.names c.key → req.startRevision ≤ c.newRev →
    (∃ p ∈ past, p.kv = c.kv) ∨ c.key ∈ left.map req.itemKey
  single : req.rangeEnd = [] → past.Pairwise (fun p q => p.rev < q.rev) ∧
    (left = [] ∨ past = [] ∧ left.length ≤ 1)

theorem Still.congr {s t : Server} {req : WatchCreateRequest} {ch : ℕ} (h : Still s req ch)
    (hv : t.store.compactedRevision = s.store.compactedRevision)
    (hs : t.successes = s.successes) (hc : t.committed = s.committed)
    (hj : t.jobs.Perm s.jobs) : Still t req ch := by
  refine ⟨hv ▸ h.kept, ?_⟩
  intro hne c hcs hname
  rw [hs] at hcs
  rw [Server.owes_congr hc hj]
  exact h.quiet hne c hcs hname

/-- The other threads keep off the watched range. -/
theorem Still.step {s : Server} {req : WatchCreateRequest} {ch : ℕ} (h : Still s req ch)
    {a : Action} (ha : a ≠ .receive) (hk : a.keepsNumbering) (hcompact : ∀ rev, a ≠ .compact rev)
    (hlock : ∀ i p c, a = .lock i → s.pending[i]? = some p → (p.locked s.store).2 = .ok c →
      req.rangeEnd ≠ [] → ¬req.names p.call.key)
    {draining : Bool} (ho : s.Orderly draining) (ho' : (s.step a).Orderly draining)
    (hch : s.Chronicled) : Still (s.step a) req ch := by
  refine ⟨?_, ?_⟩
  · rw [(s.step_index hk).2 hcompact]
    exact h.kept
  · intro hne c hc hname howes
    rcases (Server.step_successes ha ho').2 c hc with hc | ⟨_, _, i, p, hact, hi, hlocked⟩
    · exact h.quiet hne c hc hname (howes.of_step ha ho' (ho.newRev_bounds hc).2)
    · rw [hch.locked_key hi hlocked] at hname
      exact hlock i p c hact hi hlocked hne hname

theorem Scans.congr {s t : Server} {req : WatchCreateRequest} {ch : ℕ} {left : List (Bytes × ℕ)}
    {past : List KeyValueWithPrev} (h : Scans s req ch left past)
    (hd : Store.SameData s.store t.store) (hs : t.successes = s.successes)
    (hc : t.committed = s.committed) (hj : t.jobs.Perm s.jobs) : Scans t req ch left past := by
  have hv : t.store.compactedRevision = s.store.compactedRevision := by
    unfold Store.compactedRevision
    rw [hd.valuesByRevision]
  refine ⟨h.toStill.congr hv hs hc hj, ?_, h.distinct, h.nodup, ?_, ?_, h.single⟩
  · rw [hd.treeMap]
    exact h.entry
  · rw [hs]
    exact h.read
  · rw [hs]
    exact h.all

theorem names_single {req : WatchCreateRequest} (h : req.rangeEnd = []) {k : Bytes} :
    req.names k ↔ k = req.key := by
  unfold WatchCreateRequest.names etcdRange
  rw [if_pos h]

/-- While the scan has items ahead of it, a new change of a single watched key is ahead of
it as well. -/
theorem Scans.step {s : Server} {req : WatchCreateRequest} {ch : ℕ} {e : Bytes × ℕ}
    {left : List (Bytes × ℕ)} {past : List KeyValueWithPrev}
    (h : Scans s req ch (e :: left) past) {a : Action} (ha : a ≠ .receive)
    (hk : a.keepsNumbering) (hcompact : ∀ rev, a ≠ .compact rev)
    (hlock : ∀ i p c, a = .lock i → s.pending[i]? = some p → (p.locked s.store).2 = .ok c →
      req.rangeEnd ≠ [] → ¬req.names p.call.key)
    {draining : Bool} (ho : s.Orderly draining) (ho' : (s.step a).Orderly draining)
    (hch : s.Chronicled) : Scans (s.step a) req ch (e :: left) past := by
  obtain ⟨hold, hnew⟩ := Server.step_successes ha ho'
  refine ⟨h.toStill.step ha hk hcompact hlock ho ho' hch, ?_, h.distinct, h.nodup, ?_, ?_,
    h.single⟩
  · intro e' he'
    obtain ⟨hentry, hname⟩ := h.entry e' he'
    exact ⟨(s.step_index hk).1 _ _ hentry, hname⟩
  · intro p hp
    obtain ⟨c, hc, hread⟩ := h.read p hp
    exact ⟨c, hold c hc, hread⟩
  · intro c hc hname hrev
    rcases hnew c hc with hc | ⟨_, _, i, p, hact, hi, hlocked⟩
    · exact h.all c hc hname hrev
    · right
      by_cases hne : req.rangeEnd = []
      · have hahead := (h.entry e List.mem_cons_self).2
        rw [names_single hne] at hname hahead
        rw [hname, ← hahead]
        exact List.mem_cons_self
      · rw [hch.locked_key hi hlocked] at hname
        exact absurd hname (hlock i p c hact hi hlocked hne)

/-- One item is read. -/
theorem Scans.read_item {s : Server} {req : WatchCreateRequest} {ch : ℕ} {e : Bytes × ℕ}
    {left : List (Bytes × ℕ)} {past : List KeyValueWithPrev}
    (h : Scans s req ch (e :: left) past) {draining : Bool} (ho : s.Orderly draining)
    (hch : s.Chronicled) :
    Scans s req ch left (past ++
      s.store.itemChanges req.startRevision req.prevKv (s.store.deref e.2)) := by
  obtain ⟨hentry, hname⟩ := h.entry e List.mem_cons_self
  obtain ⟨hfound, hall, hsorted⟩ := hch.itemChanges h.kept req.prevKv hentry
  have hdistinct := h.distinct
  rw [List.map_cons, List.nodup_cons] at hdistinct
  -- from here on only what `itemChanges` says about the list counts
  generalize s.store.itemChanges req.startRevision req.prevKv (s.store.deref e.2) = items
    at hfound hall hsorted ⊢
  refine ⟨h.toStill, ?_, hdistinct.2, ?_, ?_, ?_, ?_⟩
  · intro e' he'
    exact h.entry e' (List.mem_cons_of_mem _ he')
  · rw [List.map_append, List.nodup_append]
    refine ⟨h.nodup, ?_, ?_⟩
    · have hitems := List.pairwise_map.mpr hsorted
      exact hitems.imp (fun hlt => ne_of_lt hlt)
    · -- what was read before belongs to other keys
      intro n hn m hm heq
      obtain ⟨p, hp, rfl⟩ := List.mem_map.mp hn
      obtain ⟨q, hq, rfl⟩ := List.mem_map.mp hm
      obtain ⟨c, hc, hpc, _, hother⟩ := h.read p hp
      obtain ⟨d, hd, hkey, _, hqd⟩ := hfound q hq
      have hsame : c = d := by
        apply ho.success_unique hc hd
        rw [← rev_of_known ho hc hpc, ← rev_of_known ho hd hqd]
        exact heq
      apply hother
      rw [hsame, hkey]
      exact List.mem_cons_self
  · -- the key of a change that was read is not ahead of the scan any more
    intro p hp
    rcases List.mem_append.mp hp with hp | hp
    · obtain ⟨c, hc, hkv, hn, hother⟩ := h.read p hp
      exact ⟨c, hc, hkv, hn, fun hmem => hother (List.mem_cons_of_mem _ hmem)⟩
    · obtain ⟨c, hc, hkey, _, hkv⟩ := hfound p hp
      refine ⟨c, hc, hkv, ?_, ?_⟩
      · rw [hkey]
        exact hname
      · rw [hkey]
        exact hdistinct.1
  · -- a change that was ahead of the scan is found now, or its key still is ahead
    intro c hc hn hrev
    rcases h.all c hc hn hrev with ⟨p, hp, hkv⟩ | hmem
    · exact Or.inl ⟨p, List.mem_append_left _ hp, hkv⟩
    · rcases List.mem_cons.mp hmem with hkey | hmem
      · obtain ⟨p, hp, hkv⟩ := hall c hc hkey hrev
        exact Or.inl ⟨p, List.mem_append_right _ hp, hkv⟩
      · exact Or.inr hmem
  · -- a single key has one item, so this was the only one
    intro hne
    obtain ⟨hnil, hlen⟩ := (h.single hne).2.resolve_left (List.cons_ne_nil e left)
    rw [List.length_cons] at hlen
    rw [hnil, List.nil_append]
    exact ⟨hsorted, Or.inl (List.eq_nil_of_length_eq_zero (by omega))⟩

/-- The scan is over. -/
theorem Scans.handed {s : Server} {req : WatchCreateRequest} {ch : ℕ}
    {past : List KeyValueWithPrev} (h : Scans s req ch [] past) {draining : Bool}
    (ho : s.Orderly draining) : Handed s req ch past := by
  refine ⟨h.nodup, ?_, ?_, ?_⟩
  · intro p hp
    obtain ⟨c, hc, hkv, _⟩ := h.read p hp
    exact ⟨c, hc, hkv⟩
  · -- the past changes of one key end with the newest; those of a range are not for
    -- the channel at all, as the range was left alone
    intro p hp howes
    by_cases hne : req.rangeEnd = []
    · exact Handover.le_threshold (h.single hne).1 hp
    · obtain ⟨c, hc, hkv, hname, _⟩ := h.read p hp
      rw [rev_of_known ho hc hkv] at howes
      exact absurd howes (h.quiet hne c hc hname)
  · intro c hc hname hrev
    rcases h.all c hc hname hrev with hpast | hmem
    · exact Or.inl hpast
    · contradiction

/-- The scan begins with the items of the bucket, which lists the keys of all changes that
matter. -/
theorem Still.scans {s : Server} {req : WatchCreateRequest} {ch : ℕ} (h : Still s req ch)
    (hch : s.Chronicled) (hlisted : ∀ c ∈ s.unlisted, req.names c.key →
      c.newRev < req.startRevision) {pfx : Bytes} {lo hi : Bound Bytes}
    (ha : prefixAndRangeOfKey req.key req.rangeEnd = .ok (pfx, lo, hi))
    (hnames : ∀ k, requests req.key req.rangeEnd k ↔ req.names k) :
    Scans s req ch (s.store.selected pfx lo hi) [] := by
  obtain ⟨hp, _, _⟩ := accepted_cases ha
  have hselects (k : Bytes) : selects pfx lo hi k ↔ req.names k := by
    rw [← hnames, requests_of_accepted ha]
  have hkey (e : Bytes × ℕ) : req.itemKey e = pfx ++ e.1 := by
    unfold WatchCreateRequest.itemKey
    rw [hp]
  refine ⟨h, ?_, ?_, List.nodup_nil, ?_, ?_, ?_⟩
  · intro e he
    obtain ⟨howned, hsel⟩ := Store.deref_selected hch.tidy.heap he
    rw [hkey]
    exact ⟨howned, (hselects _).mp hsel⟩
  · rw [List.Nodup, List.pairwise_map]
    apply (s.store.selected_sorted pfx lo hi).imp
    intro e e' hlt heq
    rw [hkey, hkey, List.append_cancel_left_eq] at heq
    rw [heq] at hlt
    exact List.lt_irrefl _ hlt
  · intro p hp
    contradiction
  · -- nothing is read yet, so every named change has its key ahead
    intro c hc hname hrev
    right
    have hsel := (hselects c.key).mpr hname
    obtain ⟨a, _, hbucket⟩ := hch.listed hc (fun hun => not_le.mpr (hlisted c hun hname) hrev)
    refine List.mem_map.mpr ⟨_, Store.selected_of_listed hsel hbucket, ?_⟩
    rw [hkey, ← hsel.1]
    exact prefixSplit_append c.key
  · intro hne
    refine ⟨List.Pairwise.nil, Or.inr ⟨rfl, ?_⟩⟩
    rw [hne, prefixAndRangeOfKey_single] at ha
    cases ha
    exact s.store.length_selected_single req.key

end MemEtcd
