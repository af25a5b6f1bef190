import MemEtcd.PastChanges
import MemEtcd.WatchSession

/-! The history behind a watch session. As long as no snapshot is imported, the
successful calls are all that the store knows, and what a scan for past changes
finds can be said in terms of them. -/
namespace MemEtcd

open VersionLog (cells revisionsOf)

def Committed.write (c : Committed) : Write := ⟨c.newRev, c.key, c.value.value⟩

namespace Server

def writes (s : Server) : List Write := s.successes.map Committed.write

/-- The store is that of the successful calls, and each of them has left the value
that it reports. Other calls may be under way. -/
structure Chronicled (s : Server) : Prop where
  tidy : s.Tidy
  tracked : s.store.Tracked s.writes
  values : ∀ c ∈ s.successes,
    c.value = cells ((s.writes.map Write.change).take c.newRev.toNat) c.key

/-- Without a call that has still to list its item. -/
theorem Chronicled.bookkept {s : Server} (h : s.Chronicled)
    (hl : ∀ p ∈ s.pending, p.listed = true) : s.store.Bookkept s.writes :=
  ⟨h.tracked, h.tidy.wf hl⟩

/-- What makes no change. -/
theorem Chronicled.still {s t : Server} (h : s.Chronicled) (ht : t.Tidy)
    (hview : t.store.view = s.store.view)
    (hv : t.store.valuesByRevision = s.store.valuesByRevision) (hs : t.successes = s.successes) :
    t.Chronicled := by
  have hw : t.writes = s.writes := congrArg (List.map Committed.write) hs
  refine ⟨ht, ?_, ?_⟩
  · rw [hw]
    exact h.tracked.congr ht.heap hview hv
  · rw [hw, hs]
    exact h.values

theorem Chronicled.congr {s t : Server} (h : s.Chronicled) (hc : SameCalls s t) : t.Chronicled :=
  h.still (h.tidy.congr (hc.data.heapOk h.tidy.heap) hc.data.treeMap hc.data.bucket? hc.pending)
    hc.data.view hc.data.valuesByRevision hc.successes

/-- The section of a call that succeeds. -/
theorem Chronicled.commit {s t : Server} (h : s.Chronicled) (ht : t.Tidy) {p : PendingCall}
    (hp : p ∈ s.pending) {done : Committed} (hdone : (p.locked s.store).2 = .ok done)
    (hstore : t.store = (p.locked s.store).1) (hs : t.successes = s.successes ++ [done]) :
    t.Chronicled := by
  have hw : t.writes = s.writes ++ [done.write] := by
    unfold writes
    rw [hs, List.map_append, List.map_singleton]
  rcases h.tracked.locked (h.tidy.owned p hp) p.isNewItem with
    ⟨kv, he⟩ | ⟨done', he, hrev, hkey, hvalue, htracked⟩
  · cases (congrArg Prod.snd he).symm.trans hdone
  cases he.symm.trans hdone
  refine ⟨ht, ?_, ?_⟩
  · rw [hw, hstore]
    exact htracked
  · rw [hw, hs, List.map_append, List.map_singleton]
    intro d hd
    have hlen : (s.writes.map Write.change).length = s.writes.length := List.length_map _
    rcases List.mem_append.mp hd with hd | hd
    · -- an earlier call does not see the new change
      obtain ⟨n, hn, hget⟩ := h.tracked.getElem? (List.mem_map_of_mem hd)
      have hlt := (List.getElem?_eq_some_iff.mp hget).1
      have hold : d.newRev.toNat ≤ (s.writes.map Write.change).length := by
        change d.newRev = n + 1 at hn
        change n < s.writes.length at hlt
        omega
      rw [List.take_append_of_le_length hold]
      exact h.values d hd
    · -- the new call has taken the last revision
      rw [List.mem_singleton.mp hd, List.take_of_length_le, VersionLog.cells_append]
      · change done.value = if done.key = done.key then _ else _
        have hput : done.write.change.2 = p.call.value := by
          change done.value.value = p.call.value
          rw [hvalue, VersionLog.Cell.next_value]
        rw [if_pos rfl, hkey, hlen, hput]
        exact hvalue
      · rw [List.length_append, List.length_singleton]
        omega

theorem Chronicled.step {s : Server} (h : s.Chronicled) {a : Action} (hk : a.keepsNumbering) :
    (s.step a).Chronicled := by
  have himport : ∀ entries, a ≠ .importSnapshot entries := by
    rintro entries rfl
    contradiction
  have ht := h.tidy.step himport
  rcases s.step_cases a with he | ⟨c, rfl⟩ | ⟨i, p, _, _, _, he⟩ | ⟨i, p, kv, _, _, _, _, he⟩ |
    ⟨i, p, done, _, hp, _, hdone, he⟩ | ⟨rev, rfl⟩ | ⟨entries, rfl⟩
  · exact h.congr he
  · exact h.still ht (Store.view_entry h.tidy.heap c.key) (s.store.entry_valuesByRevision c.key) rfl
  · rw [he] at ht ⊢
    exact h.still ht rfl rfl rfl
  · rw [he] at ht ⊢
    exact h.still ht rfl rfl rfl
  · rw [he] at ht ⊢
    exact h.commit ht (List.mem_of_getElem? hp) hdone rfl rfl
  · exact ⟨ht, Store.compact_tracked h.tracked rev, h.values⟩
  · exact absurd rfl (himport entries)

theorem start_chronicled (wal : Option WalManager) (records : List WalRecord)
    (h : (start wal records).store.currentRevision = 0) : (start wal records).Chronicled := by
  -- the replay is a run of the store, and it has not taken a revision
  have hreplay (records : List WalRecord) (store : Store) :
      (store.performAll (records.map (fun r => .replay r.key r.value))).1 =
        records.foldl Store.replayRecord store := by
    induction records generalizing store with
    | nil => rfl
    | cons r records ih => exact ih _
  have hb := Store.performAll_bookkept (Store.new_bookkept (wal.map (·.defaultMode)))
    (records.map (fun r => .replay r.key r.value))
  rw [hreplay, List.nil_append] at hb
  have hlen := hb.latestRevision
  change ((start wal records).store.valuesByRevision.latestRevision : ℤ) = 0 at h
  change (start wal records).store.valuesByRevision.latestRevision = _ at hlen
  generalize ((Store.new (wal.map (·.defaultMode))).performAll
    (records.map (fun r => .replay r.key r.value))).2 = writes at hb hlen
  have hnil : writes = [] := List.eq_nil_of_length_eq_zero (by omega)
  rw [hnil] at hb
  refine ⟨tidy_of_wf hb.wf rfl, hb.toTracked, ?_⟩
  intro c hc
  contradiction

end Server

theorem WatchStream.Touches.sameCalls {s t : Server} {st : WatchStream} (ht : st.Touches s t) :
    Server.SameCalls s t := by
  rcases ht with rfl | ⟨c, rfl⟩ | rfl
  · exact Server.SameCalls.refl t
  · exact ⟨⟨rfl, rfl, rfl, rfl⟩, rfl, rfl⟩
  · exact ⟨⟨rfl, rfl, rfl, rfl⟩, rfl, rfl⟩

namespace WatchSession

structure Sound (s : WatchSession) : Prop extends Following s where
  chronicled : s.server.Chronicled

theorem start_sound (wal : Option WalManager) (records : List WalRecord)
    (h : (Server.start wal records).store.currentRevision = 0) : (start wal records).Sound :=
  ⟨start_following wal records h, Server.start_chronicled wal records h⟩

/-- The data and the calls belong to the other threads. -/
theorem Following.step_server {s : WatchSession} (h : s.Following) (act : WatchAction) :
    Server.SameCalls s.server (s.step act).server ∨
      ∃ a, act = .server a ∧ s.foreign a ∧ (s.step act).server = s.server.step a := by
  cases act with
  | server a =>
    simp only [WatchSession.step]
    split_ifs with ha
    · exact Or.inr ⟨a, rfl, ha, rfl⟩
    · exact Or.inl (Server.SameCalls.refl _)
  | thread => exact Or.inl h.orderly.works.sameCalls
  | watch req =>
    left
    simp only [WatchSession.step]
    cases hst : s.stream with
    | some st => exact Server.SameCalls.refl _
    | none =>
      rcases s.create_cases req with ⟨_, he⟩ | ⟨_, startRev, _, he⟩
      · dsimp only
        rw [he]
        exact Server.SameCalls.refl _
      · dsimp only
        rw [he]
        exact ⟨⟨rfl, rfl, rfl, rfl⟩, rfl, rfl⟩
  | advance =>
    left
    simp only [WatchSession.step]
    cases hst : s.stream with
    | none => exact Server.SameCalls.refl _
    | some st => exact (st.advance_moves s.server).touches.sameCalls
  | message m =>
    left
    simp only [WatchSession.step]
    cases hst : s.stream with
    | none => exact Server.SameCalls.refl _
    | some st => exact (st.receive_moves s.server m).touches.sameCalls

theorem Sound.step {s : WatchSession} (h : s.Sound) {act : WatchAction}
    (hk : act.keepsNumbering) : (s.step act).Sound := by
  refine ⟨h.toFollowing.step hk, ?_⟩
  rcases h.toFollowing.step_server act with hsame | ⟨a, rfl, _, he⟩
  · exact h.chronicled.congr hsame
  · rw [he]
    exact h.chronicled.step hk

theorem Sound.run {s : WatchSession} (h : s.Sound) {acts : List WatchAction}
    (hk : ∀ act ∈ acts, act.keepsNumbering) : (s.run acts).Sound := by
  induction acts generalizing s with
  | nil => exact h
  | cons act acts ih =>
    apply ih (h.step (hk act List.mem_cons_self))
    intro b hb
    exact hk b (List.mem_cons_of_mem _ hb)

/-! ### A watch that is not interrupted -/

theorem advance_of_stream {s : WatchSession} {st : WatchStream} (h : s.stream = some st) :
    s.step .advance =
      { s with server := (st.advance s.server).1, stream := some (st.advance s.server).2 } := by
  simp only [WatchSession.step, h]

/-- The stream reads the items that are left. -/
theorem scan_alone (left : List (Bytes × ℕ)) {s : WatchSession} {st : WatchStream}
    (h : s.stream = some st) (hst : st.stage = .scanning left) :
    s.run (List.replicate left.length .advance) =
      { s with stream := some { st with
          stage := .scanning []
          pastChanges := st.pastChanges ++ left.flatMap (fun e =>
            s.server.store.itemChanges st.request.startRevision st.request.prevKv
              (s.server.store.deref e.2)) } } := by
  induction left generalizing s st with
  | nil =>
    obtain ⟨server, draining, stream⟩ := s
    cases h
    rw [List.flatMap_nil, List.append_nil, ← hst]
    rfl
  | cons e left ih =>
    have hstep : s.step .advance =
        { s with stream := some (st.scanItem s.server e.2 left) } := by
      rw [advance_of_stream h]
      unfold WatchStream.advance
      rw [hst]
    rw [List.length_cons, List.replicate_succ]
    change (s.step .advance).run _ = _
    rw [hstep, ih rfl rfl]
    simp only [WatchStream.scanItem, List.flatMap_cons, List.append_assoc]

/-- `Store::watch` finds the items of an accepted request. -/
theorem openBucket_accepted {s : Server} {st : WatchStream} {pfx : Bytes} {lo hi : Bound Bytes}
    (hpos : 0 < st.request.startRevision)
    (ha : prefixAndRangeOfKey st.request.key st.request.rangeEnd = .ok (pfx, lo, hi))
    (hb : s.store.prefixMap[pfx]? = none ∨ Bound.inverted lo hi = false) :
    st.openBucket s = (s, { st with stage := .scanning (s.store.selected pfx lo hi) }) := by
  unfold WatchStream.openBucket
  rw [if_pos (show st.request.startRevision > 0 from hpos), ha]
  dsimp only
  cases hp : s.store.prefixMap[pfx]? with
  | none =>
    rw [Store.selected_of_no_bucket hp]
  | some btree =>
    rw [hp] at hb
    have hinv := hb.resolve_left (Option.some_ne_none btree)
    have hrange : btreeRange btree lo hi =
        .ok (btree.toList.filter (fun e => lo.above e.1 && hi.below e.1)) := by
      unfold btreeRange
      rw [hinv, if_neg Bool.false_ne_true]
    dsimp only
    rw [hrange, Store.selected_of_bucket hp]

/-- The steps of a watch on their own are `Store::watch`. -/
theorem watch_alone {s : WatchSession} (hnone : s.stream = none) {req : WatchCreateRequest}
    (hpos : 0 < req.startRevision) {store : Store} {past : List KeyValueWithPrev} {id : ℤ}
    (hw : s.server.store.watch req.key req.rangeEnd req.startRevision req.prevKv =
      (store, .ok (.ok (past, id)))) :
    ∃ n, s.run (.watch req :: List.replicate n .advance) =
      { s with
        server := Server.setChannel { s.server with store := store } id.toNat ⟨[], false⟩
        stream := some ⟨req, s.server.store.compactedRevision, id, .scanning [], past, 0, []⟩ } := by
  obtain ⟨rfl, rfl, hc, pfx, lo, hi, ha, hbucket, rfl⟩ := Store.watch_ok hpos hw
  have hcreate : s.step (.watch req) = s.create req := by
    simp only [WatchSession.step, hnone]
  rcases s.create_cases req with ⟨hold, _⟩ | ⟨_, startRev, hstart, he⟩
  · omega
  rw [hstart hpos] at he
  have hopen (server : Server) (hp : server.store.prefixMap = s.server.store.prefixMap) :
      WatchStream.advance server ⟨req, s.server.store.compactedRevision,
          s.server.store.watchCounter + 1, .registered, [], 0, []⟩ =
        (server, ⟨req, s.server.store.compactedRevision, s.server.store.watchCounter + 1,
          .scanning (s.server.store.selected pfx lo hi), [], 0, []⟩) := by
    rw [← hp] at hbucket
    unfold Store.selected
    rw [← hp]
    exact openBucket_accepted hpos ha hbucket
  -- one step for the bucket and one for every item
  refine ⟨(s.server.store.selected pfx lo hi).length + 1, ?_⟩
  rw [List.replicate_succ]
  change ((s.step (.watch req)).step .advance).run _ = _
  rw [hcreate, he, advance_of_stream rfl]
  dsimp only
  rw [hopen]
  · refine (scan_alone _ rfl rfl).trans ?_
    congr 3
    rw [List.nil_append]
    apply List.flatMap_congr
    intro e _
    exact Store.itemChanges_congr (s := s.server.store)
      (t := s.server.store.register req.key req.rangeEnd req.startRevision) rfl _ _ _
  · rfl

end WatchSession
end MemEtcd
