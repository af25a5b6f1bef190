import MemEtcd.WatchHistory

/-! The order of the events of a watch stream. The stream takes the last past change
for the newest one; it sends its events in the order of their revisions exactly
if the past changes are in that order, and so exactly if the watched keys were
changed in the order of the keys. -/
namespace MemEtcd

namespace WatchStream

/-- `Store::watch` has read its last item. -/
def returned (st : WatchStream) : Bool :=
  match st.stage with
  | .registered => false
  | .scanning (_ :: _) => false
  | _ => true

theorem returned_of_begun {st : WatchStream} (h : st.begun = true) : st.returned = true := by
  unfold begun at h
  unfold returned
  cases hst : st.stage with
  | registered =>
    rw [hst] at h
    contradiction
  | scanning left =>
    rw [hst] at h
    contradiction
  | _ => rfl

/-- From then on the past changes stay. -/
theorem Moves.returned {s t : Server} {st st' : WatchStream} (hm : Moves s st t st')
    (h : st.returned = true) : st'.returned = true ∧ st'.pastChanges = st.pastChanges := by
  unfold WatchStream.returned at h
  cases hm with
  | opens left hst =>
    rw [hst] at h
    contradiction
  | refuses hst =>
    rw [hst] at h
    contradiction
  | panics hst =>
    rw [hst] at h
    contradiction
  | reads e left hst =>
    rw [hst] at h
    contradiction
  | confirms => exact ⟨rfl, rfl⟩
  | sendsPast =>
    obtain ⟨hstage, _, hpast, _⟩ := st.sendPast_cases s
    exact ⟨returned_of_begun (by simp [begun, hstage]), hpast⟩
  | forwards batch =>
    obtain ⟨hstage, _, hpast, _⟩ := st.forward_cases batch
    exact ⟨returned_of_begun (by simp [begun, hstage]), hpast⟩
  | answers => exact ⟨rfl, rfl⟩
  | goes stage _ _ hb => exact ⟨returned_of_begun hb, rfl⟩
  | stops => exact ⟨rfl, rfl⟩
  | stays => exact ⟨h, rfl⟩

end WatchStream

namespace WatchSession

theorem run_returned {s : WatchSession} {st : WatchStream} (hst : s.stream = some st)
    (h : st.returned = true) (acts : List WatchAction) :
    ∃ st', (s.run acts).stream = some st' ∧ st'.pastChanges = st.pastChanges := by
  induction acts generalizing s st with
  | nil => exact ⟨st, hst, rfl⟩
  | cons act acts ih =>
    have hstep : ∃ st', (s.step act).stream = some st' ∧ st'.returned = true ∧
        st'.pastChanges = st.pastChanges := by
      cases act with
      | server a =>
        refine ⟨st, ?_, h, rfl⟩
        simp only [WatchSession.step]
        split_ifs <;> exact hst
      | thread => exact ⟨st, hst, h, rfl⟩
      | watch req =>
        refine ⟨st, ?_, h, rfl⟩
        simp only [WatchSession.step, hst]
      | advance =>
        rw [advance_of_stream hst]
        obtain ⟨hr, hp⟩ := (st.advance_moves s.server).returned h
        exact ⟨_, rfl, hr, hp⟩
      | message m =>
        obtain ⟨hr, hp⟩ := (st.receive_moves s.server m).returned h
        refine ⟨_, ?_, hr, hp⟩
        simp only [WatchSession.step, hst]
    obtain ⟨st', hst', hr, hp⟩ := hstep
    obtain ⟨st'', hst'', hp'⟩ := ih hst' hr
    exact ⟨st'', hst'', hp'.trans hp⟩

/-- However the steps of the threads are interleaved, the events of a stream are in
order exactly if its past changes are. -/
theorem Following.events_sorted_iff {s : WatchSession} (h : s.Following) {st : WatchStream}
    (hst : s.stream = some st) (hb : st.begun = true) :
    st.events.Pairwise (fun a b => a.kv.modRevision < b.kv.modRevision) ↔
      st.pastChanges.Pairwise (fun a b => a.kv.modRevision < b.kv.modRevision) := by
  obtain ⟨_, items, hsub, taken, hshows, hitems, _⟩ := h.stream st hst
  have hfeed := (h.orderly.feed_sorted st.channel).sublist (hitems.trans hsub)
  have htaken := (List.pairwise_append.mp hfeed).1
  rw [(hshows.loop hb).1, List.pairwise_map]
  exact Handover.delivered_sorted_iff htaken

/-- A watch on any store of a server, with every item in both indexes, and any run behind
it. The past changes and the events of the stream are in the order of their revisions
exactly if the watched keys were changed in the order of the keys. -/
theorem stream_in_order_iff {wal : Option WalManager} {records : List WalRecord}
    (hz : (Server.start wal records).store.currentRevision = 0) {acts : List WatchAction}
    (hk : ∀ act ∈ acts, act.keepsNumbering) {s : WatchSession}
    (hs : (start wal records).run acts = s) (hl : ∀ p ∈ s.server.pending, p.listed = true)
    (hnone : s.stream = none) {req : WatchCreateRequest}
    (hpos : 0 < req.startRevision) {store : Store} {past : List KeyValueWithPrev} {id : ℤ}
    (hw : s.server.store.watch req.key req.rangeEnd req.startRevision req.prevKv =
      (store, .ok (.ok (past, id)))) :
    (past.Pairwise (fun a b => a.kv.modRevision < b.kv.modRevision) ↔
      InKeyOrder s.server.writes req.key req.rangeEnd req.startRevision) ∧
    ∃ n, (s.run (.watch req :: List.replicate n .advance)).stream =
        some ⟨req, s.server.store.compactedRevision, id, .scanning [], past, 0, []⟩ ∧
      ∀ later : List WatchAction, (∀ act ∈ later, act.keepsNumbering) → ∀ st,
        ((s.run (.watch req :: List.replicate n .advance)).run later).stream = some st →
        st.begun = true →
        (st.events.Pairwise (fun a b => a.kv.modRevision < b.kv.modRevision) ↔
          InKeyOrder s.server.writes req.key req.rangeEnd req.startRevision) := by
  have hsound : s.Sound := by
    rw [← hs]
    exact (start_sound wal records hz).run hk
  have hiff := (hsound.chronicled.bookkept hl).past_sorted_iff hpos hw
  obtain ⟨n, hopen⟩ := watch_alone hnone hpos hw
  have hstream : (s.run (.watch req :: List.replicate n .advance)).stream =
      some ⟨req, s.server.store.compactedRevision, id, .scanning [], past, 0, []⟩ := by rw [hopen]
  refine ⟨hiff, n, hstream, ?_⟩
  intro later hlater st hst hb
  have hreplicate : ∀ act ∈ WatchAction.watch req :: List.replicate n .advance,
      act.keepsNumbering := by
    intro act hact
    rcases List.mem_cons.mp hact with rfl | hact
    · rfl
    · rw [List.eq_of_mem_replicate hact]
      rfl
  have hfollowing := ((hsound.run hreplicate).run hlater).toFollowing
  obtain ⟨st', hst', hpast⟩ := run_returned hstream rfl later
  rw [hst] at hst'
  cases hst'
  rw [hfollowing.events_sorted_iff hst hb, hpast]
  exact hiff

def put (key value : UInt8) : List WatchAction :=
  (Call.actions ⟨[key], some [value], none⟩).map .server

def announce : List WatchAction := [.server (.collect 0), .server (.send 0), .thread, .thread]

theorem stream_in_order_of_ascending_keys :
    ∃ n, ∀ later : List WatchAction, (∀ act ∈ later, act.keepsNumbering) → ∀ st,
      ((((start none []).run (put 97 1 ++ put 98 2 ++ announce ++ announce)).run
        (.watch ⟨[97], [99], 1, false⟩ :: List.replicate n .advance)).run later).stream = some st →
      st.begun = true →
      st.events.Pairwise (fun a b => a.kv.modRevision < b.kv.modRevision) := by
  have hwrites : ((start none []).run (put 97 1 ++ put 98 2 ++ announce ++ announce)).server.writes =
      [⟨1, [97], some [1]⟩, ⟨2, [98], some [2]⟩] := by decide
  have horder : InKeyOrder ((start none []).run
      (put 97 1 ++ put 98 2 ++ announce ++ announce)).server.writes [97] [99] 1 := by
    rw [hwrites]
    intro w hw w' hw' _ _ _ _ hlt
    simp only [List.mem_cons, List.not_mem_nil, or_false] at hw hw'
    rcases hw with rfl | rfl <;> rcases hw' with rfl | rfl <;> revert hlt <;> decide
  have hz : (Server.start none []).store.currentRevision = 0 := rfl
  have hk : ∀ act ∈ put 97 1 ++ put 98 2 ++ announce ++ announce, act.keepsNumbering := by decide
  have hpos : 0 < (WatchCreateRequest.mk [97] [99] 1 false).startRevision := by decide
  obtain ⟨_, n, _, hlater⟩ := stream_in_order_iff hz hk rfl (by decide) rfl hpos rfl
  exact ⟨n, fun later hk st hst hb => (hlater later hk st hst hb).mpr horder⟩

/-- The key `b` is written before the key `a`. The watch of both returns the change
at revision 2 before that at revision 1, and so the stream sends them. -/
theorem stream_out_of_order :
    let s := (start none []).run (put 98 1 ++ put 97 2 ++ announce ++ announce)
    (s.server.store.watch [97] [99] 1 false).2 = .ok (.ok
      ([⟨⟨[97], [2], 2, 2, 1, 0⟩, none⟩, ⟨⟨[98], [1], 1, 1, 1, 0⟩, none⟩], 1)) ∧
    (s.run (.watch ⟨[97], [99], 1, false⟩ :: List.replicate 6 .advance)).stream.map
      (fun st => st.events.map (·.kv.modRevision)) = some [2, 1] := by
  refine ⟨rfl, by decide⟩

end WatchSession
end MemEtcd
