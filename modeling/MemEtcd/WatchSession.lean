import MemEtcd.WatchStream

/-! Runs of a watch session. In every run without imports that starts at revision
zero the dispatcher is in order and the stream carries events of its own feed. -/
namespace MemEtcd

def WatchAction.keepsNumbering : WatchAction → Bool
  | .server a => a.keepsNumbering
  | _ => true

namespace Server

theorem start_orderly (wal : Option WalManager) (records : List WalRecord)
    (h : (start wal records).store.currentRevision = 0) : (start wal records).Orderly false :=
  ⟨start_posted wal records, start_aligned wal records h, Int.zero_lt_one⟩

end Server

namespace WatchSession

theorem foreign_ne_receive {s : WatchSession} {a : Action} (h : s.foreign a) : a ≠ .receive := by
  intro he
  rw [he] at h
  contradiction

/-- The other threads leave the channel of the stream alone. -/
theorem foreign_channel {s : WatchSession} {st : WatchStream} (hst : s.stream = some st)
    (hid : st.watcherId ≤ s.server.store.watchCounter) (hc : 0 ≤ s.server.store.watchCounter)
    {a : Action} (h : s.foreign a) :
    (s.server.step a).sinks.channels st.channel = s.server.sinks.channels st.channel := by
  have hch : (st.channel : ℤ) ≤ s.server.store.watchCounter := by
    unfold WatchStream.channel
    omega
  apply s.server.step_channel hch (foreign_ne_receive h)
  · rintro rfl
    simp [foreign, hst] at h
  · rintro rfl
    simp [foreign, hst] at h

def Follows (s : Server) (st : WatchStream) : Prop :=
  st.watcherId ≤ s.store.watchCounter ∧
    ∃ items, items.Sublist (s.feed st.channel) ∧ st.Carries s items

structure Following (s : WatchSession) : Prop where
  orderly : s.server.Orderly s.draining
  stream : ∀ st, s.stream = some st → Follows s.server st

theorem start_following (wal : Option WalManager) (records : List WalRecord)
    (h : (start wal records).server.store.currentRevision = 0) :
    (start wal records).Following := by
  refine ⟨Server.start_orderly wal records h, ?_⟩
  intro st hst
  contradiction

/-! ### One step -/

theorem Follows.foreign {s : WatchSession} {st : WatchStream} (hst : s.stream = some st)
    (h : Follows s.server st) (he : s.server.store.Enrolled) {a : Action} (ha : s.foreign a) :
    Follows (s.server.step a) st := by
  have hne := foreign_ne_receive ha
  have hcounter := (Server.step_enrolled he hne).2
  obtain ⟨hid, items, hsub, hcarries⟩ := h
  refine ⟨hid.trans hcounter, items, ?_, ?_⟩
  · rw [Server.feed_of_same (s.server.step_thread hne).2]
    exact hsub
  · exact hcarries.congr (foreign_channel hst hid he.counter ha)

theorem Follows.works {s t : Server} {st : WatchStream} (h : Follows s st)
    (hw : Server.Works s t) (hn : ∀ job ∈ s.jobs, job.watchers.Nodup) : Follows t st := by
  obtain ⟨hid, items, hsub, hcarries⟩ := h
  obtain ⟨rest, hstore⟩ := hw.store
  obtain ⟨new, sent, hfeed, hnext, hnew, _⟩ := hcarries.works hw hn
  refine ⟨?_, items ++ new, ?_, hnext⟩
  · rw [hstore]
    exact hid
  · rw [hfeed]
    exact hsub.append hnew

theorem Follows.moves {s t : Server} {st st' : WatchStream} (h : Follows s st)
    (hm : WatchStream.Moves s st t st') {draining : Bool} (ho : s.Orderly draining) :
    Follows t st' := by
  obtain ⟨hle, items, hsub, hc⟩ := h
  have hid := hm.same.1
  have hch : st'.channel = st.channel := congrArg Int.toNat hid
  refine ⟨?_, items, ?_, ?_⟩
  · rw [hid, hm.touches.watchCounter]
    exact hle
  · rw [hch, hm.touches.feed]
    exact hsub
  · exact hc.moves hm ((ho.feed_sorted st.channel).sublist hsub)

/-- The stream takes a step of its own. -/
theorem Following.moves {s : WatchSession} (h : s.Following) {st st' : WatchStream} {t : Server}
    (hst : s.stream = some st) (hm : WatchStream.Moves s.server st t st') :
    Following { s with server := t, stream := some st' } := by
  refine ⟨hm.touches.orderly h.orderly, ?_⟩
  intro st'' hst''
  cases hst''
  exact (h.stream st hst).moves hm h.orderly

/-- A create request is refused at once, or registers a watcher. -/
theorem create_cases (s : WatchSession) (req : WatchCreateRequest) :
    ((0 < req.startRevision ∧ req.startRevision ≤ s.server.store.compactedRevision) ∧
      s.create req = { s with stream := some (WatchStream.refuse
        ⟨req, s.server.store.compactedRevision, 0, .registered, [], 0, []⟩) }) ∨
    (¬(0 < req.startRevision ∧ req.startRevision ≤ s.server.store.compactedRevision) ∧
      ∃ startRev, (0 < req.startRevision → startRev = req.startRevision) ∧
        s.create req =
          { s with
            server := Server.setChannel
              { s.server with store := s.server.store.register req.key req.rangeEnd startRev }
              (s.server.store.watchCounter + 1).toNat ⟨[], false⟩
            stream := some ⟨req, s.server.store.compactedRevision,
              s.server.store.watchCounter + 1, .registered, [], 0, []⟩ }) := by
  unfold create
  by_cases hc : req.startRevision > 0 ∧ req.startRevision ≤ s.server.store.compactedRevision
  · exact Or.inl ⟨hc, if_pos hc⟩
  · refine Or.inr ⟨hc, _, ?_, if_neg hc⟩
    intro hpos
    exact if_neg (not_le.mpr hpos)

/-- A new stream has an empty channel. -/
theorem create_following {s : WatchSession} (h : s.server.Orderly s.draining)
    (req : WatchCreateRequest) : (s.create req).Following := by
  have hshows {st : WatchStream} (he : st.events = []) (hp : st.pastChanges = [])
      (hm : st.maxEventStreamRev = 0) : st.Shows [] := by
    refine ⟨fun _ => ⟨hp, hm⟩, fun _ => ⟨rfl, he⟩, fun _ => ?_⟩
    rw [hp]
    exact ⟨he, hm⟩
  rcases s.create_cases req with ⟨_, he⟩ | ⟨_, startRev, _, he⟩
  · rw [he]
    refine ⟨h, ?_⟩
    intro st hst
    cases hst
    refine ⟨h.enrolled.counter, [], List.nil_sublist _, [], hshows rfl rfl rfl,
      List.Sublist.refl _, fun hne => absurd rfl hne⟩
  · rw [he]
    refine ⟨(h.register _ _ _).setChannel _ _, ?_⟩
    intro st hst
    cases hst
    have hempty (server : Server) (ch : ℕ) :
        ((server.setChannel ch ⟨[], false⟩).sinks.channels ch).buffer = [] := by
      rw [Server.channels_setChannel_self]
    refine ⟨le_refl _, [], List.nil_sublist _, [], hshows rfl rfl rfl, ?_, fun _ => hempty _ _⟩
    exact List.sublist_nil.mpr (hempty _ _)

theorem Following.step {s : WatchSession} (h : s.Following) {act : WatchAction}
    (hk : act.keepsNumbering) : (s.step act).Following := by
  cases act with
  | server a =>
    simp only [WatchSession.step]
    split_ifs with ha
    · refine ⟨h.orderly.step (foreign_ne_receive ha) hk, ?_⟩
      intro st hst
      have hst' : s.stream = some st := hst
      exact (h.stream st hst').foreign hst' h.orderly.enrolled ha
    · exact h
  | thread =>
    refine ⟨h.orderly.work, ?_⟩
    intro st hst
    exact (h.stream st hst).works h.orderly.works (fun job hj => (h.orderly.posted job hj).1)
  | watch req =>
    simp only [WatchSession.step]
    cases hst : s.stream with
    | some st => exact h
    | none => exact create_following h.orderly req
  | advance =>
    simp only [WatchSession.step]
    cases hst : s.stream with
    | none => exact h
    | some st => exact h.moves hst (st.advance_moves s.server)
  | message m =>
    simp only [WatchSession.step]
    cases hst : s.stream with
    | none => exact h
    | some st => exact h.moves hst (st.receive_moves s.server m)

end WatchSession
end MemEtcd
