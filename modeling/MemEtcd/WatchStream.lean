import MemEtcd.Handover
import MemEtcd.WatchDispatch

/-! The events of a watch stream. Whatever the threads do, a stream shows its past
changes and then what it has taken out of its channel, as far as the running
maximum lets it through; what it takes comes in the order of the revisions. -/
namespace MemEtcd

open Handover (threshold delivered)

abbrev KeyValueWithPrev.rev (c : KeyValueWithPrev) : ℤ := c.kv.modRevision

namespace WatchStream

/-- The past changes are out, and the loop has begun. -/
def begun (st : WatchStream) : Bool :=
  match st.stage with
  | .registered => false
  | .scanning _ => false
  | .created => false
  | _ => true

def pending (s : Server) (st : WatchStream) : List KeyValueWithPrev :=
  if st.stage = .ended then [] else (s.sinks.channels st.channel).buffer

/-- The stream has taken the given changes out of its channel and sent what it had
to send of them. -/
structure Shows (st : WatchStream) (taken : List KeyValueWithPrev) : Prop where
  fresh : st.stage = .registered → st.pastChanges = [] ∧ st.maxEventStreamRev = 0
  before : st.begun = false → taken = [] ∧ st.events = []
  loop : st.begun = true →
    st.events = (delivered KeyValueWithPrev.rev st.pastChanges taken).map
      (·.toEvent st.request.prevKv) ∧
    st.maxEventStreamRev = threshold KeyValueWithPrev.rev
      (delivered KeyValueWithPrev.rev st.pastChanges taken)

theorem events_respond (st : WatchStream) (r : WatchResponse) (stage : WatchStage) :
    (st.respond r stage).events = st.events ++ r.events := by
  unfold events respond
  rw [List.flatMap_append, List.flatMap_singleton]

/-- A stream that only moves on within the loop, or ends there. -/
theorem Shows.move {st : WatchStream} {taken : List KeyValueWithPrev} (h : st.Shows taken)
    (hb : st.begun = true) {stage : WatchStage}
    (hs : WatchStream.begun { st with stage := stage } = true) :
    Shows { st with stage := stage } taken := by
  refine ⟨?_, ?_, fun _ => h.loop hb⟩
  · intro he
    cases stage <;> contradiction
  · intro hf
    rw [hs] at hf
    contradiction

theorem Shows.quiet {st : WatchStream} {taken : List KeyValueWithPrev} (h : st.Shows taken)
    (hb : st.begun = true) {r : WatchResponse} (hr : r.events = []) {stage : WatchStage}
    (hs : WatchStream.begun { st with stage := stage } = true) :
    (st.respond r stage).Shows taken := by
  obtain ⟨hevents, hmax⟩ := h.loop hb
  refine ⟨?_, ?_, fun _ => ⟨?_, hmax⟩⟩
  · intro he
    cases stage <;> contradiction
  · intro hf
    change WatchStream.begun { st with stage := stage } = false at hf
    rw [hs] at hf
    contradiction
  · rw [events_respond, hr, List.append_nil]
    exact hevents

/-- The stream forwards a batch from its channel. -/
theorem Shows.forward {st : WatchStream} {taken batch : List KeyValueWithPrev}
    (h : st.Shows taken) (hb : st.begun = true)
    (hsorted : (taken ++ batch).Pairwise (fun a b => a.rev < b.rev)) :
    (st.forward batch).Shows (taken ++ batch) := by
  obtain ⟨hevents, hmax⟩ := h.loop hb
  -- the code compares with the running maximum, `delivered` with the last past
  -- change; on an ascending feed both let the same items through
  have happend : delivered KeyValueWithPrev.rev st.pastChanges (taken ++ batch) =
      delivered KeyValueWithPrev.rev st.pastChanges taken ++
        batch.filter (fun c => c.kv.modRevision > st.maxEventStreamRev) := by
    rw [hmax]
    exact Handover.delivered_append hsorted
  unfold WatchStream.forward
  cases hlast : (batch.filter (fun c => c.kv.modRevision > st.maxEventStreamRev)).getLast? with
  | none =>
    -- all of the batch are repetitions
    rw [List.getLast?_eq_none_iff] at hlast
    rw [hlast, List.append_nil] at happend
    refine ⟨?_, ?_, fun _ => ?_⟩
    · intro he
      contradiction
    · intro hf
      contradiction
    · rw [happend]
      exact ⟨hevents, hmax⟩
  | some last =>
    -- the last item of the batch that passes is the new maximum
    have hmem := List.mem_of_getLast? hlast
    have hpass := of_decide_eq_true (List.mem_filter.mp hmem).2
    refine ⟨?_, ?_, fun _ => ⟨?_, ?_⟩⟩
    · intro he
      contradiction
    · intro hf
      contradiction
    · change (st.respond _ .polling).events = _
      rw [events_respond, hevents]
      have hmap := congrArg (List.map (·.toEvent st.request.prevKv)) happend
      rw [List.map_append] at hmap
      exact hmap.symm
    · change max last.kv.modRevision st.maxEventStreamRev =
        threshold _ (delivered _ st.pastChanges (taken ++ batch))
      rw [happend, Handover.threshold_append (List.ne_nil_of_mem hmem), max_eq_left (by omega)]
      unfold threshold
      rw [hlast]
      rfl

theorem Shows.confirm {st : WatchStream} {taken : List KeyValueWithPrev} (h : st.Shows taken)
    (hb : st.begun = false) (s : Server) : (st.confirm s).Shows taken := by
  obtain ⟨htaken, hevents⟩ := h.before hb
  refine ⟨?_, fun _ => ⟨htaken, ?_⟩, ?_⟩
  · intro he
    contradiction
  · unfold WatchStream.confirm
    rw [events_respond, hevents]
    rfl
  · intro hf
    contradiction

/-- The loop begins with the past changes sent. -/
theorem Shows.sendPast {st : WatchStream} {taken : List KeyValueWithPrev} (h : st.Shows taken)
    (hb : st.begun = false) (s : Server) : (st.sendPast s).Shows taken := by
  obtain ⟨htaken, hevents⟩ := h.before hb
  have hpast : delivered KeyValueWithPrev.rev st.pastChanges taken = st.pastChanges := by
    rw [htaken]
    exact List.append_nil _
  unfold WatchStream.sendPast
  dsimp only
  cases hp : st.pastChanges.isEmpty with
  | true =>
    rw [if_pos rfl]
    refine ⟨?_, ?_, fun _ => ⟨?_, ?_⟩⟩
    · intro he
      contradiction
    · intro hf
      contradiction
    · change st.events = (delivered _ st.pastChanges taken).map _
      rw [hpast, List.isEmpty_iff.mp hp]
      exact hevents
    · change _ = threshold _ (delivered _ st.pastChanges taken)
      rw [hpast]
      rfl
  | false =>
    rw [if_neg Bool.false_ne_true]
    refine ⟨?_, ?_, fun _ => ⟨?_, ?_⟩⟩
    · intro he
      contradiction
    · intro hf
      contradiction
    · rw [events_respond]
      change st.events ++ _ = (delivered _ st.pastChanges taken).map _
      rw [hevents, hpast]
      rfl
    · change _ = threshold _ (delivered _ st.pastChanges taken)
      rw [hpast]
      rfl

/-! ### The steps of the stream -/

theorem openBucket_cases (s : Server) (st : WatchStream) :
    (∃ left, st.openBucket s = (s, { st with stage := .scanning left })) ∨
    st.openBucket s = (s.setChannel st.channel ⟨[], true⟩, st.refuse) ∨
    st.openBucket s = (s.setChannel st.channel ⟨[], true⟩, { st with stage := .ended }) := by
  unfold openBucket
  split_ifs
  · cases prefixAndRangeOfKey st.request.key st.request.rangeEnd with
    | error e => exact Or.inr (Or.inl rfl)
    | ok acc =>
      obtain ⟨pfx, lo, hi⟩ := acc
      dsimp only
      cases s.store.prefixMap[pfx]? with
      | none => exact Or.inl ⟨[], rfl⟩
      | some btree =>
        dsimp only
        cases btreeRange btree lo hi with
        | error e => exact Or.inr (Or.inr rfl)
        | ok entries => exact Or.inl ⟨entries, rfl⟩
  · exact Or.inl ⟨[], rfl⟩

theorem forward_cases (st : WatchStream) (batch : List KeyValueWithPrev) :
    (st.forward batch).stage = .polling ∧ (st.forward batch).watcherId = st.watcherId ∧
      (st.forward batch).pastChanges = st.pastChanges ∧
      (st.forward batch).request = st.request := by
  unfold WatchStream.forward
  split <;> exact ⟨rfl, rfl, rfl, rfl⟩

theorem sendPast_cases (s : Server) (st : WatchStream) :
    (st.sendPast s).stage = .polling ∧ (st.sendPast s).watcherId = st.watcherId ∧
      (st.sendPast s).pastChanges = st.pastChanges ∧ (st.sendPast s).request = st.request := by
  unfold WatchStream.sendPast
  dsimp only
  split_ifs <;> exact ⟨rfl, rfl, rfl, rfl⟩

inductive Moves (s : Server) (st : WatchStream) : Server → WatchStream → Prop
  | opens (left : List (Bytes × ℕ)) : st.stage = .registered →
      Moves s st s { st with stage := .scanning left }
  | refuses : st.stage = .registered →
      Moves s st (s.setChannel st.channel ⟨[], true⟩) st.refuse
  | panics : st.stage = .registered →
      Moves s st (s.setChannel st.channel ⟨[], true⟩) { st with stage := .ended }
  | reads (e : Bytes × ℕ) (left : List (Bytes × ℕ)) : st.stage = .scanning (e :: left) →
      Moves s st s (st.scanItem s e.2 left)
  | confirms : st.stage = .scanning [] → Moves s st s (st.confirm s)
  | sendsPast : st.stage = .created → Moves s st s (st.sendPast s)
  | forwards (batch rest : List KeyValueWithPrev) : st.stage = .polling →
      (s.sinks.channels st.channel).buffer = batch ++ rest →
      Moves s st (s.setChannel st.channel ⟨rest, (s.sinks.channels st.channel).closed⟩)
        (st.forward batch)
  | answers : st.stage = .requested → Moves s st s (st.answer s)
  /-- within the loop, without a response -/
  | goes (stage : WatchStage) : st.begun = true → st.stage ≠ .ended →
      WatchStream.begun { st with stage := stage } = true → stage ≠ .ended →
      Moves s st s { st with stage := stage }
  | stops : st.begun = true → st.stage ≠ .ended → Moves s st (st.stop s).1 (st.stop s).2
  | stays : Moves s st s st

theorem advance_moves (s : Server) (st : WatchStream) :
    Moves s st (st.advance s).1 (st.advance s).2 := by
  unfold WatchStream.advance
  cases hst : st.stage with
  | registered =>
    dsimp only
    rcases st.openBucket_cases s with ⟨left, he⟩ | he | he
    · rw [he]
      exact .opens left hst
    · rw [he]
      exact .refuses hst
    · rw [he]
      exact .panics hst
  | scanning left =>
    cases left with
    | nil => exact .confirms hst
    | cons e left => exact .reads e left hst
  | created => exact .sendsPast hst
  | polling =>
    have hb : st.begun = true := by simp [begun, hst]
    have hopen : st.stage ≠ .ended := by simp [hst]
    dsimp only [WatchStream.pollChannel]
    split_ifs
    · exact .goes .waiting hb hopen rfl WatchStage.noConfusion
    · exact .stops hb hopen
    · exact .forwards _ _ hst (List.take_append_drop _ _).symm
  | waiting =>
    have hb : st.begun = true := by simp [begun, hst]
    have hopen : st.stage ≠ .ended := by simp [hst]
    exact .goes .polling hb hopen rfl WatchStage.noConfusion
  | requested => exact .answers hst
  | ended => exact .stays

theorem receive_moves (s : Server) (st : WatchStream) (m : ClientMessage) :
    Moves s st (st.receive s m).1 (st.receive s m).2 := by
  unfold WatchStream.receive
  split_ifs with hst
  · have hb : st.begun = true := by simp [begun, hst]
    have hopen : st.stage ≠ .ended := by simp [hst]
    cases m with
    | error => exact .stops hb hopen
    | closed => exact .stops hb hopen
    | cancel watchId =>
      dsimp only
      split_ifs
      · exact .stops hb hopen
      · exact .goes .polling hb hopen rfl WatchStage.noConfusion
    | progress => exact .goes .requested hb hopen rfl WatchStage.noConfusion
    | other => exact .goes .polling hb hopen rfl WatchStage.noConfusion
  · exact .stays

/-- A stream keeps its request and its watcher. -/
theorem Moves.same {s t : Server} {st st' : WatchStream} (h : Moves s st t st') :
    st'.watcherId = st.watcherId ∧ st'.request = st.request := by
  cases h with
  | sendsPast => exact ⟨(st.sendPast_cases s).2.1, (st.sendPast_cases s).2.2.2⟩
  | forwards batch => exact ⟨(st.forward_cases batch).2.1, (st.forward_cases batch).2.2.2⟩
  | _ => exact ⟨rfl, rfl⟩

/-- The stream has taken the first of the given items and has the others in its
channel. A stream that has ended may have left some. -/
def Carries (s : Server) (st : WatchStream) (items : List KeyValueWithPrev) : Prop :=
  ∃ taken, st.Shows taken ∧ (taken ++ st.pending s).Sublist items ∧
    (st.stage ≠ .ended → taken ++ st.pending s = items)

theorem pending_of_ended {s : Server} {st : WatchStream} (h : st.stage = .ended) :
    st.pending s = [] := if_pos h

theorem pending_of_open {s : Server} {st : WatchStream} (h : st.stage ≠ .ended) :
    st.pending s = (s.sinks.channels st.channel).buffer := if_neg h

/-- A step that leaves the channel alone. -/
theorem Carries.keep {s : Server} {st st' : WatchStream} {items : List KeyValueWithPrev}
    (h : st.Carries s items) (hopen : st.stage ≠ .ended) (hopen' : st'.stage ≠ .ended)
    (hid : st'.watcherId = st.watcherId) (hshows : ∀ taken, st.Shows taken → st'.Shows taken) :
    st'.Carries s items := by
  obtain ⟨taken, ht, hsub, heq⟩ := h
  have hpending : st'.pending s = st.pending s := by
    rw [pending_of_open hopen, pending_of_open hopen']
    unfold channel
    rw [hid]
  refine ⟨taken, hshows taken ht, ?_, fun _ => ?_⟩
  · rw [hpending]
    exact hsub
  · rw [hpending]
    exact heq hopen

/-- The last step of a stream. -/
theorem Carries.finish {s s' : Server} {st st' : WatchStream} {items : List KeyValueWithPrev}
    (h : st.Carries s items) (hs : st'.stage = .ended)
    (hshows : ∀ taken, st.Shows taken → st'.Shows taken) : st'.Carries s' items := by
  obtain ⟨taken, ht, hsub, _⟩ := h
  refine ⟨taken, hshows taken ht, ?_, fun hne => absurd hs hne⟩
  rw [pending_of_ended hs, List.append_nil]
  exact (List.sublist_append_left _ _).trans hsub

theorem pending_forward (s : Server) (st : WatchStream) (batch rest : List KeyValueWithPrev)
    (closed : Bool) : (st.forward batch).pending (s.setChannel st.channel ⟨rest, closed⟩) = rest := by
  obtain ⟨hstage, hid, _, _⟩ := st.forward_cases batch
  have hopen : (st.forward batch).stage ≠ .ended := by simp [hstage]
  have hch : (st.forward batch).channel = st.channel := congrArg Int.toNat hid
  rw [pending_of_open hopen, hch, Server.channels_setChannel_self]

/-- A batch moves from the front of the channel to what was taken. -/
theorem Carries.forward {s : Server} {st : WatchStream} {items : List KeyValueWithPrev}
    (h : st.Carries s items) (hb : st.begun = true) (hopen : st.stage ≠ .ended)
    {batch rest : List KeyValueWithPrev} {closed : Bool}
    (hbuf : (s.sinks.channels st.channel).buffer = batch ++ rest)
    (hsorted : items.Pairwise (fun a b => a.rev < b.rev)) :
    (st.forward batch).Carries (s.setChannel st.channel ⟨rest, closed⟩) items := by
  obtain ⟨taken, ht, _, heq⟩ := h
  have hitems := heq hopen
  rw [pending_of_open hopen, hbuf, ← List.append_assoc] at hitems
  have htaken : (taken ++ batch).Pairwise (fun a b => a.rev < b.rev) := by
    rw [← hitems] at hsorted
    exact (List.pairwise_append.mp hsorted).1
  refine ⟨taken ++ batch, ht.forward hb htaken, ?_, fun _ => ?_⟩
  · rw [pending_forward, hitems]
  · rw [pending_forward, hitems]

/-- A stream that ends before its scan has neither past changes nor events. -/
theorem Shows.end_early {st st' : WatchStream} {taken : List KeyValueWithPrev}
    (h : st.Shows taken) (hst : st.stage = .registered) (hs : st'.stage = .ended)
    (hpast : st'.pastChanges = st.pastChanges) (hmax : st'.maxEventStreamRev = st.maxEventStreamRev)
    (hevents : st'.events = st.events) : st'.Shows taken := by
  have hb : st.begun = false := by simp [begun, hst]
  have hb' : st'.begun = true := by simp [begun, hs]
  obtain ⟨htaken, hnone⟩ := h.before hb
  obtain ⟨hfresh, hzero⟩ := h.fresh hst
  refine ⟨?_, ?_, ?_⟩
  · intro hr
    rw [hs] at hr
    contradiction
  · intro hf
    rw [hb'] at hf
    contradiction
  · intro _
    rw [htaken, hpast, hfresh, hevents, hmax]
    exact ⟨hnone, hzero⟩

theorem Carries.moves {s t : Server} {st st' : WatchStream} {items : List KeyValueWithPrev}
    (h : st.Carries s items) (hm : Moves s st t st')
    (hsorted : items.Pairwise (fun a b => a.rev < b.rev)) : st'.Carries t items := by
  -- before the loop the stream touches neither its channel nor its events
  have hscan (hb : st.begun = false) (left : List (Bytes × ℕ)) (past : List KeyValueWithPrev) :
      Carries s { st with stage := .scanning left, pastChanges := past } items := by
    have hopen : st.stage ≠ .ended := by
      intro he
      simp [begun, he] at hb
    refine h.keep hopen WatchStage.noConfusion rfl ?_
    intro taken ht
    exact ⟨fun hr => WatchStage.noConfusion hr, fun _ => ht.before hb, fun hr => Bool.noConfusion hr⟩
  cases hm with
  | opens left hst => exact hscan (by simp [begun, hst]) left st.pastChanges
  | refuses hst =>
    apply h.finish rfl
    intro taken ht
    refine ht.end_early hst rfl rfl rfl ?_
    unfold refuse
    rw [events_respond, List.append_nil]
  | panics hst => exact h.finish rfl (fun taken ht => ht.end_early hst rfl rfl rfl rfl)
  | reads e left hst => exact hscan (by simp [begun, hst]) left _
  | confirms hst =>
    have hb : st.begun = false := by simp [begun, hst]
    have hopen : st.stage ≠ .ended := by simp [hst]
    exact h.keep hopen WatchStage.noConfusion rfl (fun taken ht => ht.confirm hb s)
  | sendsPast hst =>
    have hb : st.begun = false := by simp [begun, hst]
    have hopen : st.stage ≠ .ended := by simp [hst]
    obtain ⟨hstage, hid, _, _⟩ := st.sendPast_cases s
    refine h.keep hopen ?_ hid (fun taken ht => ht.sendPast hb s)
    rw [hstage]
    exact WatchStage.noConfusion
  | forwards batch rest hst hbuf =>
    have hb : st.begun = true := by simp [begun, hst]
    have hopen : st.stage ≠ .ended := by simp [hst]
    -- the only step that takes something out of the channel
    exact h.forward hb hopen hbuf hsorted
  | answers hst =>
    have hb : st.begun = true := by simp [begun, hst]
    have hopen : st.stage ≠ .ended := by simp [hst]
    exact h.keep hopen WatchStage.noConfusion rfl (fun taken ht => ht.quiet hb rfl rfl)
  | goes stage hb hopen hb' hopen' =>
    exact h.keep hopen hopen' rfl (fun taken ht => ht.move hb hb')
  | stops hb hopen => exact h.finish rfl (fun taken ht => ht.move hb rfl)
  | stays => exact h

/-- The stream looks at its own channel only. -/
theorem Carries.congr {s t : Server} {st : WatchStream} {items : List KeyValueWithPrev}
    (h : st.Carries s items)
    (hc : t.sinks.channels st.channel = s.sinks.channels st.channel) : st.Carries t items := by
  have hpending : st.pending t = st.pending s := by
    unfold pending
    rw [hc]
  unfold Carries
  rw [hpending]
  exact h

/-- Events are appended to the channel. -/
theorem Carries.append {s t : Server} {st : WatchStream} {items new : List KeyValueWithPrev}
    (h : st.Carries s items)
    (hc : (t.sinks.channels st.channel).buffer = (s.sinks.channels st.channel).buffer ++ new) :
    st.Carries t (items ++ new) := by
  obtain ⟨taken, ht, hsub, heq⟩ := h
  by_cases hst : st.stage = .ended
  · -- a stream that has ended does not get it
    rw [pending_of_ended hst] at hsub
    refine ⟨taken, ht, ?_, fun hne => absurd hst hne⟩
    rw [pending_of_ended hst]
    exact hsub.trans (List.sublist_append_left _ _)
  · have hitems := heq hst
    rw [pending_of_open hst] at hitems
    have hnext : taken ++ st.pending t = items ++ new := by
      rw [pending_of_open hst, hc, ← List.append_assoc, hitems]
    exact ⟨taken, ht, hnext ▸ List.Sublist.refl _, fun _ => hnext⟩

/-- The notification thread appends to the channel what it sends there, if there is
room. -/
theorem Carries.works {s t : Server} {st : WatchStream} {items : List KeyValueWithPrev}
    (h : st.Carries s items) (hw : Server.Works s t)
    (hn : ∀ job ∈ s.jobs, job.watchers.Nodup) :
    ∃ new sent, t.feed st.channel = s.feed st.channel ++ sent ∧ st.Carries t (items ++ new) ∧
      new.Sublist sent ∧ ((s.sinks.channels st.channel).closed = false →
        (s.sinks.channels st.channel).buffer.length < watchChannelSize → new = sent) := by
  rcases hw.sends with ⟨hd, hsinks, _, _⟩ | ⟨job, hjob, hd, hsinks, _, _⟩
  · refine ⟨[], [], ?_, ?_, List.Sublist.refl _, fun _ _ => rfl⟩
    · rw [Server.feed_of_same hd, List.append_nil]
    · rw [List.append_nil]
      exact h.congr (congrArg (·.channels st.channel) hsinks)
  · have hch := channels_doSend s.sinks (hn job hjob) st.channel
    rw [← hsinks] at hch
    have hfeed := Server.feed_of_send hd st.channel
    by_cases hmem : st.channel ∈ job.watchers
    · rw [if_pos hmem] at hch hfeed
      by_cases hroom : (s.sinks.channels st.channel).closed = false ∧
          (s.sinks.channels st.channel).buffer.length < watchChannelSize
      · refine ⟨[job.msg], [job.msg], hfeed, h.append ?_, List.Sublist.refl _, fun _ _ => rfl⟩
        rw [hch]
        unfold WatchChannel.trySend
        rw [if_neg (by simp [hroom.1]), if_pos hroom.2]
      · -- the event is lost
        refine ⟨[], [job.msg], hfeed, h.append ?_, List.nil_sublist _, ?_⟩
        · rw [hch, List.append_nil]
          unfold WatchChannel.trySend
          split_ifs with hc hl
          · rfl
          · exact absurd ⟨by simpa using hc, hl⟩ hroom
          · rfl
        · intro hc hl
          exact absurd ⟨hc, hl⟩ hroom
    · rw [if_neg hmem] at hch hfeed
      refine ⟨[], [], hfeed, ?_, List.Sublist.refl _, fun _ _ => rfl⟩
      rw [List.append_nil]
      exact h.congr hch

/-! ### What a stream does to the server -/

/-- The server is as before, up to the channel of the stream and, if the stream has
stopped, its watcher. -/
def Touches (s : Server) (st : WatchStream) (t : Server) : Prop :=
  t = s ∨ (∃ c, t = s.setChannel st.channel c) ∨ t = (st.stop s).1

theorem Moves.touches {s t : Server} {st st' : WatchStream} (h : Moves s st t st') :
    st.Touches s t := by
  cases h with
  | refuses => exact Or.inr (Or.inl ⟨_, rfl⟩)
  | panics => exact Or.inr (Or.inl ⟨_, rfl⟩)
  | forwards batch rest => exact Or.inr (Or.inl ⟨_, rfl⟩)
  | stops => exact Or.inr (Or.inr rfl)
  | _ => exact Or.inl rfl

theorem Touches.orderly {s t : Server} {st : WatchStream} (h : st.Touches s t) {draining : Bool}
    (ho : s.Orderly draining) : t.Orderly draining := by
  rcases h with rfl | ⟨c, rfl⟩ | rfl
  · exact ho
  · exact ho.setChannel _ c
  · exact (ho.unwatch _ _).setChannel _ _

theorem Touches.feed {s t : Server} {st : WatchStream} (h : st.Touches s t) (ch : ℕ) :
    t.feed ch = s.feed ch := by
  rcases h with rfl | ⟨c, rfl⟩ | rfl <;> rfl

theorem Touches.watchCounter {s t : Server} {st : WatchStream} (h : st.Touches s t) :
    t.store.watchCounter = s.store.watchCounter := by
  rcases h with rfl | ⟨c, rfl⟩ | rfl <;> rfl

end WatchStream

end MemEtcd
