import MemEtcd.WatchOrder

/-! Progress notifications. The answer to a progress request takes the greater of the
thread's progress and the last revision of the stream. It is truthful exactly if the
channel holds nothing up to the thread's progress that the stream has still to send:
the poll that found the channel empty may be older than the progress. -/
namespace MemEtcd

namespace WatchStream

theorem events_forward (st : WatchStream) (batch : List KeyValueWithPrev) :
    (st.forward batch).events = st.events ++
      (batch.filter (fun c => c.kv.modRevision > st.maxEventStreamRev)).map
        (·.toEvent st.request.prevKv) := by
  unfold WatchStream.forward
  cases hlast : (batch.filter (fun c => c.kv.modRevision > st.maxEventStreamRev)).getLast? with
  | none =>
    rw [List.getLast?_eq_none_iff] at hlast
    rw [hlast, List.map_nil, List.append_nil]
    rfl
  | some last =>
    change (st.respond _ .polling).events = _
    rw [events_respond]

/-- The running maximum is that of the stream or of a change it has forwarded. -/
theorem max_forward (st : WatchStream) (batch : List KeyValueWithPrev) :
    st.maxEventStreamRev ≤ (st.forward batch).maxEventStreamRev ∧
      ((st.forward batch).maxEventStreamRev = st.maxEventStreamRev ∨
        ∃ c ∈ batch, (st.forward batch).maxEventStreamRev = c.rev) := by
  unfold WatchStream.forward
  cases hlast : (batch.filter (fun c => c.kv.modRevision > st.maxEventStreamRev)).getLast? with
  | none => exact ⟨le_refl _, Or.inl rfl⟩
  | some last =>
    have hmem := List.mem_filter.mp (List.mem_of_getLast? hlast)
    have hpass := of_decide_eq_true hmem.2
    refine ⟨le_max_right _ _, Or.inr ⟨last, hmem.1, ?_⟩⟩
    exact max_eq_left (by omega)

end WatchStream

namespace WatchSession

/-! ### What an answer rules out -/

/-- Nothing up to `p` is to come: `p` is the greater of the thread's progress `q` and
the stream's maximum `m` at the time of the answer, and `sent` are the events up to
then. -/
structure Clear (p q m : ℤ) (sent : List Event) (s : Server) (st : WatchStream) : Prop where
  bound : p = max q m
  begun : st.begun = true
  next : q < s.thread.nextRev
  mono : m ≤ st.maxEventStreamRev
  clear : ∀ c ∈ st.pending s, c.rev ≤ st.maxEventStreamRev ∨ p < c.rev
  later : ∃ tail, st.events = sent ++ tail ∧ ∀ e ∈ tail, p < e.kv.modRevision

variable {p q m : ℤ} {sent : List Event}

theorem Clear.congr {s t : Server} {st : WatchStream} (h : Clear p q m sent s st)
    (hn : t.thread = s.thread)
    (hc : t.sinks.channels st.channel = s.sinks.channels st.channel) : Clear p q m sent t st := by
  refine ⟨h.bound, h.begun, ?_, h.mono, ?_, h.later⟩
  · rw [hn]
    exact h.next
  · unfold WatchStream.pending
    rw [hc]
    exact h.clear

/-- What is sent from now on is above the thread's progress. -/
theorem Clear.works {s : Server} {draining : Bool} {st : WatchStream}
    (h : Clear p q m sent s st) (ho : s.Orderly draining) :
    Clear p q m sent (s.work draining).1 st := by
  have hw := ho.works
  have hnext := h.next
  rcases hw.sends with ⟨_, hsinks, hn, _⟩ | ⟨job, hjob, hd, hsinks, hn, _⟩
  · refine ⟨h.bound, h.begun, by omega, h.mono, ?_, h.later⟩
    unfold WatchStream.pending
    rw [hsinks]
    exact h.clear
  · refine ⟨h.bound, h.begun, by omega, h.mono, ?_, h.later⟩
    intro c hc
    by_cases hst : st.stage = .ended
    · rw [WatchStream.pending_of_ended hst] at hc
      contradiction
    · have hclear := h.clear
      rw [WatchStream.pending_of_open hst] at hc hclear
      rw [hsinks] at hc
      rcases mem_buffer_doSend (ho.posted job hjob).1 hc with hc | rfl
      · exact hclear c hc
      · have hrev : job.msg.kv.modRevision = s.thread.nextRev :=
          (ho.job_rev hjob).trans (ho.sent_rev hd)
        have hbound := h.bound
        have hmono := h.mono
        change job.msg.kv.modRevision ≤ _ ∨ p < job.msg.kv.modRevision
        omega

/-- A batch from the front of the channel is forwarded. -/
theorem Clear.forward {s : Server} {st : WatchStream} (h : Clear p q m sent s st)
    (hst : st.stage = .polling) {batch rest : List KeyValueWithPrev} {closed : Bool}
    (hbuf : (s.sinks.channels st.channel).buffer = batch ++ rest) :
    Clear p q m sent (s.setChannel st.channel ⟨rest, closed⟩) (st.forward batch) := by
  have hopen : st.stage ≠ .ended := by simp [hst]
  have hclear := h.clear
  rw [WatchStream.pending_of_open hopen, hbuf] at hclear
  have hstage := (st.forward_cases batch).1
  have hmono := (st.max_forward batch).1
  refine ⟨h.bound, ?_, h.next, h.mono.trans hmono, ?_, ?_⟩
  · simp [WatchStream.begun, hstage]
  · intro c hc
    rw [WatchStream.pending_forward] at hc
    rcases hclear c (List.mem_append_right _ hc) with hle | hlt
    · exact Or.inl (hle.trans hmono)
    · exact Or.inr hlt
  · obtain ⟨tail, htail, hall⟩ := h.later
    have hevents := st.events_forward batch
    rw [htail, List.append_assoc] at hevents
    refine ⟨_, hevents, ?_⟩
    intro e he
    rcases List.mem_append.mp he with he | he
    · exact hall e he
    · -- a change above the maximum is above `p`
      obtain ⟨c, hc, rfl⟩ := List.mem_map.mp he
      obtain ⟨hc, hpass⟩ := List.mem_filter.mp hc
      have hpass := of_decide_eq_true hpass
      rcases hclear c (List.mem_append_left _ hc) with hle | hlt
      · exact absurd hpass (not_lt.mpr hle)
      · exact hlt

theorem Clear.stage {s t : Server} {st : WatchStream} (h : Clear p q m sent s st)
    {stage : WatchStage} (hb : WatchStream.begun { st with stage := stage } = true)
    (hn : t.thread = s.thread)
    (hc : stage = .ended ∨ (st.stage ≠ .ended ∧
      t.sinks.channels st.channel = s.sinks.channels st.channel)) :
    Clear p q m sent t { st with stage := stage } := by
  refine ⟨h.bound, hb, ?_, h.mono, ?_, h.later⟩
  · rw [hn]
    exact h.next
  · intro c hmem
    unfold WatchStream.pending at hmem
    split_ifs at hmem with hs
    · contradiction
    · obtain ⟨hopen, hc⟩ := hc.resolve_left hs
      have hclear := h.clear
      rw [WatchStream.pending_of_open hopen] at hclear
      apply hclear c
      rw [← hc]
      exact hmem

theorem Clear.moves {s t : Server} {st st' : WatchStream} (h : Clear p q m sent s st)
    (hm : WatchStream.Moves s st t st') : Clear p q m sent t st' := by
  have hb := h.begun
  cases hm with
  | opens left hst => simp [WatchStream.begun, hst] at hb
  | refuses hst => simp [WatchStream.begun, hst] at hb
  | panics hst => simp [WatchStream.begun, hst] at hb
  | reads e left hst => simp [WatchStream.begun, hst] at hb
  | confirms hst => simp [WatchStream.begun, hst] at hb
  | sendsPast hst => simp [WatchStream.begun, hst] at hb
  | forwards batch rest hst hbuf => exact h.forward hst hbuf
  | answers hst =>
    have hopen : st.stage ≠ .ended := by simp [hst]
    have hmove : Clear p q m sent s { st with stage := .polling } :=
      h.stage rfl rfl (Or.inr ⟨hopen, rfl⟩)
    obtain ⟨tail, htail, hall⟩ := h.later
    refine ⟨h.bound, rfl, h.next, h.mono, hmove.clear, tail, ?_, hall⟩
    unfold WatchStream.answer
    rw [WatchStream.events_respond, List.append_nil]
    exact htail
  | goes stage _ hopen hb' => exact h.stage hb' rfl (Or.inr ⟨hopen, rfl⟩)
  | stops => exact h.stage rfl rfl (Or.inl rfl)
  | stays => exact h

theorem Clear.step {s : WatchSession} (hf : s.Following) {st : WatchStream}
    (hst : s.stream = some st) (h : Clear p q m sent s.server st) (act : WatchAction) :
    ∃ st', (s.step act).stream = some st' ∧ Clear p q m sent (s.step act).server st' := by
  cases act with
  | server a =>
    simp only [WatchSession.step]
    split_ifs with ha
    · refine ⟨st, hst, h.congr (s.server.step_thread (foreign_ne_receive ha)).1 ?_⟩
      exact foreign_channel hst (hf.stream st hst).1 hf.orderly.enrolled.counter ha
    · exact ⟨st, hst, h⟩
  | thread => exact ⟨st, hst, h.works hf.orderly⟩
  | watch req =>
    refine ⟨st, ?_, ?_⟩
    · simp only [WatchSession.step, hst]
    · simp only [WatchSession.step, hst]
      exact h
  | advance =>
    rw [advance_of_stream hst]
    exact ⟨_, rfl, h.moves (st.advance_moves s.server)⟩
  | message msg =>
    simp only [WatchSession.step, hst]
    exact ⟨_, rfl, h.moves (st.receive_moves s.server msg)⟩

theorem Clear.run {s : WatchSession} (hf : s.Following) {st : WatchStream}
    (hst : s.stream = some st) (h : Clear p q m sent s.server st) {acts : List WatchAction}
    (hk : ∀ act ∈ acts, act.keepsNumbering) :
    ∃ st', (s.run acts).stream = some st' ∧ Clear p q m sent (s.run acts).server st' := by
  induction acts generalizing s st with
  | nil => exact ⟨st, hst, h⟩
  | cons act acts ih =>
    obtain ⟨st', hst', h'⟩ := h.step hf hst act
    apply ih (hf.step (hk act List.mem_cons_self)) hst' h'
    intro b hb
    exact hk b (List.mem_cons_of_mem _ hb)

/-! ### What is in the channel comes out -/

/-- A poll takes a batch from the front of the channel. -/
theorem poll_step {s : WatchSession} {st : WatchStream} (hst : s.stream = some st)
    (hpoll : st.stage = .polling) (hne : (s.server.sinks.channels st.channel).buffer ≠ []) :
    ∃ batch rest, batch ≠ [] ∧ (s.server.sinks.channels st.channel).buffer = batch ++ rest ∧
      (s.step .advance).stream = some (st.forward batch) ∧
      ((s.step .advance).server.sinks.channels (st.forward batch).channel).buffer = rest := by
  refine ⟨_, _, ?_, (List.take_append_drop WatchStream.recvLimit _).symm, ?_, ?_⟩
  · intro htake
    rcases List.take_eq_nil_iff.mp htake with hlimit | hnil
    · contradiction
    · exact hne hnil
  all_goals
    rw [advance_of_stream hst]
    unfold WatchStream.advance
    rw [hpoll]
    dsimp only [WatchStream.pollChannel]
    rw [if_neg (by simpa using hne)]
  have hch : (st.forward ((s.server.sinks.channels st.channel).buffer.take
      WatchStream.recvLimit)).channel = st.channel :=
    congrArg Int.toNat (st.forward_cases _).2.1
  rw [hch, Server.channels_setChannel_self]

/-- A stream that goes on polling sends every change in its channel that is above its
maximum. -/
theorem poll_delivers {s : WatchSession} {st : WatchStream} (hst : s.stream = some st)
    (hpoll : st.stage = .polling) {buffer : List KeyValueWithPrev}
    (hbuf : (s.server.sinks.channels st.channel).buffer = buffer)
    (hsorted : buffer.Pairwise (fun a b => a.rev < b.rev)) {c : KeyValueWithPrev}
    (hc : c ∈ buffer) (hlt : st.maxEventStreamRev < c.rev) :
    ∃ n st' tail, (s.run (List.replicate n .advance)).stream = some st' ∧
      st'.events = st.events ++ tail ∧ c.toEvent st.request.prevKv ∈ tail := by
  -- on the length of the channel, of which every poll takes a batch
  induction hn : buffer.length using Nat.strong_induction_on generalizing s st buffer with
  | _ n ih =>
    obtain ⟨batch, rest, hbatch, hsplit, hst', hrest⟩ :=
      poll_step hst hpoll (hbuf ▸ List.ne_nil_of_mem hc)
    rw [hbuf] at hsplit
    rw [hsplit] at hsorted hc hn
    have hevents := st.events_forward batch
    rcases List.mem_append.mp hc with hc | hc
    · refine ⟨1, _, _, hst', hevents, ?_⟩
      exact List.mem_map_of_mem (List.mem_filter.mpr ⟨hc, decide_eq_true hlt⟩)
    · -- the maximum has not passed what is behind the batch
      have hmax : (st.forward batch).maxEventStreamRev < c.rev := by
        rcases (st.max_forward batch).2 with hsame | ⟨b, hb, hrev⟩
        · rw [hsame]
          exact hlt
        · rw [hrev]
          exact (List.pairwise_append.mp hsorted).2.2 b hb c hc
      have hshort : rest.length < n := by
        have hpos := List.length_pos_iff.mpr hbatch
        rw [List.length_append] at hn
        omega
      obtain ⟨m, st', tail, hrun, htail, hmem⟩ := ih rest.length hshort hst'
        (st.forward_cases batch).1 hrest (List.pairwise_append.mp hsorted).2.1 hc hmax rfl
      rw [hevents, List.append_assoc] at htail
      refine ⟨m + 1, st', _, ?_, htail, List.mem_append_right _ ?_⟩
      · rw [List.replicate_succ]
        exact hrun
      · rw [(st.forward_cases batch).2.2.2] at hmem
        exact hmem

/-- The answer to a progress request with revision `p`. No event up to `p` comes after
it, whatever the threads do, exactly if the channel holds nothing up to the thread's
progress that the stream has still to send. -/
theorem progress_truthful_iff {wal : Option WalManager} {records : List WalRecord}
    (hz : (Server.start wal records).store.currentRevision = 0) {acts : List WatchAction}
    (hk : ∀ act ∈ acts, act.keepsNumbering) {s : WatchSession}
    (hs : (start wal records).run acts = s) {st : WatchStream} (hst : s.stream = some st)
    (hreq : st.stage = .requested) {p : ℤ}
    (hp : p = max s.server.thread.revWritten st.maxEventStreamRev) :
    ∃ st₁, (s.step .advance).stream = some st₁ ∧
      st₁.responses = st.responses ++ [⟨responseHeader p, st.watcherId, false, 0, []⟩] ∧
      ((∀ later : List WatchAction, (∀ act ∈ later, act.keepsNumbering) → ∀ st₂,
          ((s.step .advance).run later).stream = some st₂ →
          ∃ tail, st₂.events = st₁.events ++ tail ∧ ∀ e ∈ tail, p < e.kv.modRevision) ↔
        ∀ c ∈ (s.server.sinks.channels st.channel).buffer,
          c.rev ≤ st.maxEventStreamRev ∨ s.server.thread.revWritten < c.rev) := by
  have hsound : s.Sound := by
    rw [← hs]
    exact (start_sound wal records hz).run hk
  have hopen : st.stage ≠ .ended := by simp [hreq]
  have hadvance : s.step .advance = { s with stream := some (st.answer s.server) } := by
    rw [advance_of_stream hst]
    unfold WatchStream.advance
    rw [hreq]
  have hfollowing : (s.step .advance).Following := hsound.toFollowing.step rfl
  rw [hadvance] at hfollowing ⊢
  refine ⟨st.answer s.server, rfl, ?_, ?_⟩
  · unfold WatchStream.answer
    rw [← hp]
    rfl
  constructor
  · intro hall c hc
    by_contra hcon
    obtain ⟨hmax, hwritten⟩ := not_or.mp hcon
    -- the stream polls on until it has sent `c`
    obtain ⟨_, items, hsub, taken, _, _, hitems⟩ := hsound.stream st hst
    have hsorted := (hsound.orderly.feed_sorted st.channel).sublist hsub
    rw [← hitems hopen, WatchStream.pending_of_open hopen] at hsorted
    obtain ⟨n, st₂, tail, hrun, htail, hmem⟩ := poll_delivers
      (s := { s with stream := some (st.answer s.server) }) rfl rfl rfl
      (List.pairwise_append.mp hsorted).2.1 hc (not_le.mp hmax)
    obtain ⟨tail', htail', hlater⟩ := hall _ (fun act hact => by
      rw [List.eq_of_mem_replicate hact]
      rfl) st₂ hrun
    rw [htail, List.append_cancel_left_eq] at htail'
    have hlt := hlater _ (htail' ▸ hmem)
    change p < c.rev at hlt
    omega
  · -- `Clear` holds when the answer is sent and is kept by every step
    intro hclear later hk' st₂ hst₂
    have hstart : Clear p s.server.thread.revWritten st.maxEventStreamRev
        (st.answer s.server).events s.server (st.answer s.server) := by
      refine ⟨hp, rfl, hsound.orderly.progress, le_refl _, ?_, [], (List.append_nil _).symm, ?_⟩
      · intro c hc
        have hc : c ∈ (s.server.sinks.channels st.channel).buffer := hc
        have hcases := hclear c hc
        change c.rev ≤ st.maxEventStreamRev ∨ p < c.rev
        omega
      · intro e he
        contradiction
    obtain ⟨st', hst', h⟩ := hstart.run hfollowing rfl hk'
    rw [hst₂] at hst'
    cases hst'
    exact h.later

/-- The stream has sent the event of the only change when it is asked. -/
theorem progress_truthful_after_poll :
    let s := (start none []).run (.watch ⟨[97], [], 1, false⟩ :: put 97 1 ++ announce ++
      List.replicate 6 .advance ++ [.message .progress])
    ∃ st₁, (s.step .advance).stream = some st₁ ∧
      ∀ later : List WatchAction, (∀ act ∈ later, act.keepsNumbering) → ∀ st₂,
        ((s.step .advance).run later).stream = some st₂ →
        ∃ tail, st₂.events = st₁.events ++ tail ∧ ∀ e ∈ tail, 1 < e.kv.modRevision := by
  intro s
  have hz : (Server.start none []).store.currentRevision = 0 := rfl
  have hk : ∀ act ∈ .watch ⟨[97], [], 1, false⟩ :: put 97 1 ++ announce ++
      List.replicate 6 .advance ++ [.message .progress], act.keepsNumbering := by decide
  have hst : s.stream = some ⟨⟨[97], [], 1, false⟩, 0, 1, .requested,
      [⟨⟨[97], [1], 1, 1, 1, 0⟩, none⟩], 1,
      [⟨responseHeader 1, 1, true, 0, []⟩,
        ⟨responseHeader 1, 1, false, 0, [⟨.put, ⟨[97], [1], 1, 1, 1, 0⟩, none⟩]⟩]⟩ := by decide
  have hp : (1 : ℤ) = max s.server.thread.revWritten 1 := by decide
  have hempty : (s.server.sinks.channels 1).buffer = [] := by decide
  obtain ⟨st₁, hst₁, _, hiff⟩ := progress_truthful_iff hz hk rfl hst rfl hp
  refine ⟨st₁, hst₁, hiff.mpr ?_⟩
  intro c hc
  have hc : c ∈ (s.server.sinks.channels 1).buffer := hc
  rw [hempty] at hc
  exact absurd hc List.not_mem_nil

/-- The channel is polled and found empty, and a progress request taken; then a change
is dispatched. The answer says 1, and the event with revision 1 comes after it. -/
theorem progress_before_event :
    ((start none []).run (.watch ⟨[97], [], 1, false⟩ :: List.replicate 4 .advance ++
      .message .progress :: put 97 1 ++ announce ++ [.advance, .advance])).stream.map
      (fun st => st.responses.map (fun r => (r.header.revision, r.events.map (·.kv.modRevision)))) =
    some [(0, []), (1, []), (1, [1])] := by decide

end WatchSession
end MemEtcd
