import MemEtcd.WalNames

/-! What the notification thread hands on. A round of the thread appends to the queues of
the WAL and to the channels of watchers; once the thread has received every job, the
records of all successful calls are in the queues of their prefixes, and the channel of a
watcher has got the calls that found the watcher registered. -/
namespace MemEtcd

/-! ### Rounds of the thread -/

/-- A round appends to a channel that is open, if it is not full at the end of the round. -/
theorem foldl_doSend_channel {sent : List NotifyJob} (hn : ∀ job ∈ sent, job.watchers.Nodup)
    {sinks : Sinks} {ch : ℕ}
    (hopen : ∀ job ∈ sent, ch ∈ job.watchers → (sinks.channels ch).closed = false)
    (hroom : ((sent.foldl doSend sinks).channels ch).buffer.length < watchChannelSize) :
    ((sent.foldl doSend sinks).channels ch).buffer = (sinks.channels ch).buffer ++
      (sent.filter (fun job => ch ∈ job.watchers)).map NotifyJob.msg := by
  induction sent generalizing sinks with
  | nil => exact (List.append_nil _).symm
  | cons job sent ih =>
    have hjob := hn job List.mem_cons_self
    rw [List.foldl_cons] at hroom ⊢
    have hrest := ih (fun j hj => hn j (List.mem_cons_of_mem job hj))
      (fun j hj hch => (closed_doSend sinks hjob ch).trans
        (hopen j (List.mem_cons_of_mem job hj) hch)) hroom
    rw [hrest] at hroom ⊢
    rw [channels_doSend sinks hjob] at hroom ⊢
    by_cases hch : ch ∈ job.watchers
    · have hopen := hopen job List.mem_cons_self hch
      simp only [if_pos hch, List.filter_cons, decide_eq_true hch, if_true, List.map_cons]
        at hroom ⊢
      by_cases hfull : (sinks.channels ch).buffer.length < watchChannelSize
      · unfold WatchChannel.trySend
        rw [hopen, if_neg Bool.false_ne_true, if_pos hfull, List.append_assoc]
        rfl
      · -- a full channel stays full
        unfold WatchChannel.trySend at hroom
        rw [hopen, if_neg Bool.false_ne_true, if_neg hfull, List.length_append] at hroom
        omega
    · simp only [if_neg hch, List.filter_cons, decide_eq_false hch, Bool.false_eq_true, if_false]

theorem foldl_doSend_closed {sent : List NotifyJob} (hn : ∀ job ∈ sent, job.watchers.Nodup)
    (sinks : Sinks) (ch : ℕ) :
    ((sent.foldl doSend sinks).channels ch).closed = (sinks.channels ch).closed := by
  induction sent generalizing sinks with
  | nil => rfl
  | cons job sent ih =>
    rw [List.foldl_cons, ih (fun j hj => hn j (List.mem_cons_of_mem job hj)),
      closed_doSend sinks (hn job List.mem_cons_self)]

namespace Server

theorem receive_sends (s : Server) :
    ∃ sent, s.receive.dispatched = s.dispatched ++ sent ∧
      s.receive.sinks = sent.foldl doSend s.sinks := by
  unfold receive
  cases s.store.notifyTx with
  | nil => exact ⟨[], (List.append_nil _).symm, rfl⟩
  | cons job rest => exact ⟨_, rfl, rfl⟩

theorem receive_watchers (s : Server) :
    s.receive.store.watchers = s.store.watchers ∧
      s.receive.store.watchCounter = s.store.watchCounter := by
  unfold receive
  cases s.store.notifyTx with
  | nil => exact ⟨rfl, rfl⟩
  | cons job rest => exact ⟨rfl, rfl⟩

/-- Jobs name registered channels at any time. -/
theorem Posted.next {s : Server} (h : s.Posted) (a : Action) :
    (s.step a).Posted ∧ s.store.watchCounter ≤ (s.step a).store.watchCounter := by
  by_cases ha : a = .receive
  · subst ha
    obtain ⟨hw, hc⟩ := s.receive_watchers
    change s.receive.Posted ∧ s.store.watchCounter ≤ s.receive.store.watchCounter
    refine ⟨⟨h.enrolled.congr hw hc, ?_⟩, hc.ge⟩
    intro job hj
    rw [hc]
    exact h.posted job (s.receive_jobs.mem_iff.mp hj)
  · exact ⟨h.step ha, (step_enrolled h.enrolled ha).2⟩

theorem Posted.run {s : Server} (h : s.Posted) (actions : List Action) :
    (s.run actions).Posted := by
  induction actions generalizing s with
  | nil => exact h
  | cons a actions ih => exact ih (h.next a).1

/-- A registered channel is opened only once. -/
theorem open_of_step {s : Server} (h : s.Posted) {ch : ℕ} (hch : (ch : ℤ) ≤ s.store.watchCounter)
    {a : Action} (hopen : ((s.step a).sinks.channels ch).closed = false) :
    (s.sinks.channels ch).closed = false := by
  by_cases hr : a = .receive
  · subst hr
    obtain ⟨sent, hsent, hsinks⟩ := s.receive_sends
    change (s.receive.sinks.channels ch).closed = false at hopen
    rw [hsinks, foldl_doSend_closed] at hopen
    · exact hopen
    · intro job hj
      apply (h.posted job (s.receive_jobs.mem_iff.mp (mem_jobs_of_dispatched _))).1
      rw [hsent]
      exact List.mem_append_right _ hj
  · by_cases ht : a = .takeEvent ch
    · subst ht
      simp only [step, Function.update_self] at hopen
      exact hopen
    · by_cases hd : a = .dropReceiver ch
      · subst hd
        simp only [step, Function.update_self] at hopen
        contradiction
      · rw [s.step_channel hch hr ht hd] at hopen
        exact hopen

theorem open_of_run {s : Server} (h : s.Posted) {ch : ℕ} (hch : (ch : ℤ) ≤ s.store.watchCounter)
    {actions : List Action} (hopen : ((s.run actions).sinks.channels ch).closed = false) :
    (s.sinks.channels ch).closed = false := by
  induction actions generalizing s with
  | nil => exact hopen
  | cons a actions ih =>
    obtain ⟨hnext, hcounter⟩ := h.next a
    exact open_of_step h hch (ih hnext (hch.trans hcounter) hopen)

/-! ### What a run adds -/

/-- The rounds of the notification thread among the actions have appended these elements to
a list that the server shows. -/
inductive Gains {β : Type} (shown : Server → List β) : Server → List Action → List β → Prop
  | nil (s : Server) : Gains shown s [] []
  | round {s : Server} {actions : List Action} {more rest : List β}
      (hmore : shown (s.step .receive) = shown s ++ more)
      (hrest : Gains shown (s.step .receive) actions rest) :
      Gains shown s (.receive :: actions) (more ++ rest)
  | other {s : Server} {a : Action} {actions : List Action} {rest : List β} (ha : a ≠ .receive)
      (hrest : Gains shown (s.step a) actions rest) : Gains shown s (a :: actions) rest

/-- If every round appends what some of its jobs are worth, so does the run. -/
theorem gains_of_rounds {β : Type} {shown : Server → List β} {q : NotifyJob → Bool}
    {f : NotifyJob → β} {P : Server → List Action → Prop}
    (hstep : ∀ s a actions, P s (a :: actions) → P (s.step a) actions)
    (hround : ∀ s actions sent, P s (.receive :: actions) →
      s.receive.dispatched = s.dispatched ++ sent → s.receive.sinks = sent.foldl doSend s.sinks →
      shown s.receive = shown s ++ (sent.filter q).map f)
    {s : Server} {actions : List Action} (h : P s actions) :
    ∃ sent, (s.run actions).dispatched = s.dispatched ++ sent ∧
      Gains shown s actions ((sent.filter q).map f) := by
  induction actions generalizing s with
  | nil => exact ⟨[], (List.append_nil _).symm, .nil s⟩
  | cons a actions ih =>
    obtain ⟨rest, hrest, hgains⟩ := ih (hstep s a actions h)
    by_cases ha : a = .receive
    · subst ha
      obtain ⟨sent, hsent, hsinks⟩ := s.receive_sends
      refine ⟨sent ++ rest, ?_, ?_⟩
      · rw [← List.append_assoc, ← hsent]
        exact hrest
      · rw [List.filter_append, List.map_append]
        exact .round (hround s actions sent h hsent hsinks) hgains
    · refine ⟨rest, ?_, .other ha hgains⟩
      rw [← (s.step_thread ha).2]
      exact hrest

def walQueue (p : Bytes) (s : Server) : List WalRecord := (s.sinks.wal.map (·.queueOf p)).getD []

def channelBuffer (ch : ℕ) (s : Server) : List KeyValueWithPrev := (s.sinks.channels ch).buffer

def leavesRoom (ch : ℕ) (s : Server) (a : Action) : Bool :=
  ((s.step a).sinks.channels ch).buffer.length < watchChannelSize

/-- The job that a call builds in a step, with the watchers that it finds. -/
def builds (s : Server) : Action → List NotifyJob
  | .collect i => ((s.committed[i]?).map (fun d => s.store.notifyJob d.1 d.2)).toList
  | _ => []

def built : Server → List Action → List NotifyJob
  | _, [] => []
  | s, a :: actions => s.builds a ++ built (s.step a) actions

theorem step_builds (s : Server) (a : Action) : (s.step a).jobs.Perm (s.jobs ++ s.builds a) := by
  by_cases hc : ∃ i, a = .collect i
  · obtain ⟨i, rfl⟩ := hc
    simp only [step, collect, builds]
    cases s.committed[i]? with
    | none => exact List.Perm.of_eq (List.append_nil _).symm
    | some d => exact List.Perm.of_eq (List.append_assoc _ _ _).symm
  · have hnone : s.builds a = [] := by
      cases a with
      | collect i => exact absurd ⟨i, rfl⟩ hc
      | _ => rfl
    rw [hnone, List.append_nil]
    by_cases hr : a = .receive
    · subst hr
      exact s.receive_jobs
    · rcases s.step_accounts hr with ⟨_, _, hj⟩ | ⟨_, _, _, _, _, _, _, _, hj⟩ | ⟨i, _, _, hi, _⟩
      · exact hj
      · exact List.Perm.of_eq hj
      · exact absurd ⟨i, hi⟩ hc

theorem run_jobs (s : Server) (actions : List Action) :
    (s.run actions).jobs.Perm (s.jobs ++ s.built actions) := by
  induction actions generalizing s with
  | nil => exact List.Perm.of_eq (List.append_nil _).symm
  | cons a actions ih =>
    refine (ih (s.step a)).trans ?_
    rw [built, ← List.append_assoc]
    exact (s.step_builds a).append_right _

/-! ### The sinks at rest -/

def Configured (mode : WalMode) (noPersist : List Bytes) (s : Server) : Prop :=
  ∃ w, s.sinks.wal = some w ∧ w.defaultMode = mode ∧ w.noPersist = noPersist

theorem Configured.step {mode : WalMode} {noPersist : List Bytes} {s : Server}
    (h : s.Configured mode noPersist) (a : Action) : (s.step a).Configured mode noPersist := by
  apply @step_walProperty (fun w _ => w.defaultMode = mode ∧ w.noPersist = noPersist) _ s a _ h
  · rintro w _ job ⟨rfl, rfl⟩
    exact w.append_settings ..
  · rintro w _ p ticks fails _ ⟨rfl, rfl⟩
    exact w.writeLocked_settings p ticks fails

/-- Whether a WAL with these settings puts the records of the prefix `q` into the queue
of `p`. -/
def filedUnder (mode : WalMode) (noPersist : List Bytes) (p q : Bytes) : Bool :=
  decide (q = p) && persists mode noPersist q

/-- A round puts the records of its jobs into the queue of their prefix. -/
theorem Configured.round {mode : WalMode} {noPersist : List Bytes} {s : Server}
    (h : s.Configured mode noPersist) {sent : List NotifyJob}
    (hsinks : s.receive.sinks = sent.foldl doSend s.sinks) (p : Bytes) :
    s.receive.walQueue p = s.walQueue p ++
      (sent.filter (fun job => filedUnder mode noPersist p job.walEntry.1)).map
        (·.walEntry.2) := by
  obtain ⟨w, hw, hsettings⟩ := h
  have happend (w' : WalManager) (jobs : List NotifyJob) (job : NotifyJob)
      (hw' : (w'.defaultMode = mode ∧ w'.noPersist = noPersist) ∧ w'.queueOf p = w.queueOf p ++
        (jobs.filter (fun job => filedUnder mode noPersist p job.walEntry.1)).map
          (·.walEntry.2)) :
      ((w'.appendJob job).defaultMode = mode ∧ (w'.appendJob job).noPersist = noPersist) ∧
        (w'.appendJob job).queueOf p = w.queueOf p ++ ((jobs ++ [job]).filter
          (fun job => filedUnder mode noPersist p job.walEntry.1)).map (·.walEntry.2) := by
    obtain ⟨⟨rfl, rfl⟩, hqueue⟩ := hw'
    refine ⟨w'.append_settings .., ?_⟩
    unfold WalManager.appendJob
    rw [WalManager.append_queueOf, hqueue, List.append_assoc, List.filter_append, List.map_append]
    by_cases hp : job.walEntry.1 = p
    · cases hpersists : persists w'.defaultMode w'.noPersist p <;> simp [filedUnder, hp, hpersists]
    · simp [filedUnder, hp]
  obtain ⟨w', hw', _, hqueue⟩ :=
    @foldl_doSend_wal _ happend s.sinks [] ⟨w, hw, hsettings, (List.append_nil _).symm⟩ sent
  unfold walQueue
  rw [hsinks, hw', hw]
  exact hqueue

theorem gains_wal {mode : WalMode} {noPersist : List Bytes} {s : Server}
    (h : s.Configured mode noPersist) (p : Bytes) (actions : List Action) :
    ∃ sent, (s.run actions).dispatched = s.dispatched ++ sent ∧
      Gains (walQueue p) s actions
        ((sent.filter (fun job => filedUnder mode noPersist p job.walEntry.1)).map
          (·.walEntry.2)) := by
  apply gains_of_rounds (P := fun s _ => s.Configured mode noPersist) _ _ h
  · intro s a _ hs
    exact hs.step a
  · intro s _ sent hs _ hsinks
    exact hs.round hsinks p

/-- The channel of a watcher gets what its jobs say, if it is not closed or full. -/
theorem gains_channel {s : Server} (h : s.Posted) {ch : ℕ} {actions : List Action}
    (hopen : ((s.run actions).sinks.channels ch).closed = false)
    (hroom : along step (leavesRoom ch) s actions) :
    ∃ sent, (s.run actions).dispatched = s.dispatched ++ sent ∧
      Gains (channelBuffer ch) s actions
        ((sent.filter (fun job => ch ∈ job.watchers)).map NotifyJob.msg) := by
  apply gains_of_rounds (P := fun s actions => s.Posted ∧
    ((s.run actions).sinks.channels ch).closed = false ∧ along step (leavesRoom ch) s actions) _ _
    ⟨h, hopen, hroom⟩
  · rintro s a actions ⟨hs, hopen, hroom⟩
    exact ⟨(hs.next a).1, hopen, ((Bool.and_eq_true _ _).mp hroom).2⟩
  · rintro s actions sent ⟨hs, hopen, hroom⟩ hsent hsinks
    have hposted (job : NotifyJob) (hj : job ∈ sent) := by
      apply hs.posted job (s.receive_jobs.mem_iff.mp (mem_jobs_of_dispatched _))
      rw [hsent]
      exact List.mem_append_right _ hj
    have hfree : (s.receive.sinks.channels ch).buffer.length < watchChannelSize :=
      of_decide_eq_true ((Bool.and_eq_true _ _).mp hroom).1
    unfold channelBuffer
    rw [hsinks] at hfree ⊢
    apply foldl_doSend_channel (fun job hj => (hposted job hj).1) _ hfree
    -- a channel that a job names is registered, and so it is open from now to the end
    intro job hj hch
    exact open_of_run hs ((hposted job hj).2 ch hch) hopen

/-- A watcher of `a` and `b`; two calls whose jobs arrive in the wrong order, an import at
revision 2 and one more call. -/
def reorderedRun : List Action :=
  [.watch [97] [99] 1 false, .enter ⟨[97], some [1], none⟩, .enter ⟨[98], some [2], none⟩,
    .index 0, .index 1, .lock 0, .lock 0, .collect 1, .send 0, .receive,
    .collect 0, .send 0, .receive,
    .importSnapshot [⟨[97], [1], 1, 1, 1⟩, ⟨[98], [2], 2, 2, 1⟩]] ++
    Call.actions ⟨[97], none, none⟩ ++ [.collect 0, .send 0, .receive]

/-- A replay that moves the revision is already out of step. -/
theorem not_keptUp_of_replay (wal : Option WalManager) (records : List WalRecord)
    (hr : (start wal records).store.currentRevision ≠ 0) : ¬(start wal records).KeptUp :=
  fun h => hr h.progress.symm

/-- So is an import that moves it. -/
theorem not_keptUp_of_import {s : Server} (h : s.KeptUp) {entries : List SnapshotEntry}
    (hi : Store.maxModRev entries ≠ s.store.currentRevision) (hp : 0 ≤ Store.maxModRev entries) :
    ¬(s.step (.importSnapshot entries)).KeptUp := by
  intro h'
  have hl := s.store.importSnapshotData_latest entries
  have hrev : s.thread.revWritten = (s.store.importSnapshotData entries).currentRevision :=
    h'.progress
  rw [h.progress] at hrev
  unfold Store.currentRevision at hrev hi
  omega

end Server
end MemEtcd
