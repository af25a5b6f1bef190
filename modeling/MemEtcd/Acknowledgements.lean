import MemEtcd.AckQueue
import MemEtcd.NoPersist

/-! Who is woken up by the WAL, and when. In `Sync` mode a successful call waits
for its record; the record passes the notification thread and a queue before a
worker writes it and wakes the caller. -/
namespace MemEtcd

open ReorderBuffer (upTo)
open VersionLog (Cell Effective)

/-! ### The queues of the WAL -/

namespace WalManager

/-- What has become of the records that `append` was given. A record that
somebody waits for is in its queue until the waiter is woken up, and nobody is
woken up twice. -/
def Answers (w : WalManager) (given : List (Bytes × WalRecord)) : Prop :=
  AckQueue.Inv WalRecord.rev WalRecord.writtenNotify w.queueOf w.notified given

theorem new_answers (mode : WalMode) (noPersist : List Bytes) :
    (new mode noPersist).Answers [] := by
  have hqueue : (new mode noPersist).queueOf = fun _ => [] := by
    ext1 p
    simp [queueOf, new]
  unfold Answers
  rw [hqueue]
  exact AckQueue.inv_nil

theorem Answers.append {w : WalManager} {given : List (Bytes × WalRecord)} (h : w.Answers given)
    {p : Bytes} {rec : WalRecord} (hnew : ((given ++ [(p, rec)]).map (·.2.rev)).Nodup) :
    (w.append p rec.rev rec.key rec.value rec.writtenNotify).Answers (given ++ [(p, rec)]) := by
  unfold Answers
  cases hp : persists w.defaultMode w.noPersist p with
  | false =>
    obtain ⟨hwriters, _, hnotified⟩ :=
      append_not_persisted hp rec.rev rec.key rec.value rec.writtenNotify
    have hqueue : (w.append p rec.rev rec.key rec.value rec.writtenNotify).queueOf = w.queueOf := by
      funext q
      unfold queueOf
      rw [hwriters]
    rw [hqueue, hnotified]
    exact AckQueue.Inv.pass h hnew
  | true =>
    obtain ⟨⟨wr, hwriters, _, hqueue⟩, _, hnotified⟩ :=
      append_persisted hp rec.rev rec.key rec.value rec.writtenNotify
    rw [queueOf_insert hwriters, hqueue, hnotified]
    exact AckQueue.Inv.enqueue h hnew

/-- A batch wakes up the callers of its records, whether it is written or not. -/
theorem Answers.writeLocked {w : WalManager} {given : List (Bytes × WalRecord)}
    (h : w.Answers given) (p : Bytes) (ticks : ℕ) (fails : Option ℕ) :
    (w.writeLocked p ticks fails).Answers given := by
  unfold Answers
  rw [(w.writeLocked_queueOf p ticks fails).1, (w.writeLocked_queueOf p ticks fails).2]
  exact AckQueue.Inv.dequeue h (takeBatch_append _ ticks 0)

/-- Once the queues are empty, everybody who waited has been woken up. -/
theorem Answers.flushed {w : WalManager} {given : List (Bytes × WalRecord)} (h : w.Answers given)
    (hf : w.Flushed) (hwait : ∀ a ∈ given, a.2.writtenNotify = true) :
    w.notified.Perm (given.map (·.2.rev)) := by
  apply AckQueue.Inv.perm_of_empty h _ hwait
  intro p
  cases hw : w.writers[p]? with
  | none => exact queueOf_of_none hw
  | some wr => exact (queueOf_of_writer hw).trans (hf p wr hw)

/-- A record that has left its queue is in its file, if no write has failed. -/
theorem Filed.written {w : WalManager} {p : Bytes} {records : List WalRecord}
    (h : w.Filed p [] records) {rec : WalRecord} (hr : rec ∈ records) (hq : rec ∉ w.queueOf p) :
    ∃ recs : List WalRecord, w.walDir[fileNameForPrefix p]? =
      some (recs.flatMap WalRecord.encode) ∧ recs <+: records ∧ rec ∈ recs := by
  obtain ⟨recs, hfile, hsplit⟩ := h
  rw [hsplit, List.mem_append] at hr
  have hrec := hr.resolve_right hq
  refine ⟨recs, ?_, hsplit ▸ List.prefix_append _ _, hrec⟩
  unfold contentsOf at hfile
  rw [List.nil_append] at hfile
  cases hd : w.walDir[fileNameForPrefix p]? with
  | some contents =>
    rw [hd] at hfile
    exact congrArg some hfile
  | none =>
    -- a file that was not created holds no record
    rw [hd] at hfile
    have hlen := length_flatMap_encode recs
    rw [← hfile] at hlen
    rw [List.length_eq_zero_iff.mp (Nat.le_zero.mp hlen)] at hrec
    contradiction

structure Keeps (mode : WalMode) (noPersist : List Bytes) (w : WalManager)
    (given : List (Bytes × WalRecord)) : Prop where
  mode_eq : w.defaultMode = mode
  noPersist_eq : w.noPersist = noPersist
  paths : w.Paths
  answers : w.Answers given

theorem new_keeps (mode : WalMode) (noPersist : List Bytes) :
    (new mode noPersist).Keeps mode noPersist [] :=
  ⟨rfl, rfl, new_paths mode noPersist, new_answers mode noPersist⟩

section

variable {mode : WalMode} {noPersist : List Bytes} {w : WalManager}
  {given : List (Bytes × WalRecord)}

theorem Keeps.appendJob (h : w.Keeps mode noPersist given) {job : NotifyJob}
    (hnew : ((given ++ [job.walEntry]).map (·.2.rev)).Nodup) :
    (w.appendJob job).Keeps mode noPersist (given ++ [job.walEntry]) := by
  obtain ⟨hmode, hno⟩ := w.append_settings job.walEntry.1 job.walEntry.2.rev job.walEntry.2.key
    job.walEntry.2.value job.walEntry.2.writtenNotify
  exact ⟨hmode.trans h.mode_eq, hno.trans h.noPersist_eq, append_paths h.paths _ _ _ _ _,
    h.answers.append hnew⟩

theorem Keeps.writeLocked (h : w.Keeps mode noPersist given) (p : Bytes) (ticks : ℕ)
    (fails : Option ℕ) : (w.writeLocked p ticks fails).Keeps mode noPersist given := by
  obtain ⟨hmode, hno⟩ := w.writeLocked_settings p ticks fails
  exact ⟨hmode.trans h.mode_eq, hno.trans h.noPersist_eq, writeLocked_paths h.paths p ticks fails,
    h.answers.writeLocked p ticks fails⟩

/-- A caller that was woken up finds its record in the file of its prefix, if the
prefix has one and no write of it has failed. -/
theorem Keeps.written {jobs : List NotifyJob}
    (h : w.Keeps mode noPersist (jobs.map NotifyJob.walEntry)) {a : Bytes × WalRecord}
    (ha : a ∈ jobs.map NotifyJob.walEntry) (hr : a.2.rev ∈ w.notified)
    (hp : persists mode noPersist a.1 = true)
    (hf : w.Filed a.1 [] (recordsOf (walEntries mode noPersist jobs) a.1)) :
    ∃ recs : List WalRecord, w.walDir[fileNameForPrefix a.1]? =
        some (recs.flatMap WalRecord.encode) ∧
      recs <+: recordsOf (walEntries mode noPersist jobs) a.1 ∧ a.2 ∈ recs := by
  apply hf.written
  · have hmem : a ∈ walEntries mode noPersist jobs := List.mem_filter.mpr ⟨ha, hp⟩
    exact List.mem_map.mpr ⟨a, List.mem_filter.mpr ⟨hmem, decide_eq_true rfl⟩, rfl⟩
  · intro hq
    exact (h.answers.queued a.1 a.2 hq).2 hr

end

end WalManager

/-! ### Servers without imports -/

namespace Server

/-- The whole of a run without imports: the history, the announcements under way
and what the WAL has made of them. -/
structure Documented (mode : WalMode) (noPersist : List Bytes) (s : Server) : Prop
    extends Consistent s where
  aligned : s.Aligned
  labelled : s.Labelled
  mode_eq : s.store.wal = some mode
  waits : ∀ job ∈ s.jobs, job.walHandled = decide (mode = .sync)
  keeps : ∃ w, s.sinks.wal = some w ∧
    w.Keeps mode noPersist (s.dispatched.map NotifyJob.walEntry)

theorem freshWith_documented (mode : WalMode) (noPersist : List Bytes) :
    (freshWith mode noPersist).Documented mode noPersist := by
  refine ⟨start_consistent _, start_aligned _ _ rfl, start_labelled _ _, rfl, ?_,
    WalManager.new mode noPersist, rfl, WalManager.new_keeps mode noPersist⟩
  intro job hjob
  contradiction

theorem freshWith_files (mode : WalMode) (noPersist : List Bytes) (p : Bytes) :
    ∃ w, (freshWith mode noPersist).sinks.wal = some w ∧
      w.Files mode noPersist p [] [] (freshWith mode noPersist).dispatched :=
  ⟨WalManager.new mode noPersist, rfl, rfl, rfl, WalManager.new_paths mode noPersist,
    WalManager.new_filed mode noPersist p⟩

section

variable {mode : WalMode} {noPersist : List Bytes} {s : Server}

/-- The mode of the WAL never changes. -/
theorem step_mode (s : Server) {a : Action} (ha : Recordable a) :
    (s.step a).store.wal = s.store.wal := by
  cases a with
  | enter c => exact (s.enter_sameDispatch c).notify.wal
  | index i => exact (s.index_sameDispatch i).notify.wal
  | lock i => exact (s.lock_sameDispatch i).notify.wal
  | collect i =>
    change (s.collect i).store.wal = _
    unfold collect
    split <;> rfl
  | send i =>
    change (s.send i).store.wal = _
    unfold send
    split <;> rfl
  | receive =>
    change s.receive.store.wal = _
    unfold receive
    split <;> rfl
  | watch startKey endKey rev wantPrevKv =>
    change (s.store.watch startKey endKey rev wantPrevKv).1.wal = _
    rcases s.store.watch_store startKey endKey rev wantPrevKv with he | ⟨startRev, he⟩
    · rw [he]
    · rw [he]
      rfl
  | compact rev => exact (s.store.compact_sameNotify rev).wal
  | importSnapshot entries => exact ha.elim
  | _ => rfl

/-- A caller waits for its record exactly in `Sync` mode. -/
theorem Documented.step_waits (h : s.Documented mode noPersist) (a : Action) :
    ∀ job ∈ (s.step a).jobs, job.walHandled = decide (mode = .sync) := by
  intro job hjob
  by_cases ha : a = .receive
  · subst ha
    exact h.waits job (s.receive_jobs.mem_iff.mp hjob)
  · rcases s.step_jobs ha hjob with hold | ⟨done, pfx, hnew⟩
    · exact h.waits job hold
    · rw [hnew]
      show decide (s.store.wal = some .sync) = _
      rw [h.mode_eq]
      simp

theorem Documented.step_keeps (h : s.Documented mode noPersist) {a : Action}
    (hal : (s.step a).Aligned) : ∃ w, (s.step a).sinks.wal = some w ∧
      w.Keeps mode noPersist ((s.step a).dispatched.map NotifyJob.walEntry) := by
  -- the revisions of what is sent are new, since those of all jobs are different
  have hrevs : (((s.step a).dispatched.map NotifyJob.walEntry).map (·.2.rev)).Nodup := by
    have horder : ((s.step a).dispatched.map NotifyJob.walEntry).map (·.2.rev) =
        upTo (s.step a).dispatched.length := by
      rw [List.map_map]
      exact hal.buffer.order
    rw [horder]
    exact ReorderBuffer.nodup_upTo _
  have hstep := step_walProperty (s := s) (a := a)
    (P := fun w jobs =>
      ((jobs.map NotifyJob.walEntry).map (fun e : Bytes × WalRecord => e.2.rev)).Nodup →
        w.Keeps mode noPersist (jobs.map NotifyJob.walEntry))
    (by
      intro w jobs job hP hnew
      rw [List.map_append, List.map_singleton] at hnew ⊢
      apply (hP _).appendJob hnew
      rw [List.map_append] at hnew
      exact hnew.of_append_left)
    (fun w jobs p ticks fails _ hP hnew => (hP hnew).writeLocked p ticks fails)
    (h.keeps.imp (fun w hw => ⟨hw.1, fun _ => hw.2⟩))
  obtain ⟨w, hw, hkeeps⟩ := hstep
  exact ⟨w, hw, hkeeps hrevs⟩

theorem Documented.step (h : s.Documented mode noPersist) {a : Action} (ha : Recordable a) :
    (s.step a).Documented mode noPersist := by
  have hkeeps : s.keepsRevision a = true := by
    cases a with
    | importSnapshot entries => exact ha.elim
    | _ => rfl
  have hal := h.aligned.step a hkeeps
  exact ⟨h.toConsistent.step ha, hal, h.labelled.step h.tidy.keyed a,
    (s.step_mode ha).trans h.mode_eq, h.step_waits a, h.step_keeps hal⟩

theorem Documented.run (h : s.Documented mode noPersist) {actions : List Action}
    (ha : ∀ a ∈ actions, Recordable a) : (s.run actions).Documented mode noPersist := by
  induction actions generalizing s with
  | nil => exact h
  | cons a actions ih =>
    exact ih (h.step (ha a List.mem_cons_self)) (fun b hb => ha b (List.mem_cons_of_mem a hb))

/-- A dispatched job tells the WAL what its call has changed. -/
theorem Documented.entry (h : s.Documented mode noPersist) {job : NotifyJob}
    (hjob : job ∈ s.dispatched) :
    ∃ c ∈ s.successes, job.walEntry.1 = walPrefix c.key ∧
      job.walEntry.2.change = (c.newRev, c.change) := by
  have hmem := mem_jobs_of_dispatched hjob
  obtain ⟨c, hc, he⟩ := h.aligned.announces (Or.inl ⟨job, hmem, rfl⟩)
  have hkey : c.key = job.msg.kv.key := congrArg (fun e => e.2.kv.key) he
  refine ⟨c, hc, ?_, ?_⟩
  · show utf8Bytes job.prefixStr = _
    rw [h.labelled.jobs job hmem, hkey]
    rfl
  · calc job.walEntry.2.change
        = (job.event.1, announcedChange job.event) := rfl
      _ = (c.event.1, announcedChange c.event) := by rw [he]
      _ = (c.newRev, c.change) :=
          Prod.ext (h.aligned.revision c hc) (announcedChange_event (h.chronicle.versions c hc))

end

/-- Two writes of one prefix and one of a prefix without a file, with a compaction;
the last job is still under way. -/
def syncRun : List Action :=
  Call.actions ⟨[97], some [1], none⟩ ++
    Call.actions ⟨registryRoot ++ [112, 47, 120], some [3], none⟩ ++
    Call.actions ⟨[97], none, none⟩ ++
    [.collect 1, .send 0, .collect 0, .send 0, .receive, .receive, .compact 2,
      .writeWal [] 8 none, .collect 0, .send 0, .receive]

end Server
end MemEtcd
