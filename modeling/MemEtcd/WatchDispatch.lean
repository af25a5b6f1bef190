import MemEtcd.Dispatcher
import MemEtcd.WatchCoverage
import MemEtcd.WatchService

/-! The dispatcher of a session. Between its sends the notification thread is in
the middle of a round; the server with the round completed is aligned. -/
namespace MemEtcd

open ReorderBuffer (upTo drain)

namespace Server

/-- The server once the notification thread has gone through its spool. -/
def settled (s : Server) (draining : Bool) : Server :=
  if draining then
    { s with
      thread := ⟨(drain NotifyJob.rev s.thread.jobSpool s.thread.nextRev).2.1,
        (drain NotifyJob.rev s.thread.jobSpool s.thread.nextRev).2.2,
        (drain NotifyJob.rev s.thread.jobSpool s.thread.nextRev).2.1 - 1⟩
      dispatched := s.dispatched ++
        (drain NotifyJob.rev s.thread.jobSpool s.thread.nextRev).1 }
  else s

/-- The other threads do not notice. -/
theorem settled_step (s : Server) (draining : Bool) {a : Action} (ha : a ≠ .receive) :
    (s.step a).settled draining = (s.settled draining).step a := by
  cases draining with
  | false => rfl
  | true =>
    cases a with
    | index i =>
      simp only [step, index, settled, if_true]
      cases s.pending[i]? with
      | none => rfl
      | some p =>
        by_cases hp : p.listed = true
        · simp only [if_pos hp]
        · simp only [if_neg hp]
    | lock i =>
      simp only [step, lock, settled, if_true]
      cases s.pending[i]? with
      | none => rfl
      | some p =>
        by_cases hp : p.listed = true
        · simp only [if_pos hp]
          generalize p.locked s.store = res
          obtain ⟨store, kv | done⟩ := res <;> rfl
        · simp only [if_neg hp]
    | collect i =>
      simp only [step, collect, settled, if_true]
      cases s.committed[i]? <;> rfl
    | send i =>
      simp only [step, send, settled, if_true]
      cases s.collected[i]? <;> rfl
    | receive => exact absurd rfl ha
    | _ => rfl

theorem takeJob_cases (s : Server) :
    (s.store.notifyTx = [] ∧ s.takeJob = (s, false)) ∨
    (∃ job rest, s.store.notifyTx = job :: rest ∧ s.thread.nextRev < job.rev ∧
      s.takeJob = ({ s with
        store := { s.store with notifyTx := rest }
        thread := { s.thread with
          jobSpool := ReorderBuffer.push NotifyJob.rev job s.thread.jobSpool } }, false)) ∨
    (∃ job rest, s.store.notifyTx = job :: rest ∧ job.rev ≤ s.thread.nextRev ∧
      s.takeJob = (sendNext { s with store := { s.store with notifyTx := rest } } job
        s.thread.jobSpool, true)) := by
  unfold takeJob
  cases h : s.store.notifyTx with
  | nil => exact Or.inl ⟨rfl, rfl⟩
  | cons job rest =>
    dsimp only
    by_cases hlt : job.rev > s.thread.nextRev
    · rw [if_pos hlt]
      exact Or.inr (Or.inl ⟨job, rest, rfl, hlt, rfl⟩)
    · rw [if_neg hlt]
      exact Or.inr (Or.inr ⟨job, rest, rfl, not_lt.mp hlt, rfl⟩)

theorem takeSpooled_cases (s : Server) :
    (∃ job spool, s.thread.jobSpool = job :: spool ∧ job.rev = s.thread.nextRev ∧
      s.takeSpooled = (s.sendNext job spool, true)) ∨
    (drain NotifyJob.rev s.thread.jobSpool s.thread.nextRev =
        ([], s.thread.nextRev, s.thread.jobSpool) ∧
      s.takeSpooled = (s.storeProgress, false)) := by
  unfold takeSpooled
  cases h : s.thread.jobSpool with
  | nil => exact Or.inr ⟨rfl, rfl⟩
  | cons job spool =>
    dsimp only
    by_cases heq : job.rev = s.thread.nextRev
    · rw [if_pos heq]
      exact Or.inl ⟨job, spool, rfl, heq, rfl⟩
    · rw [if_neg heq]
      refine Or.inr ⟨?_, rfl⟩
      unfold drain
      rw [if_neg heq]

/-- A job that is received, with its round completed, is the round of `receive`. -/
theorem takeJob_settled (s : Server) :
    (s.takeJob.1.settled s.takeJob.2).thread = s.receive.thread ∧
      (s.takeJob.1.settled s.takeJob.2).dispatched = s.receive.dispatched ∧
      (s.takeJob.1.settled s.takeJob.2).store = s.receive.store := by
  rcases s.takeJob_cases with ⟨hn, he⟩ | ⟨job, rest, hn, hlt, he⟩ | ⟨job, rest, hn, hle, he⟩
  · simp only [receive, he, hn]
    exact ⟨rfl, rfl, rfl⟩
  · simp only [receive, he, hn, NotifyThread.receive, if_pos hlt]
    exact ⟨rfl, (List.append_nil _).symm, rfl⟩
  · simp only [receive, he, hn, NotifyThread.receive, if_neg (not_lt.mpr hle)]
    exact ⟨rfl, List.append_assoc _ _ _, rfl⟩

/-- A step through the spool leaves the completed round as it is. -/
theorem takeSpooled_settled (s : Server) :
    (s.takeSpooled.1.settled s.takeSpooled.2).thread = (s.settled true).thread ∧
      (s.takeSpooled.1.settled s.takeSpooled.2).dispatched = (s.settled true).dispatched ∧
      s.takeSpooled.1.store = s.store := by
  rcases s.takeSpooled_cases with ⟨job, spool, hs, heq, he⟩ | ⟨hd, he⟩
  · have hd : drain NotifyJob.rev s.thread.jobSpool s.thread.nextRev =
        (job :: (drain NotifyJob.rev spool (s.thread.nextRev + 1)).1,
          (drain NotifyJob.rev spool (s.thread.nextRev + 1)).2) := by
      rw [hs, drain, if_pos heq]
    simp only [he, settled, if_true, hd]
    exact ⟨rfl, List.append_assoc _ _ _, rfl⟩
  · simp only [he, settled, if_true, hd]
    exact ⟨rfl, (List.append_nil _).symm, rfl⟩

theorem takeJob_aligned {s : Server} (h : s.Aligned) :
    (s.takeJob.1.settled s.takeJob.2).Aligned := by
  obtain ⟨ht, hd, hs⟩ := s.takeJob_settled
  have hkeeps : (s.takeJob.1.settled s.takeJob.2).committed = s.receive.committed ∧
      (s.takeJob.1.settled s.takeJob.2).collected = s.receive.collected ∧
      (s.takeJob.1.settled s.takeJob.2).successes = s.receive.successes := by
    rcases s.takeJob_cases with ⟨hn, he⟩ | ⟨job, rest, hn, -, he⟩ | ⟨job, rest, hn, -, he⟩ <;>
      simp only [receive, he, hn] <;> exact ⟨rfl, rfl, rfl⟩
  exact h.receive.congr (by rw [hs]) (by rw [hs]) hkeeps.1 hkeeps.2.1 ht hkeeps.2.2 hd

theorem takeSpooled_aligned {s : Server} (h : (s.settled true).Aligned) :
    (s.takeSpooled.1.settled s.takeSpooled.2).Aligned := by
  obtain ⟨ht, hd, -⟩ := s.takeSpooled_settled
  rcases s.takeSpooled_cases with ⟨job, spool, _, _, he⟩ | ⟨_, he⟩
  · rw [he] at ht hd ⊢
    exact h.congr rfl rfl rfl rfl ht rfl hd
  · rw [he] at ht hd ⊢
    exact h.congr rfl rfl rfl rfl ht rfl hd

/-! ### The jobs -/

/-- All jobs that have been built, from the oldest stage to the newest. -/
def jobs (s : Server) : List NotifyJob :=
  s.dispatched ++ s.thread.jobSpool ++ s.store.notifyTx ++ s.collected

theorem start_jobs (wal : Option WalManager) (records : List WalRecord) :
    (start wal records).jobs = [] := by
  have hn : (start wal records).store.notifyTx = [] :=
    Store.foldl_replayRecord_notifyTx records (Store.new _)
  unfold jobs
  rw [hn]
  rfl

theorem mem_jobs_of_dispatched {s : Server} {job : NotifyJob} (h : job ∈ s.dispatched) :
    job ∈ s.jobs := by
  unfold jobs
  simp only [List.append_assoc]
  exact List.mem_append_left _ h

theorem jobs_settled (s : Server) (draining : Bool) : (s.settled draining).jobs = s.jobs := by
  cases draining with
  | false => rfl
  | true =>
    have hsplit : (drain NotifyJob.rev s.thread.jobSpool s.thread.nextRev).1 ++
        (drain NotifyJob.rev s.thread.jobSpool s.thread.nextRev).2.2 = s.thread.jobSpool :=
      ReorderBuffer.drain_split _ _
    simp only [jobs, settled, if_true]
    rw [List.append_assoc s.dispatched, hsplit]

/-- A job, and a call that has still to build one, announces a successful call. -/
theorem Aligned.announces {s : Server} (h : s.Aligned) {e : ℤ × KeyValueWithPrev}
    (he : (∃ job ∈ s.jobs, job.event = e) ∨ ∃ d ∈ s.committed, d.1.event = e) :
    ∃ c ∈ s.successes, c.event = e := by
  have hmem : e ∈ s.inFlight := by
    unfold inFlight
    rw [← List.map_append, ← List.map_append, ← List.map_append]
    rcases he with ⟨job, hj, rfl⟩ | ⟨d, hd, rfl⟩
    · exact List.mem_append_left _ (List.mem_map_of_mem hj)
    · exact List.mem_append_right _ (List.mem_map.mpr ⟨d, hd, rfl⟩)
  exact List.mem_map.mp (h.accounted.mem_iff.mpr hmem)

end Server

namespace Store

/-- A change is sent to a watcher once. -/
theorem Enrolled.watchersToNotify_nodup {s : Store} (h : s.Enrolled) (key : Bytes) (rev : ℤ) :
    (s.watchersToNotify key rev).Nodup := by
  unfold watchersToNotify
  apply List.Pairwise.filterMap _ _ (List.Pairwise.and_mem.mp Std.ExtTreeMap.distinct_keys_toList)
  intro e e' hmem ch hch ch' hch'
  obtain ⟨he, he', hne⟩ := hmem
  obtain ⟨⟨start, id⟩, w⟩ := e
  obtain ⟨⟨start', id'⟩, w'⟩ := e'
  rw [Std.ExtTreeMap.mem_toList_iff_getElem?_eq_some] at he he'
  rw [Option.ite_none_right_eq_some, Option.some.injEq] at hch hch'
  obtain ⟨_, hid, hpos, _⟩ := h.entry start id w he
  obtain ⟨_, hid', hpos', _⟩ := h.entry start' id' w' he'
  intro hsame
  have hw : w.ch = w'.ch := hch.2.trans (hsame.trans hch'.2.symm)
  have hids : id = id' := by omega
  have hstart : start = start' := by
    apply h.unique start start' id
    · rw [he]
      rfl
    · rw [hids, he']
      rfl
  apply hne
  rw [hids, hstart]
  exact Std.ReflCmp.compare_self

theorem Enrolled.watchersToNotify_le {s : Store} (h : s.Enrolled) {key : Bytes} {rev : ℤ}
    {ch : ℕ} (hch : ch ∈ s.watchersToNotify key rev) : (ch : ℤ) ≤ s.watchCounter := by
  unfold watchersToNotify at hch
  obtain ⟨⟨⟨start, id⟩, w⟩, he, hsend⟩ := List.mem_filterMap.mp hch
  rw [Std.ExtTreeMap.mem_toList_iff_getElem?_eq_some] at he
  rw [Option.ite_none_right_eq_some, Option.some.injEq] at hsend
  obtain ⟨_, hid, hpos, hle⟩ := h.entry start id w he
  have hch : w.ch = ch := hsend.2
  omega

end Store

/-- The actions that keep the numbering of the changes: all but imports. -/
def Action.keepsNumbering : Action → Bool
  | .importSnapshot _ => false
  | _ => true

namespace Server

theorem watch_cases (s : Server) (startKey endKey : Bytes) (rev : ℤ) (wantPrevKv : Bool) :
    (s.watch startKey endKey rev wantPrevKv).store = s.store ∨
      ∃ startRev, (s.watch startKey endKey rev wantPrevKv).store =
        s.store.register startKey endKey startRev :=
  s.store.watch_store startKey endKey rev wantPrevKv

theorem step_enrolled {s : Server} (h : s.store.Enrolled) {a : Action} (ha : a ≠ .receive) :
    (s.step a).store.Enrolled ∧ s.store.watchCounter ≤ (s.step a).store.watchCounter := by
  cases a with
  | enter c =>
    have hn := (s.enter_sameDispatch c).notify
    exact ⟨h.congr hn.watchers hn.watchCounter, hn.watchCounter.ge⟩
  | index i =>
    have hn := (s.index_sameDispatch i).notify
    exact ⟨h.congr hn.watchers hn.watchCounter, hn.watchCounter.ge⟩
  | lock i =>
    have hn := (s.lock_sameDispatch i).notify
    exact ⟨h.congr hn.watchers hn.watchCounter, hn.watchCounter.ge⟩
  | collect i =>
    simp only [step, collect]
    cases s.committed[i]? <;> exact ⟨h, le_refl _⟩
  | send i =>
    simp only [step, send]
    cases s.collected[i]? with
    | none => exact ⟨h, le_refl _⟩
    | some job => exact ⟨h.congr rfl rfl, le_refl _⟩
  | receive => exact absurd rfl ha
  | watch startKey endKey rev wantPrevKv =>
    simp only [step]
    rcases s.watch_cases startKey endKey rev wantPrevKv with he | ⟨startRev, he⟩
    · rw [he]
      exact ⟨h, le_refl _⟩
    · rw [he]
      refine ⟨Store.register_enrolled h _ _ _, ?_⟩
      change s.store.watchCounter ≤ s.store.watchCounter + 1
      omega
  | unwatch startKey watcherId => exact ⟨Store.unwatch_enrolled h _ _, le_refl _⟩
  | takeEvent ch => exact ⟨h, le_refl _⟩
  | dropReceiver ch => exact ⟨h, le_refl _⟩
  | compact rev =>
    have hn := s.store.compact_sameNotify rev
    simp only [step]
    rw [hn.watchCounter]
    exact ⟨h.congr hn.watchers hn.watchCounter, le_refl _⟩
  | importSnapshot entries =>
    have hn := s.store.importSnapshotData_sameNotify entries
    simp only [step]
    rw [hn.watchCounter]
    exact ⟨h.congr hn.watchers hn.watchCounter, le_refl _⟩
  | writeWal pfx ticks fails => exact ⟨h, le_refl _⟩

/-- What the other threads do to the announcements: nothing, or a call commits, or a
committed call collects its watchers. -/
theorem step_accounts (s : Server) {a : Action} (ha : a ≠ .receive) :
    ((s.step a).successes = s.successes ∧ (s.step a).committed = s.committed ∧
      (s.step a).jobs.Perm s.jobs) ∨
    (∃ i p done, a = .lock i ∧ s.pending[i]? = some p ∧ (p.locked s.store).2 = .ok done ∧
      (s.step a).successes = s.successes ++ [done] ∧
      (s.step a).committed = s.committed ++ [(done, (prefixSplit p.call.key).1)] ∧
      (s.step a).jobs = s.jobs) ∨
    (∃ i done pfx, a = .collect i ∧ s.committed[i]? = some (done, pfx) ∧
      (s.step a).successes = s.successes ∧
      (s.step a).committed = s.committed.eraseIdx i ∧
      (s.step a).jobs = s.jobs ++ [s.store.notifyJob done pfx]) := by
  have hthread := s.step_thread ha
  -- the jobs change only with the channel and the collected ones
  have hjobs (h : (s.step a).store.notifyTx = s.store.notifyTx)
      (hc : (s.step a).collected = s.collected) : (s.step a).jobs = s.jobs := by
    unfold jobs
    rw [hthread.1, hthread.2, h, hc]
  cases a with
  | enter c =>
    refine Or.inl ⟨rfl, rfl, ?_⟩
    rw [hjobs (s.enter_sameDispatch c).notify.notifyTx rfl]
  | index i =>
    have hd := s.index_sameDispatch i
    have hjobs : (s.index i).jobs = s.jobs := hjobs hd.notify.notifyTx hd.collected
    left
    simp only [step]
    rw [hjobs]
    rcases s.index_cases i with he | ⟨p, _, _, he⟩ <;> rw [he] <;> exact ⟨rfl, rfl, List.Perm.refl _⟩
  | lock i =>
    have hd := s.lock_sameDispatch i
    have hjobs : (s.lock i).jobs = s.jobs := hjobs hd.notify.notifyTx hd.collected
    simp only [step]
    rw [hjobs]
    rcases s.lock_cases i with he | ⟨p, hp, _, ⟨kv, _, he⟩ | ⟨done, hdone, he⟩⟩
    · rw [he]
      exact Or.inl ⟨rfl, rfl, List.Perm.refl _⟩
    · rw [he]
      exact Or.inl ⟨rfl, rfl, List.Perm.refl _⟩
    · rw [he]
      exact Or.inr (Or.inl ⟨i, p, done, rfl, hp, hdone, rfl, rfl, rfl⟩)
  | collect i =>
    simp only [step, collect]
    cases hi : s.committed[i]? with
    | none => exact Or.inl ⟨rfl, rfl, List.Perm.refl _⟩
    | some done =>
      obtain ⟨done, pfx⟩ := done
      refine Or.inr (Or.inr ⟨i, done, pfx, rfl, hi, rfl, rfl, ?_⟩)
      exact (List.append_assoc _ _ _).symm
  | send i =>
    simp only [step, send]
    cases hi : s.collected[i]? with
    | none => exact Or.inl ⟨rfl, rfl, List.Perm.refl _⟩
    | some job =>
      exact Or.inl ⟨rfl, rfl, (perm_move _ _ (perm_eraseIdx hi)).symm⟩
  | receive => exact absurd rfl ha
  | watch startKey endKey rev wantPrevKv =>
    refine Or.inl ⟨rfl, rfl, ?_⟩
    rw [hjobs ?_ rfl]
    simp only [step]
    rcases s.watch_cases startKey endKey rev wantPrevKv with he | ⟨startRev, he⟩
    · rw [he]
    · rw [he]
      rfl
  | compact rev =>
    refine Or.inl ⟨rfl, rfl, ?_⟩
    rw [hjobs (s.store.compact_sameNotify rev).notifyTx rfl]
  | importSnapshot entries =>
    refine Or.inl ⟨rfl, rfl, ?_⟩
    rw [hjobs (s.store.importSnapshotData_sameNotify entries).notifyTx rfl]
  | _ => exact Or.inl ⟨rfl, rfl, List.Perm.refl _⟩

/-- The other threads leave a channel alone, its receiver apart. -/
theorem step_channel (s : Server) {a : Action} {ch : ℕ} (hch : (ch : ℤ) ≤ s.store.watchCounter)
    (hr : a ≠ .receive) (ht : a ≠ .takeEvent ch) (hd : a ≠ .dropReceiver ch) :
    (s.step a).sinks.channels ch = s.sinks.channels ch := by
  cases a with
  | enter c => rfl
  | index i => exact congrArg (·.channels ch) (s.index_sameDispatch i).sinks
  | lock i => exact congrArg (·.channels ch) (s.lock_sameDispatch i).sinks
  | collect i =>
    simp only [step, collect]
    cases s.committed[i]? <;> rfl
  | send i =>
    simp only [step, send]
    cases s.collected[i]? <;> rfl
  | receive => exact absurd rfl hr
  | watch startKey endKey rev wantPrevKv =>
    simp only [step, watch]
    cases hw : (s.store.watch startKey endKey rev wantPrevKv).2 with
    | error p => rfl
    | ok res =>
      cases res with
      | error compacted => rfl
      | ok opened =>
        obtain ⟨past, watcherId⟩ := opened
        have hnew := Store.watch_id hw
        have hne : ch ≠ watcherId.toNat := by omega
        exact Function.update_of_ne hne _ _
  | takeEvent ch' =>
    have hne : ch ≠ ch' := fun he => ht (congrArg Action.takeEvent he.symm)
    exact Function.update_of_ne hne _ _
  | dropReceiver ch' =>
    have hne : ch ≠ ch' := fun he => hd (congrArg Action.dropReceiver he.symm)
    exact Function.update_of_ne hne _ _
  | _ => rfl

/-- A new job is one that was collected. -/
theorem step_jobs (s : Server) {a : Action} (ha : a ≠ .receive) {job : NotifyJob}
    (hj : job ∈ (s.step a).jobs) :
    job ∈ s.jobs ∨ ∃ done pfx, job = s.store.notifyJob done pfx := by
  rcases s.step_accounts ha with ⟨_, _, hjobs⟩ | ⟨_, _, _, _, _, _, _, _, hjobs⟩ |
    ⟨_, done, pfx, _, _, _, _, hjobs⟩
  · exact Or.inl (hjobs.mem_iff.mp hj)
  · exact Or.inl (hjobs ▸ hj)
  · rw [hjobs] at hj
    rcases List.mem_append.mp hj with hj | hj
    · exact Or.inl hj
    · exact Or.inr ⟨done, pfx, List.mem_singleton.mp hj⟩

/-- A round of the notification thread makes no jobs and drops none. -/
theorem receive_jobs (s : Server) : s.receive.jobs.Perm s.jobs := by
  unfold receive
  cases hn : s.store.notifyTx with
  | nil => exact List.Perm.refl _
  | cons first rest =>
    unfold NotifyThread.receive jobs
    dsimp only
    rw [hn]
    apply List.Perm.append_right
    split_ifs
    · have hpush : (ReorderBuffer.push NotifyJob.rev first s.thread.jobSpool).Perm
          (first :: s.thread.jobSpool) := ReorderBuffer.push_perm first _
      rw [List.append_nil, List.append_assoc, List.append_assoc]
      apply List.Perm.append_left
      exact (hpush.append_right rest).trans List.perm_middle.symm
    · have hdrain : (drain NotifyJob.rev s.thread.jobSpool (s.thread.nextRev + 1)).1 ++
          (drain NotifyJob.rev s.thread.jobSpool (s.thread.nextRev + 1)).2.2 =
            s.thread.jobSpool := ReorderBuffer.drain_split _ _
      simp only [List.append_assoc, List.cons_append]
      apply List.Perm.append_left
      rw [← List.append_assoc, hdrain]
      exact List.perm_middle.symm

structure Posted (s : Server) : Prop where
  enrolled : s.store.Enrolled
  posted : ∀ job ∈ s.jobs, job.watchers.Nodup ∧
    ∀ ch ∈ job.watchers, (ch : ℤ) ≤ s.store.watchCounter

theorem start_posted (wal : Option WalManager) (records : List WalRecord) :
    (start wal records).Posted := by
  have hfold (records : List WalRecord) (store : Store) (h : store.Enrolled) :
      (records.foldl Store.replayRecord store).Enrolled := by
    induction records generalizing store with
    | nil => exact h
    | cons r records ih =>
      have hn := store.setForReplay_sameNotify r.key r.value
      exact ih _ (h.congr hn.watchers hn.watchCounter)
  refine ⟨hfold records _ (Store.new_enrolled _), ?_⟩
  intro job hj
  rw [start_jobs] at hj
  contradiction

theorem Posted.step {s : Server} (h : s.Posted) {a : Action} (ha : a ≠ .receive) :
    (s.step a).Posted := by
  obtain ⟨henrolled, hcounter⟩ := step_enrolled h.enrolled ha
  refine ⟨henrolled, ?_⟩
  intro job hj
  rcases s.step_jobs ha hj with hj | ⟨done, pfx, rfl⟩
  · obtain ⟨hn, hle⟩ := h.posted job hj
    exact ⟨hn, fun ch hch => (hle ch hch).trans hcounter⟩
  · refine ⟨h.enrolled.watchersToNotify_nodup _ _, ?_⟩
    intro ch hch
    exact (h.enrolled.watchersToNotify_le hch).trans hcounter

/-! ### The dispatcher in the middle of a round -/

/-- The completed round is aligned, and progress is behind the next revision. -/
structure Orderly (s : Server) (draining : Bool) : Prop extends Posted s where
  aligned : (s.settled draining).Aligned
  progress : s.thread.revWritten < s.thread.nextRev

theorem Orderly.step {s : Server} {draining : Bool} (h : s.Orderly draining) {a : Action}
    (ha : a ≠ .receive) (hk : a.keepsNumbering) : (s.step a).Orderly draining := by
  refine ⟨h.toPosted.step ha, ?_, ?_⟩
  · rw [settled_step s draining ha]
    apply h.aligned.step a
    cases a with
    | importSnapshot entries => contradiction
    | _ => rfl
  · rw [(s.step_thread ha).1]
    exact h.progress

/-- What a step of the notification thread does: it moves jobs, and sends at most
one of them. -/
structure Works (s t : Server) : Prop where
  store : ∃ rest, t.store = { s.store with notifyTx := rest }
  pending : t.pending = s.pending
  committed : t.committed = s.committed
  collected : t.collected = s.collected
  successes : t.successes = s.successes
  jobs : t.jobs.Perm s.jobs
  sends : (t.dispatched = s.dispatched ∧ t.sinks = s.sinks ∧
      t.thread.nextRev = s.thread.nextRev ∧ t.thread.revWritten < t.thread.nextRev) ∨
    ∃ job ∈ s.jobs, t.dispatched = s.dispatched ++ [job] ∧ t.sinks = doSend s.sinks job ∧
      t.thread.nextRev = s.thread.nextRev + 1 ∧ t.thread.revWritten = s.thread.revWritten

theorem takeJob_works {s : Server} (h : s.thread.revWritten < s.thread.nextRev) :
    Works s s.takeJob.1 := by
  rcases s.takeJob_cases with ⟨_, he⟩ | ⟨job, rest, hn, _, he⟩ | ⟨job, rest, hn, _, he⟩
  · rw [he]
    exact ⟨⟨_, rfl⟩, rfl, rfl, rfl, rfl, List.Perm.refl _, Or.inl ⟨rfl, rfl, rfl, h⟩⟩
  · have hpush : (ReorderBuffer.push NotifyJob.rev job s.thread.jobSpool).Perm
        (job :: s.thread.jobSpool) := ReorderBuffer.push_perm job _
    rw [he]
    refine ⟨⟨_, rfl⟩, rfl, rfl, rfl, rfl, ?_, Or.inl ⟨rfl, rfl, rfl, h⟩⟩
    simp only [jobs, hn]
    apply List.Perm.append_right
    rw [List.append_assoc, List.append_assoc]
    apply List.Perm.append_left
    exact (hpush.append_right rest).trans List.perm_middle.symm
  · have hjob : job ∈ s.jobs := by
      unfold jobs
      rw [hn]
      simp
    rw [he]
    refine ⟨⟨_, rfl⟩, rfl, rfl, rfl, rfl, ?_, Or.inr ⟨job, hjob, rfl, rfl, rfl, rfl⟩⟩
    simp only [jobs, sendNext, hn, List.append_assoc, List.cons_append, List.nil_append]
    apply List.Perm.append_left
    exact List.perm_middle.symm

theorem takeSpooled_works (s : Server) : Works s s.takeSpooled.1 := by
  rcases s.takeSpooled_cases with ⟨job, spool, hs, _, he⟩ | ⟨_, he⟩
  · have hjob : job ∈ s.jobs := by
      unfold jobs
      rw [hs]
      simp
    rw [he]
    refine ⟨⟨_, rfl⟩, rfl, rfl, rfl, rfl, ?_, Or.inr ⟨job, hjob, rfl, rfl, rfl, rfl⟩⟩
    simp only [jobs, sendNext, hs, List.append_assoc, List.cons_append, List.nil_append]
    exact List.Perm.refl _
  · rw [he]
    refine ⟨⟨_, rfl⟩, rfl, rfl, rfl, rfl, List.Perm.refl _, Or.inl ⟨rfl, rfl, rfl, ?_⟩⟩
    change s.thread.nextRev - 1 < s.thread.nextRev
    omega

theorem Works.sameCalls {s t : Server} (h : Works s t) : SameCalls s t := by
  obtain ⟨rest, hstore⟩ := h.store
  refine ⟨?_, h.pending, h.successes⟩
  rw [hstore]
  exact ⟨rfl, rfl, rfl, rfl⟩

theorem Orderly.works {s : Server} {draining : Bool} (h : s.Orderly draining) :
    Works s (s.work draining).1 := by
  cases draining with
  | false => exact takeJob_works h.progress
  | true => exact s.takeSpooled_works

theorem Orderly.work {s : Server} {draining : Bool} (h : s.Orderly draining) :
    (s.work draining).1.Orderly (s.work draining).2 := by
  have hw := h.works
  obtain ⟨rest, hstore⟩ := hw.store
  refine ⟨⟨?_, ?_⟩, ?_, ?_⟩
  · rw [hstore]
    exact h.enrolled.congr rfl rfl
  · intro job hj
    rw [hstore]
    exact h.posted job (hw.jobs.mem_iff.mp hj)
  · cases draining with
    | false => exact takeJob_aligned h.aligned
    | true => exact takeSpooled_aligned h.aligned
  · have hp := h.progress
    rcases hw.sends with ⟨_, _, _, hlt⟩ | ⟨job, _, _, _, hnext, hprog⟩
    · exact hlt
    · omega

theorem channels_setChannel_self (s : Server) (ch : ℕ) (c : WatchChannel) :
    (s.setChannel ch c).sinks.channels ch = c := Function.update_self _ _ _

theorem Orderly.setChannel {s : Server} {draining : Bool} (h : s.Orderly draining) (ch : ℕ)
    (c : WatchChannel) : (s.setChannel ch c).Orderly draining := by
  refine ⟨⟨h.enrolled, h.posted⟩, ?_, h.progress⟩
  cases draining <;> exact h.aligned.congr rfl rfl rfl rfl rfl rfl rfl

theorem Orderly.register {s : Server} {draining : Bool} (h : s.Orderly draining)
    (start endKey : Bytes) (startRev : ℤ) :
    Orderly { s with store := s.store.register start endKey startRev } draining := by
  refine ⟨⟨Store.register_enrolled h.enrolled _ _ _, ?_⟩, ?_, h.progress⟩
  · intro job hj
    obtain ⟨hn, hle⟩ := h.posted job hj
    refine ⟨hn, fun ch hch => (hle ch hch).trans ?_⟩
    change s.store.watchCounter ≤ s.store.watchCounter + 1
    omega
  · cases draining <;> exact h.aligned.congr rfl rfl rfl rfl rfl rfl rfl

theorem Orderly.unwatch {s : Server} {draining : Bool} (h : s.Orderly draining)
    (start : Bytes) (watcherId : ℤ) :
    Orderly { s with store := s.store.unwatch start watcherId } draining := by
  refine ⟨⟨Store.unwatch_enrolled h.enrolled _ _, h.posted⟩, ?_, h.progress⟩
  cases draining <;> exact h.aligned.congr rfl rfl rfl rfl rfl rfl rfl

/-! ### What the thread has sent -/

theorem Orderly.next_eq {s : Server} {draining : Bool} (h : s.Orderly draining) :
    s.thread.nextRev = s.dispatched.length + 1 := by
  have hnext := h.aligned.buffer.next_eq
  cases draining with
  | false => exact hnext
  | true =>
    have hd : (drain NotifyJob.rev s.thread.jobSpool s.thread.nextRev).2.1 =
        s.thread.nextRev + (drain NotifyJob.rev s.thread.jobSpool s.thread.nextRev).1.length :=
      ReorderBuffer.drain_next _ _
    simp only [settled, if_true, List.length_append] at hnext
    omega

/-- The jobs are sent in the order of their revisions. -/
theorem Orderly.order {s : Server} {draining : Bool} (h : s.Orderly draining) :
    s.dispatched.map NotifyJob.rev = upTo s.dispatched.length := by
  have horder := h.aligned.buffer.order
  cases draining with
  | false => exact horder
  | true =>
    simp only [settled, if_true, List.map_append, List.length_append] at horder
    have htake := congrArg (List.take s.dispatched.length) horder
    rwa [ReorderBuffer.take_upTo (Nat.le_add_right _ _), List.take_left'
      (List.length_map NotifyJob.rev)] at htake

/-- The job that is sent has the next revision. -/
theorem Orderly.sent_rev {s : Server} {draining : Bool} (h : s.Orderly draining)
    {job : NotifyJob} (hd : (s.work draining).1.dispatched = s.dispatched ++ [job]) :
    job.rev = s.thread.nextRev := by
  have horder := h.work.order
  rw [hd, List.map_append, h.order, List.length_append, List.length_singleton,
    ReorderBuffer.upTo_succ, List.append_cancel_left_eq, List.map_singleton] at horder
  rw [h.next_eq]
  exact List.singleton_inj.mp horder

theorem Orderly.announces {s : Server} {draining : Bool} (h : s.Orderly draining)
    {e : ℤ × KeyValueWithPrev}
    (he : (∃ job ∈ s.jobs, job.event = e) ∨ ∃ d ∈ s.committed, d.1.event = e) :
    ∃ c ∈ s.successes, c.event = e := by
  rw [← jobs_settled s draining] at he
  have hcommitted : (s.settled draining).committed = s.committed := by cases draining <;> rfl
  have hsuccesses : (s.settled draining).successes = s.successes := by cases draining <;> rfl
  rw [← hcommitted] at he
  rw [← hsuccesses]
  exact h.aligned.announces he

/-- A job has the revision of its message. -/
theorem Orderly.job_rev {s : Server} {draining : Bool} (h : s.Orderly draining)
    {job : NotifyJob} (hj : job ∈ s.jobs) : job.msg.kv.modRevision = job.rev := by
  obtain ⟨c, _, he⟩ := h.announces (Or.inl ⟨job, hj, rfl⟩)
  have hrev : c.value.modRevision = job.rev := congrArg Prod.fst he
  have hmsg : c.value.modRevision = job.msg.kv.modRevision :=
    congrArg (fun e => e.2.kv.modRevision) he
  rw [← hrev, hmsg]

/-! ### The numbers of the changes -/

theorem Orderly.success_rev {s : Server} {draining : Bool} (h : s.Orderly draining)
    {c : Committed} (hc : c ∈ s.successes) : c.value.modRevision = c.newRev := by
  cases draining <;> exact h.aligned.revision c hc

/-- The successful calls are numbered from 1. -/
theorem Orderly.numbered {s : Server} {draining : Bool} (h : s.Orderly draining) :
    s.successes.map (·.newRev) = upTo s.successes.length := by
  have hn : s.successes.map (·.newRev) = upTo s.store.valuesByRevision.latestRevision := by
    cases draining <;> exact h.aligned.numbered
  have hlen := congrArg List.length hn
  rw [List.length_map, ReorderBuffer.length_upTo] at hlen
  rw [hn, hlen]

theorem Orderly.newRev_bounds {s : Server} {draining : Bool} (h : s.Orderly draining)
    {c : Committed} (hc : c ∈ s.successes) : 1 ≤ c.newRev ∧ c.newRev ≤ s.successes.length := by
  have hmem : c.newRev ∈ s.successes.map (·.newRev) := List.mem_map.mpr ⟨c, hc, rfl⟩
  rw [h.numbered] at hmem
  exact ReorderBuffer.mem_upTo.mp hmem

theorem Orderly.success_unique {s : Server} {draining : Bool} (h : s.Orderly draining)
    {c d : Committed} (hc : c ∈ s.successes) (hd : d ∈ s.successes) (he : c.newRev = d.newRev) :
    c = d := by
  have hnodup : (s.successes.map (·.newRev)).Nodup := by
    rw [h.numbered]
    exact ReorderBuffer.nodup_upTo _
  exact List.inj_on_of_nodup_map hnodup hc hd he

/-- The last call has the last number. -/
theorem Orderly.newRev_last {s : Server} {draining : Bool} (h : s.Orderly draining)
    {before : List Committed} {c : Committed} (hs : s.successes = before ++ [c]) :
    c.newRev = before.length + 1 := by
  have hn := h.numbered
  rw [hs, List.length_append, List.length_singleton, ReorderBuffer.upTo_succ, List.map_append,
    List.map_singleton] at hn
  exact List.singleton_inj.mp (List.append_inj_right' hn rfl)

/-- A job, and a call that has still to build one, tells of the call with its revision. -/
theorem Orderly.event_of_rev {s : Server} {draining : Bool} (h : s.Orderly draining)
    {e : ℤ × KeyValueWithPrev}
    (he : (∃ job ∈ s.jobs, job.event = e) ∨ ∃ d ∈ s.committed, d.1.event = e)
    {c : Committed} (hc : c ∈ s.successes) (hrev : e.1 = c.newRev) : c.event = e := by
  obtain ⟨d, hd, hevent⟩ := h.announces he
  have hmod : d.value.modRevision = e.1 := congrArg Prod.fst hevent
  have hsame : d = c := by
    apply h.success_unique hd hc
    rw [← h.success_rev hd, hmod, hrev]
  rw [← hsame]
  exact hevent

/-- No two announcements under way have the same revision. -/
theorem Orderly.revs_nodup {s : Server} {draining : Bool} (h : s.Orderly draining) :
    (s.jobs.map NotifyJob.rev ++ s.committed.map (fun d => d.1.value.modRevision)).Nodup := by
  have hnodup := h.aligned.revisions.nodup_iff.mpr (ReorderBuffer.nodup_upTo _)
  have hsplit : (s.settled draining).inFlight.map Prod.fst =
      (s.settled draining).jobs.map NotifyJob.rev ++
        s.committed.map (fun d => d.1.value.modRevision) := by
    have hcommitted : (s.settled draining).committed = s.committed := by cases draining <;> rfl
    unfold inFlight jobs
    rw [hcommitted]
    simp only [List.map_append, List.map_map]
    rfl
  rw [hsplit, jobs_settled] at hnodup
  exact hnodup

/-- What is under way below the next revision has been sent. -/
theorem Orderly.dispatched_of_lt {s : Server} {draining : Bool} (h : s.Orderly draining) {n : ℤ}
    (hpos : 1 ≤ n) (hlt : n < s.thread.nextRev) :
    (∀ job ∈ s.jobs, job.rev = n → job ∈ s.dispatched) ∧
      ∀ d ∈ s.committed, d.1.value.modRevision ≠ n := by
  have hnodup := h.revs_nodup
  have hsent : n ∈ s.dispatched.map NotifyJob.rev := by
    rw [h.order, ReorderBuffer.mem_upTo]
    have hnext := h.next_eq
    omega
  obtain ⟨job, hjob, hrev⟩ := List.mem_map.mp hsent
  have hmem := mem_jobs_of_dispatched hjob
  have hsplit := List.nodup_append.mp hnodup
  constructor
  · intro other hother hn
    have hsame : other = job := List.inj_on_of_nodup_map hsplit.1 hother hmem (hn.trans hrev.symm)
    rw [hsame]
    exact hjob
  · intro d hd hn
    apply hsplit.2.2 n _ n _ rfl
    · exact List.mem_map.mpr ⟨job, hmem, hrev⟩
    · exact List.mem_map.mpr ⟨d, hd, hn⟩

/-- The events that were sent to a channel, received or not. -/
def feed (s : Server) (ch : ℕ) : List KeyValueWithPrev :=
  (s.dispatched.filter (fun job => decide (ch ∈ job.watchers))).map NotifyJob.msg

theorem feed_of_send {s t : Server} {job : NotifyJob} (h : t.dispatched = s.dispatched ++ [job])
    (ch : ℕ) : t.feed ch = s.feed ch ++ if ch ∈ job.watchers then [job.msg] else [] := by
  unfold feed
  rw [h, List.filter_append, List.map_append]
  by_cases hch : ch ∈ job.watchers <;> simp [hch]

theorem feed_of_same {s t : Server} (h : t.dispatched = s.dispatched) (ch : ℕ) :
    t.feed ch = s.feed ch := by
  unfold feed
  rw [h]

theorem Orderly.feed_sorted {s : Server} {draining : Bool} (h : s.Orderly draining) (ch : ℕ) :
    (s.feed ch).Pairwise (fun a b => a.kv.modRevision < b.kv.modRevision) := by
  have hsorted : s.dispatched.Pairwise (fun a b => a.rev < b.rev) := by
    rw [← List.pairwise_map, h.order]
    exact ReorderBuffer.sorted_upTo _
  unfold feed
  rw [List.pairwise_map]
  apply List.Pairwise.filter
  apply hsorted.imp_of_mem
  intro a b ha hb hlt
  rw [h.job_rev (mem_jobs_of_dispatched ha), h.job_rev (mem_jobs_of_dispatched hb)]
  exact hlt

end Server

/-- `do_send` reaches the channels of the job. -/
theorem channels_doSend (sinks : Sinks) {job : NotifyJob} (h : job.watchers.Nodup) (ch : ℕ) :
    (doSend sinks job).channels ch =
      if ch ∈ job.watchers then (sinks.channels ch).trySend job.msg else sinks.channels ch := by
  have hloop (watchers : List ℕ) (chs : ℕ → WatchChannel) (hn : watchers.Nodup) :
      watchers.foldl (fun chs w => Function.update chs w ((chs w).trySend job.msg)) chs ch =
        if ch ∈ watchers then (chs ch).trySend job.msg else chs ch := by
    induction watchers generalizing chs with
    | nil => rfl
    | cons w watchers ih =>
      obtain ⟨hw, hn⟩ := List.nodup_cons.mp hn
      rw [List.foldl_cons, ih _ hn]
      by_cases he : ch = w
      · rw [he, if_neg hw, if_pos List.mem_cons_self, Function.update_self]
      · rw [Function.update_of_ne he]
        simp only [List.mem_cons, he, false_or]
  exact hloop job.watchers sinks.channels h

/-- Sends do not close a channel. -/
theorem closed_doSend (sinks : Sinks) {job : NotifyJob} (h : job.watchers.Nodup) (ch : ℕ) :
    ((doSend sinks job).channels ch).closed = (sinks.channels ch).closed := by
  rw [channels_doSend sinks h]
  unfold WatchChannel.trySend
  split_ifs <;> rfl

/-- A send adds nothing but its own message. -/
theorem mem_buffer_doSend {sinks : Sinks} {job : NotifyJob} (h : job.watchers.Nodup) {ch : ℕ}
    {c : KeyValueWithPrev} (hc : c ∈ ((doSend sinks job).channels ch).buffer) :
    c ∈ (sinks.channels ch).buffer ∨ c = job.msg := by
  rw [channels_doSend sinks h] at hc
  unfold WatchChannel.trySend at hc
  split_ifs at hc
  · exact Or.inl hc
  · rcases List.mem_append.mp hc with hc | hc
    · exact Or.inl hc
    · exact Or.inr (List.mem_singleton.mp hc)
  · exact Or.inl hc
  · exact Or.inl hc

end MemEtcd
