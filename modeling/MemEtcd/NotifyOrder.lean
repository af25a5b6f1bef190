import MemEtcd.WatchDispatch

/-! The notification thread puts the jobs in order. The revisions of its jobs are
distinct and positive, their order of arrival is arbitrary: a call of `set` enqueues
its job after it has released the lock of its item. -/
namespace MemEtcd

open ReorderBuffer (upTo)

namespace NotifyThread

/-- The thread once `jobs` have arrived one after the other, and the jobs it has
passed to `do_send` by then. -/
def receiveAll (t : NotifyThread) (jobs : List NotifyJob) : NotifyThread × List NotifyJob :=
  jobs.foldl (fun p job => ((p.1.receive job).1, p.2 ++ (p.1.receive job).2)) (t, [])

theorem receiveAll_concat (t : NotifyThread) (jobs : List NotifyJob) (job : NotifyJob) :
    t.receiveAll (jobs ++ [job]) =
      (((t.receiveAll jobs).1.receive job).1,
        (t.receiveAll jobs).2 ++ ((t.receiveAll jobs).1.receive job).2) := by
  unfold receiveAll
  rw [List.foldl_append]
  rfl

/-- The thread is between two rounds: its spool and counter are those of a reorder
buffer, and all it has sent is published as progress. -/
structure Settled (t : NotifyThread) (arrived dispatched : List NotifyJob) : Prop where
  buffer : ReorderBuffer.Inv NotifyJob.rev arrived dispatched t.jobSpool t.nextRev
  progress : t.revWritten = t.nextRev - 1

theorem Settled.receive {t : NotifyThread} {arrived dispatched : List NotifyJob}
    (h : t.Settled arrived dispatched) {job : NotifyJob} (hpos : 1 ≤ job.rev)
    (hnew : job.rev ∉ arrived.map NotifyJob.rev) :
    (t.receive job).1.Settled (arrived ++ [job]) (dispatched ++ (t.receive job).2) := by
  have hnext := h.buffer.next_le hpos hnew
  unfold NotifyThread.receive
  by_cases hlt : job.rev > t.nextRev
  · rw [if_pos hlt, List.append_nil]
    exact ⟨h.buffer.push hlt hnew, h.progress⟩
  · rw [if_neg hlt]
    exact ⟨h.buffer.release (le_antisymm (not_lt.mp hlt) hnext), rfl⟩

/-- Every round keeps the order, so any sequence of arrivals does. -/
theorem settled_receiveAll {jobs : List NotifyJob} (hd : (jobs.map NotifyJob.rev).Nodup)
    (hp : ∀ job ∈ jobs, 1 ≤ job.rev) :
    (new.receiveAll jobs).1.Settled jobs (new.receiveAll jobs).2 := by
  induction jobs using List.reverseRecOn with
  | nil => exact ⟨ReorderBuffer.inv_nil _, rfl⟩
  | append_singleton jobs job ih =>
    rw [List.map_append, List.map_singleton] at hd
    obtain ⟨hd, -, hnew⟩ := List.nodup_append.mp hd
    have hnot : job.rev ∉ jobs.map NotifyJob.rev :=
      fun hm => hnew _ hm _ List.mem_cons_self rfl
    have hprev := ih hd (fun j hj => hp j (List.mem_append_left _ hj))
    rw [receiveAll_concat]
    exact hprev.receive (hp job (List.mem_append_right _ List.mem_cons_self)) hnot

end NotifyThread

namespace Server

/-- The notification thread takes `n` steps, the other threads none. -/
def works (s : Server) (n : ℕ) : Server × Bool := (fun p => p.1.work p.2)^[n] (s, false)

theorem works_succ (s : Server) (n : ℕ) :
    s.works (n + 1) = (s.works n).1.work (s.works n).2 :=
  Function.iterate_succ_apply' _ n (s, false)

/-- The thread is somewhere in a round, of which the arrival of `arrived` was the
beginning: completed, the round leads to where `receiveAll` is. -/
structure InRound (arrived : List NotifyJob) (s : Server) (draining : Bool) : Prop where
  thread : (s.settled draining).thread = (NotifyThread.new.receiveAll arrived).1
  sent : (s.settled draining).dispatched = (NotifyThread.new.receiveAll arrived).2
  progress : s.thread.revWritten < s.thread.nextRev

/-- The first job of the channel arrives and its round begins. -/
theorem InRound.takeJob {arrived rest : List NotifyJob} {job : NotifyJob} {s : Server}
    (h : InRound arrived s false) (hn : s.store.notifyTx = job :: rest) :
    InRound (arrived ++ [job]) s.takeJob.1 s.takeJob.2 ∧ s.takeJob.1.store.notifyTx = rest := by
  have hthread : s.thread = (NotifyThread.new.receiveAll arrived).1 := h.thread
  have hsent : s.dispatched = (NotifyThread.new.receiveAll arrived).2 := h.sent
  obtain ⟨ht, hd, -⟩ := s.takeJob_settled
  have hprogress := h.progress
  refine ⟨⟨?_, ?_, ?_⟩, ?_⟩
  · rw [ht, NotifyThread.receiveAll_concat, ← hthread]
    simp only [receive, hn]
  · rw [hd, NotifyThread.receiveAll_concat, ← hthread, ← hsent]
    simp only [receive, hn]
  · rcases s.takeJob_cases with ⟨_, he⟩ | ⟨_, _, _, _, he⟩ | ⟨_, _, _, _, he⟩
    · rw [he]
      exact hprogress
    · rw [he]
      exact hprogress
    · rw [he]
      exact hprogress.trans (lt_add_one _)
  · simp only [Server.takeJob, hn]
    split_ifs <;> rfl

/-- A look at the spool stays in the round. -/
theorem InRound.takeSpooled {arrived : List NotifyJob} {s : Server} (h : InRound arrived s true) :
    InRound arrived s.takeSpooled.1 s.takeSpooled.2 ∧
      s.takeSpooled.1.store.notifyTx = s.store.notifyTx := by
  obtain ⟨ht, hd, hs⟩ := s.takeSpooled_settled
  have hprogress := h.progress
  refine ⟨⟨ht.trans h.thread, hd.trans h.sent, ?_⟩, by rw [hs]⟩
  rcases s.takeSpooled_cases with ⟨_, _, _, _, he⟩ | ⟨_, he⟩
  · rw [he]
    exact hprogress.trans (lt_add_one _)
  · rw [he]
    exact sub_one_lt s.thread.nextRev

/-- A job counts as arrived once the thread has taken it out of the channel. -/
theorem inRound_works {s : Server} {jobs : List NotifyJob} (ht : s.thread = NotifyThread.new)
    (hd : s.dispatched = []) (hn : s.store.notifyTx = jobs) (n : ℕ) :
    ∃ k, (s.works n).1.store.notifyTx = jobs.drop k ∧
      InRound (jobs.take k) (s.works n).1 (s.works n).2 := by
  induction n with
  | zero =>
    refine ⟨0, hn, ht, hd, ?_⟩
    have hstart : s.thread.revWritten < s.thread.nextRev := by
      rw [ht]
      exact zero_lt_one
    exact hstart
  | succ n ih =>
    obtain ⟨k, hleft, hround⟩ := ih
    rw [works_succ]
    generalize s.works n = p at hleft hround
    obtain ⟨t, draining⟩ := p
    cases draining with
    | true =>
      obtain ⟨hround, hsame⟩ := hround.takeSpooled
      exact ⟨k, hsame.trans hleft, hround⟩
    | false =>
      dsimp only at hleft hround
      change ∃ k, t.takeJob.1.store.notifyTx = _ ∧ InRound _ t.takeJob.1 t.takeJob.2
      cases hjobs : jobs.drop k with
      | nil =>
        have hnone : t.takeJob = (t, false) := by simp only [Server.takeJob, hleft, hjobs]
        rw [hnone]
        exact ⟨k, hleft, hround⟩
      | cons job rest =>
        obtain ⟨hround, hrest⟩ := hround.takeJob (hleft.trans hjobs)
        have hk : k < jobs.length := by
          by_contra hge
          rw [List.drop_eq_nil_of_le (not_lt.mp hge)] at hjobs
          contradiction
        have hcons := List.drop_eq_getElem_cons hk
        rw [hjobs] at hcons
        refine ⟨k + 1, ?_, ?_⟩
        · rw [hrest]
          exact (List.cons.inj hcons).2
        · rw [List.take_succ_eq_append_getElem hk, ← (List.cons.inj hcons).1]
          exact hround

/-- What the thread has sent in the middle of a round is an initial part of what the
round sends, and its progress does not run ahead of it. -/
theorem InRound.behind {arrived : List NotifyJob} {s : Server} {draining : Bool}
    (h : InRound arrived s draining)
    (hs : (NotifyThread.new.receiveAll arrived).1.Settled arrived
      (NotifyThread.new.receiveAll arrived).2) :
    s.dispatched <+: (NotifyThread.new.receiveAll arrived).2 ∧
      s.thread.revWritten ≤ s.dispatched.length := by
  have hthread := h.thread
  have hsent := h.sent
  have hnext := hs.buffer.next_eq
  have hprogress := h.progress
  rw [← hthread, ← hsent] at hnext
  rw [← hsent]
  cases draining with
  | false =>
    refine ⟨List.prefix_refl _, ?_⟩
    change s.thread.nextRev = s.dispatched.length + 1 at hnext
    omega
  | true =>
    refine ⟨List.prefix_append _ _, ?_⟩
    -- every job that is still to be sent takes a number
    have hdrain := @ReorderBuffer.drain_next _ NotifyJob.rev s.thread.jobSpool s.thread.nextRev
    simp only [settled, if_true] at hnext
    rw [List.length_append] at hnext
    omega

end Server

/-- For jobs with distinct positive revisions, in whatever order they arrive, the
thread has sent the jobs of the revisions from 1 to `m` in this order, the others
wait in its spool, and its progress is `m`: the largest number such that all
revisions up to it have arrived. In the middle of a round it is on the way there. -/
theorem notify_thread_reorders {jobs : List NotifyJob} (hd : (jobs.map NotifyJob.rev).Nodup)
    (hp : ∀ job ∈ jobs, 1 ≤ job.rev) :
    (∃ m : ℕ, IsGreatest {m : ℕ | ∀ r ∈ upTo m, r ∈ jobs.map NotifyJob.rev} m ∧
      (NotifyThread.new.receiveAll jobs).2.map NotifyJob.rev = upTo m ∧
      (NotifyThread.new.receiveAll jobs).2.Perm (jobs.filter (fun job => job.rev ≤ m)) ∧
      (NotifyThread.new.receiveAll jobs).1.jobSpool.Perm
        (jobs.filter (fun job => (m : ℤ) < job.rev)) ∧
      (NotifyThread.new.receiveAll jobs).1.revWritten = m) ∧
    ∀ s : Server, s.thread = NotifyThread.new → s.dispatched = [] → s.store.notifyTx = jobs →
      ∀ n, ∃ k, (s.works n).1.store.notifyTx = jobs.drop k ∧
        ((s.works n).2 = false → ((s.works n).1.thread, (s.works n).1.dispatched) =
          NotifyThread.new.receiveAll (jobs.take k)) ∧
        (s.works n).1.dispatched <+: (NotifyThread.new.receiveAll (jobs.take k)).2 ∧
        (s.works n).1.thread.revWritten ≤ (s.works n).1.dispatched.length := by
  constructor
  · have hs := NotifyThread.settled_receiveAll hd hp
    have hnext := hs.buffer.next_eq
    refine ⟨_, hs.buffer.greatest, hs.buffer.order, hs.buffer.split.1, hs.buffer.split.2, ?_⟩
    rw [hs.progress]
    omega
  · intro s ht hsent hn n
    obtain ⟨k, hleft, hround⟩ := Server.inRound_works ht hsent hn n
    -- the jobs that have arrived so far are as good as all of them
    have hdk : ((jobs.take k).map NotifyJob.rev).Nodup :=
      hd.sublist ((List.take_sublist k jobs).map NotifyJob.rev)
    have hs := NotifyThread.settled_receiveAll hdk (fun job hj => hp job (List.mem_of_mem_take hj))
    obtain ⟨hbehind, hprogress⟩ := hround.behind hs
    refine ⟨k, hleft, ?_, hbehind, hprogress⟩
    intro hsettled
    rw [hsettled] at hround
    exact Prod.ext hround.thread hround.sent

def plainJob (rev : ℤ) : NotifyJob := ⟨rev, [], ⟨⟨[], [], rev, rev, 1, 0⟩, none⟩, [], false⟩

theorem notify_thread_reorders_gap :
    ([plainJob 2, plainJob 4, plainJob 1].map NotifyJob.rev).Nodup ∧
      ∃ m : ℕ, IsGreatest {m : ℕ | ∀ r ∈ upTo m,
          r ∈ [plainJob 2, plainJob 4, plainJob 1].map NotifyJob.rev} m ∧
        (NotifyThread.new.receiveAll [plainJob 2, plainJob 4, plainJob 1]).1.revWritten = m := by
  have hd : ([plainJob 2, plainJob 4, plainJob 1].map NotifyJob.rev).Nodup := by decide
  have hp : ∀ job ∈ [plainJob 2, plainJob 4, plainJob 1], 1 ≤ job.rev := by decide
  obtain ⟨m, hm, _, _, _, hprogress⟩ := (notify_thread_reorders hd hp).1
  exact ⟨hd, m, hm, hprogress⟩

example : (NotifyThread.new.receiveAll [plainJob 2, plainJob 4, plainJob 1]).1.revWritten = 2 := by
  decide

end MemEtcd
