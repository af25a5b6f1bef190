import MemEtcd.ServerSteps

/-! The notification thread keeps up with the store as long as its counter of
the next revision is the revision of the store: nothing but the jobs themselves
moves that counter. -/
namespace MemEtcd

open ReorderBuffer (upTo)

def NotifyJob.event (job : NotifyJob) : ℤ × KeyValueWithPrev := (job.rev, job.msg)

def Committed.event (c : Committed) : ℤ × KeyValueWithPrev :=
  (c.value.modRevision,
    ⟨asMvccKeyValue c.value c.key, c.oldValue.map (fun v => asMvccKeyValue v c.key)⟩)

/-! ### Steps that do not concern the dispatcher -/

namespace Store

theorem foldl_replayRecord_notifyTx (records : List WalRecord) (s : Store) :
    (records.foldl replayRecord s).notifyTx = s.notifyTx := by
  induction records generalizing s with
  | nil => rfl
  | cons rec records ih =>
    rw [List.foldl_cons, ih]
    exact (setForReplay_sameNotify s rec.key rec.value).notifyTx

end Store

namespace Server

/-- The announcements under way, from the oldest stage to the newest. -/
def inFlight (s : Server) : List (ℤ × KeyValueWithPrev) :=
  s.dispatched.map NotifyJob.event ++ s.thread.jobSpool.map NotifyJob.event ++
    s.store.notifyTx.map NotifyJob.event ++ s.collected.map NotifyJob.event ++
    s.committed.map (fun c => c.1.event)

/-- The store has numbered its successful calls from 1, each of them is under
way exactly once, and the thread has released the first ones in order. -/
structure Aligned (s : Server) : Prop where
  numbered : s.successes.map (·.newRev) = upTo s.store.valuesByRevision.latestRevision
  revision : ∀ c ∈ s.successes, c.value.modRevision = c.newRev
  accounted : (s.successes.map Committed.event).Perm s.inFlight
  buffer : ReorderBuffer.Inv NotifyJob.rev (s.dispatched ++ s.thread.jobSpool) s.dispatched
    s.thread.jobSpool s.thread.nextRev
  progress : s.thread.revWritten = s.thread.nextRev - 1

theorem start_aligned (wal : Option WalManager) (records : List WalRecord)
    (h : (start wal records).store.currentRevision = 0) : (start wal records).Aligned := by
  have hn : (start wal records).store.notifyTx = [] :=
    Store.foldl_replayRecord_notifyTx records (Store.new _)
  have hz : (start wal records).store.valuesByRevision.latestRevision = 0 := by
    unfold Store.currentRevision at h
    omega
  refine ⟨?_, ?_, ?_, ReorderBuffer.inv_nil _, rfl⟩
  · rw [hz]
    rfl
  · intro c hc
    contradiction
  · unfold inFlight
    rw [hn]
    exact List.Perm.refl _

/-- Steps that touch neither the calls nor the dispatcher. -/
theorem Aligned.congr {s s' : Server} (h : s.Aligned)
    (hl : s'.store.valuesByRevision.latestRevision = s.store.valuesByRevision.latestRevision)
    (hn : s'.store.notifyTx = s.store.notifyTx) (hc : s'.committed = s.committed)
    (hd : s'.collected = s.collected) (ht : s'.thread = s.thread)
    (hs : s'.successes = s.successes) (hp : s'.dispatched = s.dispatched) : s'.Aligned := by
  refine ⟨?_, ?_, ?_, ?_, ?_⟩
  · rw [hs, hl]
    exact h.numbered
  · rw [hs]
    exact h.revision
  · unfold inFlight
    rw [hs, hp, ht, hn, hd, hc]
    exact h.accounted
  · rw [hp, ht]
    exact h.buffer
  · rw [ht]
    exact h.progress

/-- The revisions under way are the numbers that the store has given out. -/
theorem Aligned.revisions {s : Server} (h : s.Aligned) :
    (s.inFlight.map Prod.fst).Perm (upTo s.store.valuesByRevision.latestRevision) := by
  have hmap : s.successes.map (fun c => c.event.1) = s.successes.map (·.newRev) :=
    List.map_congr_left h.revision
  rw [← h.numbered, ← hmap]
  have := (h.accounted.map Prod.fst).symm
  rwa [List.map_map] at this

theorem Aligned.enter {s : Server} (h : s.Aligned) (c : Call) : (s.enter c).Aligned := by
  have hd := s.enter_sameDispatch c
  exact h.congr (congrArg BlockDeque.latestRevision (s.store.entry_valuesByRevision c.key))
    hd.notify.notifyTx rfl rfl rfl rfl rfl

theorem Aligned.index {s : Server} (h : s.Aligned) (i : ℕ) : (s.index i).Aligned := by
  rcases s.index_cases i with he | ⟨p, _, _, he⟩
  · rw [he]
    exact h
  · rw [he]
    exact h.congr rfl rfl rfl rfl rfl rfl rfl

theorem Aligned.lock {s : Server} (h : s.Aligned) (i : ℕ) : (s.lock i).Aligned := by
  rcases s.lock_cases i with he | ⟨p, _, _, ⟨kv, _, he⟩ | ⟨done, hdone, he⟩⟩
  · rw [he]
    exact h
  · rw [he]
    exact h.congr rfl rfl rfl rfl rfl rfl rfl
  · -- the new success has the next number and waits to be collected
    obtain ⟨hrev, _, hmod, hv⟩ := PendingCall.locked_done hdone
    have hn := (p.locked_sameNotify s.store).notifyTx
    rw [he]
    refine ⟨?_, ?_, ?_, h.buffer, h.progress⟩
    · dsimp only
      rw [hv, latestRevision_commitValue, ReorderBuffer.upTo_succ, List.map_append, h.numbered,
        List.map_singleton, hrev]
    · intro d hd
      rcases List.mem_append.mp hd with hd | hd
      · exact h.revision d hd
      · rw [List.mem_singleton.mp hd]
        exact hmod
    · unfold inFlight
      dsimp only
      rw [hn, List.map_append, List.map_append, ← List.append_assoc]
      exact h.accounted.append_right _

theorem perm_move {α : Type} {x : α} {from' rest : List α} (front into : List α)
    (h : from'.Perm (x :: rest)) :
    (front ++ into ++ from').Perm (front ++ (into ++ [x]) ++ rest) := by
  have := h.append_left (front ++ into)
  simpa only [List.append_assoc, List.singleton_append] using this

theorem Aligned.collect {s : Server} (h : s.Aligned) (i : ℕ) : (s.collect i).Aligned := by
  unfold Server.collect
  cases hi : s.committed[i]? with
  | none => exact h
  | some done =>
    obtain ⟨done, pfx⟩ := done
    refine ⟨h.numbered, h.revision, h.accounted.trans ?_, h.buffer, h.progress⟩
    have herase : (s.committed.map (fun c => c.1.event)).Perm
        (done.event :: (s.committed.eraseIdx i).map (fun c => c.1.event)) :=
      (perm_eraseIdx hi).map (fun c => c.1.event)
    unfold inFlight
    rw [List.map_append]
    exact perm_move _ _ herase

theorem Aligned.send {s : Server} (h : s.Aligned) (i : ℕ) : (s.send i).Aligned := by
  unfold Server.send
  cases hi : s.collected[i]? with
  | none => exact h
  | some job =>
    refine ⟨h.numbered, h.revision, h.accounted.trans ?_, h.buffer, h.progress⟩
    have herase : (s.collected.map NotifyJob.event).Perm
        (job.event :: (s.collected.eraseIdx i).map NotifyJob.event) :=
      (perm_eraseIdx hi).map NotifyJob.event
    unfold inFlight
    rw [List.map_append]
    exact (perm_move _ _ herase).append_right _

/-- A job in the channel has a number of its own. -/
theorem Aligned.fresh {s : Server} (h : s.Aligned) {job : NotifyJob} {rest : List NotifyJob}
    (hn : s.store.notifyTx = job :: rest) :
    1 ≤ job.rev ∧ job.rev ∉ (s.dispatched ++ s.thread.jobSpool).map NotifyJob.rev := by
  have hrev := h.revisions
  have hnodup := hrev.nodup_iff.mpr (ReorderBuffer.nodup_upTo _)
  have hsplit : s.inFlight.map Prod.fst =
      (s.dispatched ++ s.thread.jobSpool).map NotifyJob.rev ++ (job.rev :: (rest.map NotifyJob.rev ++
        s.collected.map NotifyJob.rev ++ s.committed.map (fun c => c.1.event.1))) := by
    unfold inFlight
    rw [hn]
    simp only [List.map_append, List.map_map, List.map_cons, List.append_assoc, List.cons_append]
    rfl
  rw [hsplit] at hrev hnodup
  constructor
  · have hmem := hrev.mem_iff.mp (List.mem_append_right _ List.mem_cons_self)
    exact (ReorderBuffer.mem_upTo.mp hmem).1
  · intro hmem
    exact (List.nodup_append.mp hnodup).2.2 _ hmem _ List.mem_cons_self rfl

theorem Aligned.receive {s : Server} (h : s.Aligned) : s.receive.Aligned := by
  unfold Server.receive
  cases hn : s.store.notifyTx with
  | nil => exact h
  | cons job rest =>
    obtain ⟨hpos, hfresh⟩ := h.fresh hn
    have hnext := h.buffer.next_le hpos hfresh
    have hacc := h.accounted
    unfold inFlight at hacc
    rw [hn, List.map_cons] at hacc
    -- in both cases the buffer accounts for the job
    have hmove : ∀ {sent spool : List NotifyJob},
        (s.dispatched ++ s.thread.jobSpool ++ [job]).Perm (sent ++ spool) →
        (s.successes.map Committed.event).Perm (sent.map NotifyJob.event ++
          spool.map NotifyJob.event ++ rest.map NotifyJob.event ++
          s.collected.map NotifyJob.event ++ s.committed.map (fun c => c.1.event)) := by
      intro sent spool hp
      have hp' := hp.map NotifyJob.event
      simp only [List.map_append, List.map_cons, List.map_nil] at hp'
      refine hacc.trans ?_
      refine List.Perm.append_right _ (List.Perm.append_right _ ?_)
      have := hp'.append_right (rest.map NotifyJob.event)
      simpa only [List.append_assoc, List.singleton_append] using this
    unfold NotifyThread.receive
    dsimp only
    by_cases hlt : job.rev > s.thread.nextRev
    · rw [if_pos hlt]
      have hb := h.buffer.push hlt hfresh
      refine ⟨h.numbered, h.revision, ?_, ?_, h.progress⟩
      · unfold inFlight
        dsimp only
        rw [List.append_nil]
        exact hmove hb.perm
      · dsimp only
        rw [List.append_nil]
        exact hb.normalize
    · rw [if_neg hlt]
      have hb := h.buffer.release (le_antisymm (not_lt.mp hlt) hnext)
      exact ⟨h.numbered, h.revision, hmove hb.perm, hb.normalize, rfl⟩

theorem Aligned.step {s : Server} (h : s.Aligned) (a : Action) (hi : s.keepsRevision a) :
    (s.step a).Aligned := by
  cases a with
  | enter c => exact h.enter c
  | index i => exact h.index i
  | lock i => exact h.lock i
  | collect i => exact h.collect i
  | send i => exact h.send i
  | receive => exact h.receive
  | watch startKey endKey rev wantPrevKv =>
    rcases s.store.watch_store startKey endKey rev wantPrevKv with he | ⟨startRev, he⟩
    · exact h.congr (congrArg (·.valuesByRevision.latestRevision) he) (congrArg (·.notifyTx) he)
        rfl rfl rfl rfl rfl
    · exact h.congr (congrArg (·.valuesByRevision.latestRevision) he) (congrArg (·.notifyTx) he)
        rfl rfl rfl rfl rfl
  | unwatch startKey watcherId => exact h.congr rfl rfl rfl rfl rfl rfl rfl
  | takeEvent ch => exact h.congr rfl rfl rfl rfl rfl rfl rfl
  | dropReceiver ch => exact h.congr rfl rfl rfl rfl rfl rfl rfl
  | compact rev =>
    exact h.congr (s.store.compact_latest rev) (s.store.compact_sameNotify rev).notifyTx
      rfl rfl rfl rfl rfl
  | importSnapshot entries =>
    have hrev : Store.maxModRev entries = s.store.currentRevision := of_decide_eq_true hi
    have hl := s.store.importSnapshotData_latest entries
    unfold Store.currentRevision at hrev
    refine h.congr ?_ (s.store.importSnapshotData_sameNotify entries).notifyTx rfl rfl rfl rfl rfl
    exact hl.trans (by omega)
  | writeWal pfx ticks fails => exact h.congr rfl rfl rfl rfl rfl rfl rfl

theorem Aligned.run {s : Server} (h : s.Aligned) (actions : List Action)
    (hi : importsKeepRevision s actions) : (s.run actions).Aligned := by
  induction actions generalizing s with
  | nil => exact h
  | cons a actions ih =>
    obtain ⟨ha, hrest⟩ := (Bool.and_eq_true _ _).mp hi
    exact ih (h.step a ha) hrest

/-- The dispatcher is done: nothing is spooled, the jobs of all successful calls
were handed to `do_send` once each in the order of their revisions, and progress
is the current revision. -/
structure KeptUp (s : Server) : Prop where
  spool : s.thread.jobSpool = []
  announced : s.dispatched.map NotifyJob.event = s.successes.map Committed.event
  inOrder : s.dispatched.map NotifyJob.rev = upTo s.store.valuesByRevision.latestRevision
  progress : s.thread.revWritten = s.store.currentRevision

/-- At rest an aligned dispatcher has announced every successful call. -/
theorem Aligned.keptUp {s : Server} (h : s.Aligned) (hq : s.Quiescent) : s.KeptUp := by
  obtain ⟨hc, hd, hn⟩ := hq
  have hfl : s.inFlight = (s.dispatched ++ s.thread.jobSpool).map NotifyJob.event := by
    unfold inFlight
    rw [hc, hd, hn, List.map_append]
    simp
  have hrevs := h.revisions
  rw [hfl, List.map_map] at hrevs
  obtain ⟨hspool, hlen⟩ := h.buffer.complete hrevs
  refine ⟨hspool, ?_, by rw [h.buffer.order, hlen], ?_⟩
  · -- both lists are in the order of their revisions
    have hacc := h.accounted
    rw [hfl, hspool, List.append_nil] at hacc
    apply ReorderBuffer.eq_of_numbered Prod.fst hacc.symm (n := s.dispatched.length)
    · rw [List.map_map]
      exact h.buffer.order
    · have hmap : s.successes.map (fun c => c.event.1) = s.successes.map (·.newRev) :=
        List.map_congr_left h.revision
      rw [List.map_map, hlen, ← h.numbered, ← hmap]
      rfl
  · have hnext := h.buffer.next_eq
    rw [h.progress, hnext, hlen]
    unfold Store.currentRevision
    omega

end Server
end MemEtcd
