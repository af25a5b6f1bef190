import MemEtcd.WatchDispatch

/-! Watchers do not disturb each other. The dispatcher drops an event for a channel that is
full instead of waiting. So whatever the receivers of other channels do, a watcher gets the
same events, and the store, the WAL and the progress are the same. -/
namespace MemEtcd

namespace Server

/-- The action is not that of the receiver of another channel. -/
def concerns (ch : ℕ) : Action → Bool
  | .takeEvent other => decide (other = ch)
  | .dropReceiver other => decide (other = ch)
  | _ => true

/-- The servers differ at most in the channels other than `ch`. -/
structure Alike (ch : ℕ) (s t : Server) : Prop where
  store : s.store = t.store
  pending : s.pending = t.pending
  committed : s.committed = t.committed
  collected : s.collected = t.collected
  thread : s.thread = t.thread
  wal : s.sinks.wal = t.sinks.wal
  channel : s.sinks.channels ch = t.sinks.channels ch
  successes : s.successes = t.successes
  dispatched : s.dispatched = t.dispatched

variable {ch : ℕ} {s t : Server}

theorem Alike.refl (s : Server) : Alike ch s s := ⟨rfl, rfl, rfl, rfl, rfl, rfl, rfl, rfl, rfl⟩

theorem Alike.symm (h : Alike ch s t) : Alike ch t s :=
  ⟨h.store.symm, h.pending.symm, h.committed.symm, h.collected.symm, h.thread.symm, h.wal.symm,
    h.channel.symm, h.successes.symm, h.dispatched.symm⟩

theorem Alike.trans {u : Server} (h : Alike ch s t) (h' : Alike ch t u) : Alike ch s u :=
  ⟨h.store.trans h'.store, h.pending.trans h'.pending, h.committed.trans h'.committed,
    h.collected.trans h'.collected, h.thread.trans h'.thread, h.wal.trans h'.wal,
    h.channel.trans h'.channel, h.successes.trans h'.successes, h.dispatched.trans h'.dispatched⟩

/-- What a job puts into a channel depends on this channel only. -/
theorem channel_of_sends {chs chs' : ℕ → WatchChannel} (h : chs ch = chs' ch)
    (msg : KeyValueWithPrev) (watchers : List ℕ) :
    watchers.foldl (fun chs w => Function.update chs w ((chs w).trySend msg)) chs ch =
      watchers.foldl (fun chs w => Function.update chs w ((chs w).trySend msg)) chs' ch := by
  induction watchers generalizing chs chs' with
  | nil => exact h
  | cons w watchers ih =>
    rw [List.foldl_cons, List.foldl_cons]
    apply ih
    rw [Function.update_apply, Function.update_apply]
    split_ifs with hw
    · rw [← hw, h]
    · exact h

theorem sinks_of_jobs {a b : Sinks} (hwal : a.wal = b.wal) (hch : a.channels ch = b.channels ch)
    (jobs : List NotifyJob) :
    (jobs.foldl doSend a).wal = (jobs.foldl doSend b).wal ∧
      (jobs.foldl doSend a).channels ch = (jobs.foldl doSend b).channels ch := by
  induction jobs generalizing a b with
  | nil => exact ⟨hwal, hch⟩
  | cons job jobs ih =>
    rw [List.foldl_cons, List.foldl_cons]
    apply ih
    · unfold doSend
      rw [hwal]
    · exact channel_of_sends hch job.msg job.watchers

/-- A step of the receiver of another channel. -/
theorem step_elsewhere (s : Server) {a : Action} (ha : concerns ch a = false) :
    Alike ch (s.step a) s := by
  cases a with
  | takeEvent other =>
    have hne : ch ≠ other := Ne.symm (of_decide_eq_false ha)
    exact ⟨rfl, rfl, rfl, rfl, rfl, rfl, Function.update_of_ne hne .., rfl, rfl⟩
  | dropReceiver other =>
    have hne : ch ≠ other := Ne.symm (of_decide_eq_false ha)
    exact ⟨rfl, rfl, rfl, rfl, rfl, rfl, Function.update_of_ne hne .., rfl, rfl⟩
  | _ => contradiction

/-- Any other step keeps two servers alike. -/
theorem Alike.step (h : Alike ch s t) (a : Action) : Alike ch (s.step a) (t.step a) := by
  obtain ⟨hstore, hpending, hcommitted, hcollected, hthread, hwal, hch, hsuccesses,
    hdispatched⟩ := h
  cases a with
  | enter c =>
    simp only [Server.step, Server.enter, hstore]
    exact ⟨rfl, by rw [hpending], hcommitted, hcollected, hthread, hwal, hch, hsuccesses,
      hdispatched⟩
  | index i =>
    simp only [Server.step, Server.index, hpending]
    split
    · exact ⟨hstore, hpending, hcommitted, hcollected, hthread, hwal, hch, hsuccesses, hdispatched⟩
    · split_ifs
      · exact ⟨hstore, hpending, hcommitted, hcollected, hthread, hwal, hch, hsuccesses,
          hdispatched⟩
      · exact ⟨by rw [hstore], rfl, hcommitted, hcollected, hthread, hwal, hch, hsuccesses,
          hdispatched⟩
  | lock i =>
    simp only [Server.step, Server.lock, hpending, hstore]
    split
    · exact ⟨hstore, hpending, hcommitted, hcollected, hthread, hwal, hch, hsuccesses, hdispatched⟩
    · split_ifs
      · split
        · exact ⟨rfl, rfl, hcommitted, hcollected, hthread, hwal, hch, hsuccesses, hdispatched⟩
        · exact ⟨rfl, rfl, by rw [hcommitted], hcollected, hthread, hwal, hch, by rw [hsuccesses],
            hdispatched⟩
      · exact ⟨hstore, hpending, hcommitted, hcollected, hthread, hwal, hch, hsuccesses,
          hdispatched⟩
  | collect i =>
    simp only [Server.step, Server.collect, hcommitted]
    split
    · exact ⟨hstore, hpending, hcommitted, hcollected, hthread, hwal, hch, hsuccesses, hdispatched⟩
    · exact ⟨hstore, hpending, rfl, by rw [hcollected, hstore], hthread, hwal, hch, hsuccesses,
        hdispatched⟩
  | send i =>
    simp only [Server.step, Server.send, hcollected]
    split
    · exact ⟨hstore, hpending, hcommitted, hcollected, hthread, hwal, hch, hsuccesses, hdispatched⟩
    · exact ⟨by rw [hstore], hpending, hcommitted, rfl, hthread, hwal, hch, hsuccesses, hdispatched⟩
  | receive =>
    simp only [Server.step, Server.receive, hstore]
    split
    · exact ⟨hstore, hpending, hcommitted, hcollected, hthread, hwal, hch, hsuccesses, hdispatched⟩
    · obtain ⟨hwal', hch'⟩ := sinks_of_jobs hwal hch (t.thread.receive _).2
      rw [hthread]
      exact ⟨rfl, hpending, hcommitted, hcollected, rfl, hwal', hch', hsuccesses,
        by rw [hdispatched]⟩
  | watch startKey endKey rev wantPrevKv =>
    simp only [Server.step, Server.watch, hstore]
    refine ⟨rfl, hpending, hcommitted, hcollected, hthread, hwal, ?_, hsuccesses, hdispatched⟩
    rcases (t.store.watch startKey endKey rev wantPrevKv).2 with _ | _ | ⟨_, watcherId⟩
    · exact hch
    · exact hch
    · dsimp only
      rw [Function.update_apply, Function.update_apply, hch]
  | unwatch startKey watcherId =>
    exact ⟨congrArg (·.unwatch startKey watcherId) hstore, hpending, hcommitted, hcollected,
      hthread, hwal, hch, hsuccesses, hdispatched⟩
  | takeEvent other =>
    refine ⟨hstore, hpending, hcommitted, hcollected, hthread, hwal, ?_, hsuccesses, hdispatched⟩
    simp only [Server.step, Function.update_apply]
    split_ifs with heq
    · rw [← heq, hch]
    · exact hch
  | dropReceiver other =>
    refine ⟨hstore, hpending, hcommitted, hcollected, hthread, hwal, ?_, hsuccesses, hdispatched⟩
    simp only [Server.step, Function.update_apply, hch]
  | compact rev =>
    exact ⟨congrArg (fun x => (x.compact rev).1) hstore, hpending, hcommitted, hcollected, hthread,
      hwal, hch, hsuccesses, hdispatched⟩
  | importSnapshot entries =>
    exact ⟨congrArg (·.importSnapshotData entries) hstore, hpending, hcommitted, hcollected,
      hthread, hwal, hch, hsuccesses, hdispatched⟩
  | writeWal pfx ticks fails =>
    exact ⟨hstore, hpending, hcommitted, hcollected, hthread, congrArg (Option.map _) hwal, hch,
      hsuccesses, hdispatched⟩

/-- The receivers of other channels can be left out of a run. -/
theorem run_filter (h : Alike ch s t) (actions : List Action) :
    Alike ch (s.run actions) (t.run (actions.filter (concerns ch))) := by
  induction actions generalizing s t with
  | nil => exact h
  | cons a actions ih =>
    by_cases ha : concerns ch a = true
    · rw [List.filter_cons_of_pos ha]
      exact ih (h.step a)
    · rw [List.filter_cons_of_neg ha]
      exact ih ((step_elsewhere s (by simpa using ha)).trans h)

/-- Two runs that differ only in when the receivers of other channels take their events,
and whether they are dropped: the watcher of channel `ch` has the same events before it, and
store, jobs, dispatcher and WAL are the same. -/
theorem watchers_isolated (s : Server) (ch : ℕ) (actions actions' : List Action)
    (h : actions.filter (concerns ch) = actions'.filter (concerns ch)) :
    Alike ch (s.run actions) (s.run actions') := by
  have hleft := run_filter (@Alike.refl ch s) actions
  have hright := run_filter (@Alike.refl ch s) actions'
  rw [h] at hleft
  exact hleft.trans hright.symm

/-- Two watchers of `a`; the receiver of the first is dropped before the event is sent. -/
def watchedRun (interlude : List Action) : List Action :=
  [.watch [97] [] 0 false, .watch [97] [] 0 false] ++ Call.actions ⟨[97], some [1], none⟩ ++
    [.collect 0, .send 0] ++ interlude ++ [.receive]

theorem watchers_isolated_watchedRun :
    ((start none []).run (watchedRun [.dropReceiver 1])).sinks.channels 2 =
        ((start none []).run (watchedRun [])).sinks.channels 2 ∧
      (((start none []).run (watchedRun [])).sinks.channels 2).buffer.length = 1 ∧
      ((start none []).run (watchedRun [.dropReceiver 1])).sinks.channels 1 ≠
        ((start none []).run (watchedRun [])).sinks.channels 1 :=
  ⟨(watchers_isolated _ 2 (watchedRun [.dropReceiver 1]) (watchedRun []) (by decide)).channel,
    by decide, by decide⟩

end Server
end MemEtcd
