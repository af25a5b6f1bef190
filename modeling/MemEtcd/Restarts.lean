import MemEtcd.Acknowledgements
import MemEtcd.Indexes
import MemEtcd.WalCrash

/-! The lives of a server that is started again and again on its WAL directory. The
notification thread counts from revision 1, the store from the last record that it
has replayed: as soon as there is a record, the thread waits for a job that never
comes. -/
namespace MemEtcd

open Std (ExtTreeMap)

/-- `WalManager::new` on a directory that has files. -/
def WalManager.onDirectory (mode : WalMode) (noPersist : List Bytes)
    (dir : ExtTreeMap Bytes Bytes compare) : WalManager :=
  ⟨mode, noPersist, ∅, dir, []⟩

/-- A worker finds no writer. -/
theorem WalManager.onDirectory_writeLocked (mode : WalMode) (noPersist : List Bytes)
    (dir : ExtTreeMap Bytes Bytes compare) (p : Bytes) (ticks : ℕ) (fails : Option ℕ) :
    (onDirectory mode noPersist dir).writeLocked p ticks fails =
      onDirectory mode noPersist dir := by
  have hnone : (onDirectory mode noPersist dir).writers[p]? = none := by
    unfold onDirectory
    simp
  unfold writeLocked
  rw [hnone]

/-! ### The replay moves the revision -/

namespace Store

theorem setForReplay_latest {s : Store} (hs : s.WF) (key : Bytes) (value : Option Bytes) :
    s.currentRevision ≤ (s.setForReplay key value).currentRevision ∧
      (value.isSome → s.currentRevision < (s.setForReplay key value).currentRevision) := by
  by_cases heff : value.isSome ∨ (s.view key).latestValue.value.isSome
  · have hlatest := congrArg BlockDeque.latestRevision (setForReplay_spec hs heff).2.2
    rw [latestRevision_commitValue] at hlatest
    unfold currentRevision
    omega
  · rw [setForReplay_dead heff]
    exact ⟨le_refl _, fun hv => absurd (Or.inl hv) heff⟩

/-- One record with a value is enough. -/
theorem replay_moves {s : Store} (hs : s.WF) (records : List WalRecord) :
    s.currentRevision ≤ (records.foldl replayRecord s).currentRevision ∧
      ((∃ rec ∈ records, rec.value.isSome) →
        s.currentRevision < (records.foldl replayRecord s).currentRevision) := by
  induction records generalizing s with
  | nil =>
    refine ⟨le_refl _, ?_⟩
    rintro ⟨rec, hr, _⟩
    contradiction
  | cons rec records ih =>
    obtain ⟨hle, hlt⟩ := setForReplay_latest hs rec.key rec.value
    obtain ⟨hle', hlt'⟩ := ih (setForReplay_wf hs rec.key rec.value)
    refine ⟨hle.trans hle', ?_⟩
    rintro ⟨rec', hr, hvalue⟩
    rcases List.mem_cons.mp hr with rfl | hr
    · exact (hlt hvalue).trans_le hle'
    · exact hle.trans_lt (hlt' ⟨rec', hr, hvalue⟩)

end Store

namespace Server

/-- `Store::new` with `load_wal_dir`, for a listing of the directory. It panics if
the directory cannot be loaded. -/
def boot (mode : WalMode) (noPersist : List Bytes) (dir : ExtTreeMap Bytes Bytes compare)
    (entries : List (Bytes × Bytes)) : Option Server :=
  match loadWalDir entries (fun records rec => records ++ [rec]) [] with
  | some (records, .ok ()) => some (start (some (.onDirectory mode noPersist dir)) records)
  | _ => none

theorem boot_cases {mode : WalMode} {noPersist : List Bytes}
    {dir : ExtTreeMap Bytes Bytes compare} {entries : List (Bytes × Bytes)} {s : Server}
    (h : boot mode noPersist dir entries = some s) :
    ∃ records : List WalRecord, s = start (some (.onDirectory mode noPersist dir)) records ∧
      Store.newFromWal mode entries = some (s.store, .ok ()) ∧
      ∀ rec, (∃ f ∈ entries, IsWalFile f ∧ rec ∈ fileRecords f.2) → rec ∈ records := by
  unfold boot at h
  split at h
  · rename_i records hload
    cases h
    have hclean := (loadWalDir_ok_iff entries _ _).mp ⟨_, hload⟩
    obtain ⟨out, hmerge, hall⟩ := loadWalDirWith_merges
      (PriorityQueue.sortedLists HeapItem.rev) hclean
    rw [loadWalDir_eq, hall, List.foldl_append_eq_append, List.nil_append, ← List.flatMap_def,
      List.flatMap_singleton', Option.some.injEq, Prod.mk.injEq] at hload
    obtain ⟨rfl, -⟩ := hload
    refine ⟨out, rfl, ?_, ?_⟩
    · unfold Store.newFromWal
      rw [loadWalDir_eq, hall]
      rfl
    · rintro rec ⟨f, hf, hwal, hrec⟩
      apply hmerge.perm.mem_iff.mpr
      apply List.mem_flatten.mpr
      exact ⟨_, List.mem_map_of_mem (List.mem_filter.mpr ⟨hf, decide_eq_true hwal⟩), hrec⟩
  · contradiction

/-! ### The dispatcher waits for revision 1 -/

/-- All announcements are behind the revision that the thread waits for; nothing has
reached the WAL or a watcher. -/
structure Stalled (w : WalManager) (s : Server) : Prop where
  revision : 1 ≤ s.store.currentRevision
  thread : s.thread.nextRev = 1 ∧ s.thread.revWritten = 0
  jobs : ∀ job ∈ s.jobs, 1 < job.rev
  committed : ∀ c ∈ s.committed, 1 < c.1.value.modRevision
  dispatched : s.dispatched = []
  wal : s.sinks.wal = some w
  silent : ∀ ch, (s.sinks.channels ch).buffer = []

theorem start_stalled {w : WalManager} {records : List WalRecord}
    (h : 1 ≤ (start (some w) records).store.currentRevision) :
    (start (some w) records).Stalled w := by
  refine ⟨h, ⟨rfl, rfl⟩, ?_, ?_, rfl, rfl, fun ch => rfl⟩
  · intro job hjob
    rw [start_jobs] at hjob
    contradiction
  · intro c hc
    contradiction

section

variable {w : WalManager} {s : Server}

/-- The revision of the store never falls. -/
theorem step_revision (s : Server) {a : Action} (ha : a.keepsNumbering) :
    s.store.currentRevision ≤ (s.step a).store.currentRevision := by
  unfold Store.currentRevision
  rcases s.step_cases a with he | ⟨c, rfl⟩ | ⟨i, p, _, _, _, he⟩ | ⟨i, p, kv, _, _, _, _, he⟩ |
    ⟨i, p, done, _, _, _, hdone, he⟩ | ⟨rev, rfl⟩ | ⟨entries, rfl⟩
  · rw [he.data.valuesByRevision]
  · exact (congrArg (fun d : BlockDeque Value storeBlock => (d.latestRevision : ℤ))
      (s.store.entry_valuesByRevision c.key)).ge
  · rw [he]
    exact le_refl _
  · rw [he]
  · rw [he]
    dsimp only
    rw [(PendingCall.locked_done hdone).2.2.2, latestRevision_commitValue]
    omega
  · exact (congrArg (fun n : ℕ => (n : ℤ)) (s.store.compact_latest rev)).ge
  · contradiction

/-- The channels change only when the dispatcher sends. -/
theorem step_silent (h : ∀ ch, (s.sinks.channels ch).buffer = []) {a : Action}
    (ha : a ≠ .receive) (ch : ℕ) : ((s.step a).sinks.channels ch).buffer = [] := by
  have hupdate (other : ℕ) (c : WatchChannel) (hc : c.buffer = []) :
      (Function.update s.sinks.channels other c ch).buffer = [] := by
    by_cases hch : ch = other
    · rw [hch, Function.update_self]
      exact hc
    · rw [Function.update_of_ne hch]
      exact h ch
  cases a with
  | index i =>
    change ((s.index i).sinks.channels ch).buffer = []
    rw [(s.index_sameDispatch i).sinks]
    exact h ch
  | lock i =>
    change ((s.lock i).sinks.channels ch).buffer = []
    rw [(s.lock_sameDispatch i).sinks]
    exact h ch
  | collect i =>
    change ((s.collect i).sinks.channels ch).buffer = []
    unfold collect
    split <;> exact h ch
  | send i =>
    change ((s.send i).sinks.channels ch).buffer = []
    unfold send
    split <;> exact h ch
  | receive => exact absurd rfl ha
  | watch startKey endKey rev wantPrevKv =>
    change ((s.watch startKey endKey rev wantPrevKv).sinks.channels ch).buffer = []
    unfold Server.watch
    dsimp only
    rcases (s.store.watch startKey endKey rev wantPrevKv).2 with _ | _ | _
    · exact h ch
    · exact h ch
    · exact hupdate _ _ rfl
  | takeEvent other => exact hupdate other _ (by rw [h other]; rfl)
  | dropReceiver other => exact hupdate other _ rfl
  | _ => exact h ch

/-- A job that comes in has to wait in the spool. -/
theorem Stalled.receive (h : s.Stalled w) : s.receive.Stalled w := by
  have hjobs : ∀ job ∈ s.receive.jobs, 1 < job.rev :=
    fun job hj => h.jobs job (s.receive_jobs.mem_iff.mp hj)
  have hrev : 1 ≤ s.receive.store.currentRevision := h.revision.trans (@step_revision s .receive rfl)
  cases hn : s.store.notifyTx with
  | nil =>
    have hsame : s.receive = s := by
      unfold Server.receive
      rw [hn]
    rw [hsame]
    exact h
  | cons job rest =>
    have hlate : job.rev > s.thread.nextRev := by
      rw [h.thread.1]
      apply h.jobs
      unfold Server.jobs
      rw [hn]
      simp
    have hspool : s.receive = { s with
        store := { s.store with notifyTx := rest }
        thread := { s.thread with
          jobSpool := ReorderBuffer.push NotifyJob.rev job s.thread.jobSpool }
        dispatched := s.dispatched ++ [] } := by
      unfold Server.receive NotifyThread.receive
      rw [hn]
      dsimp only
      rw [if_pos hlate]
      rfl
    refine ⟨hrev, ?_, hjobs, ?_, ?_, ?_, ?_⟩
    · rw [hspool]
      exact h.thread
    · rw [hspool]
      exact h.committed
    · rw [hspool]
      exact (List.append_nil _).trans h.dispatched
    · rw [hspool]
      exact h.wal
    · rw [hspool]
      exact h.silent

theorem Stalled.step (hw : ∀ p ticks fails, w.writeLocked p ticks fails = w) (h : s.Stalled w)
    {a : Action} (ha : a.keepsNumbering) : (s.step a).Stalled w := by
  by_cases hr : a = .receive
  · subst hr
    exact h.receive
  · obtain ⟨hthread, hdispatched⟩ := s.step_thread hr
    have hwal : (s.step a).sinks.wal = some w := by
      by_cases hwrite : ∃ p ticks fails, a = .writeWal p ticks fails
      · obtain ⟨p, ticks, fails, rfl⟩ := hwrite
        show s.sinks.wal.map _ = _
        rw [h.wal, Option.map_some, hw]
      · rw [s.step_wal hr (fun p ticks fails he => hwrite ⟨p, ticks, fails, he⟩)]
        exact h.wal
    -- what is under way after the step was so before, or has a new revision
    have hannounced : (∀ job ∈ (s.step a).jobs, 1 < job.rev) ∧
        ∀ c ∈ (s.step a).committed, 1 < c.1.value.modRevision := by
      rcases s.step_accounts hr with ⟨_, hc, hj⟩ | ⟨i, p, done, _, _, hdone, _, hc, hj⟩ |
        ⟨i, done, pfx, _, hi, _, hc, hj⟩
      · rw [hc]
        exact ⟨fun job hjob => h.jobs job (hj.mem_iff.mp hjob), h.committed⟩
      · rw [hc, hj]
        refine ⟨h.jobs, ?_⟩
        intro d hd
        rcases List.mem_append.mp hd with hd | hd
        · exact h.committed d hd
        · rw [List.mem_singleton.mp hd]
          have hpos := h.revision
          unfold Store.currentRevision at hpos
          obtain ⟨hnew, -, hmod, -⟩ := PendingCall.locked_done hdone
          rw [hmod, hnew]
          omega
      · rw [hc, hj]
        constructor
        · intro job hjob
          rcases List.mem_append.mp hjob with hjob | hjob
          · exact h.jobs job hjob
          · rw [List.mem_singleton.mp hjob]
            exact h.committed _ (List.mem_of_getElem? hi)
        · exact fun d hd => h.committed d (List.mem_of_mem_eraseIdx hd)
    refine ⟨h.revision.trans (s.step_revision ha), ?_, hannounced.1, hannounced.2, ?_, hwal,
      step_silent h.silent hr⟩
    · rw [hthread]
      exact h.thread
    · rw [hdispatched]
      exact h.dispatched

theorem Stalled.run (hw : ∀ p ticks fails, w.writeLocked p ticks fails = w) (h : s.Stalled w)
    {actions : List Action} (ha : ∀ a ∈ actions, a.keepsNumbering) :
    (s.run actions).Stalled w := by
  induction actions generalizing s with
  | nil => exact h
  | cons a actions ih =>
    exact ih (h.step hw (ha a List.mem_cons_self)) (fun b hb => ha b (List.mem_cons_of_mem a hb))

end

/-- The lives of a server, one after the other, each with its own settings, listing of
the directory and actions; the servers are those at the ends of the lives. -/
inductive Lives : ExtTreeMap Bytes Bytes compare → List Server →
    ExtTreeMap Bytes Bytes compare → Prop
  | done (dir : ExtTreeMap Bytes Bytes compare) : Lives dir [] dir
  | next {dir dir' : ExtTreeMap Bytes Bytes compare} {mode : WalMode} {noPersist : List Bytes}
      {entries : List (Bytes × Bytes)} {s : Server} {actions : List Action} {w : WalManager}
      {lives : List Server} :
      entries.Perm dir.toList → boot mode noPersist dir entries = some s →
      (∀ a ∈ actions, a.keepsNumbering) → (s.run actions).sinks.wal = some w →
      Lives w.walDir lives dir' → Lives dir (s.run actions :: lives) dir'

/-- Nothing has left the dispatcher of a server: the WAL has woken up nobody, the
progress is 0 and no watcher has an event to take. -/
structure Mute (s : Server) : Prop where
  dispatched : s.dispatched = []
  progress : s.thread.revWritten = 0
  woken : ∃ w, s.sinks.wal = some w ∧ w.notified = []
  channels : ∀ ch, (s.sinks.channels ch).buffer = []

/-- A directory with a record that has a value is never written to again, whatever
happens in the lives of the servers that are started on it, as long as no snapshot is
imported. None of these servers completes a call in `Sync` mode or sends an event. -/
theorem restarts_persist_nothing {dir dir' : ExtTreeMap Bytes Bytes compare}
    {lives : List Server} (h : Lives dir lives dir')
    (hrec : ∃ name contents, dir[name]? = some contents ∧
      extension name = some [119, 97, 108] ∧
      ∃ rec ∈ fileRecords contents, rec.value.isSome) :
    dir' = dir ∧ ∀ s ∈ lives, s.Mute := by
  induction h with
  | done dir => exact ⟨rfl, fun s hs => absurd hs List.not_mem_nil⟩
  | @next dir dir' mode noPersist entries s actions w lives hperm hboot hactions hwal _ ih =>
    obtain ⟨name, contents, hfile, hext, rec, hmem, hvalue⟩ := hrec
    obtain ⟨records, rfl, -, hrecords⟩ := boot_cases hboot
    have hlisted : (name, contents) ∈ entries :=
      hperm.mem_iff.mpr (ExtTreeMap.mem_toList_iff_getElem?_eq_some.mpr hfile)
    -- the replay of the record has moved the revision
    have hmoved := (Store.replay_moves (Store.new_wf (some mode)) records).2
      ⟨rec, hrecords rec ⟨_, hlisted, hext, hmem⟩, hvalue⟩
    have hstalled : (start (some (WalManager.onDirectory mode noPersist dir)) records).Stalled
        (.onDirectory mode noPersist dir) := start_stalled (Int.add_one_le_iff.mpr hmoved)
    have hend := hstalled.run (WalManager.onDirectory_writeLocked mode noPersist dir) hactions
    cases hwal.symm.trans hend.wal
    obtain ⟨hsame, hlives⟩ := ih ⟨name, contents, hfile, hext, rec, hmem, hvalue⟩
    refine ⟨hsame, ?_⟩
    intro t ht
    rcases List.mem_cons.mp ht with rfl | ht
    · exact ⟨hend.dispatched, hend.thread.2, ⟨_, hend.wal, rfl⟩, hend.silent⟩
    · exact hlives t ht

/-- What the first life of a server leaves: `main` sets the key `~`. -/
def firstFile : Bytes × Bytes :=
  (fileNameForPrefix [], WalRecord.encode ⟨1, [126], some [], true⟩)

/-- The call of `main` and a call of a client, with all that is done for them. -/
def laterLife : List Action :=
  [.watch [97] [] 0 false] ++ Call.actions ⟨[126], some [], none⟩ ++
    Call.actions ⟨[97], some [1], none⟩ ++
    [.collect 0, .collect 0, .send 0, .send 0, .receive, .receive, .writeWal [] 8 none]

theorem restarts_persist_nothing_firstFile :
    ∃ s t : Server, Lives (.ofList [firstFile] compare) [s, t] (.ofList [firstFile] compare) ∧
      s.store.currentRevision = 3 ∧ s.Mute ∧ t.Mute := by
  have hboot (mode : WalMode) : boot mode [] (.ofList [firstFile] compare) [firstFile] =
      some (start (some (.onDirectory mode [] (.ofList [firstFile] compare)))
        [⟨1, [126], some [], false⟩]) := by
    have hload : loadWalDir [firstFile] (fun records rec => records ++ [rec]) [] =
        some ([⟨1, [126], some [], false⟩], .ok ()) := by decide
    unfold boot
    rw [hload]
  have hperm : [firstFile].Perm (ExtTreeMap.ofList [firstFile] compare).toList := by decide
  have hlives : Lives (.ofList [firstFile] compare)
      [(start (some (.onDirectory .sync [] (.ofList [firstFile] compare)))
          [⟨1, [126], some [], false⟩]).run laterLife,
        (start (some (.onDirectory .async [] (.ofList [firstFile] compare)))
          [⟨1, [126], some [], false⟩]).run laterLife] (.ofList [firstFile] compare) :=
    .next hperm (hboot .sync) (by decide) rfl (.next hperm (hboot .async) (by decide) rfl (.done _))
  obtain ⟨-, hmute⟩ := restarts_persist_nothing hlives
    ⟨firstFile.1, firstFile.2, by decide, by decide, _, List.mem_singleton_self _, rfl⟩
  exact ⟨_, _, hlives, by decide, hmute _ List.mem_cons_self,
    hmute _ (List.mem_cons_of_mem _ (List.mem_singleton_self _))⟩

end Server
end MemEtcd
