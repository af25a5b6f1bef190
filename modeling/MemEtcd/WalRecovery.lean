import MemEtcd.Dispatcher
import MemEtcd.StoreReplay
import MemEtcd.TimeTravel
import MemEtcd.WalFiles

/-! Recovery from the WAL: a store that replays the files of a server at rest
is the server's store again. -/
namespace MemEtcd

open VersionLog (Cell cells Effective)

namespace Store

/-- Two stores with one log and no compaction answer reads of a key alike. -/
theorem Represents.range_single_eq {s t : Store} {log : History} (hs : s.WF) (ht : t.WF)
    (h : s.Represents log) (h' : t.Represents log)
    (he : s.valuesByRevision.earliestRevision = 0)
    (he' : t.valuesByRevision.earliestRevision = 0) (key : Bytes) {r : ℕ} (h1 : 1 ≤ r)
    (hr : (r : ℤ) ≤ s.currentRevision) :
    t.range key [] r none = s.range key [] r none := by
  have hrev : t.currentRevision = s.currentRevision := by
    rw [h.currentRevision_eq, h'.currentRevision_eq]
  have hpos : (0 : ℤ) < r := by omega
  have hc : s.compactedRevision < r := by
    unfold compactedRevision
    omega
  have hc' : t.compactedRevision < r := by
    unfold compactedRevision
    omega
  rw [range_single hs key hpos hr hc, range_single ht key hpos (by omega) hc',
    h.liveAt_uncompacted he, h'.liveAt_uncompacted he', hrev]

/-- The replay of records is that of the changes they hold. -/
theorem foldl_replayRecord (appended : List (Bytes × WalRecord)) (s : Store) :
    (appended.map (fun a => a.2.stored)).foldl replayRecord s =
      (appended.map (fun a => (a.2.key, a.2.value))).foldl
        (fun s c => s.setForReplay c.1 c.2) s := by
  rw [List.foldl_map, List.foldl_map]
  rfl

end Store

/-! ### What the server writes down -/

def Committed.change (c : Committed) : Bytes × Option Bytes := (c.key, c.value.value)

/-- The record that `do_send` appends for a job, and its prefix. -/
def NotifyJob.walEntry (job : NotifyJob) : Bytes × WalRecord :=
  (utf8Bytes job.prefixStr,
    ⟨job.rev, job.msg.kv.key, if job.msg.kv.version = 0 then none else some job.msg.kv.value,
      job.walHandled⟩)

def Call.Fits (c : Call) : Prop :=
  c.key.length < 2 ^ 32 ∧ ∀ v ∈ c.value, v.length < 2 ^ 32 - 1

/-- The successful calls are the history of the store, compacted or not. -/
structure Store.Chronicle (s : Store) (successes : List Committed) : Prop where
  history : s.Represents (successes.map Committed.change)
  effective : Effective (successes.map Committed.change)
  versions : ∀ c ∈ successes, 0 < c.value.version
  fits : ∀ c ∈ successes, c.key.length < 2 ^ 32 ∧ ∀ v ∈ c.value.value, v.length < 2 ^ 32 - 1

namespace Store.Chronicle

variable {s : Store} {successes : List Committed}

theorem congr {s' : Store} (h : s.Chronicle successes) (hview : s'.view = s.view)
    (hd : s'.valuesByRevision = s.valuesByRevision) : s'.Chronicle successes :=
  ⟨h.history.congr hview hd, h.effective, h.versions, h.fits⟩

theorem compact (h : s.Chronicle successes) (rev : ℤ) : (s.compact rev).1.Chronicle successes :=
  ⟨compact_represents h.history rev, h.effective, h.versions, h.fits⟩

/-- The section of a call that succeeds. -/
theorem locked (h : s.Chronicle successes) (hs : s.HeapOk) {p : PendingCall}
    (ha : s.treeMap[p.call.key]? = some p.item) (hfits : p.call.Fits) {done : Committed}
    (hdone : (p.locked s).2 = .ok done) :
    (p.locked s).1.Chronicle (successes ++ [done]) := by
  obtain ⟨hc, hkey, hvalue⟩ := PendingCall.locked_accepted hs ha hdone
  have hlog := locked_represents hs h.history ha p.isNewItem hc
  have heff := checkItem_effective hc
  rw [h.history.latest] at heff hvalue
  have hchange : done.change = (p.call.key, p.call.value) := by
    rw [Committed.change, hkey, hvalue, Cell.next_value]
  refine ⟨?_, ?_, ?_, ?_⟩
  · rw [List.map_append, List.map_singleton, hchange]
    exact hlog
  · rw [List.map_append, List.map_singleton, hchange]
    exact h.effective.append heff
  · intro d hmem
    rcases List.mem_append.mp hmem with hmem | hmem
    · exact h.versions d hmem
    · rw [List.mem_singleton.mp hmem, hvalue]
      exact Cell.next_version_pos (VersionLog.version_nonneg _ _) ..
  · intro d hmem
    rcases List.mem_append.mp hmem with hmem | hmem
    · exact h.fits d hmem
    · rw [List.mem_singleton.mp hmem, hkey, hvalue, Cell.next_value]
      exact hfits

end Store.Chronicle

theorem Store.new_chronicle (wal : Option WalMode) : (Store.new wal).Chronicle [] := by
  refine ⟨new_represents wal, Effective.nil, ?_, ?_⟩
  · intro c hc
    contradiction
  · intro c hc
    contradiction

def walEntries (mode : WalMode) (noPersist : List Bytes) (jobs : List NotifyJob) :
    List (Bytes × WalRecord) :=
  (jobs.map NotifyJob.walEntry).filter (fun a => persists mode noPersist a.1)

theorem walEntries_all {mode : WalMode} (hmode : mode ≠ .none) (jobs : List NotifyJob) :
    walEntries mode [] jobs = jobs.map NotifyJob.walEntry :=
  List.filter_eq_self.mpr (fun _ _ => decide_eq_true ⟨hmode, List.not_mem_nil⟩)

theorem walEntries_append (mode : WalMode) (noPersist : List Bytes) (jobs : List NotifyJob)
    (job : NotifyJob) :
    walEntries mode noPersist (jobs ++ [job]) = walEntries mode noPersist jobs ++
      if persists mode noPersist job.walEntry.1 then [job.walEntry] else [] := by
  unfold walEntries
  rw [List.map_append, List.map_singleton, List.filter_append, List.filter_singleton]
  cases persists mode noPersist job.walEntry.1 <;> rfl

/-- What `do_send` does to the WAL. -/
def WalManager.appendJob (w : WalManager) (job : NotifyJob) : WalManager :=
  w.append job.walEntry.1 job.walEntry.2.rev job.walEntry.2.key job.walEntry.2.value
    job.walEntry.2.writtenNotify

/-- A property of the WAL and the jobs it was given that every job keeps. -/
theorem foldl_doSend_wal {P : WalManager → List NotifyJob → Prop}
    (hsend : ∀ w jobs job, P w jobs → P (w.appendJob job) (jobs ++ [job])) {sinks : Sinks}
    {jobs : List NotifyJob} (h : ∃ w, sinks.wal = some w ∧ P w jobs) (sent : List NotifyJob) :
    ∃ w, (sent.foldl doSend sinks).wal = some w ∧ P w (jobs ++ sent) := by
  induction sent generalizing sinks jobs with
  | nil =>
    rw [List.append_nil]
    exact h
  | cons job sent ih =>
    obtain ⟨w, hw, hP⟩ := h
    rw [List.foldl_cons, List.append_cons]
    refine ih ⟨w.appendJob job, ?_, hsend w jobs job hP⟩
    unfold doSend
    rw [hw]
    rfl

/-- A property that the jobs and the batches of the workers keep holds in every run. -/
theorem Server.step_walProperty {P : WalManager → List NotifyJob → Prop}
    (hsend : ∀ w jobs job, P w jobs → P (w.appendJob job) (jobs ++ [job])) {s : Server}
    {a : Action}
    (hwrite : ∀ w jobs p ticks fails, a = .writeWal p ticks fails → P w jobs →
      P (w.writeLocked p ticks fails) jobs)
    (h : ∃ w, s.sinks.wal = some w ∧ P w s.dispatched) :
    ∃ w, (s.step a).sinks.wal = some w ∧ P w (s.step a).dispatched := by
  by_cases hr : a = .receive
  · subst hr
    change ∃ w, s.receive.sinks.wal = some w ∧ P w s.receive.dispatched
    unfold receive
    cases s.store.notifyTx with
    | nil => exact h
    | cons job rest => exact foldl_doSend_wal hsend h _
  · rw [(s.step_thread hr).2]
    by_cases hw : ∃ p ticks fails, a = .writeWal p ticks fails
    · obtain ⟨p, ticks, fails, rfl⟩ := hw
      obtain ⟨w, hwal, hP⟩ := h
      refine ⟨w.writeLocked p ticks fails, ?_, hwrite w _ p ticks fails rfl hP⟩
      change s.sinks.wal.map _ = _
      rw [hwal]
      rfl
    · rw [s.step_wal hr (fun p ticks fails he => hw ⟨p, ticks, fails, he⟩)]
      exact h

/-- The WAL has these settings and has been given the records of the jobs. -/
structure WalManager.Kept (mode : WalMode) (noPersist : List Bytes) (w : WalManager)
    (jobs : List NotifyJob) : Prop where
  mode_eq : w.defaultMode = mode
  noPersist_eq : w.noPersist = noPersist
  holds : w.Holds (walEntries mode noPersist jobs)

namespace WalManager.Kept

variable {mode : WalMode} {noPersist : List Bytes} {w : WalManager} {jobs : List NotifyJob}

theorem appendJob (h : w.Kept mode noPersist jobs) (job : NotifyJob) :
    (w.appendJob job).Kept mode noPersist (jobs ++ [job]) := by
  obtain ⟨rfl, rfl, hholds⟩ := h
  have hset := w.append_settings job.walEntry.1 job.walEntry.2.rev job.walEntry.2.key
    job.walEntry.2.value job.walEntry.2.writtenNotify
  refine ⟨hset.1, hset.2, ?_⟩
  rw [walEntries_append]
  cases hp : persists w.defaultMode w.noPersist job.walEntry.1 with
  | true => exact append_holds hholds hp _ _ _ _
  | false =>
    rw [if_neg Bool.false_ne_true, List.append_nil]
    exact append_skipped hholds hp _ _ _ _

theorem writeLocked (h : w.Kept mode noPersist jobs) (p : Bytes) (ticks : ℕ) :
    (w.writeLocked p ticks none).Kept mode noPersist jobs :=
  ⟨(w.writeLocked_settings p ticks none).1.trans h.mode_eq,
    (w.writeLocked_settings p ticks none).2.trans h.noPersist_eq, writeLocked_holds h.holds p ticks⟩

end WalManager.Kept

/-- The same for one prefix, whose file held `base` and whose queue held `queued` at the
start. -/
structure WalManager.Files (mode : WalMode) (noPersist : List Bytes) (p base : Bytes)
    (queued : List WalRecord) (w : WalManager) (jobs : List NotifyJob) : Prop where
  mode_eq : w.defaultMode = mode
  noPersist_eq : w.noPersist = noPersist
  paths : w.Paths
  filed : w.Filed p base (queued ++ recordsOf (walEntries mode noPersist jobs) p)

namespace WalManager.Files

variable {mode : WalMode} {noPersist : List Bytes} {p base : Bytes} {queued : List WalRecord}
  {w : WalManager} {jobs : List NotifyJob}

theorem appendJob (h : w.Files mode noPersist p base queued jobs) (job : NotifyJob) :
    (w.appendJob job).Files mode noPersist p base queued (jobs ++ [job]) := by
  obtain ⟨rfl, rfl, hpaths, hfiled⟩ := h
  have hset := w.append_settings job.walEntry.1 job.walEntry.2.rev job.walEntry.2.key
    job.walEntry.2.value job.walEntry.2.writtenNotify
  refine ⟨hset.1, hset.2, append_paths hpaths _ _ _ _ _, ?_⟩
  have happend := hfiled.append job.walEntry.1 job.walEntry.2.rev job.walEntry.2.key
    job.walEntry.2.value job.walEntry.2.writtenNotify
  rw [walEntries_append]
  by_cases hq : job.walEntry.1 = p
  · rw [← hq] at happend ⊢
    cases hp : persists w.defaultMode w.noPersist job.walEntry.1 with
    | true =>
      rw [if_pos ⟨rfl, hp⟩, List.append_assoc] at happend
      rw [if_pos rfl, recordsOf_append, if_pos rfl]
      exact happend
    | false =>
      rw [if_neg (fun h => Bool.false_ne_true (hp ▸ h.2)), List.append_nil] at happend
      rw [if_neg Bool.false_ne_true, List.append_nil]
      exact happend
  · rw [if_neg (fun h => hq h.1), List.append_nil] at happend
    split_ifs
    · rw [recordsOf_append, if_neg hq, List.append_nil]
      exact happend
    · rw [List.append_nil]
      exact happend

theorem writeLocked (h : w.Files mode noPersist p base queued jobs) (q : Bytes) (ticks : ℕ)
    {fails : Option ℕ} (hf : q = p → fails = none) :
    (w.writeLocked q ticks fails).Files mode noPersist p base queued jobs :=
  ⟨(w.writeLocked_settings q ticks fails).1.trans h.mode_eq,
    (w.writeLocked_settings q ticks fails).2.trans h.noPersist_eq,
    writeLocked_paths h.paths q ticks fails, h.filed.writeLocked h.paths q ticks hf⟩

end WalManager.Files

namespace Server

def fresh (mode : WalMode) : Server := start (some (WalManager.new mode [])) []

/-- All actions but imports. The calls fit into records. -/
def Recordable : Action → Prop
  | .enter c => c.Fits
  | .importSnapshot _ => False
  | _ => True

def WritesAll : Action → Prop
  | .writeWal _ _ fails => fails = none
  | _ => True

/-- The actions that leave the history alone: all but compactions and imports.
The calls fit into records, and no write of the WAL fails. -/
def Journaled : Action → Prop
  | .compact _ => False
  | a => Recordable a ∧ WritesAll a

theorem Journaled.recordable {a : Action} (h : Journaled a) : Recordable a := by
  cases a with
  | compact rev => exact h.elim
  | _ => exact h.1

theorem Journaled.writesAll {a : Action} (h : Journaled a) : WritesAll a := by
  cases a with
  | compact rev => exact h.elim
  | _ => exact h.2

/-- The successful calls are the history of the store; others may be under way. -/
structure Consistent (s : Server) : Prop where
  tidy : s.Tidy
  chronicle : s.store.Chronicle s.successes
  fits : ∀ p ∈ s.pending, p.call.Fits

/-- The store has its whole history, and the WAL has been given what was dispatched. -/
structure Written (mode : WalMode) (noPersist : List Bytes) (s : Server) : Prop
    extends Consistent s where
  uncompacted : s.store.valuesByRevision.earliestRevision = 0
  kept : ∃ w, s.sinks.wal = some w ∧ w.Kept mode noPersist s.dispatched

theorem fresh_aligned (mode : WalMode) : (fresh mode).Aligned := start_aligned _ _ rfl

theorem start_consistent (wal : Option WalManager) : (start wal []).Consistent := by
  refine ⟨tidy_of_wf (Store.new_wf _) rfl, Store.new_chronicle _, ?_⟩
  intro p hp
  contradiction

theorem start_written (mode : WalMode) (noPersist : List Bytes) :
    (start (some (WalManager.new mode noPersist)) []).Written mode noPersist :=
  ⟨start_consistent _, rfl, WalManager.new mode noPersist, rfl, rfl, rfl,
    WalManager.new_holds mode noPersist⟩

section

variable {mode : WalMode} {noPersist : List Bytes} {s : Server}

theorem Consistent.step (h : s.Consistent) {a : Action} (ha : Recordable a) :
    (s.step a).Consistent := by
  have himport : ∀ entries, a ≠ .importSnapshot entries := by
    rintro entries rfl
    exact ha
  have hfits : ∀ c, a = .enter c → c.Fits := by
    rintro c rfl
    exact ha
  refine ⟨h.tidy.step himport, ?_, step_pending h.fits hfits⟩
  rcases s.step_cases a with he | ⟨c, rfl⟩ | ⟨i, p, _, _, _, he⟩ | ⟨i, p, kv, _, _, _, _, he⟩ |
    ⟨i, p, done, _, hp, _, hdone, he⟩ | ⟨rev, rfl⟩ | ⟨entries, rfl⟩
  · rw [he.successes]
    exact h.chronicle.congr he.data.view he.data.valuesByRevision
  · exact h.chronicle.congr (Store.view_entry h.tidy.heap c.key)
      (s.store.entry_valuesByRevision c.key)
  · rw [he]
    exact h.chronicle.congr rfl rfl
  · rw [he]
    exact h.chronicle
  · have hmem := List.mem_of_getElem? hp
    rw [he]
    exact h.chronicle.locked h.tidy.heap (h.tidy.owned p hmem) (h.fits p hmem) hdone
  · exact h.chronicle.compact rev
  · exact absurd rfl (himport entries)

/-- Only compactions and imports drop values. -/
theorem step_earliest (s : Server) {a : Action} (ha : Journaled a) :
    (s.step a).store.valuesByRevision.earliestRevision =
      s.store.valuesByRevision.earliestRevision := by
  rcases s.step_cases a with he | ⟨c, rfl⟩ | ⟨i, p, _, _, _, he⟩ | ⟨i, p, kv, _, _, _, _, he⟩ |
    ⟨i, p, done, _, _, _, hdone, he⟩ | ⟨rev, rfl⟩ | ⟨entries, rfl⟩
  · rw [he.data.valuesByRevision]
  · exact congrArg BlockDeque.earliestRevision (s.store.entry_valuesByRevision c.key)
  · rw [he]
    rfl
  · rw [he]
  · rw [he]
    dsimp only
    rw [(PendingCall.locked_done hdone).2.2.2, earliestRevision_commitValue]
  · exact ha.elim
  · exact ha.1.elim

theorem step_kept (h : ∃ w, s.sinks.wal = some w ∧ w.Kept mode noPersist s.dispatched)
    {a : Action} (ha : WritesAll a) :
    ∃ w, (s.step a).sinks.wal = some w ∧ w.Kept mode noPersist (s.step a).dispatched := by
  apply step_walProperty (fun w jobs job h => h.appendJob job) _ h
  rintro w jobs p ticks fails rfl hkept
  cases (ha : fails = none)
  exact hkept.writeLocked p ticks

theorem run_kept (h : ∃ w, s.sinks.wal = some w ∧ w.Kept mode noPersist s.dispatched)
    {actions : List Action} (ha : ∀ a ∈ actions, WritesAll a) :
    ∃ w, (s.run actions).sinks.wal = some w ∧
      w.Kept mode noPersist (s.run actions).dispatched := by
  induction actions generalizing s with
  | nil => exact h
  | cons a actions ih =>
    exact ih (step_kept h (ha a List.mem_cons_self)) (fun b hb => ha b (List.mem_cons_of_mem a hb))

theorem step_files {p base : Bytes} {queued : List WalRecord}
    (h : ∃ w, s.sinks.wal = some w ∧ w.Files mode noPersist p base queued s.dispatched)
    {a : Action} (ha : ∀ ticks n, a ≠ .writeWal p ticks (some n)) :
    ∃ w, (s.step a).sinks.wal = some w ∧
      w.Files mode noPersist p base queued (s.step a).dispatched := by
  apply step_walProperty (fun w jobs job h => h.appendJob job) _ h
  rintro w jobs q ticks fails rfl hfiles
  refine hfiles.writeLocked q ticks ?_
  rintro rfl
  cases fails with
  | none => rfl
  | some n => exact absurd rfl (ha ticks n)

theorem run_files {p base : Bytes} {queued : List WalRecord}
    (h : ∃ w, s.sinks.wal = some w ∧ w.Files mode noPersist p base queued s.dispatched)
    {actions : List Action} (ha : ∀ ticks n, Action.writeWal p ticks (some n) ∉ actions) :
    ∃ w, (s.run actions).sinks.wal = some w ∧
      w.Files mode noPersist p base queued (s.run actions).dispatched := by
  induction actions generalizing s with
  | nil => exact h
  | cons a actions ih =>
    have hne : ∀ ticks n, a ≠ .writeWal p ticks (some n) := by
      rintro ticks n rfl
      exact ha ticks n List.mem_cons_self
    exact ih (step_files h hne) (fun ticks n hmem => ha ticks n (List.mem_cons_of_mem a hmem))

theorem Written.step (h : s.Written mode noPersist) {a : Action} (ha : Journaled a) :
    (s.step a).Written mode noPersist :=
  ⟨h.toConsistent.step ha.recordable, (s.step_earliest ha).trans h.uncompacted,
    step_kept h.kept ha.writesAll⟩

theorem Written.run (h : s.Written mode noPersist) {actions : List Action}
    (ha : ∀ a ∈ actions, Journaled a) : (s.run actions).Written mode noPersist := by
  induction actions generalizing s with
  | nil => exact h
  | cons a actions ih =>
    exact ih (h.step (ha a List.mem_cons_self)) (fun b hb => ha b (List.mem_cons_of_mem a hb))

end

theorem importsKeepRevision_of_journaled (s : Server) {actions : List Action}
    (ha : ∀ a ∈ actions, Journaled a) : importsKeepRevision s actions := by
  induction actions generalizing s with
  | nil => rfl
  | cons a actions ih =>
    refine (Bool.and_eq_true _ _).mpr
      ⟨?_, ih (s.step a) (fun b hb => ha b (List.mem_cons_of_mem a hb))⟩
    have hj := ha a List.mem_cons_self
    cases a with
    | importSnapshot entries => exact hj.1.elim
    | _ => rfl

/-! ### Recovery -/

/-- The change that `do_send` reads off an announcement. -/
def announcedChange (e : ℤ × KeyValueWithPrev) : Bytes × Option Bytes :=
  (e.2.kv.key, if e.2.kv.version = 0 then none else some e.2.kv.value)

theorem announcedChange_event {c : Committed} (hv : 0 < c.value.version) :
    announcedChange c.event = c.change := by
  obtain ⟨newRev, key, ⟨createRevision, modRevision, version, value⟩, oldValue⟩ := c
  cases value with
  | none => rfl
  | some v => exact congrArg (Prod.mk key) (if_neg (ne_of_gt hv))

/-- A server that has kept up has written down its history, in the order of the
revisions. -/
theorem KeptUp.changes {s : Server} (hk : s.KeptUp) (h : s.store.Chronicle s.successes) :
    s.dispatched.map (fun job => (job.walEntry.2.key, job.walEntry.2.value)) =
      s.successes.map Committed.change := by
  calc s.dispatched.map (fun job => (job.walEntry.2.key, job.walEntry.2.value))
      = (s.dispatched.map NotifyJob.event).map announcedChange := by
        rw [List.map_map]
        rfl
    _ = (s.successes.map Committed.event).map announcedChange := by rw [hk.announced]
    _ = s.successes.map Committed.change := by
        rw [List.map_map]
        exact List.map_congr_left (fun c hc => announcedChange_event (h.versions c hc))

/-- The records of such a server can be read back. -/
theorem KeptUp.valid {s : Server} (hk : s.KeptUp) (h : s.store.Chronicle s.successes)
    (hrev : s.store.currentRevision < 2 ^ 63) :
    ∀ a ∈ s.dispatched.map NotifyJob.walEntry, a.2.Valid := by
  intro a ha
  obtain ⟨job, hjob, rfl⟩ := List.mem_map.mp ha
  have hin : job.rev ∈ ReorderBuffer.upTo s.store.valuesByRevision.latestRevision := by
    rw [← hk.inOrder]
    exact List.mem_map_of_mem hjob
  have hb := ReorderBuffer.mem_upTo.mp hin
  unfold Store.currentRevision at hrev
  have hchange : (job.walEntry.2.key, job.walEntry.2.value) ∈ s.successes.map Committed.change := by
    rw [← hk.changes h]
    exact List.mem_map_of_mem hjob
  obtain ⟨c, hc, he⟩ := List.mem_map.mp hchange
  obtain ⟨hkey, hvalue⟩ := Prod.mk.inj he
  obtain ⟨hfk, hfv⟩ := h.fits c hc
  rw [hkey] at hfk
  rw [hvalue] at hfv
  refine ⟨?_, ?_, hfk, hfv⟩
  · change _ ≤ job.rev
    omega
  · change job.rev < _
    omega

/-- Recovery is exact. A server starts with an empty WAL directory and runs
calls and the steps of its threads in any order, without compaction, import or
failing write. Once no call is under way and all records are in their files,
`Store::new` on any listing of the directory succeeds and yields the same revision,
the same cell for every key and the same reads of every key at every revision. -/
theorem recovery_exact (mode mode' : WalMode) (hmode : mode ≠ .none) (actions : List Action)
    (ha : ∀ a ∈ actions, Journaled a)
    (hp : ((fresh mode).run actions).pending = [])
    (hq : ((fresh mode).run actions).Quiescent)
    (hrev : ((fresh mode).run actions).store.currentRevision < 2 ^ 63) (w : WalManager)
    (hw : ((fresh mode).run actions).sinks.wal = some w) (hf : w.Flushed)
    (entries : List (Bytes × Bytes)) (he : entries.Perm w.walDir.toList) :
    ∃ t, Store.newFromWal mode' entries = some (t, .ok ()) ∧
      t.currentRevision = ((fresh mode).run actions).store.currentRevision ∧
      (∀ key, (t.view key).latestValue =
        (((fresh mode).run actions).store.view key).latestValue) ∧
      ∀ (key : Bytes) (r : ℕ), 1 ≤ r → r ≤ ((fresh mode).run actions).store.currentRevision →
        t.range key [] r none = ((fresh mode).run actions).store.range key [] r none := by
  have hwritten : ((fresh mode).run actions).Written mode [] := (start_written mode []).run ha
  have hk := ((fresh_aligned mode).run actions (importsKeepRevision_of_journaled _ ha)).keptUp hq
  generalize (fresh mode).run actions = s at hp hq hw hrev hwritten hk ⊢
  have hchronicle := hwritten.chronicle
  have hwf : s.store.WF := hwritten.tidy.wf (by rw [hp]; exact fun _ h => absurd h List.not_mem_nil)
  obtain ⟨w', hw', _, _, hholds⟩ := hwritten.kept
  cases hw.symm.trans hw'
  rw [walEntries_all hmode] at hholds
  have hsorted : ((s.dispatched.map NotifyJob.walEntry).map (·.2.rev)).Pairwise (· < ·) := by
    have hup := ReorderBuffer.sorted_upTo s.store.valuesByRevision.latestRevision
    rw [← hk.inOrder] at hup
    rw [List.map_map]
    exact hup
  have hload := hholds.load hf he (hk.valid hchronicle hrev) hsorted Store.replayRecord
    (Store.new (some mode'))
  have hreplay : ((s.dispatched.map NotifyJob.walEntry).map (fun a => a.2.stored)).foldl
      Store.replayRecord (Store.new (some mode')) =
        (s.successes.map Committed.change).foldl (fun s c => s.setForReplay c.1 c.2)
          (Store.new (some mode')) := by
    rw [Store.foldl_replayRecord, ← hk.changes hchronicle, List.map_map]
    rfl
  obtain ⟨htw, htr, hte⟩ := Store.replay_represents (some mode') hchronicle.effective
  refine ⟨_, hload.trans (by rw [hreplay]), ?_, ?_, ?_⟩
  · rw [htr.currentRevision_eq, hchronicle.history.currentRevision_eq]
  · intro key
    rw [htr.latest, hchronicle.history.latest]
  · intro key r h1 hr
    exact Store.Represents.range_single_eq hwf htw hchronicle.history htr hwritten.uncompacted hte
      key h1 hr

/-- Create `a`, fail to change `b`, delete `a` and create
`/registry/p/x`. The jobs arrive out of order and are written into two files. -/
def journalRun : List Action :=
  [.enter ⟨[97], some [1], none⟩, .enter ⟨[98], some [2], some ⟨some 5, none, 0⟩⟩,
    .enter ⟨[97], none, none⟩, .index 1, .index 0, .lock 0, .lock 0, .lock 0,
    .enter ⟨registryRoot ++ [112, 47, 120], some [3], none⟩, .index 0, .lock 0,
    .collect 1, .send 0, .receive, .collect 0, .collect 0, .send 0, .receive, .send 0, .receive,
    .writeWal [] 1 none, .writeWal (registryRoot ++ [112, 47]) 8 none, .writeWal [] 8 none]

theorem journalRun_journaled : ∀ a ∈ journalRun, Journaled a := by
  simp [journalRun, Journaled, Recordable, WritesAll, Call.Fits, registryRoot]

theorem recovery_exact_of_journalRun :
    ∃ w t, ((fresh .sync).run journalRun).sinks.wal = some w ∧
      Store.newFromWal .async w.walDir.toList.reverse = some (t, .ok ()) ∧
      t.currentRevision = ((fresh .sync).run journalRun).store.currentRevision ∧
      (∀ key, (t.view key).latestValue =
        (((fresh .sync).run journalRun).store.view key).latestValue) ∧
      ∀ (key : Bytes) (r : ℕ), 1 ≤ r → r ≤ ((fresh .sync).run journalRun).store.currentRevision →
        t.range key [] r none = ((fresh .sync).run journalRun).store.range key [] r none := by
  have hw : ((fresh .sync).run journalRun).sinks.wal.isSome := by decide
  have hf := WalManager.flushed_of_toList
    (w := ((fresh .sync).run journalRun).sinks.wal.get hw) (by decide +revert)
  obtain ⟨t, ht⟩ := recovery_exact .sync .async (by decide) journalRun journalRun_journaled
    (by decide) ⟨by decide, by decide, by decide⟩ (by decide) _ (Option.some_get hw).symm hf _
    (List.reverse_perm _)
  exact ⟨_, t, (Option.some_get hw).symm, ht⟩

end Server
end MemEtcd
