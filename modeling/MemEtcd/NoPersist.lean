import MemEtcd.WalRecovery
import MemEtcd.WalTail
import MemEtcd.WatchDispatch

/-! Prefixes that are not persisted. Their changes take revisions like all others
but leave no record, and a replay counts the records it finds: whether a change has
its revision again depends on the changes before it. -/
namespace MemEtcd

open ReorderBuffer (upTo)
open VersionLog (cells)

/-- The prefix under which the WAL files the changes of a key. -/
def walPrefix (key : Bytes) : Bytes := utf8Bytes (fromUtf8Lossy (prefixSplit key).1)

namespace Server

/-! ### Jobs carry the prefix of their key -/

structure Labelled (s : Server) : Prop where
  jobs : ∀ job ∈ s.jobs, job.prefixStr = fromUtf8Lossy (prefixSplit job.msg.kv.key).1
  committed : ∀ c ∈ s.committed, c.2 = (prefixSplit c.1.key).1

theorem Labelled.step {s : Server} (h : s.Labelled)
    (hk : ∀ p ∈ s.pending, (s.store.deref p.item).key = p.call.key) (a : Action) :
    (s.step a).Labelled := by
  by_cases ha : a = .receive
  · subst ha
    refine ⟨fun job hj => h.jobs job (s.receive_jobs.mem_iff.mp hj), ?_⟩
    have hsame : s.receive.committed = s.committed := by
      unfold receive
      split <;> rfl
    change ∀ c ∈ s.receive.committed, _
    rw [hsame]
    exact h.committed
  · rcases s.step_accounts ha with ⟨_, hc, hj⟩ | ⟨i, p, done, rfl, hp, hdone, _, hc, hj⟩ |
      ⟨i, done, pfx, _, hi, _, hc, hj⟩
    · refine ⟨fun job hjob => h.jobs job (hj.mem_iff.mp hjob), ?_⟩
      rw [hc]
      exact h.committed
    · -- the call pairs its key with its prefix
      have hkey : done.key = p.call.key :=
        (PendingCall.locked_done hdone).2.1.trans (hk p (List.mem_of_getElem? hp))
      refine ⟨by rw [hj]; exact h.jobs, ?_⟩
      rw [hc]
      intro d hd
      rcases List.mem_append.mp hd with hd | hd
      · exact h.committed d hd
      · rw [List.mem_singleton.mp hd, hkey]
    · refine ⟨?_, ?_⟩
      · rw [hj]
        intro job hjob
        rcases List.mem_append.mp hjob with hjob | hjob
        · exact h.jobs job hjob
        · rw [List.mem_singleton.mp hjob]
          exact congrArg fromUtf8Lossy (h.committed _ (List.mem_of_getElem? hi))
      · rw [hc]
        exact fun d hd => h.committed d (List.mem_of_mem_eraseIdx hd)

theorem Labelled.run {mode : WalMode} {noPersist : List Bytes} {s : Server} (h : s.Labelled)
    (hw : s.Written mode noPersist) {actions : List Action} (ha : ∀ a ∈ actions, Journaled a) :
    (s.run actions).Labelled := by
  induction actions generalizing s with
  | nil => exact h
  | cons a actions ih =>
    exact ih (h.step hw.tidy.keyed a) (hw.step (ha a List.mem_cons_self))
      (fun b hb => ha b (List.mem_cons_of_mem a hb))

theorem start_labelled (wal : Option WalManager) (records : List WalRecord) :
    (start wal records).Labelled := by
  constructor
  · intro job hj
    rw [start_jobs] at hj
    contradiction
  · intro c hc
    contradiction

/-! ### The records of a server at rest -/

def recorded (mode : WalMode) (noPersist : List Bytes) (s : Server) : List Committed :=
  s.successes.filter (fun c => persists mode noPersist (walPrefix c.key))

theorem recorded_changes (mode : WalMode) (noPersist : List Bytes) (s : Server) :
    (s.recorded mode noPersist).map Committed.change =
      (s.successes.map Committed.change).filter
        (fun c => persists mode noPersist (walPrefix c.1)) := by
  rw [List.filter_map]
  rfl

/-- The prefix, the revision and the change that `do_send` reads off an announcement. -/
def told (e : ℤ × KeyValueWithPrev) : Bytes × ℤ × Bytes × Option Bytes :=
  (walPrefix e.2.kv.key, e.1, announcedChange e)

/-- What the WAL is told of a job is in its announcement. -/
theorem Labelled.told {s : Server} (h : s.Labelled) :
    s.dispatched.map (fun job => (job.walEntry.1, job.walEntry.2.change)) =
      (s.dispatched.map NotifyJob.event).map told := by
  rw [List.map_map]
  apply List.map_congr_left
  intro job hjob
  refine Prod.ext ?_ rfl
  show utf8Bytes job.prefixStr = walPrefix job.msg.kv.key
  rw [h.jobs job (mem_jobs_of_dispatched hjob)]
  rfl

/-- What the WAL is told of the jobs of some prefixes, once all are dispatched. -/
theorem KeptUp.told {s : Server} (hk : s.KeptUp) (hl : s.Labelled) (p : Bytes → Bool) :
    ((s.dispatched.map NotifyJob.walEntry).filter (fun a => p a.1)).map (fun a => a.2.change) =
      (s.successes.filter (fun c => p (walPrefix c.key))).map
        (fun c => (c.event.1, announcedChange c.event)) := by
  calc ((s.dispatched.map NotifyJob.walEntry).filter (fun a => p a.1)).map (fun a => a.2.change)
      = ((s.dispatched.map (fun job => (job.walEntry.1, job.walEntry.2.change))).filter
          (fun a => p a.1)).map Prod.snd := by
        simp only [List.filter_map, List.map_map]
        rfl
    _ = (((s.successes.map Committed.event).map Server.told).filter (fun a => p a.1)).map
          Prod.snd := by rw [hl.told, hk.announced]
    _ = (s.successes.filter (fun c => p (walPrefix c.key))).map
          (fun c => (c.event.1, announcedChange c.event)) := by
        simp only [List.filter_map, List.map_map]
        rfl

theorem walEntries_dispatched {s : Server} (ha : s.Aligned) (hk : s.KeptUp) (hl : s.Labelled)
    (hj : s.store.Chronicle s.successes) (mode : WalMode) (noPersist : List Bytes) :
    (walEntries mode noPersist s.dispatched).map (fun a => a.2.change) =
      (s.recorded mode noPersist).map (fun c => (c.newRev, c.change)) := by
  refine (hk.told hl (persists mode noPersist)).trans (List.map_congr_left ?_)
  intro c hc
  have hmem := List.mem_of_mem_filter hc
  exact Prod.ext (ha.revision c hmem) (announcedChange_event (hj.versions c hmem))

/-! ### What a replay of them gives -/

/-- Once the recorded revisions are the first ones, a persisted key has no change
behind them. -/
theorem cells_recorded {s : Server} (ha : s.Aligned) {mode : WalMode} {noPersist : List Bytes}
    {n : ℕ} (hn : (s.recorded mode noPersist).map (·.newRev) = upTo n) {k : Bytes}
    (hk : persists mode noPersist (walPrefix k) = true) :
    cells ((s.recorded mode noPersist).map Committed.change) k =
      cells (s.successes.map Committed.change) k := by
  have htake : s.recorded mode noPersist = s.successes.take n :=
    ReorderBuffer.filter_eq_take (·.newRev) ha.numbered hn
  rw [htake, List.map_take]
  apply VersionLog.cells_take_of_modRevision_le
  by_cases hzero : (cells (s.successes.map Committed.change) k).modRevision = 0
  · rw [hzero]
    exact Int.natCast_nonneg n
  · -- the last change of the key is recorded, so its revision is among the first
    have hmem := VersionLog.modRevision_take_mem (s.successes.map Committed.change) k
      (s.successes.map Committed.change).length
    rw [List.take_length] at hmem
    obtain ⟨m, hm, v, hg⟩ := VersionLog.mem_revisionsOf.mp (hmem hzero).1
    rw [List.getElem?_map] at hg
    obtain ⟨c, hc, hchange⟩ := Option.map_eq_some_iff.mp hg
    have hrev : c.newRev = m + 1 := ReorderBuffer.seq_of_getElem? (·.newRev) ha.numbered hc
    have hin : c ∈ s.recorded mode noPersist := by
      refine List.mem_filter.mpr ⟨List.mem_of_getElem? hc, ?_⟩
      have hkey : c.key = k := congrArg Prod.fst hchange
      rw [hkey]
      exact hk
    have hle : c.newRev ∈ upTo n := hn ▸ List.mem_map_of_mem hin
    rw [hm, ← hrev]
    exact (ReorderBuffer.mem_upTo.mp hle).2

theorem sorted_newRev {s : Server} (ha : s.Aligned) (mode : WalMode) (noPersist : List Bytes) :
    ((s.recorded mode noPersist).map (·.newRev)).Pairwise (· < ·) := by
  have hsub : ((s.recorded mode noPersist).map (·.newRev)).Sublist (s.successes.map (·.newRev)) :=
    (List.filter_sublist).map _
  rw [ha.numbered] at hsub
  exact (ReorderBuffer.sorted_upTo _).sublist hsub

/-- As many revisions as records: they reach their number exactly if they have no
gap. -/
theorem newRev_le_iff {s : Server} (ha : s.Aligned) (mode : WalMode) (noPersist : List Bytes) :
    (∀ c ∈ s.recorded mode noPersist, c.newRev ≤ (s.recorded mode noPersist).length) ↔
      (s.recorded mode noPersist).map (·.newRev) = upTo (s.recorded mode noPersist).length := by
  constructor
  · intro hle
    have hlen : ((s.recorded mode noPersist).map (·.newRev)).length =
        (s.recorded mode noPersist).length := List.length_map _
    rw [← hlen]
    apply ReorderBuffer.eq_upTo (sorted_newRev ha mode noPersist)
    intro r hr
    obtain ⟨c, hc, rfl⟩ := List.mem_map.mp hr
    have hmem : c.newRev ∈ upTo s.store.valuesByRevision.latestRevision :=
      ha.numbered ▸ List.mem_map_of_mem (List.mem_of_mem_filter hc)
    rw [hlen]
    exact ⟨(ReorderBuffer.mem_upTo.mp hmem).1, hle c hc⟩
  · intro heq c hc
    have hmem : c.newRev ∈ upTo (s.recorded mode noPersist).length :=
      heq ▸ List.mem_map_of_mem hc
    exact (ReorderBuffer.mem_upTo.mp hmem).2

theorem newRev_le_of_records {records : List WalRecord} {calls : List Committed}
    (h : records.map WalRecord.rev = calls.map (·.newRev)) (n : ℤ) :
    (∀ rec ∈ records, rec.rev ≤ n) ↔ ∀ c ∈ calls, c.newRev ≤ n := by
  have hrevs : (∀ rec ∈ records, rec.rev ≤ n) ↔ ∀ r ∈ records.map WalRecord.rev, r ≤ n := by simp
  rw [hrevs, h]
  simp

/-- The store is not behind exactly if every successful call has a record. -/
theorem all_recorded_iff {s : Server} (ha : s.Aligned) (mode : WalMode) (noPersist : List Bytes) :
    (∀ c ∈ s.successes, c.newRev ≤ (s.recorded mode noPersist).length) ↔
      ∀ c ∈ s.successes, persists mode noPersist (walPrefix c.key) = true := by
  have hle : (s.recorded mode noPersist).length ≤ s.successes.length :=
    List.length_filter_le _ _
  rw [← List.length_filter_eq_length_iff]
  change _ ↔ (s.recorded mode noPersist).length = s.successes.length
  constructor
  · intro hall
    by_contra hne
    -- the last call has the number of all calls
    have hlast : s.successes.length - 1 < s.successes.length := by omega
    have hget := List.getElem?_eq_getElem hlast
    have hrev := ReorderBuffer.seq_of_getElem? (·.newRev) ha.numbered hget
    have := hall _ (List.getElem_mem hlast)
    omega
  · intro heq c hc
    have hlen : s.successes.length = s.store.valuesByRevision.latestRevision := by
      simpa using congrArg List.length ha.numbered
    have hmem : c.newRev ∈ upTo s.store.valuesByRevision.latestRevision :=
      ha.numbered ▸ List.mem_map_of_mem hc
    have := (ReorderBuffer.mem_upTo.mp hmem).2
    omega

def freshWith (mode : WalMode) (noPersist : List Bytes) : Server :=
  start (some (WalManager.new mode noPersist)) []

/-- Every key outside the prefixes has the revisions in `t` that it has in `s`. -/
def KeepsRevisions (noPersist : List Bytes) (s t : Store) : Prop :=
  ∀ key, (prefixSplit key).1 ∉ noPersist →
    (t.view key).latestValue.modRevision = (s.view key).latestValue.modRevision ∧
      (t.view key).latestValue.createRevision = (s.view key).latestValue.createRevision

/-- Both stores replayed or ran what their logs say. -/
theorem keepsRevisions_iff {s : Server} (ha : s.Aligned) {log : History} {t : Store}
    (hs : s.store.Represents (s.successes.map Committed.change)) (ht : t.Represents log)
    {mode : WalMode} {noPersist : List Bytes}
    (hlog : log = (s.recorded mode noPersist).map Committed.change) {n : ℕ}
    (hn : (s.recorded mode noPersist).map (·.newRev) = upTo n) :
    KeepsRevisions noPersist s.store t ↔
      ∀ c ∈ s.successes, (prefixSplit c.key).1 ∉ noPersist →
        persists mode noPersist (walPrefix c.key) = true := by
  have hblank {k : Bytes} (hk : persists mode noPersist (walPrefix k) = false) :
      cells log k = VersionLog.Cell.blank := by
    rw [hlog, recorded_changes]
    exact VersionLog.cells_filter_of_not (fun k => persists mode noPersist (walPrefix k)) _ hk
  unfold KeepsRevisions
  simp only [ht.latest, hs.latest]
  constructor
  · intro hkeeps c hc hout
    by_contra hp
    -- the replay knows nothing of the key of such a call
    have hmod := (hkeeps c.key hout).1
    rw [hblank (Bool.eq_false_iff.mpr hp)] at hmod
    have hchange : (c.key, c.value.value) ∈ s.successes.map Committed.change :=
      List.mem_map_of_mem hc
    exact VersionLog.modRevision_ne_zero hchange hmod.symm
  · intro hall k hout
    cases hp : persists mode noPersist (walPrefix k) with
    | true =>
      rw [hlog, cells_recorded ha hn hp]
      exact ⟨rfl, rfl⟩
    | false =>
      have hzero : (cells (s.successes.map Committed.change) k).modRevision = 0 := by
        by_contra hne
        have hmem := VersionLog.modRevision_take_mem (s.successes.map Committed.change) k
          (s.successes.map Committed.change).length
        rw [List.take_length] at hmem
        obtain ⟨m, _, v, hg⟩ := VersionLog.mem_revisionsOf.mp (hmem hne).1
        obtain ⟨c, hc, hchange⟩ := List.mem_map.mp (List.mem_of_getElem? hg)
        have hkey : c.key = k := congrArg Prod.fst hchange
        have hpc := hall c hc (hkey ▸ hout)
        rw [hkey, hp] at hpc
        contradiction
      rw [hblank hp, VersionLog.cells_of_modRevision_zero _ _ hzero]
      exact ⟨rfl, rfl⟩

/-- `Store::new` on the directory of a server at rest replays the recorded calls. -/
theorem Written.load {mode : WalMode} {noPersist : List Bytes} {s : Server}
    (h : s.Written mode noPersist) (ha : s.Aligned) (hq : s.Quiescent) (hl : s.Labelled)
    (hrev : s.store.currentRevision < 2 ^ 63) {w : WalManager} (hw : s.sinks.wal = some w)
    (hf : w.Flushed) {entries : List (Bytes × Bytes)} (he : entries.Perm w.walDir.toList)
    (mode' : WalMode) :
    ∃ t records, Store.newFromWal mode' entries = some (t, .ok ()) ∧
      loadWalDir entries (fun l rec => l ++ [rec]) [] = some (records, .ok ()) ∧
      t.Represents ((s.recorded mode noPersist).map Committed.change) ∧
      records.map (·.rev) = (s.recorded mode noPersist).map (·.newRev) := by
  have hk := ha.keptUp hq
  obtain ⟨w', hw', _, _, hholds⟩ := h.kept
  cases hw.symm.trans hw'
  have hchanges := walEntries_dispatched ha hk hl h.chronicle mode noPersist
  have hrevs : (walEntries mode noPersist s.dispatched).map (·.2.rev) =
      (s.recorded mode noPersist).map (·.newRev) := by
    have hfst := congrArg (List.map Prod.fst) hchanges
    rw [List.map_map, List.map_map] at hfst
    exact hfst
  have hcalls : (walEntries mode noPersist s.dispatched).map (fun a => (a.2.key, a.2.value)) =
      (s.recorded mode noPersist).map Committed.change := by
    have hsnd := congrArg (List.map Prod.snd) hchanges
    rw [List.map_map, List.map_map] at hsnd
    exact hsnd
  have hload {σ : Type} (onEntry : σ → WalRecord → σ) (init : σ) :=
    hholds.load hf he (fun a ha => hk.valid h.chronicle hrev a (List.mem_of_mem_filter ha))
      (hrevs ▸ sorted_newRev ha mode noPersist) onEntry init
  have heffective := h.chronicle.effective.filter
    (fun k => persists mode noPersist (walPrefix k))
  rw [← recorded_changes] at heffective
  obtain ⟨_, htr, _⟩ := Store.replay_represents (some mode') heffective
  refine ⟨_, _, hload _ _, hload _ _, ?_, ?_⟩
  · rw [Store.foldl_replayRecord, hcalls]
    exact htr
  · rw [List.foldl_append_eq_append, List.nil_append, ← List.flatMap_def, List.flatMap_singleton',
      List.map_map]
    exact hrevs

/-- A server with prefixes that are not persisted runs calls and the steps of its
threads, until all records are in their files; `Store::new` on any listing of the
directory succeeds. The keys outside the prefixes have their revisions again, and the
current revision is not behind a record, exactly if the recorded revisions are those
from 1 on without a gap, and every change outside the prefixes is recorded. No
revision can be assigned twice exactly if every change is recorded. -/
theorem recovery_keeps_revisions_iff (mode mode' : WalMode) (noPersist : List Bytes)
    (actions : List Action) (hj : ∀ a ∈ actions, Journaled a)
    (hq : ((freshWith mode noPersist).run actions).Quiescent)
    (hrev : ((freshWith mode noPersist).run actions).store.currentRevision < 2 ^ 63)
    (w : WalManager) (hw : ((freshWith mode noPersist).run actions).sinks.wal = some w)
    (hf : w.Flushed) (entries : List (Bytes × Bytes)) (he : entries.Perm w.walDir.toList) :
    ∃ t records, Store.newFromWal mode' entries = some (t, .ok ()) ∧
      loadWalDir entries (fun l rec => l ++ [rec]) [] = some (records, .ok ()) ∧
      (KeepsRevisions noPersist ((freshWith mode noPersist).run actions).store t ∧
          (∀ rec ∈ records, rec.rev ≤ t.currentRevision) ↔
        records.map (·.rev) = upTo records.length ∧
          ∀ c ∈ ((freshWith mode noPersist).run actions).successes,
            (prefixSplit c.key).1 ∉ noPersist →
              persists mode noPersist (walPrefix c.key) = true) ∧
      ((∀ c ∈ ((freshWith mode noPersist).run actions).successes, c.newRev ≤ t.currentRevision) ↔
        ∀ c ∈ ((freshWith mode noPersist).run actions).successes,
          persists mode noPersist (walPrefix c.key) = true) := by
  have hwritten : ((freshWith mode noPersist).run actions).Written mode noPersist :=
    (start_written mode noPersist).run hj
  have hlabelled : ((freshWith mode noPersist).run actions).Labelled :=
    (start_labelled _ _).run (start_written mode noPersist) hj
  have haligned : ((freshWith mode noPersist).run actions).Aligned :=
    (start_aligned _ _ rfl).run actions (importsKeepRevision_of_journaled _ hj)
  generalize (freshWith mode noPersist).run actions = s at *
  obtain ⟨t, records, hnew, hload, htr, hrecords⟩ :=
    hwritten.load haligned hq hlabelled hrev hw hf he mode'
  have hcur := htr.currentRevision_eq
  rw [List.length_map] at hcur
  have hlength : records.length = (s.recorded mode noPersist).length := by
    simpa using congrArg List.length hrecords
  refine ⟨t, records, hnew, hload, ?_, ?_⟩
  · -- the records reach their number without a gap, and then the keys can be compared
    have hreach := (newRev_le_of_records hrecords (s.recorded mode noPersist).length).trans
      (newRev_le_iff haligned mode noPersist)
    rw [hcur, hreach, hrecords, hlength, and_comm]
    apply and_congr_right
    intro hn
    exact keepsRevisions_iff haligned hwritten.chronicle.history htr rfl hn
  · rw [hcur]
    exact all_recorded_iff haligned mode noPersist

/-- The prefix `/registry/p/`. -/
def eventPrefix : Bytes := registryRoot ++ [112, 47]

/-- The key `a` is created and changed, and after that a key that is not persisted. -/
def persistedFirst : List Action :=
  Call.actions ⟨[97], some [1], none⟩ ++ Call.actions ⟨[97], some [2], none⟩ ++
    Call.actions ⟨eventPrefix ++ [120], some [3], none⟩ ++
    [.collect 0, .collect 0, .collect 0, .send 0, .send 0, .send 0, .receive, .receive, .receive,
      .writeWal [] 8 none]

theorem recovery_keeps_revisions_of_persistedFirst :
    ∃ w t records, ((freshWith .sync [eventPrefix]).run persistedFirst).sinks.wal = some w ∧
      Store.newFromWal .sync w.walDir.toList = some (t, .ok ()) ∧
      loadWalDir w.walDir.toList (fun l rec => l ++ [rec]) [] = some (records, .ok ()) ∧
      (KeepsRevisions [eventPrefix] ((freshWith .sync [eventPrefix]).run persistedFirst).store t ∧
          (∀ rec ∈ records, rec.rev ≤ t.currentRevision) ↔
        records.map (·.rev) = upTo records.length ∧
          ∀ c ∈ ((freshWith .sync [eventPrefix]).run persistedFirst).successes,
            (prefixSplit c.key).1 ∉ [eventPrefix] →
              persists .sync [eventPrefix] (walPrefix c.key) = true) ∧
      ((∀ c ∈ ((freshWith .sync [eventPrefix]).run persistedFirst).successes,
          c.newRev ≤ t.currentRevision) ↔
        ∀ c ∈ ((freshWith .sync [eventPrefix]).run persistedFirst).successes,
          persists .sync [eventPrefix] (walPrefix c.key) = true) := by
  have hj : ∀ a ∈ persistedFirst, Journaled a := by
    simp [persistedFirst, Call.actions, Journaled, Recordable, WritesAll, Call.Fits, eventPrefix,
      registryRoot]
  have hw : ((freshWith .sync [eventPrefix]).run persistedFirst).sinks.wal.isSome := by decide
  have hf := WalManager.flushed_of_toList
    (w := ((freshWith .sync [eventPrefix]).run persistedFirst).sinks.wal.get hw) (by decide +revert)
  obtain ⟨t, records, h⟩ := recovery_keeps_revisions_iff .sync .sync [eventPrefix] persistedFirst hj
    ⟨by decide, by decide, by decide⟩ (by decide) _ (Option.some_get hw).symm hf _
    (List.Perm.refl _)
  exact ⟨_, t, records, (Option.some_get hw).symm, h⟩

/-- A change that is not persisted comes first and takes revision 1, and `a` is created
at revision 2. -/
def persistedLast : List Action :=
  Call.actions ⟨eventPrefix ++ [120], some [3], none⟩ ++ Call.actions ⟨[97], some [1], none⟩ ++
    [.collect 0, .collect 0, .send 0, .send 0, .receive, .receive, .writeWal [] 8 none]

/-- The replay gives `a` revision 1, and the next change gets revision 2 once more. -/
theorem recovery_renumbers :
    ((freshWith .sync [eventPrefix]).run persistedLast).Quiescent ∧
      (((freshWith .sync [eventPrefix]).run persistedLast).store.view [97]).latestValue =
        ⟨2, 2, 1, some [1]⟩ ∧
      ∃ w t, ((freshWith .sync [eventPrefix]).run persistedLast).sinks.wal = some w ∧
        Store.newFromWal .sync w.walDir.toList = some (t, .ok ()) ∧
        (t.view [97]).latestValue = ⟨1, 1, 1, some [1]⟩ ∧ t.currentRevision = 1 ∧
        Store.outcome (t.set [98] (some [4]) none).2 = .ok 2 := by
  have hw : ((freshWith .sync [eventPrefix]).run persistedLast).sinks.wal.isSome := by decide
  have hload : (Store.newFromWal .sync (((freshWith .sync [eventPrefix]).run
      persistedLast).sinks.wal.get hw).walDir.toList).map (fun p => (p.2, (p.1.view [97]).latestValue,
        p.1.currentRevision, Store.outcome (p.1.set [98] (some [4]) none).2)) =
      some (.ok (), ⟨1, 1, 1, some [1]⟩, 1, .ok 2) := by rfl
  obtain ⟨⟨t, res⟩, ht, he⟩ := Option.map_eq_some_iff.mp hload
  obtain ⟨rfl, hcell, hcur, hset⟩ := by simpa only [Prod.mk.injEq] using he
  exact ⟨⟨by decide, by decide, by decide⟩, by rfl, _, t, (Option.some_get hw).symm, ht, hcell,
    hcur, hset⟩

end Server
end MemEtcd
