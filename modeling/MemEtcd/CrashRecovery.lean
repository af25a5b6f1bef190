import MemEtcd.Acknowledgements
import MemEtcd.LogCuts
import MemEtcd.WalMerge

/-! A crash at any moment. The notification thread, the queues and the workers may
have come any way with the changes of a run, each file on its own. What a new
store finds is a state of the old one for every prefix, but not the same one for
all of them. -/
namespace MemEtcd

open KWayMerge (Merges)
open ReorderBuffer (upTo)
open Std (ExtTreeMap)
open VersionLog (Cell cells cutAt lastKey)

/-! ### What a crash leaves of the directory -/

/-- Every file ends somewhere, perhaps within a batch that was being written. What
`fsync` has confirmed is there. -/
structure WalManager.CrashImage (w : WalManager) (dir : ExtTreeMap Bytes Bytes compare) :
    Prop where
  cut : ∀ name contents, dir[name]? = some contents →
    ∃ (p : Bytes) (wr : PerPrefixWriter) (file : Bytes), w.writers[p]? = some wr ∧
      name = wr.path ∧ w.walDir[wr.path]? = some file ∧
      contents <+: file ++ wr.toWrite.flatMap WalRecord.encode
  synced : w.defaultMode = .sync → ∀ (name file : Bytes), w.walDir[name]? = some file →
    file ≠ [] → ∃ contents, dir[name]? = some contents ∧ file <+: contents

/-- The records of a prefix that are found after the crash. -/
def survivors (dir : ExtTreeMap Bytes Bytes compare) (p : Bytes) : List WalRecord :=
  fileRecords ((dir[fileNameForPrefix p]?).getD [])

def lastSurvivor (dir : ExtTreeMap Bytes Bytes compare) (p : Bytes) : ℤ :=
  lastKey WalRecord.rev (survivors dir p)

theorem fileRecords_of_readRecords {bytes : Bytes}
    {o : Framing.Outcome UInt8 WalRecord ReadError} (h : WalRecord.readRecords bytes = some o) :
    fileRecords bytes = o.records := by
  unfold fileRecords
  rw [h]

theorem survivors_of_absent {dir : ExtTreeMap Bytes Bytes compare} {p : Bytes}
    (h : dir[fileNameForPrefix p]? = none) : survivors dir p = [] := by
  unfold survivors
  rw [h]
  exact fileRecords_of_readRecords (WalRecord.readRecords_short (by decide))

/-- A file that ends too early holds the first records. -/
theorem fileRecords_cut {rs : List WalRecord} (hv : ∀ rec ∈ rs, rec.Valid) {bytes : Bytes}
    (h : bytes <+: rs.flatMap WalRecord.encode) :
    fileRecords bytes <+: rs.map WalRecord.stored := by
  obtain ⟨torn, hread⟩ := WalRecord.readRecords_cut hv h.length_le
  rw [← List.prefix_iff_eq_take.mp h] at hread
  rw [fileRecords_of_readRecords hread]
  exact (Framing.complete_prefix _ rs).map WalRecord.stored

/-- A file that goes on behind some records holds them. -/
theorem fileRecords_synced {rs : List WalRecord} (hv : ∀ rec ∈ rs, rec.Valid) {bytes : Bytes}
    (h : rs.flatMap WalRecord.encode <+: bytes) :
    rs.map WalRecord.stored <+: fileRecords bytes := by
  obtain ⟨tail, rfl⟩ := h
  obtain ⟨o, ho⟩ := WalRecord.readRecords_isSome tail
  rw [fileRecords_of_readRecords (WalRecord.readRecords_encode hv ho)]
  exact List.prefix_append _ _

namespace WalManager.CrashImage

variable {w : WalManager} {dir : ExtTreeMap Bytes Bytes compare}
  {appended : List (Bytes × WalRecord)}

/-- Every file belongs to a prefix and holds a part of what was written for it. -/
theorem file (h : w.CrashImage dir) (hh : w.Holds appended) {name contents : Bytes}
    (hd : dir[name]? = some contents) :
    ∃ p, name = fileNameForPrefix p ∧
      contents <+: (recordsOf appended p).flatMap WalRecord.encode := by
  obtain ⟨p, wr, file, hw, rfl, hfile, hcut⟩ := h.cut name contents hd
  obtain ⟨written, hwritten, hrecs⟩ := hh.present hw
  have hpath := hh.paths p wr hw
  refine ⟨p, hpath, ?_⟩
  rw [hpath, hwritten] at hfile
  rw [hrecs, List.flatMap_append, Option.some.inj hfile]
  exact hcut

theorem survivors_prefix (h : w.CrashImage dir) (hh : w.Holds appended)
    (hv : ∀ a ∈ appended, a.2.Valid) (p : Bytes) :
    survivors dir p <+: (recordsOf appended p).map WalRecord.stored := by
  cases hd : dir[fileNameForPrefix p]? with
  | none =>
    rw [survivors_of_absent hd]
    exact List.nil_prefix
  | some contents =>
    obtain ⟨q, hname, hcut⟩ := h.file hh hd
    rw [← fileNameForPrefix_injective hname] at hcut
    unfold survivors
    rw [hd]
    apply fileRecords_cut _ hcut
    intro rec hr
    obtain ⟨a, ha, rfl⟩ := List.mem_map.mp hr
    exact hv a (List.mem_of_mem_filter ha)

/-- What the loader reads are the survivors of the prefixes that have a file. -/
theorem streams (h : w.CrashImage dir) (hh : w.Holds appended)
    {entries : List (Bytes × Bytes)} (he : entries.Perm dir.toList) :
    ∃ ps : List Bytes, ps.Nodup ∧ walStreams entries = ps.map (survivors dir) ∧
      ∀ p, survivors dir p ≠ [] → p ∈ ps := by
  have hmem : ∀ e, e ∈ entries ↔ dir[e.1]? = some e.2 := by
    intro e
    rw [he.mem_iff]
    exact ExtTreeMap.mem_toList_iff_getElem?_eq_some
  have hrange : entries ∈ Set.range
      (List.map (fun p => (fileNameForPrefix p, (dir[fileNameForPrefix p]?).getD []))) := by
    rw [Set.range_list_map]
    intro e hin
    obtain ⟨name, contents⟩ := e
    rw [hmem] at hin
    obtain ⟨p, rfl, _⟩ := h.file hh hin
    refine ⟨p, Prod.ext rfl ?_⟩
    show (dir[fileNameForPrefix p]?).getD [] = contents
    rw [show dir[fileNameForPrefix p]? = some contents from hin]
    rfl
  obtain ⟨ps, rfl⟩ := hrange
  have hnames : (ps.map fileNameForPrefix).Nodup := by
    have hd : (dir.toList.map Prod.fst).Nodup := by
      rw [ExtTreeMap.map_fst_toList_eq_keys]
      exact ExtTreeMap.nodup_keys
    have hp := (he.map Prod.fst).nodup_iff.mpr hd
    rwa [List.map_map] at hp
  refine ⟨ps, List.Nodup.of_map _ hnames, ?_, ?_⟩
  · unfold walStreams
    rw [List.filter_eq_self.mpr, List.map_map]
    · rfl
    · intro e hin
      obtain ⟨p, _, rfl⟩ := List.mem_map.mp hin
      exact decide_eq_true (extension_fileNameForPrefix p)
  · intro p hne
    cases hd : dir[fileNameForPrefix p]? with
    | none => exact absurd (survivors_of_absent hd) hne
    | some contents =>
      obtain ⟨q, hq, heq⟩ := List.mem_map.mp ((hmem (_, _)).mpr hd)
      rwa [← fileNameForPrefix_injective (congrArg Prod.fst heq)]

/-- The records of a prefix up to its last survivor are its survivors. -/
theorem survivors_eq (h : w.CrashImage dir) (hh : w.Holds appended)
    (hv : ∀ a ∈ appended, a.2.Valid) (hs : (appended.map (·.2.rev)).Pairwise (· < ·))
    (hpos : ∀ a ∈ appended, 0 < a.2.rev) (p : Bytes) :
    (((appended.filter (fun a => decide (a.2.rev ≤ lastSurvivor dir a.1))).filter
      (fun a => decide (a.1 = p))).map (fun a => a.2.stored)) = survivors dir p := by
  have hsorted : ((recordsOf appended p).map WalRecord.stored).Pairwise
      (fun a b => a.rev < b.rev) := by
    unfold recordsOf
    rw [List.map_map, List.pairwise_map]
    rw [List.pairwise_map] at hs
    exact hs.filter _
  have hpositive : ∀ rec ∈ (recordsOf appended p).map WalRecord.stored, 0 < rec.rev := by
    intro rec hr
    obtain ⟨rec', hr', rfl⟩ := List.mem_map.mp hr
    obtain ⟨a, ha, rfl⟩ := List.mem_map.mp hr'
    exact hpos a (List.mem_of_mem_filter ha)
  calc _ = ((appended.filter (fun a => decide (a.1 = p))).filter
          (fun a => decide (a.2.rev ≤ lastSurvivor dir p))).map (fun a => a.2.stored) := by
        rw [List.filter_comm]
        congr 1
        apply List.filter_congr
        intro a ha
        rw [of_decide_eq_true (List.mem_filter.mp ha).2]
    _ = ((recordsOf appended p).map WalRecord.stored).filter
          (fun rec => decide (rec.rev ≤ lastSurvivor dir p)) := by
        unfold recordsOf
        rw [List.map_map, List.filter_map]
        rfl
    _ = survivors dir p :=
        (VersionLog.prefix_eq_filter (h.survivors_prefix hh hv p) hsorted hpositive).symm

/-- The loader goes through the survivors of all prefixes, in the order of their
revisions. -/
theorem load (h : w.CrashImage dir) (hh : w.Holds appended) (hv : ∀ a ∈ appended, a.2.Valid)
    (hs : (appended.map (·.2.rev)).Pairwise (· < ·)) (hpos : ∀ a ∈ appended, 0 < a.2.rev)
    {entries : List (Bytes × Bytes)} (he : entries.Perm dir.toList)
    (hc : ∀ e ∈ entries, Clean e.2) {σ : Type} (onEntry : σ → WalRecord → σ) (init : σ) :
    loadWalDir entries onEntry init =
      some (((appended.filter (fun a => decide (a.2.rev ≤ lastSurvivor dir a.1))).map
        (fun a => a.2.stored)).foldl onEntry init, .ok ()) := by
  obtain ⟨ps, hn, hstreams, hps⟩ := h.streams hh he
  obtain ⟨out, hmerge, hload⟩ := loadWalDirWith_merges
    (PriorityQueue.sortedLists HeapItem.rev) (fun e hin _ => hc e hin)
  rw [hstreams] at hmerge
  have hparts : ps.map (survivors dir) = ps.map (fun p =>
      ((appended.filter (fun a => decide (a.2.rev ≤ lastSurvivor dir a.1))).filter
        (fun a => decide (a.1 = p))).map (fun a => a.2.stored)) :=
    List.map_congr_left (fun p _ => (h.survivors_eq hh hv hs hpos p).symm)
  rw [hparts] at hmerge
  -- a record that is kept has a survivor at its revision or behind it
  have hlabels : ∀ a ∈ appended.filter (fun a => decide (a.2.rev ≤ lastSurvivor dir a.1)),
      a.1 ∈ ps := by
    intro a ha
    obtain ⟨hmem, hle⟩ := List.mem_filter.mp ha
    apply hps
    intro hnil
    have hzero : lastSurvivor dir a.1 = 0 := by
      unfold lastSurvivor
      rw [hnil]
      rfl
    have := hpos a hmem
    have := of_decide_eq_true hle
    omega
  have hascending : ((appended.filter (fun a => decide (a.2.rev ≤ lastSurvivor dir a.1))).map
      (fun a => a.2.stored)).Pairwise (fun a b => a.rev < b.rev) := by
    rw [List.pairwise_map]
    rw [List.pairwise_map] at hs
    exact hs.filter _
  rw [loadWalDir_eq, hload, Merges.eq_of_parts _ _ hn hlabels hascending hmerge]

/-- The last survivor of a prefix is one of its records, if there is one at all. -/
theorem lastSurvivor_mem (h : w.CrashImage dir) (hh : w.Holds appended)
    (hv : ∀ a ∈ appended, a.2.Valid) (p : Bytes) :
    lastSurvivor dir p = 0 ∨ ∃ a ∈ appended, a.1 = p ∧ a.2.rev = lastSurvivor dir p := by
  by_cases hnil : survivors dir p = []
  · left
    unfold lastSurvivor
    rw [hnil]
    rfl
  · right
    obtain ⟨rec, hrec, hlast⟩ := @VersionLog.lastKey_mem _ WalRecord.rev _ hnil
    obtain ⟨rec', hrec', rfl⟩ := List.mem_map.mp ((h.survivors_prefix hh hv p).subset hrec)
    obtain ⟨a, ha, rfl⟩ := List.mem_map.mp hrec'
    obtain ⟨hmem, hp⟩ := List.mem_filter.mp ha
    exact ⟨a, hmem, of_decide_eq_true hp, hlast.symm⟩

/-- When only the process dies, the files are as they were written. -/
theorem of_walDir (hh : w.Holds appended) : w.CrashImage w.walDir := by
  constructor
  · intro name contents hd
    obtain ⟨p, rfl, hsome⟩ := hh.files name contents hd
    obtain ⟨wr, hw⟩ := Option.isSome_iff_exists.mp hsome
    have hpath := hh.paths p wr hw
    exact ⟨p, wr, contents, hw, hpath.symm, hpath ▸ hd, List.prefix_append _ _⟩
  · intro _ name file hd _
    exact ⟨file, hd, List.prefix_rfl⟩

/-- In `Sync` mode the records that are in their file survive. -/
theorem synced_survives (h : w.CrashImage dir) (hmode : w.defaultMode = .sync)
    {p : Bytes} {recs : List WalRecord} (hv : ∀ rec ∈ recs, rec.Valid)
    (hfile : w.walDir[fileNameForPrefix p]? = some (recs.flatMap WalRecord.encode)) :
    recs.map WalRecord.stored <+: survivors dir p := by
  by_cases hempty : recs.flatMap WalRecord.encode = []
  · have hlen := length_flatMap_encode recs
    rw [hempty, List.length_nil, Nat.le_zero, List.length_eq_zero_iff] at hlen
    rw [hlen]
    exact List.nil_prefix
  · obtain ⟨contents, hd, hp⟩ := h.synced hmode _ _ hfile hempty
    unfold survivors
    rw [hd]
    exact fileRecords_synced hv hp

end WalManager.CrashImage

/-! ### What a new store makes of it -/

namespace Server

section

variable {mode : WalMode} {noPersist : List Bytes} {s : Server}

/-- The dispatched jobs are those of the first successful calls. -/
theorem Aligned.dispatched_events (h : s.Aligned) :
    s.dispatched.map NotifyJob.event =
      (s.successes.map Committed.event).take s.dispatched.length := by
  have hrevs : s.successes.map (fun c => c.event.1) = s.successes.map (·.newRev) :=
    List.map_congr_left h.revision
  apply ReorderBuffer.eq_take_of_subset Prod.fst (m := s.store.valuesByRevision.latestRevision)
  · rw [List.map_map]
    exact hrevs.trans h.numbered
  · rw [List.map_map]
    exact h.buffer.order
  · intro e he
    obtain ⟨job, hjob, rfl⟩ := List.mem_map.mp he
    obtain ⟨c, hc, hevent⟩ := h.announces (Or.inl ⟨job, mem_jobs_of_dispatched hjob, rfl⟩)
    exact List.mem_map.mpr ⟨c, hc, hevent⟩

/-- What the WAL was told of them. -/
theorem Documented.entries (h : s.Documented mode noPersist) :
    s.dispatched.map (fun job => (job.walEntry.1, job.walEntry.2.change)) =
      (s.successes.take s.dispatched.length).map
        (fun c => (walPrefix c.key, c.newRev, c.change)) := by
  calc s.dispatched.map (fun job => (job.walEntry.1, job.walEntry.2.change))
      = ((s.successes.take s.dispatched.length).map Committed.event).map told := by
        rw [h.labelled.told, h.aligned.dispatched_events, ← List.map_take]
    _ = (s.successes.take s.dispatched.length).map
          (fun c => (walPrefix c.key, c.newRev, c.change)) := by
        rw [List.map_map]
        apply List.map_congr_left
        intro c hc
        have hmem := List.mem_of_mem_take hc
        exact Prod.ext rfl (Prod.ext (h.aligned.revision c hmem)
          (announcedChange_event (h.chronicle.versions c hmem)))

/-- A cut of the history keeps the calls up to a revision for each key. -/
theorem Aligned.cutAt_changes (h : s.Aligned) (upto : Bytes → ℕ) :
    cutAt upto (s.successes.map Committed.change) =
      (s.successes.filter (fun c => decide (c.newRev ≤ (upto c.key : ℤ)))).map Committed.change := by
  unfold cutAt
  rw [List.zipIdx_map, List.filter_map, List.map_map]
  have hcongr : (s.successes.zipIdx 1).filter
      ((fun c => decide (c.2 ≤ upto c.1.1)) ∘ Prod.map Committed.change id) =
        (s.successes.zipIdx 1).filter
          ((fun c => decide (c.newRev ≤ (upto c.key : ℤ))) ∘ Prod.fst) := by
    apply List.filter_congr
    rintro ⟨c, i⟩ hc
    obtain ⟨hle, -, hget⟩ := List.mem_zipIdx hc
    have hrev := ReorderBuffer.seq_of_getElem? (·.newRev) h.numbered
      (List.getElem?_eq_some_iff.mpr ⟨_, hget.symm⟩)
    apply decide_eq_decide.mpr
    show i ≤ upto c.key ↔ c.newRev ≤ (upto c.key : ℤ)
    omega
  rw [hcongr, ← List.zipIdx_map_fst 1 s.successes, List.filter_map, List.map_map,
    List.zipIdx_map_fst]
  rfl

/-- The number of a successful call. -/
theorem Aligned.newRev_eq (h : s.Aligned) {c : Committed} (hc : c ∈ s.successes) :
    1 ≤ c.newRev ∧ c.newRev ≤ s.store.currentRevision := by
  have hmem : c.newRev ∈ upTo s.store.valuesByRevision.latestRevision :=
    h.numbered ▸ List.mem_map_of_mem hc
  exact ReorderBuffer.mem_upTo.mp hmem

/-- The records of each prefix up to one of them are the calls up to its revision. -/
theorem Documented.kept_changes (h : s.Documented mode noPersist) {last : Bytes → ℤ}
    (hlast : ∀ p, last p = 0 ∨ ∃ a ∈ walEntries mode noPersist s.dispatched,
      a.1 = p ∧ a.2.rev = last p) :
    ((walEntries mode noPersist s.dispatched).filter
        (fun a => decide (a.2.rev ≤ last a.1))).map (fun a => (a.2.key, a.2.value)) =
      cutAt (fun key => (last (walPrefix key)).toNat) (s.successes.map Committed.change) := by
  -- a call up to the last record of its prefix was dispatched, to a prefix with a file
  have hkept {c : Committed} (hc : c ∈ s.successes) (hle : c.newRev ≤ last (walPrefix c.key)) :
      persists mode noPersist (walPrefix c.key) = true ∧ c.newRev ≤ s.dispatched.length := by
    have hnew := (h.aligned.newRev_eq hc).1
    obtain ⟨a, ha, hp, hrev⟩ := (hlast (walPrefix c.key)).resolve_left (by omega)
    obtain ⟨hmem, hpersists⟩ := List.mem_filter.mp ha
    obtain ⟨job, hjob, rfl⟩ := List.mem_map.mp hmem
    have hsent : job.rev ∈ upTo s.dispatched.length :=
      h.aligned.buffer.order ▸ List.mem_map_of_mem hjob
    have hbound := (ReorderBuffer.mem_upTo.mp hsent).2
    refine ⟨hp ▸ hpersists, ?_⟩
    rw [← hrev] at hle
    exact hle.trans hbound
  have hdropped : (s.successes.drop s.dispatched.length).filter
      (fun c => decide (c.newRev ≤ last (walPrefix c.key))) = [] := by
    apply List.filter_eq_nil_iff.mpr
    intro c hc hle
    obtain ⟨i, hi⟩ := List.mem_iff_getElem?.mp hc
    rw [List.getElem?_drop] at hi
    have hnumber := ReorderBuffer.seq_of_getElem? (·.newRev) h.aligned.numbered hi
    have := (hkept (List.mem_of_mem_drop hc) (of_decide_eq_true hle)).2
    push_cast at hnumber
    omega
  calc _ = ((s.dispatched.map (fun job => (job.walEntry.1, job.walEntry.2.change))).filter
          (fun e => decide (e.2.1 ≤ last e.1) && persists mode noPersist e.1)).map (·.2.2) := by
        unfold walEntries
        rw [List.filter_filter, List.filter_map, List.filter_map, List.map_map, List.map_map]
        rfl
    _ = ((s.successes.take s.dispatched.length).filter
          (fun c => decide (c.newRev ≤ last (walPrefix c.key)) &&
            persists mode noPersist (walPrefix c.key))).map Committed.change := by
        rw [h.entries, List.filter_map, List.map_map]
        rfl
    _ = (s.successes.filter (fun c => decide (c.newRev ≤ last (walPrefix c.key)))).map
          Committed.change := by
        nth_rewrite 2 [← List.take_append_drop s.dispatched.length s.successes]
        rw [List.filter_append, hdropped, List.append_nil]
        congr 1
        apply List.filter_congr
        intro c hc
        by_cases hle : c.newRev ≤ last (walPrefix c.key)
        · rw [(hkept (List.mem_of_mem_take hc) hle).1, Bool.and_true]
        · rw [decide_eq_false hle, Bool.false_and]
    _ = cutAt (fun key => (last (walPrefix key)).toNat)
          (s.successes.map Committed.change) := by
        rw [h.aligned.cutAt_changes]
        congr 1
        apply List.filter_congr
        intro c hc
        have hnew := (h.aligned.newRev_eq hc).1
        apply decide_eq_decide.mpr
        omega

theorem Documented.last_bounds (h : s.Documented mode noPersist) {last : Bytes → ℤ}
    (hlast : ∀ p, last p = 0 ∨ ∃ a ∈ walEntries mode noPersist s.dispatched,
      a.1 = p ∧ a.2.rev = last p) (p : Bytes) :
    ((last p).toNat : ℤ) ≤ s.store.currentRevision ∧
      (persists mode noPersist p = false → (last p).toNat = 0) := by
  rcases hlast p with hzero | ⟨a, hmem, hp, hrev⟩
  · rw [hzero]
    exact ⟨Int.natCast_nonneg _, fun _ => rfl⟩
  · obtain ⟨hgiven, hpersists⟩ := List.mem_filter.mp hmem
    obtain ⟨job, hjob, rfl⟩ := List.mem_map.mp hgiven
    obtain ⟨c, hc, -, hchange⟩ := h.entry hjob
    have hnew := h.aligned.newRev_eq hc
    have hsame : job.walEntry.2.rev = c.newRev := congrArg Prod.fst hchange
    refine ⟨by omega, ?_⟩
    intro hnot
    rw [← hp, hpersists] at hnot
    contradiction

/-- The records of a run can be read back, and their revisions ascend from 1. -/
theorem Documented.records (h : s.Documented mode noPersist)
    (hrev : s.store.currentRevision < 2 ^ 63) :
    (∀ a ∈ s.dispatched.map NotifyJob.walEntry, a.2.Valid ∧ 0 < a.2.rev ∧
      a.2.rev ≤ s.dispatched.length) ∧
      ((s.dispatched.map NotifyJob.walEntry).map (·.2.rev)).Pairwise (· < ·) := by
  have horder : (s.dispatched.map NotifyJob.walEntry).map (·.2.rev) = upTo s.dispatched.length := by
    rw [List.map_map]
    exact h.aligned.buffer.order
  refine ⟨?_, horder ▸ ReorderBuffer.sorted_upTo _⟩
  intro a ha
  have hbounds := ReorderBuffer.mem_upTo.mp (horder ▸ List.mem_map_of_mem ha)
  obtain ⟨job, hjob, rfl⟩ := List.mem_map.mp ha
  obtain ⟨c, hc, -, hchange⟩ := h.entry hjob
  have hle := h.aligned.newRev_eq hc
  obtain ⟨hrec, hdata⟩ := Prod.mk.inj hchange
  obtain ⟨hkey, hvalue⟩ := Prod.mk.inj hdata
  obtain ⟨hfk, hfv⟩ := h.chronicle.fits c hc
  refine ⟨⟨by omega, by omega, ?_, ?_⟩, by omega, by omega⟩
  · rw [hkey]
    exact hfk
  · rw [hvalue]
    exact hfv

/-- In `Sync` mode a change survives once its caller has been woken up. -/
theorem Documented.woken_survives (h : s.Documented .sync noPersist)
    (hrev : s.store.currentRevision < 2 ^ 63) {w : WalManager}
    (hkeeps : w.Keeps .sync noPersist (s.dispatched.map NotifyJob.walEntry))
    (hholds : w.Holds (walEntries .sync noPersist s.dispatched))
    {dir : ExtTreeMap Bytes Bytes compare} (hcrash : w.CrashImage dir) {c : Committed}
    (hc : c ∈ s.successes) (hp : persists .sync noPersist (walPrefix c.key) = true)
    (hwoken : c.newRev ∈ w.notified) : c.newRev ≤ lastSurvivor dir (walPrefix c.key) := by
  obtain ⟨hrecords, hsorted⟩ := h.records hrev
  obtain ⟨a, hmem, hreva⟩ := hkeeps.answers.known _ hwoken
  obtain ⟨job, hjob, rfl⟩ := List.mem_map.mp hmem
  obtain ⟨d, hd, hprefix, hchange⟩ := h.entry hjob
  have hdc : d = c := by
    have hnodup : (s.successes.map (·.newRev)).Nodup := by
      rw [h.aligned.numbered]
      exact ReorderBuffer.nodup_upTo _
    apply List.inj_on_of_nodup_map hnodup hd hc
    rw [← hreva]
    exact (congrArg Prod.fst hchange).symm
  subst hdc
  rw [← hprefix] at hp ⊢
  -- it was written before its caller was woken up, and what was written survives
  obtain ⟨recs, hfile, hsub, hrec⟩ := hkeeps.written hmem (hreva ▸ hwoken) hp (hholds.filed _)
  have hvalid : ∀ rec ∈ recordsOf (walEntries .sync noPersist s.dispatched) job.walEntry.1,
      rec.Valid := by
    intro rec hr
    obtain ⟨a, ha, rfl⟩ := List.mem_map.mp hr
    exact (hrecords a (List.mem_of_mem_filter (List.mem_of_mem_filter ha))).1
  have hsurvives := (hcrash.synced_survives hkeeps.mode_eq
    (fun rec hr => hvalid rec (hsub.subset hr)) hfile).subset (List.mem_map_of_mem hrec)
  have hascending : (survivors dir job.walEntry.1).Pairwise (fun a b => a.rev < b.rev) := by
    apply List.Pairwise.sublist (hcrash.survivors_prefix hholds _ _).sublist
    · unfold recordsOf
      rw [List.map_map, List.pairwise_map]
      rw [List.pairwise_map] at hsorted
      exact (hsorted.filter _).filter _
    · exact fun a ha => (hrecords a (List.mem_of_mem_filter ha)).1
  rw [← hreva]
  show job.walEntry.2.stored.rev ≤ _
  exact VersionLog.le_lastKey hascending hsurvives

end

end Server
end MemEtcd
