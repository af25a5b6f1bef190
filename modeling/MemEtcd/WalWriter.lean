import MemEtcd.PartialRun
import MemEtcd.WalFiles
import MemEtcd.WalTail

/-! `write_locked`, call of `libc::write` by call. A write may be short, interrupted
or fail after a part of the batch is in the file; then the waiters of the batch are
woken up all the same, and the next batch is appended behind what was written. -/
namespace MemEtcd

/-- What `libc::write` returns: a number of bytes, `EINTR` or another error. -/
inductive WriteResult where
  | wrote (n : ℕ)
  | interrupted
  | failed
  deriving DecidableEq, Repr

/-- Where `write_locked` is. `notifyVec` are the records of the batch that somebody
waits for. -/
inductive WritePhase where
  | idle
  | writing (buffer : Bytes) (written : ℕ) (notifyVec : List WalRecord)
  deriving DecidableEq, Repr

/-- `PerPrefixWriter` with its file. `notified` are the records whose waiters have been
woken up, in order. -/
structure FileWriter where
  file : Bytes
  toWrite : List WalRecord
  phase : WritePhase
  notified : List WalRecord
  deriving DecidableEq, Repr

inductive WriteAction where
  /-- a record is sent to the writer -/
  | enqueue (rec : WalRecord)
  /-- `write_locked` takes a batch and encodes it -/
  | batch (ticks : ℕ)
  /-- a call of `libc::write` returns -/
  | write (res : WriteResult)
  /-- all is written; the waiters are woken up -/
  | finish
  deriving DecidableEq, Repr

namespace FileWriter

def new : FileWriter := ⟨[], [], .idle, []⟩

def step (w : FileWriter) : WriteAction → Option FileWriter
  | .enqueue rec => some { w with toWrite := w.toWrite ++ [rec] }
  | .batch ticks =>
    match w.phase with
    | .idle =>
      let (batch, rest) := takeBatch w.toWrite ticks 0
      some { w with
        toWrite := rest
        phase := .writing (batch.flatMap WalRecord.encode) 0 (batch.filter (·.writtenNotify)) }
    | .writing _ _ _ => none
  | .write res =>
    match w.phase with
    | .idle => none
    | .writing buffer written notifyVec =>
      if written < buffer.length then
        match res with
        | .wrote n =>
          if n ≤ buffer.length - written then
            some { w with
              file := w.file ++ (buffer.drop written).take n
              phase := .writing buffer (written + n) notifyVec }
          else none
        | .interrupted => some w
        -- the error is returned, and the caller only logs it
        | .failed => some { w with phase := .idle, notified := w.notified ++ notifyVec }
      else none
  | .finish =>
    match w.phase with
    | .idle => none
    | .writing buffer written notifyVec =>
      if written < buffer.length then none
      else some { w with phase := .idle, notified := w.notified ++ notifyVec }

def run (w : FileWriter) (acts : List WriteAction) : Option FileWriter :=
  PartialRun.run step w acts

/-- Reading the file from its start returns every record whose waiter has been woken
up. -/
def Recoverable (w : FileWriter) : Prop :=
  ∃ o, WalRecord.readRecords w.file = some o ∧ (w.notified.map WalRecord.stored).Sublist o.records

/-! ### The steps -/

theorem step_batch {w w' : FileWriter} {ticks : ℕ} (h : w.step (.batch ticks) = some w') :
    w.phase = .idle ∧ w' = { w with
      toWrite := (takeBatch w.toWrite ticks 0).2
      phase := .writing ((takeBatch w.toWrite ticks 0).1.flatMap WalRecord.encode) 0
        ((takeBatch w.toWrite ticks 0).1.filter (·.writtenNotify)) } := by
  simp only [step] at h
  split at h
  · exact ⟨‹_›, (Option.some.inj h).symm⟩
  · contradiction

theorem step_write {w w' : FileWriter} {res : WriteResult} (h : w.step (.write res) = some w') :
    ∃ buffer written notifyVec, w.phase = .writing buffer written notifyVec ∧
      written < buffer.length ∧
      ((∃ n, res = .wrote n ∧ n ≤ buffer.length - written ∧
          w' = { w with
            file := w.file ++ (buffer.drop written).take n
            phase := .writing buffer (written + n) notifyVec }) ∨
        (res = .interrupted ∧ w' = w) ∨
        (res = .failed ∧ w' = { w with phase := .idle, notified := w.notified ++ notifyVec })) := by
  simp only [step] at h
  split at h
  · contradiction
  · rename_i buffer written notifyVec hphase
    split_ifs at h with hlt
    refine ⟨buffer, written, notifyVec, hphase, hlt, ?_⟩
    split at h
    · rename_i n
      split_ifs at h with hn
      exact Or.inl ⟨n, rfl, hn, (Option.some.inj h).symm⟩
    · exact Or.inr (Or.inl ⟨rfl, (Option.some.inj h).symm⟩)
    · exact Or.inr (Or.inr ⟨rfl, (Option.some.inj h).symm⟩)

theorem step_finish {w w' : FileWriter} (h : w.step .finish = some w') :
    ∃ buffer written notifyVec, w.phase = .writing buffer written notifyVec ∧
      buffer.length ≤ written ∧
      w' = { w with phase := .idle, notified := w.notified ++ notifyVec } := by
  simp only [step] at h
  split at h
  · contradiction
  · rename_i buffer written notifyVec hphase
    split_ifs at h with hlt
    exact ⟨buffer, written, notifyVec, hphase, not_lt.mp hlt, (Option.some.inj h).symm⟩

/-- A batch that is written in one go, or fails after some bytes. -/
theorem run_batch (w : FileWriter) (hidle : w.phase = .idle) (ticks : ℕ) (fails : Option ℕ) :
    ∃ acts, (fails = none → WriteAction.write .failed ∉ acts) ∧ w.run acts = some
      ⟨w.file ++ ((takeBatch w.toWrite ticks 0).1.flatMap WalRecord.encode).take
          (fails.getD ((takeBatch w.toWrite ticks 0).1.flatMap WalRecord.encode).length),
        (takeBatch w.toWrite ticks 0).2, .idle,
        w.notified ++ (takeBatch w.toWrite ticks 0).1.filter (·.writtenNotify)⟩ := by
  generalize hbuffer : (takeBatch w.toWrite ticks 0).1.flatMap WalRecord.encode = buffer
  generalize hwritten : fails.getD buffer.length = n
  by_cases hlt : n < buffer.length
  · have hfails : fails ≠ none := by
      rintro rfl
      rw [Option.getD_none] at hwritten
      omega
    refine ⟨[.batch ticks, .write (.wrote n), .write .failed], fun h => absurd h hfails, ?_⟩
    simp [run, PartialRun.run, step, hidle, hbuffer, hlt, hlt.le, Nat.zero_lt_of_lt hlt]
  · rw [List.take_of_length_le (not_lt.mp hlt)]
    by_cases hempty : buffer.length = 0
    · -- nothing was in the queue, and `libc::write` is not called
      refine ⟨[.batch ticks, .finish], by simp, ?_⟩
      rw [List.length_eq_zero_iff.mp hempty] at hbuffer ⊢
      simp [run, PartialRun.run, step, hidle, hbuffer]
    · have hpos : 0 < buffer.length := Nat.pos_of_ne_zero hempty
      refine ⟨[.batch ticks, .write (.wrote buffer.length), .finish], by simp, ?_⟩
      simp [run, PartialRun.run, step, hidle, hbuffer, hpos]

/-- `WalManager.writeLocked` is such a batch of the writer of its prefix. -/
theorem writeLocked_run (m : WalManager) {p : Bytes} {wr : PerPrefixWriter}
    (hw : m.writers[p]? = some wr) (ticks : ℕ) (fails : Option ℕ) :
    ∃ acts w', (fails = none → WriteAction.write .failed ∉ acts) ∧
      run ⟨(m.walDir[wr.path]?).getD [], wr.toWrite, .idle, []⟩ acts = some w' ∧
      (m.writeLocked p ticks fails).walDir[wr.path]? = some w'.file ∧
      (m.writeLocked p ticks fails).writers[p]? = some { wr with toWrite := w'.toWrite } ∧
      (m.writeLocked p ticks fails).notified = m.notified ++ w'.notified.map (·.rev) := by
  obtain ⟨acts, hfail, hrun⟩ :=
    run_batch ⟨(m.walDir[wr.path]?).getD [], wr.toWrite, .idle, []⟩ rfl ticks fails
  refine ⟨acts, _, hfail, hrun, ?_⟩
  simp only [WalManager.writeLocked, hw, getElem?_insert_bytes, if_true, List.nil_append]
  exact ⟨trivial, trivial, trivial⟩

/-! ### Without a failure -/

/-- A record that can be read back, and that somebody waits for. In the mode `Sync`
somebody waits for every record. -/
def Awaited (rec : WalRecord) : Prop := rec.Valid ∧ rec.writtenNotify = true

/-- What `write_locked` keeps as long as no write fails: the file holds the records
whose waiters have been woken up, and then a part of the current batch. -/
structure Sound (w : FileWriter) : Prop where
  notified : ∀ rec ∈ w.notified, Awaited rec
  queued : ∀ rec ∈ w.toWrite, Awaited rec
  file : match w.phase with
    | .idle => w.file = w.notified.flatMap WalRecord.encode
    | .writing buffer written notifyVec =>
      (∀ rec ∈ notifyVec, Awaited rec) ∧ buffer = notifyVec.flatMap WalRecord.encode ∧
        written ≤ buffer.length ∧
        w.file = w.notified.flatMap WalRecord.encode ++ buffer.take written

theorem new_sound : new.Sound := by
  refine ⟨?_, ?_, rfl⟩
  · intro rec hr
    contradiction
  · intro rec hr
    contradiction

theorem Sound.idle {w : FileWriter} (h : w.Sound) (hp : w.phase = .idle) :
    w.file = w.notified.flatMap WalRecord.encode := by
  have := h.file
  rw [hp] at this
  exact this

theorem Sound.writing {w : FileWriter} (h : w.Sound) {buffer : Bytes} {written : ℕ}
    {notifyVec : List WalRecord} (hp : w.phase = .writing buffer written notifyVec) :
    (∀ rec ∈ notifyVec, Awaited rec) ∧ buffer = notifyVec.flatMap WalRecord.encode ∧
      written ≤ buffer.length ∧
      w.file = w.notified.flatMap WalRecord.encode ++ buffer.take written := by
  have := h.file
  rw [hp] at this
  exact this

/-- All records of a batch are waited for, so `notifyVec` is the batch. -/
theorem Sound.batch {w : FileWriter} (h : w.Sound) (hidle : w.phase = .idle) (ticks : ℕ) :
    Sound { w with
      toWrite := (takeBatch w.toWrite ticks 0).2
      phase := .writing ((takeBatch w.toWrite ticks 0).1.flatMap WalRecord.encode) 0
        ((takeBatch w.toWrite ticks 0).1.filter (·.writtenNotify)) } := by
  have hsplit := takeBatch_append w.toWrite ticks 0
  generalize takeBatch w.toWrite ticks 0 = res at hsplit
  obtain ⟨batch, rest⟩ := res
  dsimp only at hsplit ⊢
  have hqueued : ∀ rec ∈ batch ++ rest, Awaited rec := hsplit ▸ h.queued
  have hbatch : ∀ rec ∈ batch, Awaited rec := fun rec hr => hqueued rec (List.mem_append_left _ hr)
  have hall : batch.filter (·.writtenNotify) = batch :=
    List.filter_eq_self.mpr (fun rec hr => (hbatch rec hr).2)
  refine ⟨h.notified, fun rec hr => hqueued rec (List.mem_append_right _ hr), ?_⟩
  rw [hall]
  refine ⟨hbatch, rfl, Nat.zero_le _, ?_⟩
  rw [List.take_zero, List.append_nil]
  exact h.idle hidle

theorem Sound.step {w w' : FileWriter} {a : WriteAction} (h : w.Sound)
    (ha : ∀ rec, a = .enqueue rec → Awaited rec) (hfail : a ≠ .write .failed)
    (hstep : w.step a = some w') : w'.Sound := by
  cases a with
  | enqueue rec =>
    cases hstep
    refine ⟨h.notified, ?_, h.file⟩
    intro r hr
    rcases List.mem_append.mp hr with hr | hr
    · exact h.queued r hr
    · rw [List.mem_singleton.mp hr]
      exact ha rec rfl
  | batch ticks =>
    obtain ⟨hidle, rfl⟩ := step_batch hstep
    exact h.batch hidle ticks
  | write res =>
    obtain ⟨buffer, written, notifyVec, hp, hlt, hcases⟩ := step_write hstep
    rcases hcases with ⟨n, rfl, hn, rfl⟩ | ⟨rfl, rfl⟩ | ⟨rfl, _⟩
    · obtain ⟨hvec, hbuffer, _, hfile⟩ := h.writing hp
      refine ⟨h.notified, h.queued, hvec, hbuffer, by omega, ?_⟩
      -- the write goes on where the last one ended
      change w.file ++ (buffer.drop written).take n = _
      rw [hfile, List.append_assoc, List.take_add]
    · exact h
    · exact absurd rfl hfail
  | finish =>
    obtain ⟨buffer, written, notifyVec, hp, hge, rfl⟩ := step_finish hstep
    obtain ⟨hvec, hbuffer, hle, hfile⟩ := h.writing hp
    refine ⟨?_, h.queued, ?_⟩
    · intro rec hr
      rcases List.mem_append.mp hr with hr | hr
      · exact h.notified rec hr
      · exact hvec rec hr
    · change w.file = _
      rw [hfile, List.take_of_length_le hge, hbuffer, ← List.flatMap_append]

theorem Sound.run {w w' : FileWriter} {acts : List WriteAction} (h : w.Sound)
    (ha : ∀ rec, WriteAction.enqueue rec ∈ acts → Awaited rec)
    (hfail : WriteAction.write .failed ∉ acts) (hrun : w.run acts = some w') : w'.Sound := by
  induction acts generalizing w with
  | nil =>
    cases hrun
    exact h
  | cons a acts ih =>
    obtain ⟨mid, hmid, hrest⟩ := Option.bind_eq_some_iff.mp hrun
    rw [List.mem_cons, not_or] at hfail
    have hstep := h.step (fun rec hr => ha rec (hr ▸ List.mem_cons_self)) (Ne.symm hfail.1) hmid
    exact ih hstep (fun rec hr => ha rec (List.mem_cons_of_mem a hr)) hfail.2 hrest

/-- What is read while a batch is being written. -/
theorem Sound.read {w : FileWriter} (h : w.Sound) {buffer : Bytes} {written : ℕ}
    {notifyVec : List WalRecord} (hp : w.phase = .writing buffer written notifyVec) :
    ∃ o, WalRecord.readRecords w.file = some o ∧ o.records =
      (w.notified ++ Framing.complete WalRecord.encode written notifyVec).map WalRecord.stored := by
  obtain ⟨hvec, hbuffer, hle, hfile⟩ := h.writing hp
  subst hbuffer
  obtain ⟨torn, hcut⟩ := WalRecord.readRecords_cut (fun rec hr => (hvec rec hr).1) hle
  have hread := WalRecord.readRecords_encode (fun rec hr => (h.notified rec hr).1) hcut
  rw [← hfile] at hread
  refine ⟨_, hread, ?_⟩
  rw [List.map_append]

theorem Sound.recoverable {w : FileWriter} (h : w.Sound) : w.Recoverable := by
  cases hp : w.phase with
  | idle =>
    have hend : ([] : Bytes).length < 16 := Nat.zero_lt_succ 15
    have hread := WalRecord.readRecords_encode (fun rec hr => (h.notified rec hr).1)
      (WalRecord.readRecords_short hend)
    rw [List.append_nil, ← h.idle hp] at hread
    refine ⟨_, hread, ?_⟩
    rw [List.append_nil]
  | writing buffer written notifyVec =>
    obtain ⟨o, ho, hrecords⟩ := h.read hp
    refine ⟨o, ho, ?_⟩
    rw [hrecords, List.map_append]
    exact List.sublist_append_left _ _

/-! ### A failure -/

/-- The first write that fails loses a record of its batch, and its waiter is woken up. -/
theorem Sound.lost {w w' : FileWriter} (h : w.Sound)
    (hstep : w.step (.write .failed) = some w') : ¬w'.Recoverable := by
  obtain ⟨buffer, written, notifyVec, hp, hlt, hcases⟩ := step_write hstep
  rcases hcases with ⟨n, hres, _⟩ | ⟨hres, _⟩ | ⟨_, rfl⟩
  · contradiction
  · contradiction
  · obtain ⟨-, hbuffer, -, -⟩ := h.writing hp
    obtain ⟨o, ho, hrecords⟩ := h.read hp
    rintro ⟨o', ho', hsub⟩
    cases ho.symm.trans ho'
    -- the file has fewer complete records than waiters were woken up
    have hlen := hsub.length_le
    rw [hrecords, List.length_map, List.length_map, List.length_append, List.length_append] at hlen
    have hfew := Framing.length_complete_lt (hbuffer ▸ hlt)
    omega

/-- In the mode `Sync`, a record whose waiter was woken up can be read back at every
moment of a run exactly if no call of `libc::write` fails but by `EINTR`. -/
theorem acknowledged_recoverable_iff {acts : List WriteAction} {w : FileWriter}
    (hrun : new.run acts = some w) (ha : ∀ rec, WriteAction.enqueue rec ∈ acts → Awaited rec) :
    (∀ past rest w', acts = past ++ rest → new.run past = some w' → w'.Recoverable) ↔
      WriteAction.write .failed ∉ acts := by
  constructor
  · intro hall hfail
    -- up to the first failure the writer is sound
    obtain ⟨past, rest, hsplit, hfirst⟩ := List.eq_append_cons_of_mem hfail
    rw [hsplit, run, PartialRun.run_append] at hrun
    obtain ⟨mid, hmid, hrest⟩ := Option.bind_eq_some_iff.mp hrun
    obtain ⟨w', hstep, -⟩ := Option.bind_eq_some_iff.mp hrest
    have hsound : mid.Sound := new_sound.run
      (fun rec hr => ha rec (hsplit ▸ List.mem_append_left _ hr)) hfirst hmid
    apply hsound.lost hstep
    apply hall (past ++ [.write .failed]) rest w'
    · rw [hsplit, List.append_assoc, List.singleton_append]
    · exact PartialRun.run_concat hmid hstep
  · intro hfail past rest w' hsplit hpast
    have hsound : w'.Sound := new_sound.run
      (fun rec hr => ha rec (hsplit ▸ List.mem_append_left _ hr))
      (fun hr => hfail (hsplit ▸ List.mem_append_left _ hr)) hpast
    exact hsound.recoverable

/-- A batch of one record, written in two pieces with an interruption between them. -/
def shortWrite : List WriteAction :=
  [.enqueue ⟨1, [97], some [7], true⟩, .batch 8, .write (.wrote 3), .write .interrupted,
    .write (.wrote 15), .finish]

theorem acknowledged_recoverable_short_write :
    WriteAction.write .failed ∉ shortWrite ∧
      ∀ past rest w', shortWrite = past ++ rest → new.run past = some w' → w'.Recoverable := by
  have ha : ∀ rec, WriteAction.enqueue rec ∈ shortWrite → Awaited rec := by
    intro rec hr
    simp only [shortWrite, List.mem_cons, WriteAction.enqueue.injEq, reduceCtorEq,
      List.not_mem_nil, or_false] at hr
    subst hr
    exact ⟨⟨by decide, by decide, by decide, by decide⟩, rfl⟩
  have hfail : WriteAction.write .failed ∉ shortWrite := by decide
  exact ⟨hfail, (acknowledged_recoverable_iff (w := ⟨WalRecord.encode ⟨1, [97], some [7], true⟩,
    [], .idle, [⟨1, [97], some [7], true⟩]⟩) rfl ha).mpr hfail⟩

/-- The write of a record fails after five bytes and its waiter is woken up. The next
record is written behind them, and reading the file returns neither. -/
theorem acknowledged_lost :
    ∃ w o, new.run [.enqueue ⟨1, [97], some [7], true⟩, .batch 8, .write (.wrote 5),
        .write .failed, .enqueue ⟨2, [97], some [8], true⟩, .batch 8, .write (.wrote 18),
        .finish] = some w ∧
      w.notified = [⟨1, [97], some [7], true⟩, ⟨2, [97], some [8], true⟩] ∧
      WalRecord.readRecords w.file = some o ∧ o.records = [] ∧
      o.result = .error .unexpectedEof := by
  refine ⟨_, _, rfl, rfl, rfl, rfl, rfl⟩

end FileWriter
end MemEtcd
