import MemEtcd.StoreIndex
import MemEtcd.WalMerge

/-! What the WAL manager has been given is in its files and queues, split by
prefix; once the queues are empty, loading the directory yields the records in
the order in which they were appended. -/
namespace MemEtcd

open Std (ExtTreeMap)

/-! ### File names -/

theorem hexDigit_injective : ∀ n < 16, ∀ m < 16, hexDigit n = hexDigit m → n = m := by decide

theorem hexByte_injective {a b : UInt8} (h : hexByte a = hexByte b) : a = b := by
  unfold hexByte at h
  simp only [List.cons.injEq, and_true] at h
  have ha := a.toNat_lt
  have hb := b.toNat_lt
  have hdiv := hexDigit_injective _ (by omega) _ (by omega) h.1
  have hmod := hexDigit_injective _ (by omega) _ (by omega) h.2
  apply UInt8.toNat_inj.mp
  omega

theorem flatMap_hexByte_injective {a b : Bytes} (h : a.flatMap hexByte = b.flatMap hexByte) :
    a = b := by
  induction a generalizing b with
  | nil =>
    cases b with
    | nil => rfl
    | cons y b => simp [hexByte] at h
  | cons x a ih =>
    cases b with
    | nil => simp [hexByte] at h
    | cons y b =>
      rw [List.flatMap_cons, List.flatMap_cons] at h
      obtain ⟨hxy, hab⟩ := List.append_inj h rfl
      rw [hexByte_injective hxy, ih hab]

theorem fileNameForPrefix_injective {p q : Bytes}
    (h : fileNameForPrefix p = fileNameForPrefix q) : p = q := by
  unfold fileNameForPrefix at h
  exact flatMap_hexByte_injective (List.append_cancel_left (List.append_cancel_right h))

theorem extension_fileNameForPrefix (p : Bytes) :
    extension (fileNameForPrefix p) = some [119, 97, 108] := by
  have hrev : (fileNameForPrefix p).reverse =
      [108, 97, 119] ++ 46 :: ([112, 114, 101, 102, 105, 120, 95] ++ p.flatMap hexByte).reverse := by
    unfold fileNameForPrefix
    rw [List.reverse_append]
    rfl
  have htake : (fileNameForPrefix p).reverse.takeWhile (· ≠ 46) = [108, 97, 119] := by
    rw [hrev]
    rfl
  have hlen : 11 ≤ (fileNameForPrefix p).length := by
    unfold fileNameForPrefix
    simp only [List.length_append, List.length_cons, List.length_nil]
    omega
  unfold extension
  simp only [htake]
  rw [if_pos]
  · rfl
  · refine ⟨by simp only [List.length_reverse, List.length_cons, List.length_nil]; omega, ?_⟩
    intro hnil
    have := congrArg List.length hnil
    simp only [List.length_take, List.length_reverse, List.length_cons, List.length_nil] at this
    omega

/-! ### Queues and files -/

/-- Whether a WAL with these settings writes the records of a prefix. -/
def persists (mode : WalMode) (noPersist : List Bytes) (p : Bytes) : Bool :=
  decide (mode ≠ .none ∧ p ∉ noPersist)

def recordsOf (appended : List (Bytes × WalRecord)) (p : Bytes) : List WalRecord :=
  (appended.filter (fun a => a.1 = p)).map (·.2)

theorem recordsOf_append (appended : List (Bytes × WalRecord)) (a : Bytes × WalRecord)
    (p : Bytes) :
    recordsOf (appended ++ [a]) p =
      recordsOf appended p ++ (if a.1 = p then [a.2] else []) := by
  unfold recordsOf
  rw [List.filter_append, List.map_append]
  by_cases h : a.1 = p
  · simp [h]
  · simp [h]

theorem takeBatch_append (queue : List WalRecord) (ticks size : ℕ) :
    (takeBatch queue ticks size).1 ++ (takeBatch queue ticks size).2 = queue := by
  induction queue generalizing ticks size with
  | nil => rfl
  | cons rec queue ih =>
    cases ticks with
    | zero => rfl
    | succ ticks =>
      unfold takeBatch
      split_ifs
      · rw [List.cons_append, ih]
      · rfl

namespace WalManager

def queueOf (w : WalManager) (p : Bytes) : List WalRecord :=
  ((w.writers[p]?).map (·.toWrite)).getD []

def contentsOf (w : WalManager) (p : Bytes) : Bytes := (w.walDir[fileNameForPrefix p]?).getD []

def Paths (w : WalManager) : Prop :=
  ∀ p wr, w.writers[p]? = some wr → wr.path = fileNameForPrefix p

theorem queueOf_insert {w w' : WalManager} {p : Bytes} {wr : PerPrefixWriter}
    (h : w'.writers = w.writers.insert p wr) :
    w'.queueOf = Function.update w.queueOf p wr.toWrite := by
  funext q
  unfold queueOf
  rw [h, getElem?_insert_bytes, Function.update_apply]
  by_cases hq : p = q
  · rw [if_pos hq, if_pos hq.symm]
    rfl
  · rw [if_neg hq, if_neg (Ne.symm hq)]

theorem contentsOf_insert {w w' : WalManager} {p : Bytes} {contents : Bytes}
    (h : w'.walDir = w.walDir.insert (fileNameForPrefix p) contents) :
    w'.contentsOf = Function.update w.contentsOf p contents := by
  funext q
  unfold contentsOf
  rw [h, getElem?_insert_bytes, Function.update_apply]
  by_cases hq : p = q
  · rw [if_pos hq.symm, if_pos (congrArg fileNameForPrefix hq)]
    rfl
  · rw [if_neg (Ne.symm hq), if_neg (fun e => hq (fileNameForPrefix_injective e))]

theorem queueOf_of_writer {w : WalManager} {p : Bytes} {wr : PerPrefixWriter}
    (h : w.writers[p]? = some wr) : w.queueOf p = wr.toWrite := by
  unfold queueOf
  rw [h]
  rfl

theorem queueOf_of_none {w : WalManager} {p : Bytes} (h : w.writers[p]? = none) :
    w.queueOf p = [] := by
  unfold queueOf
  rw [h]
  rfl

theorem Paths.insert {w w' : WalManager} (h : w.Paths) {p : Bytes} {wr : PerPrefixWriter}
    (hwriters : w'.writers = w.writers.insert p wr) (hpath : wr.path = fileNameForPrefix p) :
    w'.Paths := by
  intro q wr' hq
  rw [hwriters, getElem?_insert_bytes] at hq
  split_ifs at hq with hpq
  · cases hq
    rw [hpath, hpq]
  · exact h q wr' hq

/-! ### The operations of the manager -/

theorem append_settings (w : WalManager) (p : Bytes) (rev : ℤ) (key : Bytes)
    (value : Option Bytes) (notify : Bool) :
    (w.append p rev key value notify).defaultMode = w.defaultMode ∧
      (w.append p rev key value notify).noPersist = w.noPersist := by
  unfold append writer
  split_ifs
  · exact ⟨rfl, rfl⟩
  · exact ⟨rfl, rfl⟩
  · cases w.writers[p]? with
    | none => exact ⟨rfl, rfl⟩
    | some wr => exact ⟨rfl, rfl⟩

/-- A record that is not persisted does not come near the queues, and its caller is
woken up at once. -/
theorem append_not_persisted {w : WalManager} {p : Bytes}
    (hp : persists w.defaultMode w.noPersist p = false) (rev : ℤ) (key : Bytes)
    (value : Option Bytes) (notify : Bool) :
    (w.append p rev key value notify).writers = w.writers ∧
      (w.append p rev key value notify).walDir = w.walDir ∧
      (w.append p rev key value notify).notified =
        w.notified ++ if notify then [rev] else [] := by
  have hskip : w.defaultMode = .none ∨ p ∈ w.noPersist := by
    have := of_decide_eq_false hp
    tauto
  unfold append
  rw [if_pos hskip]
  cases notify with
  | true => exact ⟨rfl, rfl, rfl⟩
  | false => exact ⟨rfl, rfl, (List.append_nil _).symm⟩

/-- A persisted record goes to the end of its queue; a writer is opened if need be. -/
theorem append_persisted {w : WalManager} {p : Bytes}
    (hp : persists w.defaultMode w.noPersist p = true) (rev : ℤ) (key : Bytes)
    (value : Option Bytes) (notify : Bool) :
    (∃ wr, (w.append p rev key value notify).writers = w.writers.insert p wr ∧
      (w.Paths → wr.path = fileNameForPrefix p) ∧
      wr.toWrite = w.queueOf p ++ [⟨rev, key, value, notify⟩]) ∧
    (w.append p rev key value notify).contentsOf = w.contentsOf ∧
    (w.append p rev key value notify).notified = w.notified := by
  have hnot := of_decide_eq_true hp
  unfold append writer queueOf
  rw [if_neg (by tauto)]
  cases hw : w.writers[p]? with
  | some wr =>
    exact ⟨⟨{ wr with toWrite := wr.toWrite ++ [⟨rev, key, value, notify⟩] }, rfl,
      fun h => h p wr hw, rfl⟩, rfl, rfl⟩
  | none =>
    refine ⟨⟨⟨fileNameForPrefix p, [⟨rev, key, value, notify⟩], w.defaultMode⟩, rfl, fun _ => rfl,
      rfl⟩, ?_, rfl⟩
    exact (contentsOf_insert (w := w) rfl).trans (Function.update_eq_self p w.contentsOf)

/-- A record goes to the queue of its prefix, if that is persisted. -/
theorem append_queueOf (w : WalManager) (q : Bytes) (rev : ℤ) (key : Bytes) (value : Option Bytes)
    (notify : Bool) (p : Bytes) :
    (w.append q rev key value notify).queueOf p = w.queueOf p ++
      if q = p ∧ persists w.defaultMode w.noPersist p then [⟨rev, key, value, notify⟩] else [] := by
  cases hp : persists w.defaultMode w.noPersist q with
  | false =>
    rw [if_neg (by rintro ⟨rfl, ht⟩; rw [hp] at ht; contradiction), List.append_nil]
    unfold queueOf
    rw [(append_not_persisted hp rev key value notify).1]
  | true =>
    obtain ⟨⟨wr, hwriters, _, hqueue⟩, _⟩ := append_persisted hp rev key value notify
    rw [queueOf_insert hwriters, hqueue]
    by_cases hqp : q = p
    · rw [hqp, Function.update_self, if_pos ⟨rfl, hqp ▸ hp⟩]
    · rw [Function.update_of_ne (Ne.symm hqp), if_neg (fun h => hqp h.1), List.append_nil]

/-- Only the file of the prefix may be created. -/
theorem append_walDir {w : WalManager} {p : Bytes}
    (hp : persists w.defaultMode w.noPersist p = true) (rev : ℤ) (key : Bytes)
    (value : Option Bytes) (notify : Bool) :
    (w.append p rev key value notify).walDir = w.walDir ∧ (w.writers[p]?).isSome ∨
      (w.append p rev key value notify).walDir =
        w.walDir.insert (fileNameForPrefix p) (w.contentsOf p) := by
  have hnot := of_decide_eq_true hp
  unfold append writer
  rw [if_neg (by tauto)]
  cases w.writers[p]? with
  | some wr => exact Or.inl ⟨rfl, rfl⟩
  | none => exact Or.inr rfl

theorem writeLocked_settings (w : WalManager) (p : Bytes) (ticks : ℕ) (fails : Option ℕ) :
    (w.writeLocked p ticks fails).defaultMode = w.defaultMode ∧
      (w.writeLocked p ticks fails).noPersist = w.noPersist := by
  unfold writeLocked
  cases w.writers[p]? with
  | none => exact ⟨rfl, rfl⟩
  | some wr => exact ⟨rfl, rfl⟩

/-- A batch leaves its queue, and its callers are woken up. -/
theorem writeLocked_queueOf (w : WalManager) (p : Bytes) (ticks : ℕ) (fails : Option ℕ) :
    (w.writeLocked p ticks fails).queueOf =
        Function.update w.queueOf p (takeBatch (w.queueOf p) ticks 0).2 ∧
      (w.writeLocked p ticks fails).notified = w.notified ++
        ((takeBatch (w.queueOf p) ticks 0).1.filter (·.writtenNotify)).map (·.rev) := by
  unfold writeLocked
  cases hw : w.writers[p]? with
  | none =>
    have hempty := queueOf_of_none hw
    rw [hempty]
    refine ⟨?_, (List.append_nil _).symm⟩
    rw [takeBatch, ← hempty, Function.update_eq_self]
  | some wr =>
    rw [queueOf_of_writer hw]
    exact ⟨@queueOf_insert w _ p { wr with toWrite := (takeBatch wr.toWrite ticks 0).2 } rfl, rfl⟩

/-- The batch is appended to the file, up to a failure. -/
theorem writeLocked_contentsOf {w : WalManager} (h : w.Paths) (p : Bytes) (ticks : ℕ)
    (fails : Option ℕ) :
    ∃ written, written <+: (takeBatch (w.queueOf p) ticks 0).1.flatMap WalRecord.encode ∧
      (fails = none → written = (takeBatch (w.queueOf p) ticks 0).1.flatMap WalRecord.encode) ∧
      (w.writeLocked p ticks fails).contentsOf =
        Function.update w.contentsOf p (w.contentsOf p ++ written) := by
  unfold writeLocked
  cases hw : w.writers[p]? with
  | none =>
    rw [queueOf_of_none hw]
    refine ⟨[], List.prefix_rfl, fun _ => rfl, ?_⟩
    rw [List.append_nil, Function.update_eq_self]
  | some wr =>
    rw [queueOf_of_writer hw]
    dsimp only
    generalize (takeBatch wr.toWrite ticks 0).1.flatMap WalRecord.encode = buffer
    refine ⟨_, List.take_prefix (fails.getD buffer.length) buffer, ?_, ?_⟩
    · rintro rfl
      exact List.take_length
    · rw [h p wr hw]
      exact contentsOf_insert (w := w) rfl

theorem writeLocked_paths {w : WalManager} (h : w.Paths) (p : Bytes) (ticks : ℕ)
    (fails : Option ℕ) : (w.writeLocked p ticks fails).Paths := by
  unfold writeLocked
  cases hw : w.writers[p]? with
  | none => exact h
  | some wr => exact @Paths.insert w _ h p { wr with toWrite := _ } rfl (h p wr hw)

theorem append_paths {w : WalManager} (h : w.Paths) (p : Bytes) (rev : ℤ) (key : Bytes)
    (value : Option Bytes) (notify : Bool) : (w.append p rev key value notify).Paths := by
  cases hp : persists w.defaultMode w.noPersist p with
  | false =>
    intro q wr hq
    rw [(append_not_persisted hp rev key value notify).1] at hq
    exact h q wr hq
  | true =>
    obtain ⟨⟨wr, hwriters, hpath, _⟩, _⟩ := append_persisted hp rev key value notify
    exact h.insert hwriters (hpath h)

/-! ### What was given to a prefix -/

/-- Of the records that were given to a prefix while its file began with `base`, a first
part is in the file and the rest in the queue. -/
def Filed (w : WalManager) (p base : Bytes) (records : List WalRecord) : Prop :=
  ∃ written, w.contentsOf p = base ++ written.flatMap WalRecord.encode ∧
    records = written ++ w.queueOf p

theorem Filed.congr {w w' : WalManager} {p base : Bytes} {records : List WalRecord}
    (h : w.Filed p base records) (hc : w'.contentsOf p = w.contentsOf p)
    (hq : w'.queueOf p = w.queueOf p) : w'.Filed p base records := by
  unfold Filed
  rw [hc, hq]
  exact h

theorem Filed.append {w : WalManager} {p base : Bytes} {records : List WalRecord}
    (h : w.Filed p base records) (q : Bytes) (rev : ℤ) (key : Bytes) (value : Option Bytes)
    (notify : Bool) :
    (w.append q rev key value notify).Filed p base (records ++
      if q = p ∧ persists w.defaultMode w.noPersist p then [⟨rev, key, value, notify⟩] else []) := by
  have hcontents : (w.append q rev key value notify).contentsOf = w.contentsOf := by
    cases hp : persists w.defaultMode w.noPersist q with
    | false =>
      unfold contentsOf
      rw [(append_not_persisted hp rev key value notify).2.1]
    | true => exact (append_persisted hp rev key value notify).2.1
  obtain ⟨written, hfile, hrecs⟩ := h
  refine ⟨written, by rw [hcontents, hfile], ?_⟩
  rw [append_queueOf, hrecs, List.append_assoc]

/-- A batch moves from the front of the queue to the end of the file. -/
theorem Filed.writeLocked {w : WalManager} (hw : w.Paths) {p base : Bytes}
    {records : List WalRecord} (h : w.Filed p base records) (q : Bytes) (ticks : ℕ)
    {fails : Option ℕ} (hf : q = p → fails = none) :
    (w.writeLocked q ticks fails).Filed p base records := by
  obtain ⟨bytes, _, hall, hcontents⟩ := writeLocked_contentsOf hw q ticks fails
  have hqueue := (w.writeLocked_queueOf q ticks fails).1
  by_cases hqp : q = p
  · subst hqp
    have hsplit := takeBatch_append (w.queueOf q) ticks 0
    rw [hall (hf rfl)] at hcontents
    obtain ⟨written, hfile, hrecs⟩ := h
    refine ⟨written ++ (takeBatch (w.queueOf q) ticks 0).1, ?_, ?_⟩
    · rw [hcontents, Function.update_self, hfile, List.flatMap_append, List.append_assoc]
    · rw [hqueue, Function.update_self, hrecs, List.append_assoc, hsplit]
  · refine h.congr ?_ ?_
    · rw [hcontents, Function.update_of_ne (Ne.symm hqp)]
    · rw [hqueue, Function.update_of_ne (Ne.symm hqp)]

/-- The manager has been given `appended`, and its directory was empty before: of every
prefix a first part is in its file and the rest in its queue. -/
structure Holds (w : WalManager) (appended : List (Bytes × WalRecord)) : Prop where
  paths : w.Paths
  filed : ∀ p, w.Filed p [] (recordsOf appended p)
  opened : ∀ p, (w.writers[p]?).isSome → (w.walDir[fileNameForPrefix p]?).isSome
  files : ∀ name contents, w.walDir[name]? = some contents →
    ∃ p, name = fileNameForPrefix p ∧ (w.writers[p]?).isSome

theorem new_paths (mode : WalMode) (noPersist : List Bytes) : (new mode noPersist).Paths := by
  intro p wr h
  simp [new] at h

theorem new_filed (mode : WalMode) (noPersist : List Bytes) (p : Bytes) :
    (new mode noPersist).Filed p [] [] := by
  refine ⟨[], ?_, ?_⟩
  · simp [contentsOf, new]
  · simp [queueOf, new]

theorem new_holds (mode : WalMode) (noPersist : List Bytes) : (new mode noPersist).Holds [] := by
  refine ⟨new_paths mode noPersist, new_filed mode noPersist, ?_, ?_⟩
  · intro p h
    simp [new] at h
  · intro name contents h
    simp [new] at h

theorem Holds.present {w : WalManager} {appended : List (Bytes × WalRecord)}
    (h : w.Holds appended) {p : Bytes} {wr : PerPrefixWriter} (hw : w.writers[p]? = some wr) :
    ∃ written, w.walDir[fileNameForPrefix p]? = some (written.flatMap WalRecord.encode) ∧
      recordsOf appended p = written ++ wr.toWrite := by
  obtain ⟨written, hfile, hrecs⟩ := h.filed p
  obtain ⟨contents, hd⟩ := Option.isSome_iff_exists.mp (h.opened p (by rw [hw]; rfl))
  unfold contentsOf at hfile
  rw [hd, List.nil_append] at hfile
  rw [queueOf_of_writer hw] at hrecs
  exact ⟨written, hd.trans (congrArg some hfile), hrecs⟩

/-- Without a writer there is no file, since its name would be that of another prefix. -/
theorem Holds.absent {w : WalManager} {appended : List (Bytes × WalRecord)}
    (h : w.Holds appended) {p : Bytes} (hw : w.writers[p]? = none) :
    recordsOf appended p = [] := by
  have hnone : w.walDir[fileNameForPrefix p]? = none := by
    cases hd : w.walDir[fileNameForPrefix p]? with
    | none => rfl
    | some contents =>
      obtain ⟨q, hq, hsome⟩ := h.files _ _ hd
      rw [← fileNameForPrefix_injective hq, hw] at hsome
      contradiction
  obtain ⟨written, hfile, hrecs⟩ := h.filed p
  unfold contentsOf at hfile
  rw [hnone, List.nil_append] at hfile
  have hlen := length_flatMap_encode written
  rw [← hfile] at hlen
  rw [hrecs, queueOf_of_none hw, List.length_eq_zero_iff.mp (Nat.le_zero.mp hlen)]
  rfl

/-- A new state of the writer of one prefix and of its file. -/
theorem Holds.replace {w w' : WalManager} {appended appended' : List (Bytes × WalRecord)}
    (h : w.Holds appended) {p : Bytes} {wr : PerPrefixWriter} (hpaths : w'.Paths)
    (hfiled : ∀ q, w'.Filed q [] (recordsOf appended' q))
    (hwriters : w'.writers = w.writers.insert p wr)
    (hdir : (w'.walDir[fileNameForPrefix p]?).isSome)
    (hother : ∀ name, name ≠ fileNameForPrefix p → w'.walDir[name]? = w.walDir[name]?) :
    w'.Holds appended' := by
  have hsome (q : Bytes) : (w'.writers[q]?).isSome ↔ p = q ∨ (w.writers[q]?).isSome := by
    rw [hwriters, getElem?_insert_bytes]
    by_cases hpq : p = q
    · simp [hpq]
    · simp [hpq]
  refine ⟨hpaths, hfiled, ?_, ?_⟩
  · intro q hq
    rcases (hsome q).mp hq with rfl | hq
    · exact hdir
    · by_cases hn : fileNameForPrefix q = fileNameForPrefix p
      · rw [hn]
        exact hdir
      · rw [hother _ hn]
        exact h.opened q hq
  · intro name contents hname
    by_cases hn : name = fileNameForPrefix p
    · exact ⟨p, hn, (hsome p).mpr (Or.inl rfl)⟩
    · rw [hother name hn] at hname
      obtain ⟨q, hq, hw⟩ := h.files name contents hname
      exact ⟨q, hq, (hsome q).mpr (Or.inr hw)⟩

theorem append_holds {w : WalManager} {appended : List (Bytes × WalRecord)} (h : w.Holds appended)
    {p : Bytes} (hp : persists w.defaultMode w.noPersist p = true) (rev : ℤ) (key : Bytes)
    (value : Option Bytes) (notify : Bool) :
    (w.append p rev key value notify).Holds (appended ++ [(p, ⟨rev, key, value, notify⟩)]) := by
  obtain ⟨⟨wr, hwriters, _⟩, _⟩ := append_persisted hp rev key value notify
  have hfiled (q : Bytes) : (w.append p rev key value notify).Filed q []
      (recordsOf (appended ++ [(p, ⟨rev, key, value, notify⟩)]) q) := by
    have := (h.filed q).append p rev key value notify
    rw [recordsOf_append]
    by_cases hpq : p = q
    · rw [if_pos ⟨hpq, hpq ▸ hp⟩] at this
      rw [if_pos hpq]
      exact this
    · rw [if_neg (fun h => hpq h.1)] at this
      rw [if_neg hpq]
      exact this
  refine h.replace (append_paths h.paths p rev key value notify) hfiled hwriters ?_ ?_
  · rcases append_walDir hp rev key value notify with ⟨hd, hw⟩ | hd
    · rw [hd]
      exact h.opened p hw
    · rw [hd, getElem?_insert_bytes, if_pos rfl]
      rfl
  · intro name hn
    rcases append_walDir hp rev key value notify with ⟨hd, _⟩ | hd
    · rw [hd]
    · rw [hd, getElem?_insert_bytes, if_neg (Ne.symm hn)]

theorem append_skipped {w : WalManager} {appended : List (Bytes × WalRecord)}
    (h : w.Holds appended) {p : Bytes} (hp : persists w.defaultMode w.noPersist p = false) (rev : ℤ)
    (key : Bytes) (value : Option Bytes) (notify : Bool) :
    (w.append p rev key value notify).Holds appended := by
  obtain ⟨hwriters, hdir, _⟩ := append_not_persisted hp rev key value notify
  refine ⟨append_paths h.paths p rev key value notify, fun q => (h.filed q).congr ?_ ?_, ?_, ?_⟩
  · unfold contentsOf
    rw [hdir]
  · unfold queueOf
    rw [hwriters]
  · rw [hwriters, hdir]
    exact h.opened
  · rw [hwriters, hdir]
    exact h.files

theorem writeLocked_holds {w : WalManager} {appended : List (Bytes × WalRecord)}
    (h : w.Holds appended) (p : Bytes) (ticks : ℕ) :
    (w.writeLocked p ticks none).Holds appended := by
  have hpaths := writeLocked_paths h.paths p ticks none
  have hfiled (q : Bytes) := (h.filed q).writeLocked h.paths p ticks (fun _ => rfl)
  unfold writeLocked at hpaths hfiled ⊢
  cases hw : w.writers[p]? with
  | none => exact h
  | some wr =>
    rw [hw] at hpaths hfiled
    refine @Holds.replace w _ _ _ h p { wr with toWrite := (takeBatch wr.toWrite ticks 0).2 } hpaths
      hfiled rfl ?_ ?_
    · dsimp only
      rw [h.paths p wr hw, getElem?_insert_bytes, if_pos rfl]
      rfl
    · intro name hn
      dsimp only
      rw [h.paths p wr hw, getElem?_insert_bytes, if_neg (Ne.symm hn)]

/-! ### Loading a flushed directory -/

def Flushed (w : WalManager) : Prop := ∀ (p : Bytes) (wr : PerPrefixWriter),
  w.writers[p]? = some wr → wr.toWrite = []

theorem flushed_of_toList {w : WalManager} (h : ∀ e ∈ w.writers.toList, e.2.toWrite = []) :
    w.Flushed := by
  intro p wr hw
  exact h (p, wr) (ExtTreeMap.mem_toList_iff_getElem?_eq_some.mpr hw)

def fileOf (appended : List (Bytes × WalRecord)) (p : Bytes) : Bytes × Bytes :=
  (fileNameForPrefix p, (recordsOf appended p).flatMap WalRecord.encode)

/-- A listing of a flushed directory is one file for every prefix that occurs. -/
theorem Holds.listing {w : WalManager} {appended : List (Bytes × WalRecord)}
    (h : w.Holds appended) (hf : w.Flushed) {entries : List (Bytes × Bytes)}
    (he : entries.Perm w.walDir.toList) :
    ∃ ps : List Bytes, entries = ps.map (fileOf appended) ∧ ps.Nodup ∧
      ∀ a ∈ appended, a.1 ∈ ps := by
  have hmem : ∀ e, e ∈ entries ↔ w.walDir[e.1]? = some e.2 := by
    intro e
    rw [he.mem_iff]
    exact ExtTreeMap.mem_toList_iff_getElem?_eq_some
  have hfile : ∀ p wr, w.writers[p]? = some wr →
      w.walDir[fileNameForPrefix p]? = some ((recordsOf appended p).flatMap WalRecord.encode) := by
    intro p wr hw
    obtain ⟨written, hd, hrecs⟩ := h.present hw
    rw [hf p wr hw, List.append_nil] at hrecs
    rw [hrecs]
    exact hd
  have hrange : entries ∈ Set.range (List.map (fileOf appended)) := by
    rw [Set.range_list_map]
    intro e hin
    obtain ⟨name, contents⟩ := e
    rw [hmem] at hin
    obtain ⟨p, rfl, hsome⟩ := h.files name contents hin
    obtain ⟨wr, hw⟩ := Option.isSome_iff_exists.mp hsome
    have hc : some _ = some contents := (hfile p wr hw).symm.trans hin
    exact ⟨p, by rw [← Option.some.inj hc]; rfl⟩
  obtain ⟨ps, rfl⟩ := hrange
  have hnames : (ps.map fileNameForPrefix).Nodup := by
    have hd : (w.walDir.toList.map Prod.fst).Nodup := by
      rw [ExtTreeMap.map_fst_toList_eq_keys]
      exact ExtTreeMap.nodup_keys
    have hp := (he.map Prod.fst).nodup_iff.mpr hd
    rwa [List.map_map] at hp
  -- a prefix that has a record has a writer, hence a file
  refine ⟨ps, rfl, List.Nodup.of_map _ hnames, ?_⟩
  intro a ha
  cases hw : w.writers[a.1]? with
  | none =>
    have hin : a.2 ∈ recordsOf appended a.1 :=
      List.mem_map_of_mem (List.mem_filter.mpr ⟨ha, by simp⟩)
    rw [h.absent hw] at hin
    contradiction
  | some wr =>
    obtain ⟨p, hp, heq⟩ := List.mem_map.mp ((hmem (_, _)).mpr (hfile a.1 wr hw))
    rwa [← fileNameForPrefix_injective (congrArg Prod.fst heq)]

/-- Loading a flushed directory delivers the appended records in the order of
their revisions. -/
theorem Holds.load {w : WalManager} {appended : List (Bytes × WalRecord)} (h : w.Holds appended)
    (hf : w.Flushed) {entries : List (Bytes × Bytes)} (he : entries.Perm w.walDir.toList)
    (hv : ∀ a ∈ appended, a.2.Valid) (hrevs : (appended.map (·.2.rev)).Pairwise (· < ·))
    {σ : Type} (onEntry : σ → WalRecord → σ) (init : σ) :
    loadWalDir entries onEntry init =
      some ((appended.map (fun a => a.2.stored)).foldl onEntry init, .ok ()) := by
  obtain ⟨ps, rfl, hnodup, hcover⟩ := h.listing hf he
  have hread (p : Bytes) : WalRecord.readRecords (fileOf appended p).2 =
      some ⟨(recordsOf appended p).map WalRecord.stored, [], .ok ()⟩ := by
    apply WalRecord.readRecords_whole
    intro rec hrec
    obtain ⟨a, ha, rfl⟩ := List.mem_map.mp hrec
    exact hv a (List.mem_of_mem_filter ha)
  have hclean : ∀ f ∈ ps.map (fileOf appended), IsWalFile f → Clean f.2 := by
    intro f hmem _
    obtain ⟨p, _, rfl⟩ := List.mem_map.mp hmem
    exact ⟨_, hread p, rfl⟩
  have hstreams : walStreams (ps.map (fileOf appended)) =
      ps.map (fun p => (appended.filter (fun a => a.1 = p)).map (fun a => a.2.stored)) := by
    unfold walStreams
    have hall : ∀ f ∈ ps.map (fileOf appended), decide (IsWalFile f) = true := by
      intro f hmem
      obtain ⟨p, _, rfl⟩ := List.mem_map.mp hmem
      exact decide_eq_true (extension_fileNameForPrefix p)
    rw [List.filter_eq_self.mpr hall, List.map_map]
    apply List.map_congr_left
    intro p _
    simp only [Function.comp_apply, fileRecords, hread p, recordsOf, List.map_map]
    rfl
  obtain ⟨out, hmerge, hload⟩ :=
    loadWalDirWith_merges (PriorityQueue.sortedLists HeapItem.rev) hclean
  rw [hstreams] at hmerge
  have hout : out = appended.map (fun a => a.2.stored) :=
    hmerge.eq_of_parts Prod.fst (fun a => a.2.stored) hnodup hcover
      (List.pairwise_map.mpr (List.pairwise_map.mp hrevs))
  rw [loadWalDir_eq, hload, hout]

end WalManager
end MemEtcd
