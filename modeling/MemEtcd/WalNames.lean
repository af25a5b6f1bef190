import MemEtcd.Indexes
import MemEtcd.NoPersist
import MemEtcd.Utf8Text

/-! The names of the WAL files. A name holds the prefix of its keys in hex, and no code
bounds that prefix; a name that is too long for the file system cannot be opened, on which
`WalManager::append` panics in the notification thread. The thread does not come back. -/
namespace MemEtcd

open Std (ExtTreeMap)

/-- `NAME_MAX`, the bytes that a file name may have. -/
def nameMax : ℕ := 255

/-- A file with the name of this prefix can be opened. -/
def NameFits (p : Bytes) : Prop := (fileNameForPrefix p).length ≤ nameMax

instance : DecidablePred NameFits := fun p =>
  inferInstanceAs (Decidable ((fileNameForPrefix p).length ≤ nameMax))

theorem length_fileNameForPrefix (p : Bytes) : (fileNameForPrefix p).length = 11 + 2 * p.length := by
  have hhex : (p.flatMap hexByte).length = 2 * p.length := by
    induction p with
    | nil => rfl
    | cons b p ih =>
      have hbyte : (hexByte b).length = 2 := rfl
      rw [List.flatMap_cons, List.length_append, ih, hbyte, List.length_cons]
      omega
  unfold fileNameForPrefix
  rw [List.length_append, List.length_append, hhex]
  simp only [List.length_cons, List.length_nil]
  omega

theorem nameFits_iff (p : Bytes) : NameFits p ↔ p.length ≤ 122 := by
  unfold NameFits nameMax
  rw [length_fileNameForPrefix]
  omega

/-- Different UTF-8 prefixes are different texts, and these have different names. -/
theorem fileNameForPrefix_ne {p q : Bytes} (hp : IsUtf8 p) (hq : IsUtf8 q) (hne : p ≠ q) :
    fileNameForPrefix (utf8Bytes (fromUtf8Lossy p)) ≠
      fileNameForPrefix (utf8Bytes (fromUtf8Lossy q)) := by
  rw [hp.lossless, hq.lossless]
  intro he
  exact hne (fileNameForPrefix_injective he)

/-! ### The thread -/

namespace WalManager

/-- `open_for_prefix` has to create a file whose name is too long. -/
def OpenFails (w : WalManager) (p : Bytes) : Prop :=
  persists w.defaultMode w.noPersist p = true ∧ w.writers[p]? = none ∧ ¬NameFits p

instance (w : WalManager) : DecidablePred w.OpenFails := fun _ =>
  inferInstanceAs (Decidable (_ ∧ _ ∧ _))

/-- `append`; nothing comes back from the panic of `expect("open WAL file")`. -/
def tryAppend (w : WalManager) (p : Bytes) (rev : ℤ) (key : Bytes) (value : Option Bytes)
    (writtenNotify : Bool) : Option WalManager :=
  if w.OpenFails p then none else some (w.append p rev key value writtenNotify)

end WalManager

/-- `do_send`, which appends to the WAL before it turns to the watchers. -/
def tryDoSend (sinks : Sinks) (job : NotifyJob) : Option Sinks :=
  match sinks.wal with
  | none => some (doSend sinks job)
  | some wal =>
    let v := if job.msg.kv.version = 0 then none else some job.msg.kv.value
    (wal.tryAppend (utf8Bytes job.prefixStr) job.rev job.msg.kv.key v job.walHandled).map
      (fun _ => doSend sinks job)

/-- The jobs of a round, up to one that panics: the sinks, the jobs that were sent, and
whether one has panicked. -/
def sendRound (sinks : Sinks) : List NotifyJob → Sinks × List NotifyJob × Bool
  | [] => (sinks, [], false)
  | job :: jobs =>
    match tryDoSend sinks job with
    | none => (sinks, [], true)
    | some sinks =>
      let (sinks, sent, panicked) := sendRound sinks jobs
      (sinks, job :: sent, panicked)

structure MortalServer where
  server : Server
  panicked : Bool

namespace MortalServer

def start (wal : Option WalManager) (records : List WalRecord) : MortalServer :=
  ⟨Server.start wal records, false⟩

/-- A round of the notification thread, if it is still there. A panic in the round keeps
it from storing `rev_written`. -/
def receive (m : MortalServer) : MortalServer :=
  if m.panicked then m
  else
    match m.server.store.notifyTx with
    | [] => m
    | job :: rest =>
      let (thread, ready) := m.server.thread.receive job
      let (sinks, sent, panicked) := sendRound m.server.sinks ready
      ⟨{ m.server with
          store := { m.server.store with notifyTx := rest }
          thread := if panicked then m.server.thread else thread
          sinks := sinks
          dispatched := m.server.dispatched ++ sent }, panicked⟩

def step (m : MortalServer) : Action → MortalServer
  | .receive => m.receive
  | a => { m with server := m.server.step a }

def run (m : MortalServer) (actions : List Action) : MortalServer := actions.foldl step m

end MortalServer

/-! ### One job -/

/-- Records of this prefix do not make `append` panic. -/
def sendable (mode : WalMode) (noPersist : List Bytes) (p : Bytes) : Bool :=
  !persists mode noPersist p || decide (NameFits p)

def NotifyJob.ready (mode : WalMode) (noPersist : List Bytes) (job : NotifyJob) : Bool :=
  sendable mode noPersist (utf8Bytes job.prefixStr)

/-- The WAL has these settings, and its open files have names that fit. -/
def Sinks.Open (mode : WalMode) (noPersist : List Bytes) (sinks : Sinks) : Prop :=
  ∃ w, sinks.wal = some w ∧ w.defaultMode = mode ∧ w.noPersist = noPersist ∧
    ∀ p, (w.writers[p]?).isSome → NameFits p

section Send

variable {mode : WalMode} {noPersist : List Bytes} {sinks : Sinks}

theorem WalManager.append_writers {w : WalManager} {p : Bytes} (rev : ℤ) (key : Bytes)
    (value : Option Bytes) (notify : Bool) {q : Bytes}
    (h : ((w.append p rev key value notify).writers[q]?).isSome) :
    (w.writers[q]?).isSome ∨ persists w.defaultMode w.noPersist p = true ∧ q = p := by
  cases hp : persists w.defaultMode w.noPersist p with
  | false =>
    rw [(append_not_persisted hp rev key value notify).1] at h
    exact Or.inl h
  | true =>
    obtain ⟨hmode, hno⟩ := of_decide_eq_true hp
    have hkeep : (w.writer p).1.writers = w.writers := by
      unfold writer
      cases w.writers[p]? <;> rfl
    unfold append at h
    rw [if_neg (by tauto)] at h
    dsimp only at h
    rw [hkeep, getElem?_insert_bytes] at h
    by_cases hq : p = q
    · exact Or.inr ⟨rfl, hq.symm⟩
    · rw [if_neg hq] at h
      exact Or.inl h

theorem WalManager.writeLocked_writers (w : WalManager) (p : Bytes) (ticks : ℕ)
    (fails : Option ℕ) {q : Bytes} (h : ((w.writeLocked p ticks fails).writers[q]?).isSome) :
    (w.writers[q]?).isSome := by
  unfold writeLocked at h
  cases hp : w.writers[p]? with
  | none =>
    rw [hp] at h
    exact h
  | some wr =>
    rw [hp] at h
    dsimp only at h
    rw [getElem?_insert_bytes] at h
    by_cases hq : p = q
    · rw [← hq, hp]
      rfl
    · rw [if_neg hq] at h
      exact h

/-- `do_send` panics exactly on the jobs that are not ready. -/
theorem Sinks.Open.tryDoSend_eq (h : sinks.Open mode noPersist) (job : NotifyJob) :
    tryDoSend sinks job =
      if job.ready mode noPersist then some (doSend sinks job) else none := by
  obtain ⟨w, hw, rfl, rfl, hopen⟩ := h
  unfold tryDoSend WalManager.tryAppend NotifyJob.ready
  rw [hw]
  dsimp only
  generalize utf8Bytes job.prefixStr = p
  have hfails : w.OpenFails p ↔ ¬sendable w.defaultMode w.noPersist p = true := by
    unfold WalManager.OpenFails sendable
    rw [Bool.or_eq_true, Bool.not_eq_true', decide_eq_true_iff, not_or, Bool.not_eq_false]
    constructor
    · intro hf
      exact ⟨hf.1, hf.2.2⟩
    · rintro ⟨hp, hlong⟩
      refine ⟨hp, ?_, hlong⟩
      cases hwr : w.writers[p]? with
      | none => rfl
      | some wr => exact absurd (hopen p (by rw [hwr]; rfl)) hlong
  by_cases hs : sendable w.defaultMode w.noPersist p = true
  · rw [if_neg (fun hf => hfails.mp hf hs), if_pos hs]
    rfl
  · rw [if_pos (hfails.mpr hs), if_neg hs]
    rfl

theorem Sinks.Open.doSend (h : sinks.Open mode noPersist) {job : NotifyJob}
    (hs : job.ready mode noPersist = true) : (doSend sinks job).Open mode noPersist := by
  obtain ⟨w, hw, rfl, rfl, hopen⟩ := h
  unfold MemEtcd.doSend
  rw [hw, Option.map_some]
  refine ⟨_, rfl, (w.append_settings _ _ _ _ _).1, (w.append_settings _ _ _ _ _).2, ?_⟩
  intro p hp
  rcases WalManager.append_writers _ _ _ _ hp with hp | ⟨hpersists, rfl⟩
  · exact hopen p hp
  · unfold NotifyJob.ready sendable at hs
    rw [hpersists] at hs
    simpa using hs

/-- A round sends its jobs up to the first that is not ready. -/
theorem Sinks.Open.sendRound_eq (h : sinks.Open mode noPersist) (jobs : List NotifyJob) :
    sendRound sinks jobs =
      ((jobs.takeWhile (NotifyJob.ready mode noPersist)).foldl MemEtcd.doSend sinks,
        jobs.takeWhile (NotifyJob.ready mode noPersist),
        !jobs.all (NotifyJob.ready mode noPersist)) ∧
    ((jobs.takeWhile (NotifyJob.ready mode noPersist)).foldl MemEtcd.doSend sinks).Open mode
      noPersist := by
  induction jobs generalizing sinks with
  | nil => exact ⟨rfl, h⟩
  | cons job jobs ih =>
    unfold sendRound
    rw [h.tryDoSend_eq job, List.takeWhile_cons, List.all_cons]
    by_cases hs : job.ready mode noPersist = true
    · obtain ⟨hround, hopen⟩ := ih (h.doSend hs)
      rw [if_pos hs]
      dsimp only
      rw [hround, if_pos hs, hs, Bool.true_and]
      exact ⟨rfl, hopen⟩
    · rw [if_neg hs, if_neg hs, Bool.eq_false_iff.mpr hs]
      exact ⟨rfl, h⟩

end Send

/-! ### The other threads -/

namespace Server

def itemKeys (s : Store) : List Bytes := s.items.map TreeItem.key

/-- The items that the index and the calls under way hold have the keys that they are held
for. -/
structure Keyed (s : Server) : Prop where
  owned : ∀ (k : Bytes) a, s.store.treeMap[k]? = some a → (itemKeys s.store)[a]? = some k
  held : ∀ p ∈ s.pending, (itemKeys s.store)[p.item]? = some p.call.key

theorem Keyed.deref {s : Server} (h : s.Keyed) :
    ∀ p ∈ s.pending, (s.store.deref p.item).key = p.call.key := by
  intro p hp
  obtain ⟨item, hitem, hkey⟩ := Option.map_eq_some_iff.mp ((List.getElem?_map ..).symm.trans
    (h.held p hp))
  unfold Store.deref
  rw [List.getD_eq_getElem?_getD, hitem]
  exact hkey

/-- The heap only grows, and items keep their keys. -/
theorem Keyed.congr {s t : Server} (h : s.Keyed)
    (hkeys : itemKeys s.store <+: itemKeys t.store)
    (howned : ∀ (k : Bytes) a, t.store.treeMap[k]? = some a →
      s.store.treeMap[k]? = some a ∨ (itemKeys t.store)[a]? = some k)
    (hheld : ∀ p ∈ t.pending, (∃ q ∈ s.pending, q.call = p.call ∧ q.item = p.item) ∨
      (itemKeys t.store)[p.item]? = some p.call.key) : t.Keyed := by
  have hmono {a : ℕ} {k : Bytes} (ha : (itemKeys s.store)[a]? = some k) :
      (itemKeys t.store)[a]? = some k := by
    obtain ⟨hlt, hget⟩ := List.getElem?_eq_some_iff.mp ha
    exact List.getElem?_eq_some_iff.mpr
      ⟨hlt.trans_le hkeys.length_le, (hkeys.getElem hlt).symm.trans hget⟩
  refine ⟨fun k a ha => ?_, fun p hp => ?_⟩
  · rcases howned k a ha with hs | hk
    · exact hmono (h.owned k a hs)
    · exact hk
  · rcases hheld p hp with ⟨q, hq, hcall, hitem⟩ | hk
    · rw [← hcall, ← hitem]
      exact hmono (h.held q hq)
    · exact hk

theorem start_wf (wal : Option WalManager) (records : List WalRecord) :
    (start wal records).store.WF := by
  have hreplay (rs : List WalRecord) {t : Store} (ht : t.WF) :
      (rs.foldl Store.replayRecord t).WF := by
    induction rs generalizing t with
    | nil => exact ht
    | cons r rs ih => exact ih (Store.setForReplay_wf ht r.key r.value)
  exact hreplay records (Store.new_wf _)

theorem itemKeys_of_owned {s : Store} (hs : s.HeapOk) {k : Bytes} {a : ℕ}
    (ha : s.treeMap[k]? = some a) : (itemKeys s)[a]? = some k := by
  obtain ⟨hlt, hkey⟩ := hs.owned k a ha
  unfold itemKeys
  rw [List.getElem?_map, List.getElem?_eq_getElem hlt, Option.map_some, ← hkey, Store.deref,
    List.getD_eq_getElem?_getD, List.getElem?_eq_getElem hlt, Option.getD_some]

theorem start_keyed (wal : Option WalManager) (records : List WalRecord) :
    (start wal records).Keyed :=
  ⟨fun _ _ => itemKeys_of_owned (start_wf wal records).toHeapOk,
    fun _ hp => absurd hp List.not_mem_nil⟩

/-- A write through an `Arc` leaves the key of the item. -/
theorem itemKeys_locked (s : Store) (p : PendingCall) : itemKeys (p.locked s).1 = itemKeys s := by
  unfold PendingCall.locked
  rcases s.locked_cases p.item p.isNewItem p.call.value p.call.required with
    ⟨kv, _, he⟩ | ⟨_, he⟩
  · rw [he]
  · rw [he, updateItem_eq]
    unfold itemKeys Store.writeItem
    dsimp only
    rw [List.map_set]
    by_cases hlt : p.item < (s.items.map TreeItem.key).length
    · have hkey : (s.deref p.item).key = (s.items.map TreeItem.key)[p.item] := by
        rw [List.length_map] at hlt
        rw [List.getElem_map, Store.deref, List.getD_eq_getElem?_getD,
          List.getElem?_eq_getElem hlt, Option.getD_some]
      rw [hkey, List.set_getElem_self]
    · exact List.set_eq_of_length_le (not_lt.mp hlt)

theorem itemKeys_import (s : Store) (entries : List SnapshotEntry) :
    itemKeys s <+: itemKeys (s.importSnapshotData entries) := by
  have hloop (es : List SnapshotEntry) (t : Store) :
      itemKeys t <+: itemKeys (es.foldl Store.importEntry t) := by
    induction es generalizing t with
    | nil => exact List.prefix_rfl
    | cons e es ih =>
      refine List.IsPrefix.trans ?_ (ih _)
      unfold itemKeys Store.importEntry
      dsimp only
      rw [Store.items_index, List.map_append]
      exact List.prefix_append _ _
  exact (hloop entries { s with
    prefixMap := ∅
    treeMap := ∅
    valuesByRevision := (List.replicate (Store.maxModRev entries).toNat ⟨0, 0, 0, none⟩).foldl
      (fun d v => (d.push v).2) s.valuesByRevision.clear } :)

theorem Keyed.enter {s : Server} (h : s.Keyed) (c : Call) : (s.enter c).Keyed := by
  rcases s.store.entry_cases c.key with ⟨a, ha, he⟩ | ⟨_, he⟩
  · have hstore : (s.enter c).store = s.store := congrArg Prod.fst he
    refine h.congr (by rw [hstore]) (fun k b hb => Or.inl (hstore ▸ hb)) ?_
    intro p hp
    rw [enter_pending, he] at hp
    rcases List.mem_append.mp hp with hp | hp
    · exact Or.inl ⟨p, hp, rfl, rfl⟩
    · rw [List.mem_singleton.mp hp, hstore]
      exact Or.inr (h.owned c.key a ha)
  · have hkeys : itemKeys (s.enter c).store = itemKeys s.store ++ [c.key] := by
      change itemKeys (s.store.entry c.key).1 = _
      rw [he]
      exact List.map_append
    have hnew : (itemKeys (s.enter c).store)[s.store.items.length]? = some c.key := by
      have hlen : s.store.items.length = (itemKeys s.store).length := (List.length_map _).symm
      rw [hkeys, hlen, List.getElem?_concat_length]
    refine h.congr (hkeys ▸ List.prefix_append _ _) ?_ ?_
    · intro k b hb
      change (s.store.entry c.key).1.treeMap[k]? = some b at hb
      rw [he, getElem?_insert_bytes] at hb
      split_ifs at hb with hk
      · cases hb
        rw [← hk]
        exact Or.inr hnew
      · exact Or.inl hb
    · intro p hp
      rw [enter_pending, he] at hp
      rcases List.mem_append.mp hp with hp | hp
      · exact Or.inl ⟨p, hp, rfl, rfl⟩
      · rw [List.mem_singleton.mp hp]
        exact Or.inr hnew

theorem Keyed.step {s : Server} (h : s.Keyed) (a : Action) : (s.step a).Keyed := by
  have herase {i : ℕ} : ∀ p ∈ s.pending.eraseIdx i,
      ∃ q ∈ s.pending, q.call = p.call ∧ q.item = p.item :=
    fun p hp => ⟨p, List.mem_of_mem_eraseIdx hp, rfl, rfl⟩
  rcases s.step_cases a with he | ⟨c, rfl⟩ | ⟨i, p, _, hp, _, he⟩ | ⟨i, p, kv, _, _, _, _, he⟩ |
    ⟨i, p, done, _, _, _, _, he⟩ | ⟨rev, rfl⟩ | ⟨entries, rfl⟩
  · refine h.congr ?_ (fun k b hb => Or.inl (he.data.treeMap ▸ hb))
      (fun p hp => Or.inl ⟨p, he.pending ▸ hp, rfl, rfl⟩)
    unfold itemKeys
    rw [he.data.items]
  · exact h.enter c
  · rw [he]
    refine h.congr List.prefix_rfl (fun k b hb => Or.inl hb) (fun q hq => Or.inl ?_)
    rcases List.mem_or_eq_of_mem_set hq with hq | rfl
    · exact ⟨q, hq, rfl, rfl⟩
    · exact ⟨p, List.mem_of_getElem? hp, rfl, rfl⟩
  · rw [he]
    exact h.congr List.prefix_rfl (fun k b hb => Or.inl hb) (fun q hq => Or.inl (herase q hq))
  · rw [he]
    refine h.congr (by rw [itemKeys_locked]) (fun k b hb => Or.inl ?_)
      (fun q hq => Or.inl (herase q hq))
    have htree : (p.locked s.store).1.treeMap = s.store.treeMap := Store.locked_treeMap ..
    exact htree ▸ hb
  · refine h.congr ?_ (fun k b hb => Or.inl (s.store.compact_treeMap rev ▸ hb))
      (fun q hq => Or.inl ⟨q, hq, rfl, rfl⟩)
    change itemKeys s.store <+: itemKeys (s.store.compact rev).1
    cases hc : (s.store.compact rev).2 with
    | error e => rw [Store.compact_error hc]
    | ok u =>
      obtain ⟨n, _, _, _, hok⟩ := Store.compact_ok hc
      rw [hok]
      exact List.prefix_rfl
  · exact h.congr (itemKeys_import s.store entries)
      (fun k b hb => Or.inr (itemKeys_of_owned
        (Store.importSnapshotData_wf s.store entries).toHeapOk hb))
      (fun q hq => Or.inl ⟨q, hq, rfl, rfl⟩)

/-- Every job has the prefix of its key, whatever happens. -/
theorem run_labelled (wal : Option WalManager) (records : List WalRecord) (actions : List Action) :
    ((start wal records).run actions).Labelled := by
  have hrun (s : Server) (hs : s.Labelled) (hk : s.Keyed) : (s.run actions).Labelled := by
    induction actions generalizing s with
    | nil => exact hs
    | cons a actions ih => exact ih (s.step a) (hs.step hk.deref a) (hk.step a)
  exact hrun _ (start_labelled wal records) (start_keyed wal records)

/-- The other threads only write batches of the WAL. -/
theorem step_open {mode : WalMode} {noPersist : List Bytes} {s : Server}
    (h : s.sinks.Open mode noPersist) {a : Action} (ha : a ≠ .receive) :
    (s.step a).sinks.Open mode noPersist := by
  by_cases hwrite : ∃ p ticks fails, a = .writeWal p ticks fails
  · obtain ⟨p, ticks, fails, rfl⟩ := hwrite
    obtain ⟨w, hw, hmode, hno, hopen⟩ := h
    refine ⟨w.writeLocked p ticks fails, ?_, ?_, ?_, ?_⟩
    · simp only [step, hw, Option.map_some]
    · rw [(w.writeLocked_settings p ticks fails).1, hmode]
    · rw [(w.writeLocked_settings p ticks fails).2, hno]
    · intro q hq
      exact hopen q (w.writeLocked_writers p ticks fails hq)
  · unfold Sinks.Open
    rw [s.step_wal ha (fun p ticks fails he => hwrite ⟨p, ticks, fails, he⟩)]
    exact h

/-- The thread sends more jobs, no step takes one back. -/
theorem step_dispatched (s : Server) (a : Action) :
    ∃ more, (s.step a).dispatched = s.dispatched ++ more := by
  by_cases ha : a = .receive
  · subst ha
    simp only [step, receive]
    cases s.store.notifyTx with
    | nil => exact ⟨[], (List.append_nil _).symm⟩
    | cons job rest => exact ⟨_, rfl⟩
  · exact ⟨[], by rw [(s.step_thread ha).2, List.append_nil]⟩

end Server

/-! ### The whole run -/

section Run

variable (mode : WalMode) (noPersist : List Bytes)

/-- A server with a mortal thread beside one whose thread does not panic: they are the same
until a job is not ready, and nothing is sent from then on. -/
structure MortalServer.Follows (m : MortalServer) (s : Server) : Prop where
  alive : m.panicked = false → m.server = s ∧ s.sinks.Open mode noPersist ∧
    ∀ job ∈ s.dispatched, job.ready mode noPersist
  sent : m.server.dispatched = s.dispatched.takeWhile (NotifyJob.ready mode noPersist)
  dead : m.panicked = true → ∃ job ∈ s.dispatched, ¬job.ready mode noPersist

variable {mode noPersist}

theorem takeWhile_append_of_stop {α : Type} {p : α → Bool} {l : List α} (h : ∃ x ∈ l, ¬p x)
    (more : List α) : (l ++ more).takeWhile p = l.takeWhile p := by
  rw [List.takeWhile_append, if_neg]
  intro hlen
  have hall := List.takeWhile_eq_self_iff.mp ((List.takeWhile_prefix p).eq_of_length hlen)
  obtain ⟨x, hx, hnot⟩ := h
  exact hnot (hall x hx)

theorem exists_stop {α : Type} {p : α → Bool} {l : List α} (h : ∃ x ∈ l, ¬p x) :
    ∃ x after, l = l.takeWhile p ++ x :: after ∧ ¬p x := by
  cases hd : l.dropWhile p with
  | nil =>
    obtain ⟨x, hx, hnot⟩ := h
    exact absurd (List.dropWhile_eq_nil_iff.mp hd x hx) hnot
  | cons x after =>
    refine ⟨x, after, by rw [← hd, List.takeWhile_append_dropWhile], ?_⟩
    have hhead := List.head?_dropWhile_not p l
    rw [hd] at hhead
    simpa using hhead

theorem MortalServer.receive_of_panicked {m : MortalServer} (hp : m.panicked = true) :
    m.receive = m := by
  unfold receive
  rw [if_pos hp]

theorem MortalServer.step_of_ne {m : MortalServer} {a : Action} (ha : a ≠ .receive) :
    m.step a = { m with server := m.server.step a } := by
  cases a with
  | receive => exact absurd rfl ha
  | _ => rfl

/-- Once the thread has panicked nothing is sent. -/
theorem MortalServer.Follows.step_dead {m : MortalServer} {s : Server}
    (h : m.Follows mode noPersist s) (hp : m.panicked = true) (a : Action) :
    (m.step a).Follows mode noPersist (s.step a) := by
  have hstill : (m.step a).panicked = true ∧
      (m.step a).server.dispatched = m.server.dispatched := by
    by_cases ha : a = .receive
    · subst ha
      simp only [step]
      rw [receive_of_panicked hp]
      exact ⟨hp, rfl⟩
    · rw [step_of_ne ha]
      exact ⟨hp, (m.server.step_thread ha).2⟩
  obtain ⟨more, hmore⟩ := s.step_dispatched a
  obtain ⟨job, hjob, hnot⟩ := h.dead hp
  refine ⟨?_, ?_, ?_⟩
  · intro hno
    rw [hstill.1] at hno
    contradiction
  · rw [hstill.2, h.sent, hmore, takeWhile_append_of_stop ⟨job, hjob, hnot⟩]
  · intro _
    refine ⟨job, ?_, hnot⟩
    rw [hmore]
    exact List.mem_append_left _ hjob

/-- A round of a thread that is alive. -/
theorem MortalServer.Follows.receive_alive {m : MortalServer} {s : Server}
    (h : m.Follows mode noPersist s) (hp : m.panicked = false) :
    m.receive.Follows mode noPersist s.receive := by
  obtain ⟨rfl, hopen, hready⟩ := h.alive hp
  unfold receive Server.receive
  rw [if_neg (by rw [hp]; decide)]
  cases hn : m.server.store.notifyTx with
  | nil => exact h
  | cons job rest =>
    dsimp only
    generalize m.server.thread.receive job = received
    obtain ⟨thread, round⟩ := received
    obtain ⟨hround, hopen'⟩ := hopen.sendRound_eq round
    dsimp only
    rw [hround]
    have htake : (m.server.dispatched ++ round).takeWhile (NotifyJob.ready mode noPersist) =
        m.server.dispatched ++ round.takeWhile (NotifyJob.ready mode noPersist) :=
      List.takeWhile_append_of_pos hready
    by_cases hall : ∀ job ∈ round, job.ready mode noPersist = true
    · -- the round is complete
      have hwhole : round.takeWhile (NotifyJob.ready mode noPersist) = round :=
        List.takeWhile_eq_self_iff.mpr hall
      rw [List.all_eq_true.mpr hall, hwhole]
      rw [hwhole] at htake hopen'
      refine ⟨fun _ => ⟨rfl, hopen', ?_⟩, htake.symm, fun hno => by contradiction⟩
      intro job' hjob'
      rcases List.mem_append.mp hjob' with hjob' | hjob'
      · exact hready job' hjob'
      · exact hall job' hjob'
    · have hbad : round.all (NotifyJob.ready mode noPersist) = false := by
        rw [← Bool.not_eq_true, List.all_eq_true]
        exact hall
      rw [hbad]
      refine ⟨fun hno => by contradiction, htake.symm, fun _ => ?_⟩
      obtain ⟨job', hjob'⟩ := not_forall.mp hall
      obtain ⟨hmem, hnot⟩ := Classical.not_imp.mp hjob'
      exact ⟨job', List.mem_append_right _ hmem, hnot⟩

theorem MortalServer.Follows.step {m : MortalServer} {s : Server} (h : m.Follows mode noPersist s)
    (a : Action) : (m.step a).Follows mode noPersist (s.step a) := by
  cases hp : m.panicked with
  | true => exact h.step_dead hp a
  | false =>
    by_cases ha : a = .receive
    · subst ha
      exact h.receive_alive hp
    · obtain ⟨rfl, hopen, hready⟩ := h.alive hp
      have hsame := (m.server.step_thread ha).2
      rw [step_of_ne ha]
      refine ⟨fun _ => ⟨rfl, Server.step_open hopen ha, ?_⟩, ?_, ?_⟩
      · rw [hsame]
        exact hready
      · rw [hsame]
        exact h.sent
      · rw [hsame]
        exact h.dead

theorem MortalServer.Follows.run {m : MortalServer} {s : Server} (h : m.Follows mode noPersist s)
    (actions : List Action) : (m.run actions).Follows mode noPersist (s.run actions) := by
  induction actions generalizing m s with
  | nil => exact h
  | cons a actions ih => exact ih (h.step a)

theorem MortalServer.Follows.panicked_iff {m : MortalServer} {s : Server}
    (h : m.Follows mode noPersist s) :
    m.panicked = false ↔ ∀ job ∈ s.dispatched, job.ready mode noPersist := by
  constructor
  · intro hp
    exact (h.alive hp).2.2
  · intro hall
    by_contra hp
    obtain ⟨job, hjob, hnot⟩ := h.dead (Bool.eq_true_of_not_eq_false hp)
    exact hnot (hall job hjob)

end Run

/-- A key's changes do not make the dispatcher panic. -/
def Fine (mode : WalMode) (noPersist : List Bytes) (key : Bytes) : Prop :=
  persists mode noPersist (walPrefix key) → (walPrefix key).length ≤ 122

/-- A file name fits exactly if the prefix has at most 122 bytes as lossy UTF-8, and
different UTF-8 prefixes have different names. Over every run of a server with a WAL the
dispatcher survives exactly if every persisted key it comes to has such a prefix; it is then
the dispatcher that never panics, and otherwise it has sent the jobs before the first other
key and sends nothing any more. -/
theorem dispatcher_survives_iff (mode : WalMode) (noPersist : List Bytes)
    (walDir : ExtTreeMap Bytes Bytes compare) (records : List WalRecord) (actions : List Action) :
    let w : WalManager := ⟨mode, noPersist, ∅, walDir, []⟩
    let m := (MortalServer.start (some w) records).run actions
    let s := (Server.start (some w) records).run actions
    (∀ key, NameFits (walPrefix key) ↔ (walPrefix key).length ≤ 122) ∧
      (∀ key key', IsUtf8 (prefixSplit key).1 → IsUtf8 (prefixSplit key').1 →
        (prefixSplit key).1 ≠ (prefixSplit key').1 →
        fileNameForPrefix (walPrefix key) ≠ fileNameForPrefix (walPrefix key')) ∧
      (m.panicked = false ↔ ∀ job ∈ s.dispatched, Fine mode noPersist job.msg.kv.key) ∧
      (m.panicked = false → m.server = s) ∧
      (m.panicked = true → ∃ job after, s.dispatched = m.server.dispatched ++ job :: after ∧
        ¬Fine mode noPersist job.msg.kv.key) := by
  intro w m s
  have hstart : (MortalServer.start (some w) records).Follows mode noPersist
      (Server.start (some w) records) := by
    refine ⟨fun _ => ⟨rfl, ⟨w, rfl, rfl, rfl, ?_⟩, ?_⟩, rfl, ?_⟩
    · intro p hp
      simp [w] at hp
    · intro job hjob
      contradiction
    · intro hno
      contradiction
  have hf : m.Follows mode noPersist s := hstart.run actions
  have hlabel := Server.run_labelled (some w) records actions
  have hfine : ∀ job ∈ s.dispatched,
      job.ready mode noPersist = true ↔ Fine mode noPersist job.msg.kv.key := by
    intro job hjob
    have hpfx := hlabel.jobs job (Server.mem_jobs_of_dispatched hjob)
    unfold NotifyJob.ready sendable Fine
    rw [hpfx, Bool.or_eq_true, decide_eq_true_iff, nameFits_iff, Bool.not_eq_true',
      ← Bool.not_eq_true, ← imp_iff_not_or]
    rfl
  refine ⟨fun key => nameFits_iff _, fun key key' => fileNameForPrefix_ne, ?_,
    fun hp => (hf.alive hp).1, ?_⟩
  · rw [hf.panicked_iff]
    exact forall₂_congr hfine
  · intro hp
    obtain ⟨job, after, hsplit, hnot⟩ := exists_stop (hf.dead hp)
    rw [← hf.sent] at hsplit
    refine ⟨job, after, hsplit, ?_⟩
    rw [← hfine job (by rw [hsplit]; simp)]
    exact hnot

/-- A key whose bucket has a name of 123 bytes. -/
def longKey : Bytes := registryRoot ++ List.replicate 112 97 ++ [47]

/-- A change of `longKey` is announced, then one of the key `a`. -/
def longKeyActions : List Action :=
  Call.actions ⟨longKey, some [1], none⟩ ++ [.collect 0, .send 0, .receive] ++
    Call.actions ⟨[97], some [2], none⟩ ++ [.collect 0, .send 0, .receive]

/-- The name for the bucket has 257 bytes: the dispatcher panics, and neither change is
sent to the WAL or to a watcher. -/
theorem dispatcher_panics_on_long_prefix :
    let m := (MortalServer.start (some (WalManager.new .async [])) []).run longKeyActions
    (fileNameForPrefix (walPrefix longKey)).length = 257 ∧ m.panicked = true ∧
      m.server.successes.length = 2 ∧ m.server.dispatched = [] := by
  decide +kernel

end MemEtcd
