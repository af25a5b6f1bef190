import MemEtcd.WalFiles
import MemEtcd.WorkerPool

/-! The worker threads of the WAL. They receive writers with work from a channel;
`is_writing` lets at most one of them into `write_locked` of a writer. An appender
enqueues its record and then sends the writer. -/
namespace MemEtcd

open WorkerPool (Phase Pool InHand)

namespace WalManager

/-- `recv_deadline` on the channel of a prefix: a record, if there is one. -/
def dequeue (w : WalManager) (p : Bytes) : Option (WalRecord × WalManager) :=
  match w.writers[p]? with
  | none => none
  | some writer =>
    match writer.toWrite with
    | [] => none
    | rec :: rest =>
      some (rec, { w with writers := w.writers.insert p { writer with toWrite := rest } })

/-- The rest of `write_locked` once its batch is complete. -/
def writeBatch (w : WalManager) (p : Bytes) (batch : List WalRecord) : WalManager :=
  match w.writers[p]? with
  | none => w
  | some writer =>
    { w with
      walDir := w.walDir.insert writer.path
        ((w.walDir[writer.path]?).getD [] ++ batch.flatMap WalRecord.encode)
      notified := w.notified ++ (batch.filter (·.writtenNotify)).map (·.rev) }

end WalManager

/-- The WAL with its workers. `isWriting` and `writersWithWork` go by the prefix of the
writer; `sending` are the prefixes whose appenders have enqueued their record and not
sent the writer yet. A worker is in `write_locked` while its phase is `working`. -/
structure WalPool where
  manager : WalManager
  isWriting : Bytes → Bool
  writersWithWork : List Bytes
  sending : List Bytes
  workers : ℕ → Phase Bytes WalRecord

inductive PoolAction where
  /-- `append`, up to the send of the record -/
  | append (pfx : Bytes) (rev : ℤ) (key : Bytes) (value : Option Bytes) (writtenNotify : Bool)
  /-- the send of the writer -/
  | send (i : ℕ)
  /-- a worker takes a record into its batch -/
  | dequeue (i : ℕ)
  /-- any other step of a worker -/
  | worker (i : ℕ)
  deriving DecidableEq, Repr

namespace WalPool

/-- `WalManager::new` on an empty directory. -/
def start (mode : WalMode) (noPersist : List Bytes) : WalPool :=
  ⟨WalManager.new mode noPersist, fun _ => false, [], [], fun _ => .waiting⟩

def goTo (s : WalPool) (i : ℕ) (phase : Phase Bytes WalRecord) : WalPool :=
  { s with workers := Function.update s.workers i phase }

def work (s : WalPool) (i : ℕ) : Phase Bytes WalRecord → Option WalPool
  -- `rx.recv`
  | .waiting =>
    match s.writersWithWork with
    | [] => none
    | p :: rest => some ({ s with writersWithWork := rest }.goTo i (.received p))
  -- `to_write_rx.is_empty`
  | .received p =>
    some (s.goTo i (if (s.manager.queueOf p).isEmpty then .waiting else .claiming p))
  -- `is_writing.compare_exchange`
  | .claiming p =>
    if s.isWriting p then some (s.goTo i .waiting)
    else some ({ s with isWriting := Function.update s.isWriting p true }.goTo i (.working p []))
  -- the write of the batch, and the waiters
  | .working p batch =>
    some ({ s with manager := s.manager.writeBatch p batch }.goTo i (.worked p))
  -- `is_writing.store(false)`
  | .worked p =>
    some ({ s with isWriting := Function.update s.isWriting p false }.goTo i (.released p))
  -- `to_write_rx.is_empty` once more
  | .released p =>
    some (s.goTo i (if (s.manager.queueOf p).isEmpty then .waiting else .resending p))
  -- `writers_with_work_tx.send`
  | .resending p => some ({ s with writersWithWork := s.writersWithWork ++ [p] }.goTo i .waiting)

def step (s : WalPool) : PoolAction → Option WalPool
  | .append pfx rev key value writtenNotify => some { s with
      manager := s.manager.append pfx rev key value writtenNotify
      sending := if persists s.manager.defaultMode s.manager.noPersist pfx then s.sending ++ [pfx]
        else s.sending }
  | .send i => (s.sending[i]?).map (fun p =>
      { s with sending := s.sending.eraseIdx i, writersWithWork := s.writersWithWork ++ [p] })
  | .dequeue i =>
    match s.workers i with
    | .working p batch =>
      (s.manager.dequeue p).map (fun r =>
        { s with manager := r.2 }.goTo i (.working p (batch ++ [r.1])))
    | _ => none
  | .worker i => s.work i (s.workers i)

def run (s : WalPool) (actions : List PoolAction) : Option WalPool :=
  PartialRun.run step s actions

end WalPool

def appendedTo (mode : WalMode) (noPersist : List Bytes) (actions : List PoolAction) (p : Bytes) :
    List WalRecord :=
  actions.filterMap (fun a => match a with
    | .append pfx rev key value writtenNotify =>
      if pfx = p ∧ persists mode noPersist pfx then some ⟨rev, key, value, writtenNotify⟩ else none
    | _ => none)

namespace WalManager

/-! ### What the operations do to queues and files -/

theorem dequeue_spec {w w' : WalManager} {p : Bytes} {rec : WalRecord}
    (h : w.dequeue p = some (rec, w')) :
    ∃ wr rest, w.writers[p]? = some wr ∧ w.queueOf p = rec :: rest ∧
      w' = { w with writers := w.writers.insert p { wr with toWrite := rest } } := by
  unfold dequeue at h
  cases hw : w.writers[p]? with
  | none =>
    rw [hw] at h
    contradiction
  | some wr =>
    rw [hw] at h
    dsimp only at h
    cases hq : wr.toWrite with
    | nil =>
      rw [hq] at h
      contradiction
    | cons r rest =>
      rw [hq] at h
      cases h
      refine ⟨wr, rest, rfl, ?_, rfl⟩
      unfold queueOf
      rw [hw]
      exact hq

theorem writeBatch_spec {w : WalManager} (h : w.Paths) {p : Bytes} {batch : List WalRecord}
    (hw : batch ≠ [] → (w.writers[p]?).isSome) :
    (w.writeBatch p batch).writers = w.writers ∧
      (w.writeBatch p batch).contentsOf =
        Function.update w.contentsOf p (w.contentsOf p ++ batch.flatMap WalRecord.encode) := by
  unfold writeBatch
  cases hwr : w.writers[p]? with
  | none =>
    refine ⟨rfl, ?_⟩
    have hempty : batch = [] := by
      by_contra hne
      have := hw hne
      rw [hwr] at this
      contradiction
    rw [hempty, List.flatMap_nil, List.append_nil, Function.update_eq_self]
  | some wr =>
    refine ⟨rfl, ?_⟩
    dsimp only
    rw [h p wr hwr]
    exact contentsOf_insert (w := w) rfl

end WalManager

/-! ### The pool is a pool of workers -/

def abstractly (mode : WalMode) (noPersist : List Bytes) :
    PoolAction → List (WorkerPool.Action Bytes WalRecord ℕ)
  | .append pfx rev key value writtenNotify =>
    if persists mode noPersist pfx then [.submit pfx ⟨rev, key, value, writtenNotify⟩] else []
  | .send i => [.send i]
  | .dequeue i => [.take i]
  | .worker i => [.advance i]

theorem submitted_abstractly (mode : WalMode) (noPersist : List Bytes)
    (actions : List PoolAction) :
    WorkerPool.submitted (actions.flatMap (abstractly mode noPersist)) =
      appendedTo mode noPersist actions := by
  funext p
  unfold WorkerPool.submitted appendedTo
  rw [List.filterMap_flatMap, List.filterMap_eq_flatMap_toList]
  congr 1
  funext a
  cases a with
  | append pfx rev key value notify =>
    unfold abstractly
    by_cases hp : persists mode noPersist pfx = true
    · by_cases hpfx : pfx = p
      · subst hpfx
        simp [hp]
      · simp [hp, hpfx]
    · simp [hp]
  | _ => rfl

namespace WalPool

/-- The WAL holds in its queues and files what the pool of workers has in its queues and
has finished. -/
structure Refines (mode : WalMode) (noPersist : List Bytes) (s : WalPool)
    (a : Pool Bytes WalRecord ℕ) : Prop where
  settings : s.manager.defaultMode = mode ∧ s.manager.noPersist = noPersist
  paths : s.manager.Paths
  queue : ∀ p, s.manager.queueOf p = a.queue p
  contents : ∀ p, s.manager.contentsOf p = (a.finished p).flatMap WalRecord.encode
  flags : s.isWriting = a.claimed
  tokens : s.writersWithWork = a.tokens
  sending : s.sending = a.unsent
  workers : s.workers = a.workers
  opened : ∀ i p batch, s.workers i = .working p batch → batch ≠ [] →
    (s.manager.writers[p]?).isSome

theorem start_refines (mode : WalMode) (noPersist : List Bytes) :
    Refines mode noPersist (start mode noPersist) Pool.start := by
  refine ⟨⟨rfl, rfl⟩, ?_, ?_, ?_, rfl, rfl, rfl, rfl, ?_⟩
  · intro p wr h
    simp [start, WalManager.new] at h
  · intro p
    simp [start, WalManager.new, WalManager.queueOf, Pool.start]
  · intro p
    simp [start, WalManager.new, WalManager.contentsOf, Pool.start]
  · intro i p batch h
    contradiction

section

variable {mode : WalMode} {noPersist : List Bytes} {s s' : WalPool} {a : Pool Bytes WalRecord ℕ}

/-- A batch is of a writer that is open, also after a worker has gone to another phase. -/
theorem Refines.opened_update (h : Refines mode noPersist s a) {m : WalManager}
    (hkept : ∀ p : Bytes, (s.manager.writers[p]?).isSome → (m.writers[p]?).isSome) {i : ℕ}
    {phase : Phase Bytes WalRecord}
    (hphase : ∀ p batch, phase = .working p batch → batch ≠ [] → (m.writers[p]?).isSome) :
    ∀ j p batch, Function.update s.workers i phase j = .working p batch → batch ≠ [] →
      (m.writers[p]?).isSome := by
  intro j p batch hj hne
  by_cases hji : j = i
  · rw [hji, Function.update_self] at hj
    exact hphase p batch hj hne
  · rw [Function.update_of_ne hji] at hj
    exact hkept p (h.opened j p batch hj hne)

/-- Only a worker and the channels change. -/
theorem Refines.goTo (h : Refines mode noPersist s a) {a' : Pool Bytes WalRecord ℕ}
    (hm : s'.manager = s.manager) (hq : a'.queue = a.queue) (hf : a'.finished = a.finished)
    (hflags : s'.isWriting = a'.claimed) (htokens : s'.writersWithWork = a'.tokens)
    (hsending : s'.sending = a'.unsent) {i : ℕ} {phase : Phase Bytes WalRecord}
    (hworkers : s'.workers = Function.update s.workers i phase)
    (hworkers' : a'.workers = Function.update a.workers i phase)
    (hphase : ∀ p batch, phase = .working p batch → batch = []) :
    Refines mode noPersist s' a' := by
  refine ⟨hm ▸ h.settings, hm ▸ h.paths, ?_, ?_, hflags, htokens, hsending, ?_, ?_⟩
  · rw [hm, hq]
    exact h.queue
  · rw [hm, hf]
    exact h.contents
  · rw [hworkers, hworkers', h.workers]
  · rw [hworkers, hm]
    exact h.opened_update (fun _ => id) (fun p batch hp hne => absurd (hphase p batch hp) hne)

/-- A worker looks at a queue: both pools find it empty or both do not. -/
theorem Refines.look (h : Refines mode noPersist s a) (i : ℕ) (p : Bytes)
    {next : Phase Bytes WalRecord} (hnext : ∀ q batch, next = .working q batch → batch = []) :
    Refines mode noPersist (s.goTo i (if (s.manager.queueOf p).isEmpty then .waiting else next))
      (a.goTo i (if (a.queue p).isEmpty then .waiting else next)) := by
  rw [← h.queue p]
  refine h.goTo rfl rfl rfl h.flags h.tokens h.sending rfl rfl ?_
  split_ifs
  · exact fun _ _ => nofun
  · exact hnext

theorem Refines.append (h : Refines mode noPersist s a) (pfx : Bytes) (rev : ℤ) (key : Bytes)
    (value : Option Bytes) (notify : Bool)
    (hstep : s.step (.append pfx rev key value notify) = some s') :
    ∃ a', a.run (abstractly mode noPersist (.append pfx rev key value notify)) = some a' ∧
      Refines mode noPersist s' a' := by
  cases hstep
  have hset := s.manager.append_settings pfx rev key value notify
  have hsettings : (s.manager.append pfx rev key value notify).defaultMode = mode ∧
      (s.manager.append pfx rev key value notify).noPersist = noPersist :=
    ⟨hset.1.trans h.settings.1, hset.2.trans h.settings.2⟩
  obtain ⟨rfl, rfl⟩ := h.settings
  dsimp only [abstractly]
  cases hp : persists s.manager.defaultMode s.manager.noPersist pfx with
  | false =>
    obtain ⟨hwriters, hdir, _⟩ := WalManager.append_not_persisted hp rev key value notify
    refine ⟨a, rfl, hsettings, ?_, ?_, ?_, h.flags, h.tokens, h.sending, h.workers, ?_⟩
    · intro q wr hq
      rw [hwriters] at hq
      exact h.paths q wr hq
    · intro q
      unfold WalManager.queueOf
      rw [hwriters]
      exact h.queue q
    · intro q
      unfold WalManager.contentsOf
      rw [hdir]
      exact h.contents q
    · rw [hwriters]
      exact h.opened
  | true =>
    obtain ⟨⟨wr, hwriters, hpath, hqueue⟩, hcontents, _⟩ :=
      WalManager.append_persisted hp rev key value notify
    refine ⟨_, rfl, hsettings, h.paths.insert hwriters (hpath h.paths), ?_, ?_, h.flags, h.tokens, ?_,
      h.workers, ?_⟩
    · apply congrFun
      change _ = Function.update a.queue pfx (a.queue pfx ++ [_])
      rw [WalManager.queueOf_insert hwriters, hqueue, funext h.queue]
    · intro q
      exact (congrFun hcontents q).trans (h.contents q)
    · exact congrArg (· ++ [pfx]) h.sending
    · intro i p batch hi hne
      rw [hwriters, getElem?_insert_bytes]
      split_ifs
      · rfl
      · exact h.opened i p batch hi hne

theorem Refines.dequeue (h : Refines mode noPersist s a) {i : ℕ}
    (hstep : s.step (.dequeue i) = some s') :
    ∃ a', a.step (.take i) = some a' ∧ Refines mode noPersist s' a' := by
  simp only [step] at hstep
  split at hstep
  · rename_i p batch hi
    obtain ⟨⟨rec, m⟩, hdequeue, rfl⟩ := Option.map_eq_some_iff.mp hstep
    obtain ⟨wr, rest, hwr, hqueue, rfl⟩ := WalManager.dequeue_spec hdequeue
    have hwork : a.workers i = .working p batch := by rw [← h.workers, hi]
    have haqueue : a.queue p = rec :: rest := by rw [← h.queue, hqueue]
    refine ⟨Pool.goTo { a with queue := Function.update a.queue p rest } i
      (.working p (batch ++ [rec])), ?_, h.settings, h.paths.insert rfl (h.paths p wr hwr), ?_,
      h.contents, h.flags, h.tokens, h.sending, ?_, ?_⟩
    · simp only [Pool.step, hwork, haqueue]
    · apply congrFun
      change _ = Function.update a.queue p rest
      rw [← funext h.queue]
      exact @WalManager.queueOf_insert s.manager { s.manager with writers := _ } p _ rfl
    · exact congrArg (fun f => Function.update f i (.working p (batch ++ [rec]))) h.workers
    · refine h.opened_update ?_ ?_
      · intro q hq
        change ((s.manager.writers.insert p _)[q]?).isSome
        rw [getElem?_insert_bytes]
        split_ifs
        · rfl
        · exact hq
      · intro q batch' hphase _
        cases hphase
        change ((s.manager.writers.insert p _)[p]?).isSome
        rw [getElem?_insert_bytes, if_pos rfl]
        rfl
  · contradiction

/-- The write of a batch finishes it. -/
theorem Refines.writeBatch (h : Refines mode noPersist s a) {i : ℕ} {p : Bytes}
    {batch : List WalRecord} (hi : s.workers i = .working p batch) :
    Refines mode noPersist ({ s with manager := s.manager.writeBatch p batch }.goTo i (.worked p))
      ({ a with finished := Function.update a.finished p (a.finished p ++ batch) }.goTo i
        (.worked p)) := by
  obtain ⟨hwriters, hcontents⟩ := WalManager.writeBatch_spec h.paths (h.opened i p batch hi)
  have hsettings : (s.manager.writeBatch p batch).defaultMode = mode ∧
      (s.manager.writeBatch p batch).noPersist = noPersist := by
    unfold WalManager.writeBatch
    split <;> exact h.settings
  refine ⟨hsettings, ?_, ?_, ?_, h.flags, h.tokens, h.sending, ?_, ?_⟩
  · intro q wr hq
    exact h.paths q wr (hwriters ▸ hq)
  · intro q
    refine Eq.trans ?_ (h.queue q)
    change (s.manager.writeBatch p batch).queueOf q = _
    unfold WalManager.queueOf
    rw [hwriters]
  · intro q
    refine (congrFun hcontents q).trans ?_
    change _ = (Function.update a.finished p (a.finished p ++ batch) q).flatMap _
    by_cases hq : q = p
    · rw [hq, Function.update_self, Function.update_self, List.flatMap_append, h.contents]
    · rw [Function.update_of_ne hq, Function.update_of_ne hq, h.contents]
  · exact congrArg (fun f => Function.update f i (.worked p)) h.workers
  · refine h.opened_update ?_ (fun _ _ => nofun)
    intro q hq
    change ((s.manager.writeBatch p batch).writers[q]?).isSome
    rw [hwriters]
    exact hq

theorem Refines.work (h : Refines mode noPersist s a) {i : ℕ}
    (hstep : s.work i (s.workers i) = some s') :
    ∃ a', a.advance i (a.workers i) = some a' ∧ Refines mode noPersist s' a' := by
  rw [← h.workers]
  cases hi : s.workers i with
  | waiting =>
    rw [hi] at hstep
    unfold WalPool.work at hstep
    unfold Pool.advance
    rw [← h.tokens]
    cases ht : s.writersWithWork with
    | nil =>
      rw [ht] at hstep
      contradiction
    | cons p rest =>
      rw [ht] at hstep
      cases hstep
      exact ⟨_, rfl, h.goTo rfl rfl rfl h.flags rfl h.sending rfl rfl (fun _ _ => nofun)⟩
  | received p =>
    rw [hi] at hstep
    cases hstep
    exact ⟨_, rfl, h.look i p (fun _ _ => nofun)⟩
  | claiming p =>
    rw [hi] at hstep
    unfold WalPool.work at hstep
    unfold Pool.advance
    rw [← h.flags]
    dsimp only at hstep ⊢
    split_ifs at hstep ⊢
    · cases hstep
      exact ⟨_, rfl, h.goTo rfl rfl rfl h.flags h.tokens h.sending rfl rfl
        (fun _ _ => nofun)⟩
    · cases hstep
      refine ⟨_, rfl, h.goTo rfl rfl rfl rfl h.tokens h.sending rfl rfl ?_⟩
      intro q b he
      cases he
      rfl
  | working p batch =>
    rw [hi] at hstep
    cases hstep
    exact ⟨_, rfl, h.writeBatch hi⟩
  | worked p =>
    rw [hi] at hstep
    cases hstep
    refine ⟨_, rfl, h.goTo rfl rfl rfl ?_ h.tokens h.sending rfl rfl (fun _ _ => nofun)⟩
    exact congrArg (fun f => Function.update f p false) h.flags
  | released p =>
    rw [hi] at hstep
    cases hstep
    exact ⟨_, rfl, h.look i p (fun _ _ => nofun)⟩
  | resending p =>
    rw [hi] at hstep
    cases hstep
    refine ⟨_, rfl, h.goTo rfl rfl rfl h.flags ?_ h.sending rfl rfl (fun _ _ => nofun)⟩
    exact congrArg (· ++ [p]) h.tokens

theorem Refines.step (h : Refines mode noPersist s a) {act : PoolAction}
    (hstep : s.step act = some s') :
    ∃ a', a.run (abstractly mode noPersist act) = some a' ∧ Refines mode noPersist s' a' := by
  have hone {x : WorkerPool.Action Bytes WalRecord ℕ} {a' : Pool Bytes WalRecord ℕ}
      (hx : a.step x = some a') : a.run [x] = some a' := by
    change (a.step x).bind some = some a'
    rw [hx, Option.bind_some]
  cases act with
  | append pfx rev key value notify => exact h.append pfx rev key value notify hstep
  | send i =>
    obtain ⟨p, hp, rfl⟩ := Option.map_eq_some_iff.mp hstep
    rw [h.sending] at hp
    refine ⟨{ a with unsent := a.unsent.eraseIdx i, tokens := a.tokens ++ [p] }, hone ?_,
      h.settings, h.paths, h.queue, h.contents, h.flags, ?_, ?_, h.workers, h.opened⟩
    · simp only [Pool.step, hp, Option.map_some]
    · exact congrArg (· ++ [p]) h.tokens
    · exact congrArg (fun l => l.eraseIdx i) h.sending
  | dequeue i =>
    obtain ⟨a', ha', hr⟩ := h.dequeue hstep
    exact ⟨a', hone ha', hr⟩
  | worker i =>
    obtain ⟨a', ha', hr⟩ := h.work hstep
    exact ⟨a', hone ha', hr⟩

/-- Every run of the WAL is a run of the pool of workers. -/
theorem refines_run {acts : List PoolAction} (hrun : (start mode noPersist).run acts = some s) :
    ∃ a, Pool.start.run (acts.flatMap (abstractly mode noPersist)) = some a ∧
      Refines mode noPersist s a := by
  refine @PartialRun.run_trace_induct _ _ _ (fun past s => ∃ a,
    Pool.start.run (past.flatMap (abstractly mode noPersist)) = some a ∧
      Refines mode noPersist s a) ?_ [] _ _ _ ⟨_, rfl, start_refines mode noPersist⟩ hrun
  rintro past s s' act ⟨a, ha, hr⟩ hstep
  obtain ⟨a', ha', hr'⟩ := hr.step hstep
  refine ⟨a', ?_, hr'⟩
  rw [List.flatMap_append, Pool.run, PartialRun.run_append]
  change (Pool.start.run _).bind _ = _
  rw [ha, Option.bind_some, List.flatMap_singleton]
  exact ha'

/-- In every state that the workers and appenders can reach: the file of a prefix, the
batch of its worker and its queue are the records appended for it, in order; at most
one worker is between its `compare_exchange` and the clearing of `is_writing`; and a
queue that is not empty is not forgotten. -/
theorem pool_keeps_records {acts : List PoolAction}
    (hrun : (start mode noPersist).run acts = some s) (p : Bytes) :
    (∃ written batch, InHand s.workers p batch ∧
      s.manager.contentsOf p = written.flatMap WalRecord.encode ∧
      written ++ batch ++ s.manager.queueOf p = appendedTo mode noPersist acts p) ∧
    (∀ i j, (s.workers i).holds p → (s.workers j).holds p → i = j) ∧
    (s.manager.queueOf p ≠ [] →
      p ∈ s.writersWithWork ∨ p ∈ s.sending ∨
      (∃ i, s.workers i = .received p ∨ s.workers i = .claiming p) ∨
      (∃ i, (s.workers i).holds p ∨ s.workers i = .released p) ∨
      ∃ i, s.workers i = .resending p) := by
  obtain ⟨a, ha, hr⟩ := refines_run hrun
  have hinv := WorkerPool.inv_run ha
  rw [submitted_abstractly] at hinv
  rw [hr.workers, hr.tokens, hr.sending, hr.queue]
  refine ⟨?_, fun i j => hinv.single, ?_⟩
  · obtain ⟨batch, hin, horder⟩ := hinv.order p
    exact ⟨a.finished p, batch, hin, hr.contents p, horder⟩
  · intro hne
    rcases hinv.awake p hne with ht | hu | ⟨i, hi⟩
    · exact Or.inl ht
    · exact Or.inr (Or.inl hu)
    · -- the phases in which a worker attends to the queue, one by one
      cases hw : a.workers i with
      | waiting =>
        rw [hw] at hi
        exact hi.elim
      | received q =>
        rw [hw] at hi
        cases hi
        exact Or.inr (Or.inr (Or.inl ⟨i, Or.inl hw⟩))
      | claiming q =>
        rw [hw] at hi
        cases hi
        exact Or.inr (Or.inr (Or.inl ⟨i, Or.inr hw⟩))
      | working q batch =>
        rw [hw] at hi
        exact Or.inr (Or.inr (Or.inr (Or.inl ⟨i, Or.inl (hw ▸ hi)⟩)))
      | worked q =>
        rw [hw] at hi
        exact Or.inr (Or.inr (Or.inr (Or.inl ⟨i, Or.inl (hw ▸ hi)⟩)))
      | released q =>
        rw [hw] at hi
        cases hi
        exact Or.inr (Or.inr (Or.inr (Or.inl ⟨i, Or.inr hw⟩)))
      | resending q =>
        rw [hw] at hi
        cases hi
        exact Or.inr (Or.inr (Or.inr (Or.inr ⟨i, hw⟩)))

end

/-- A worker takes the first records of its queue. -/
theorem run_dequeue {s : WalPool} {i : ℕ} {p : Bytes} {wr : PerPrefixWriter}
    {taken batch rest : List WalRecord} (hi : s.workers i = .working p taken)
    (hw : s.manager.writers[p]? = some wr) (hq : wr.toWrite = batch ++ rest) :
    s.run (List.replicate batch.length (.dequeue i)) = some (goTo { s with
      manager := { s.manager with
        writers := s.manager.writers.insert p { wr with toWrite := rest } } } i
      (.working p (taken ++ batch))) := by
  induction batch generalizing s wr taken with
  | nil =>
    have hsame : s.manager.writers.insert p { wr with toWrite := rest } = s.manager.writers := by
      apply Std.ExtTreeMap.ext_getElem?
      intro q
      rw [getElem?_insert_bytes]
      split_ifs with hpq
      · rw [← hpq, hw, ← List.nil_append rest, ← hq]
      · rfl
    rw [hsame, List.append_nil, ← hi]
    exact congrArg some (congrArg (fun f => { s with workers := f })
      (Function.update_eq_self i s.workers).symm)
  | cons rec batch ih =>
    have hdequeue : s.manager.dequeue p = some (rec, { s.manager with
        writers := s.manager.writers.insert p { wr with toWrite := batch ++ rest } }) := by
      unfold WalManager.dequeue
      rw [hw]
      dsimp only
      rw [hq]
      rfl
    have hstep : s.step (.dequeue i) = some (goTo { s with
        manager := { s.manager with
          writers := s.manager.writers.insert p { wr with toWrite := batch ++ rest } } } i
        (.working p (taken ++ [rec]))) := by
      simp only [step, hi, hdequeue, Option.map_some]
    rw [List.length_cons, List.replicate_succ]
    change (s.step (.dequeue i)).bind _ = _
    rw [hstep, Option.bind_some]
    -- the next record comes from the queue without the first one
    have hnext := @ih (goTo { s with
        manager := { s.manager with
          writers := s.manager.writers.insert p { wr with toWrite := batch ++ rest } } } i
        (.working p (taken ++ [rec]))) { wr with toWrite := batch ++ rest } (taken ++ [rec])
      (Function.update_self ..) (by simp only [goTo, getElem?_insert_bytes, if_true]) rfl
    refine hnext.trans ?_
    have hwriters : (s.manager.writers.insert p { wr with toWrite := batch ++ rest }).insert p
        { wr with toWrite := rest } = s.manager.writers.insert p { wr with toWrite := rest } := by
      apply Std.ExtTreeMap.ext_getElem?
      intro q
      simp only [getElem?_insert_bytes]
      split_ifs <;> rfl
    simp only [goTo, hwriters, Function.update_idem, List.append_assoc, List.singleton_append]

/-- A worker that runs `write_locked` without a pause makes one step of the WAL. -/
theorem run_writeLocked {s : WalPool} {i : ℕ} {p : Bytes} {wr : PerPrefixWriter}
    (hi : s.workers i = .working p []) (hw : s.manager.writers[p]? = some wr) (ticks : ℕ) :
    ∃ acts, s.run acts =
      some (goTo { s with manager := s.manager.writeLocked p ticks none } i (.worked p)) := by
  have hsplit := takeBatch_append wr.toWrite ticks 0
  have hrun := run_dequeue hi hw hsplit.symm
  refine ⟨_, PartialRun.run_concat (a := .worker i) hrun ?_⟩
  simp only [step, goTo, Function.update_self, work, WalManager.writeBatch, getElem?_insert_bytes,
    if_true, WalManager.writeLocked, hw, Function.update_idem, List.nil_append, Option.getD_none,
    List.take_length]

/-- Two appends to one prefix: a worker takes the first record, and the second comes
while it writes. -/
def lateAppend : List PoolAction :=
  [.append [] 1 [97] (some [7]) true, .send 0, .worker 0, .worker 0, .worker 0, .dequeue 0,
    .append [] 2 [97] none true, .worker 0, .worker 0]

theorem pool_keeps_records_of_lateAppend :
    ∃ s, (start .sync []).run lateAppend = some s ∧
      s.manager.queueOf [] = [⟨2, [97], none, true⟩] ∧
      (∃ written batch, InHand s.workers [] batch ∧
        s.manager.contentsOf [] = written.flatMap WalRecord.encode ∧
        written ++ batch ++ s.manager.queueOf [] = appendedTo .sync [] lateAppend []) ∧
      (∀ i j, (s.workers i).holds [] → (s.workers j).holds [] → i = j) ∧
      (s.manager.queueOf [] ≠ [] →
        [] ∈ s.writersWithWork ∨ [] ∈ s.sending ∨
        (∃ i, s.workers i = .received [] ∨ s.workers i = .claiming []) ∨
        (∃ i, (s.workers i).holds [] ∨ s.workers i = .released []) ∨
        ∃ i, s.workers i = .resending []) := by
  have hqueue : ((start .sync []).run lateAppend).map (·.manager.queueOf []) =
      some [⟨2, [97], none, true⟩] := by decide
  obtain ⟨s, hrun, hq⟩ := Option.map_eq_some_iff.mp hqueue
  exact ⟨s, hrun, hq, pool_keeps_records hrun []⟩

end WalPool

end MemEtcd
