import MemEtcd.SnapshotCut

/-! The stored snapshot over time. A build reads the position in the log while it holds
the lock of the metadata and stores its snapshot later, without looking at the one that
is there. -/
namespace MemEtcd

open LogPrefix (after advance)

/-- The order of log ids: by term, node and index. -/
def LogId.rank (id : LogId) : ℕ ×ₗ ℕ ×ₗ ℕ :=
  toLex (id.leaderId.term, toLex (id.leaderId.nodeId, id.index))

/-- The order of optional log ids, `None` being the least. -/
def lastRank (last : Option LogId) : WithBot (ℕ ×ₗ ℕ ×ₗ ℕ) := last.map LogId.rank

/-- The last log id of the snapshot that `get_current_snapshot` returns. -/
def StateMachineStore.storedLogId (m : StateMachineStore) : Option LogId :=
  m.currentSnapshot.bind (·.snapshotMeta.lastLogId)

theorem StateMachineStore.apply_currentSnapshot (m : StateMachineStore) (es : List Entry) :
    (m.apply es).1.currentSnapshot = m.currentSnapshot := by
  induction es generalizing m with
  | nil => rfl
  | cons e es ih =>
    have hentry : (m.applyEntry e).1.currentSnapshot = m.currentSnapshot := by
      unfold applyEntry
      cases e.payload <;> rfl
    rw [apply_cons, ← hentry]
    exact ih _

/-- The next entries of the log only move forward. -/
theorem lastRank_advance {log : List Entry}
    (hlog : log.Pairwise (fun a b => a.logId.rank < b.logId.rank)) (last : Option LogId) (n : ℕ) :
    lastRank last ≤ lastRank (advance Entry.logId last ((after Entry.logId log last).take n)) := by
  rcases List.eq_nil_or_concat' ((after Entry.logId log last).take n) with hnil | ⟨batch, e, hbatch⟩
  · rw [hnil]
    exact le_refl _
  · have hadvance : advance Entry.logId last (batch ++ [e]) = some e.logId := by
      unfold advance
      rw [List.getLast?_concat]
      rfl
    rw [hbatch, hadvance]
    cases last with
    | none => exact bot_le
    | some id =>
      have hmem : e ∈ after Entry.logId log (some id) := by
        apply List.mem_of_mem_take
        rw [hbatch]
        exact List.mem_append_right _ List.mem_cons_self
      exact WithBot.coe_le_coe.mpr (LogPrefix.rank_lt_of_mem_after hlog hmem).le

namespace SnapshotNode

def storedRank (st : SnapshotNode) : WithBot (ℕ ×ₗ ℕ ×ₗ ℕ) := lastRank st.machine.storedLogId

def appliedRank (st : SnapshotNode) : WithBot (ℕ ×ₗ ℕ ×ₗ ℕ) :=
  lastRank st.machine.sm.lastAppliedLog

def Forward (st : SnapshotNode) : InstallPhase → Prop
  | .idle => True
  | .importing snapshot recovered _ =>
    snapshot.snapshotMeta.lastLogId = recovered.lastAppliedLog ∧
      st.appliedRank ≤ lastRank recovered.lastAppliedLog

/-- Neither the stored snapshot nor one that is to be stored is ahead of the node. -/
structure Ordered (st : SnapshotNode) : Prop where
  stored : st.storedRank ≤ st.appliedRank
  install : Forward st st.install
  exported : ∀ i snapData, st.builders i = .exported snapData →
    lastRank snapData.lastAppliedLog ≤ st.appliedRank

section
variable {toVec : FullSnapshotData → Except String Bytes}
  {fromSlice : Bytes → Except String FullSnapshotData} {s : Store} {log : List Entry} {shards : ℕ}
  {shardOf : Bytes → Fin shards} {st st' : SnapshotNode}

theorem init_ordered (s : Store) : Ordered (init (StateMachineStore.new s)) :=
  ⟨le_refl _, trivial, fun _ _ h => nomatch h⟩

/-- Only the phase of one build changes. -/
theorem Ordered.build (h : Ordered st) {i : ℕ} {phase : BuildPhase}
    (hinstall : st'.install = st.install) (happlied : st'.appliedRank = st.appliedRank)
    (hbuilders : st'.builders = Function.update st.builders i phase)
    (hstored : st'.storedRank ≤ st'.appliedRank)
    (hphase : ∀ snapData, phase = .exported snapData →
      lastRank snapData.lastAppliedLog ≤ st.appliedRank) : Ordered st' := by
  refine ⟨hstored, ?_, ?_⟩
  · rw [hinstall]
    have hforward := h.install
    cases hi : st.install with
    | idle => trivial
    | importing snapshot recovered todo =>
      rw [hi] at hforward
      exact ⟨hforward.1, happlied ▸ hforward.2⟩
  · intro j snapData hj
    rw [happlied]
    rw [hbuilders] at hj
    by_cases hji : j = i
    · rw [hji, Function.update_self] at hj
      exact hphase snapData hj
    · rw [Function.update_of_ne hji] at hj
      exact h.exported j snapData hj

/-- Only an installation and a build store a snapshot. -/
theorem storedRank_step {a : SnapshotAction} (hstep : st.step toVec fromSlice log shardOf a = some st')
    (hfinish : a ≠ .finish) (hpublish : ∀ i, a ≠ .publish i) : st'.storedRank = st.storedRank := by
  cases a with
  | apply n =>
    obtain ⟨-, -, rfl⟩ := step_apply hstep
    unfold storedRank StateMachineStore.storedLogId
    dsimp only
    rw [StateMachineStore.apply_currentSnapshot]
  | receive snapshot =>
    obtain ⟨-, rfl | ⟨recovered, -, rfl⟩⟩ := step_receive hstep
    · rfl
    · rfl
  | importStep =>
    obtain ⟨snapshot, recovered, next, todo, -, rfl⟩ := step_importStep hstep
    rfl
  | finish => exact absurd rfl hfinish
  | lock i =>
    obtain ⟨-, rfl⟩ := step_lock hstep
    rfl
  | visit i kvEntries =>
    obtain ⟨n, acc, -, -, -, rfl⟩ := step_visit hstep
    rfl
  | release i =>
    obtain ⟨acc, -, rfl⟩ := step_release hstep
    rfl
  | publish i => exact absurd rfl (hpublish i)

theorem Ordered.step (h : Ordered st)
    (hlog : log.Pairwise (fun a b => a.logId.rank < b.logId.rank)) {a : SnapshotAction}
    (hnewer : ∀ snapshot, a = .receive snapshot → ∀ recovered,
      fromSlice snapshot.data = .ok recovered →
        snapshot.snapshotMeta.lastLogId = recovered.lastAppliedLog ∧
          st.appliedRank ≤ lastRank recovered.lastAppliedLog)
    (hstep : st.step toVec fromSlice log shardOf a = some st') : Ordered st' := by
  cases a with
  | apply n =>
    have hstored := storedRank_step hstep nofun nofun
    obtain ⟨hidle, -, rfl⟩ := step_apply hstep
    have hforward := lastRank_advance hlog st.machine.sm.lastAppliedLog n
    rw [← StateMachineStore.apply_lastAppliedLog] at hforward
    refine ⟨?_, ?_, ?_⟩
    · rw [hstored]
      exact h.stored.trans hforward
    · dsimp only
      rw [hidle]
      trivial
    · intro i snapData hi
      exact (h.exported i snapData hi).trans hforward
  | receive snapshot =>
    obtain ⟨hidle, rfl | ⟨recovered, hd, rfl⟩⟩ := step_receive hstep
    · exact h
    · exact ⟨h.stored, hnewer snapshot rfl recovered hd, h.exported⟩
  | importStep =>
    obtain ⟨snapshot, recovered, next, todo, hi, rfl⟩ := step_importStep hstep
    have hforward := h.install
    rw [hi] at hforward
    exact ⟨h.stored, hforward, h.exported⟩
  | finish =>
    obtain ⟨snapshot, recovered, hi, -, rfl⟩ := step_finish hstep
    have hforward := h.install
    rw [hi] at hforward
    obtain ⟨hmeta, hle⟩ := hforward
    refine ⟨?_, trivial, ?_⟩
    · change lastRank snapshot.snapshotMeta.lastLogId ≤ lastRank recovered.lastAppliedLog
      rw [hmeta]
    · intro i snapData hexp
      exact (h.exported i snapData hexp).trans hle
  | lock i =>
    obtain ⟨-, rfl⟩ := step_lock hstep
    exact h.build rfl rfl rfl h.stored (fun _ he => nomatch he)
  | visit i kvEntries =>
    obtain ⟨n, acc, -, -, -, rfl⟩ := step_visit hstep
    exact h.build rfl rfl rfl h.stored (fun _ he => nomatch he)
  | release i =>
    obtain ⟨acc, -, rfl⟩ := step_release hstep
    refine h.build rfl rfl rfl h.stored ?_
    rintro snapData ⟨⟩
    exact le_refl _
  | publish i =>
    obtain ⟨snapData, hi, rfl⟩ := step_publish hstep
    rcases st.machine.publishSnapshot_cases toVec snapData with
      ⟨e, -, heq⟩ | ⟨snapshot, -, hlast, heq⟩
    · rw [heq]
      exact h.build rfl rfl rfl h.stored (fun _ he => nomatch he)
    · rw [heq]
      refine h.build rfl rfl rfl ?_ (fun _ he => nomatch he)
      change lastRank snapshot.snapshotMeta.lastLogId ≤ st.appliedRank
      rw [hlast]
      exact h.exported i snapData hi

/-- Apart from a build that stores its snapshot, no step goes back. -/
theorem Ordered.stored_step (h : Ordered st) {a : SnapshotAction}
    (hstep : st.step toVec fromSlice log shardOf a = some st') (ha : ∀ i, a ≠ .publish i) :
    st.storedRank ≤ st'.storedRank := by
  by_cases hfinish : a = .finish
  · subst hfinish
    obtain ⟨snapshot, recovered, hi, -, rfl⟩ := step_finish hstep
    have hforward := h.install
    rw [hi] at hforward
    obtain ⟨hmeta, hle⟩ := hforward
    change st.storedRank ≤ lastRank snapshot.snapshotMeta.lastLogId
    rw [hmeta]
    exact h.stored.trans hle
  · exact (storedRank_step hstep hfinish ha).ge

end

/-! ### Runs -/

section
variable (toVec : FullSnapshotData → Except String Bytes)
  (fromSlice : Bytes → Except String FullSnapshotData) (log : List Entry) {shards : ℕ}
  (shardOf : Bytes → Fin shards) (st : SnapshotNode) (trace : List SnapshotAction)

/-- Every snapshot that is received is that of its metadata and not behind the node. -/
def ReceivesNewer : Prop :=
  ∀ past snapshot rest mid recovered, trace = past ++ .receive snapshot :: rest →
    st.run toVec fromSlice log shardOf past = some mid →
    fromSlice snapshot.data = .ok recovered →
      snapshot.snapshotMeta.lastLogId = recovered.lastAppliedLog ∧
        mid.appliedRank ≤ lastRank recovered.lastAppliedLog

def NeverGoesBack : Prop :=
  ∀ past later rest mid mid', trace = past ++ later ++ rest →
    st.run toVec fromSlice log shardOf past = some mid →
    st.run toVec fromSlice log shardOf (past ++ later) = some mid' →
      mid.storedRank ≤ mid'.storedRank

/-- A build stores its snapshot only where the stored one is not newer. -/
def StoresNewer : Prop :=
  ∀ past i rest mid snapData, trace = past ++ .publish i :: rest →
    st.run toVec fromSlice log shardOf past = some mid → mid.builders i = .exported snapData →
    (toVec snapData).isOk → mid.storedRank ≤ lastRank snapData.lastAppliedLog

end

def nextRunning (running : Finset ℕ) : SnapshotAction → Finset ℕ
  | .lock i => insert i running
  | .publish i => running.erase i
  | _ => running

def storesAlone (running : Finset ℕ) : SnapshotAction → Bool
  | .finish => running = ∅
  | .publish i => running ⊆ {i}
  | _ => true

def undisturbed : Finset ℕ → List SnapshotAction → Bool
  | _, [] => true
  | running, a :: rest => storesAlone running a && undisturbed (nextRunning running a) rest

/-- The builds under way have seen what is stored. -/
def SeenBy (running : Finset ℕ) (st : SnapshotNode) (i : ℕ) : BuildPhase → Prop
  | .exporting _ _ => i ∈ running
  | .exported snapData => i ∈ running ∧ st.storedRank ≤ lastRank snapData.lastAppliedLog
  | _ => True

section
variable {toVec : FullSnapshotData → Except String Bytes}
  {fromSlice : Bytes → Except String FullSnapshotData} {s : Store} {log : List Entry} {shards : ℕ}
  {shardOf : Bytes → Fin shards} {st st' : SnapshotNode} {trace : List SnapshotAction}
  {running : Finset ℕ}

theorem ReceivesNewer.tail {a : SnapshotAction}
    (h : ReceivesNewer toVec fromSlice log shardOf st (a :: trace))
    (hstep : st.step toVec fromSlice log shardOf a = some st') :
    ReceivesNewer toVec fromSlice log shardOf st' trace := by
  intro past snapshot rest mid recovered hsplit hmid
  apply h (a :: past) snapshot rest mid recovered
  · rw [hsplit]
    rfl
  · change (st.step toVec fromSlice log shardOf a).bind _ = some mid
    rw [hstep]
    exact hmid

theorem Ordered.head (h : Ordered st)
    (hlog : log.Pairwise (fun a b => a.logId.rank < b.logId.rank)) {a : SnapshotAction}
    (hnewer : ReceivesNewer toVec fromSlice log shardOf st (a :: trace))
    (hstep : st.step toVec fromSlice log shardOf a = some st') : Ordered st' := by
  apply h.step hlog _ hstep
  rintro snapshot rfl recovered hd
  exact hnewer [] snapshot trace st recovered rfl rfl hd

theorem Ordered.run (h : Ordered st)
    (hlog : log.Pairwise (fun a b => a.logId.rank < b.logId.rank))
    {past rest : List SnapshotAction}
    (hnewer : ReceivesNewer toVec fromSlice log shardOf st (past ++ rest))
    (hrun : st.run toVec fromSlice log shardOf past = some st') : Ordered st' := by
  induction past generalizing st with
  | nil =>
    cases hrun
    exact h
  | cons a past ih =>
    obtain ⟨next, hnext, hrest⟩ := Option.bind_eq_some_iff.mp hrun
    exact ih (h.head hlog hnewer hnext) (hnewer.tail hnext) hrest

theorem SeenBy.frame {running' : Finset ℕ} {i : ℕ} {phase : BuildPhase}
    (h : SeenBy running st i phase) (hr : i ∈ running → i ∈ running')
    (hstored : st'.storedRank = st.storedRank) : SeenBy running' st' i phase := by
  cases phase with
  | exporting n acc => exact hr h
  | exported snapData => exact ⟨hr h.1, hstored.trans_le h.2⟩
  | _ => trivial

/-- A build that is not under way does not mind what is stored. -/
theorem SeenBy.of_notMem {running' : Finset ℕ} {i : ℕ} {phase : BuildPhase}
    (h : SeenBy running st i phase) (hi : i ∉ running) : SeenBy running' st' i phase := by
  cases phase with
  | exporting n acc => exact absurd h hi
  | exported snapData => exact absurd h.1 hi
  | _ => trivial

/-- The phase of one build changes. -/
theorem SeenBy.update {i j : ℕ} {phase : BuildPhase}
    (hbuilders : st'.builders = Function.update st.builders i phase)
    (hself : SeenBy running st' i phase) (hother : j ≠ i → SeenBy running st' j (st.builders j)) :
    SeenBy running st' j (st'.builders j) := by
  rw [hbuilders]
  by_cases hj : j = i
  · subst hj
    rw [Function.update_self]
    exact hself
  · rw [Function.update_of_ne hj]
    exact hother hj

theorem SeenBy.step (h : ∀ i, SeenBy running st i (st.builders i)) (ho : Ordered st)
    {a : SnapshotAction} (halone : storesAlone running a = true)
    (hstep : st.step toVec fromSlice log shardOf a = some st') (j : ℕ) :
    SeenBy (nextRunning running a) st' j (st'.builders j) := by
  cases a with
  | apply n =>
    have hstored := storedRank_step hstep nofun nofun
    obtain ⟨-, -, rfl⟩ := step_apply hstep
    exact (h j).frame id hstored
  | receive snapshot =>
    obtain ⟨-, rfl | ⟨recovered, -, rfl⟩⟩ := step_receive hstep
    · exact h j
    · exact (h j).frame id rfl
  | importStep =>
    obtain ⟨snapshot, recovered, next, todo, -, rfl⟩ := step_importStep hstep
    exact (h j).frame id rfl
  | finish =>
    -- no build is under way that could have read an older position
    obtain ⟨snapshot, recovered, -, -, rfl⟩ := step_finish hstep
    have hempty : running = ∅ := of_decide_eq_true halone
    exact (h j).of_notMem (by rw [hempty]; exact Finset.notMem_empty j)
  | lock i =>
    obtain ⟨-, rfl⟩ := step_lock hstep
    refine SeenBy.update rfl (Finset.mem_insert_self i _) (fun _ => ?_)
    exact (h j).frame (fun hm => Finset.mem_insert_of_mem hm) rfl
  | visit i kvEntries =>
    obtain ⟨n, acc, hi, -, -, rfl⟩ := step_visit hstep
    have hself := h i
    rw [hi] at hself
    exact SeenBy.update rfl hself (fun _ => (h j).frame id rfl)
  | release i =>
    obtain ⟨acc, hi, rfl⟩ := step_release hstep
    have hself := h i
    rw [hi] at hself
    -- the position is read here, and what is stored is not ahead of it
    exact SeenBy.update rfl ⟨hself, ho.stored⟩ (fun _ => (h j).frame id rfl)
  | publish i =>
    obtain ⟨snapData, -, rfl⟩ := step_publish hstep
    have honly : running ⊆ {i} := of_decide_eq_true halone
    refine SeenBy.update rfl trivial (fun hj => (h j).of_notMem ?_)
    exact fun hm => hj (Finset.mem_singleton.mp (honly hm))

/-- Undisturbed builds store newer snapshots. -/
theorem storesNewer_of_undisturbed (ho : Ordered st)
    (h : ∀ i, SeenBy running st i (st.builders i))
    (hlog : log.Pairwise (fun a b => a.logId.rank < b.logId.rank))
    (hnewer : ReceivesNewer toVec fromSlice log shardOf st trace)
    (hu : undisturbed running trace = true) :
    StoresNewer toVec fromSlice log shardOf st trace := by
  induction trace generalizing st running with
  | nil =>
    intro past i rest mid snapData hsplit
    exact absurd hsplit.symm (by simp)
  | cons a trace ih =>
    obtain ⟨halone, hrest⟩ := Bool.and_eq_true_iff.mp hu
    intro past i rest mid snapData hsplit hmid hexp hok
    cases past with
    | nil =>
      cases hmid
      have hi := h i
      rw [hexp] at hi
      exact hi.2
    | cons b past =>
      obtain ⟨rfl, hlist⟩ := List.cons_eq_cons.mp hsplit
      obtain ⟨next, hnext, hlater⟩ := Option.bind_eq_some_iff.mp hmid
      exact ih (ho.head hlog hnewer hnext) (SeenBy.step h ho halone hnext) (hnewer.tail hnext)
        hrest past i rest mid snapData hlist hlater hexp hok

theorem neverGoesBack_iff (ho : Ordered st)
    (hlog : log.Pairwise (fun a b => a.logId.rank < b.logId.rank))
    (hnewer : ReceivesNewer toVec fromSlice log shardOf st trace) :
    NeverGoesBack toVec fromSlice log shardOf st trace ↔
      StoresNewer toVec fromSlice log shardOf st trace := by
  have hpublish {mid : SnapshotNode} {i : ℕ} {snapData : FullSnapshotData}
      (hi : mid.builders i = .exported snapData) :
      ∃ mid', mid.step toVec fromSlice log shardOf (.publish i) = some mid' ∧
        mid'.storedRank = if (toVec snapData).isOk then lastRank snapData.lastAppliedLog
          else mid.storedRank := by
    refine ⟨{ mid with
      machine := (mid.machine.publishSnapshot toVec snapData).1
      builders := Function.update mid.builders i
        (.returned snapData (mid.machine.publishSnapshot toVec snapData).2) }, ?_, ?_⟩
    · simp only [step, hi]
    rcases mid.machine.publishSnapshot_cases toVec snapData with
      ⟨e, hto, heq⟩ | ⟨snapshot, hto, hlast, heq⟩
    · rw [heq, hto]
      rfl
    · rw [heq, hto]
      exact congrArg lastRank hlast
  constructor
  · intro hback past i rest mid snapData hsplit hmid hi hok
    obtain ⟨mid', hstep, hstored⟩ := hpublish hi
    rw [if_pos hok] at hstored
    rw [← hstored]
    apply hback past [.publish i] rest mid mid' _ hmid (PartialRun.run_concat hmid hstep)
    rw [hsplit, List.append_assoc]
    rfl
  · intro hstores past later rest mid mid' hsplit hmid hlater
    apply PartialRun.run_mono (f := storedRank) _ hsplit hmid hlater
    intro past a rest mid next htrace hpast hstep
    -- a build that stores is the only step that could go back
    by_cases ha : ∃ i, a = .publish i
    · obtain ⟨i, rfl⟩ := ha
      obtain ⟨snapData, hi, -⟩ := step_publish hstep
      obtain ⟨mid', hstep', hstored⟩ := hpublish hi
      rw [hstep] at hstep'
      cases hstep'
      rw [hstored]
      split_ifs with hok
      · exact hstores past i rest mid snapData htrace hpast hi hok
      · exact le_refl _
    · have hmid := ho.run hlog (htrace ▸ hnewer) hpast
      exact hmid.stored_step hstep (fun i hi => ha ⟨i, hi⟩)

end

/-- The stored snapshot never goes backwards exactly if no build stores one that is
older than the one that is there; and it does not if no snapshot is stored while another
build is under way. -/
theorem stored_snapshot_monotone_iff {toVec : FullSnapshotData → Except String Bytes}
    {fromSlice : Bytes → Except String FullSnapshotData} {log : List Entry}
    (hlog : log.Pairwise (fun a b => a.logId.rank < b.logId.rank)) {shards : ℕ}
    {shardOf : Bytes → Fin shards} {s : Store} {trace : List SnapshotAction}
    (hnewer : ReceivesNewer toVec fromSlice log shardOf (init (StateMachineStore.new s)) trace) :
    (NeverGoesBack toVec fromSlice log shardOf (init (StateMachineStore.new s)) trace ↔
      StoresNewer toVec fromSlice log shardOf (init (StateMachineStore.new s)) trace) ∧
    (undisturbed ∅ trace = true →
      NeverGoesBack toVec fromSlice log shardOf (init (StateMachineStore.new s)) trace) := by
  have hiff := neverGoesBack_iff (init_ordered s) hlog hnewer
  refine ⟨hiff, ?_⟩
  intro hu
  rw [hiff]
  exact storesNewer_of_undisturbed (init_ordered s) (fun _ => trivial) hlog hnewer hu

open StateMachineStore (knownToVec knownFromSlice oneKeyData oneKeyJson)

def installThenBuild : List SnapshotAction :=
  [.receive bothKeysSnapshot, .importStep, .importStep, .importStep, .importStep, .importStep,
    .importStep, .importStep, .finish, .lock 0, .visit 0 bothKeysData.kvEntries, .release 0,
    .publish 0]

theorem stored_snapshot_monotone_of_installThenBuild :
    undisturbed ∅ installThenBuild = true ∧
      NeverGoesBack (knownToVec bothKeysData bothKeysJson) (knownFromSlice bothKeysData bothKeysJson)
        shortLog (fun _ => (0 : Fin 1)) (init (StateMachineStore.new (Store.new none)))
        installThenBuild := by
  have hu : undisturbed ∅ installThenBuild = true := by decide
  refine ⟨hu, (stored_snapshot_monotone_iff (by decide) ?_).2 hu⟩
  intro past snapshot rest mid recovered hsplit hmid hd
  cases past with
  | nil =>
    -- the snapshot comes to a node that has applied nothing
    cases hmid
    cases hsplit
    unfold knownFromSlice at hd
    split_ifs at hd
    cases hd
    exact ⟨rfl, bot_le⟩
  | cons a past =>
    have hmem : SnapshotAction.receive snapshot ∈ installThenBuild.tail := by
      rw [hsplit, List.cons_append, List.tail_cons]
      exact List.mem_append_right _ List.mem_cons_self
    simp [installThenBuild] at hmem

/-- A build has read the position of the first entry. Meanwhile a snapshot of two
entries is installed, and then the build stores its own. -/
theorem stored_snapshot_goes_back :
    ∃ mid st, (init (StateMachineStore.new (Store.new none))).run (knownToVec oneKeyData oneKeyJson)
        (knownFromSlice bothKeysData bothKeysJson) shortLog (fun _ => (0 : Fin 1))
        (earlyExport.take 13) = some mid ∧
      (init (StateMachineStore.new (Store.new none))).run (knownToVec oneKeyData oneKeyJson)
        (knownFromSlice bothKeysData bothKeysJson) shortLog (fun _ => (0 : Fin 1))
        earlyExport = some st ∧
      mid.machine.storedLogId = some ⟨⟨1, 1⟩, 2⟩ ∧ st.machine.storedLogId = some ⟨⟨1, 1⟩, 1⟩ := by
  have hmid : ((init (StateMachineStore.new (Store.new none))).run
      (knownToVec oneKeyData oneKeyJson) (knownFromSlice bothKeysData bothKeysJson) shortLog
      (fun _ => (0 : Fin 1)) (earlyExport.take 13)).map (fun st => st.machine.storedLogId) =
      some (some ⟨⟨1, 1⟩, 2⟩) := by decide +kernel
  have hst : ((init (StateMachineStore.new (Store.new none))).run
      (knownToVec oneKeyData oneKeyJson) (knownFromSlice bothKeysData bothKeysJson) shortLog
      (fun _ => (0 : Fin 1)) earlyExport).map (fun st => st.machine.storedLogId) =
      some (some ⟨⟨1, 1⟩, 1⟩) := by decide +kernel
  obtain ⟨mid, hrunMid, hlastMid⟩ := Option.map_eq_some_iff.mp hmid
  obtain ⟨st, hrun, hlast⟩ := Option.map_eq_some_iff.mp hst
  exact ⟨mid, st, hrunMid, hrun, hlastMid, hlast⟩

end SnapshotNode
end MemEtcd
