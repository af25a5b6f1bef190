import MemEtcd.ImportSteps
import MemEtcd.LogPrefix
import MemEtcd.PartialRun
import MemEtcd.SnapshotReplay

/-! A node whose snapshots are built while its state machine is in use. The consensus
library calls `apply` and `install_snapshot` one after the other; calls of
`build_snapshot` run beside them. A build holds the lock of the metadata for reading
while it exports, `apply` and the end of `install_snapshot` hold it for writing, and
the import of the key-values goes on without it. -/
namespace MemEtcd

open LogPrefix (after)

/-- How far a call of `build_snapshot` has come. -/
inductive BuildPhase where
  | idle
  | exporting (shard : ℕ) (kvEntries : List SnapshotEntry)
  | exported (snapData : FullSnapshotData)
  | returned (snapData : FullSnapshotData) (res : Except StorageError StoredSnapshot)

/-- How far the call of `install_snapshot` has come. -/
inductive InstallPhase where
  | idle
  | importing (snapshot : StoredSnapshot) (recovered : FullSnapshotData) (todo : List ImportStep)

/-- The import has begun and the metadata is still to be updated. -/
def InstallPhase.begun : InstallPhase → Bool
  | .idle => false
  | .importing _ recovered todo => todo.length < (Store.importSteps recovered.kvEntries).length

/-- The live entries in one shard of `tree_map`. -/
def Store.exportShard {shards : ℕ} (shardOf : Bytes → Fin shards) (s : Store) (n : ℕ) :
    List SnapshotEntry :=
  s.exportSnapshotData.filter (fun e => (shardOf e.key).val = n)

/-- The live entries in the first shards of `tree_map`. -/
def Store.exportShards {shards : ℕ} (shardOf : Bytes → Fin shards) (s : Store) (n : ℕ) :
    List SnapshotEntry :=
  s.exportSnapshotData.filter (fun e => (shardOf e.key).val < n)

/-- The second half of `build_snapshot`, without the lock. -/
def StateMachineStore.publishSnapshot (toVec : FullSnapshotData → Except String Bytes)
    (m : StateMachineStore) (snapData : FullSnapshotData) :
    StateMachineStore × Except StorageError StoredSnapshot :=
  match toVec snapData with
  | .error e => (m, .error ⟨.write, e⟩)
  | .ok data =>
    let snapshotIdx := m.snapshotIdx + 1
    let snapshotId := match snapData.lastAppliedLog with
      | some last => s!"T{last.leaderId.term}-N{last.leaderId.nodeId}-{last.index}-{snapshotIdx}"
      | none => s!"--{snapshotIdx}"
    let snapshot := ⟨⟨snapData.lastAppliedLog, snapData.lastMembership, snapshotId⟩, data⟩
    ({ m with snapshotIdx := snapshotIdx, currentSnapshot := some snapshot }, .ok snapshot)

/-- A snapshot that can be encoded replaces the one that is there. -/
theorem StateMachineStore.publishSnapshot_cases (toVec : FullSnapshotData → Except String Bytes)
    (m : StateMachineStore) (snapData : FullSnapshotData) :
    (∃ e, toVec snapData = .error e ∧
      m.publishSnapshot toVec snapData = (m, .error ⟨.write, e⟩)) ∨
    ∃ snapshot : StoredSnapshot, toVec snapData = .ok snapshot.data ∧
      snapshot.snapshotMeta.lastLogId = snapData.lastAppliedLog ∧
      m.publishSnapshot toVec snapData = ({ m with
        snapshotIdx := m.snapshotIdx + 1
        currentSnapshot := some snapshot }, .ok snapshot) := by
  unfold publishSnapshot
  cases toVec snapData with
  | error e => exact Or.inl ⟨e, rfl, rfl⟩
  | ok data => exact Or.inr ⟨_, rfl, rfl, rfl⟩

/-- A node with its calls of `build_snapshot`; `readers` are those that hold the lock
of the metadata. -/
structure SnapshotNode where
  machine : StateMachineStore
  readers : Finset ℕ
  builders : ℕ → BuildPhase
  install : InstallPhase

/-- `apply` of the next `n` entries, the steps of an installation, and those of the
`i`-th build, which visits the shards of `tree_map` one after the other and the entries
of a shard in any order. -/
inductive SnapshotAction where
  | apply (n : ℕ)
  | receive (snapshot : StoredSnapshot)
  | importStep
  | finish
  | lock (i : ℕ)
  | visit (i : ℕ) (kvEntries : List SnapshotEntry)
  | release (i : ℕ)
  | publish (i : ℕ)
  deriving DecidableEq, Repr

namespace SnapshotNode

def init (m : StateMachineStore) : SnapshotNode := ⟨m, ∅, fun _ => .idle, .idle⟩

section
variable (toVec : FullSnapshotData → Except String Bytes)
  (fromSlice : Bytes → Except String FullSnapshotData) (log : List Entry) {shards : ℕ}
  (shardOf : Bytes → Fin shards)

def step (st : SnapshotNode) : SnapshotAction → Option SnapshotNode
  | .apply n =>
    match st.install with
    | .idle =>
      if st.readers = ∅ then
        let entries := (after Entry.logId log st.machine.sm.lastAppliedLog).take n
        some { st with machine := (st.machine.apply entries).1 }
      else none
    | _ => none
  | .receive snapshot =>
    match st.install with
    | .idle =>
      match fromSlice snapshot.data with
      | .error _ => some st
      | .ok recovered => some { st with
          install := .importing snapshot recovered (Store.importSteps recovered.kvEntries) }
    | _ => none
  | .importStep =>
    match st.install with
    | .importing snapshot recovered (step :: todo) => some { st with
        machine := { st.machine with store := st.machine.store.importStep step }
        install := .importing snapshot recovered todo }
    | _ => none
  | .finish =>
    match st.install with
    | .importing snapshot recovered [] =>
      if st.readers = ∅ then some { st with
        machine := { st.machine with
          sm := ⟨recovered.lastAppliedLog, recovered.lastMembership⟩
          currentSnapshot := some snapshot }
        install := .idle }
      else none
    | _ => none
  | .lock i =>
    match st.builders i with
    | .idle => some { st with
        readers := insert i st.readers
        builders := Function.update st.builders i (.exporting 0 []) }
    | _ => none
  | .visit i kvEntries =>
    match st.builders i with
    | .exporting n acc =>
      if n < shards ∧ kvEntries.Perm (st.machine.store.exportShard shardOf n) then some { st with
        builders := Function.update st.builders i (.exporting (n + 1) (acc ++ kvEntries)) }
      else none
    | _ => none
  | .release i =>
    match st.builders i with
    | .exporting n acc =>
      if n = shards then some { st with
        readers := st.readers.erase i
        builders := Function.update st.builders i (.exported (st.machine.fullSnapshotData acc)) }
      else none
    | _ => none
  | .publish i =>
    match st.builders i with
    | .exported snapData =>
      let (m, res) := st.machine.publishSnapshot toVec snapData
      some { st with
        machine := m
        builders := Function.update st.builders i (.returned snapData res) }
    | _ => none

def run (st : SnapshotNode) (trace : List SnapshotAction) : Option SnapshotNode :=
  PartialRun.run (step toVec fromSlice log shardOf) st trace

end

/-! ### The steps -/

section
variable {toVec : FullSnapshotData → Except String Bytes}
  {fromSlice : Bytes → Except String FullSnapshotData} {log : List Entry} {shards : ℕ}
  {shardOf : Bytes → Fin shards} {st st' : SnapshotNode}

theorem step_apply {n : ℕ} (h : st.step toVec fromSlice log shardOf (.apply n) = some st') :
    st.install = .idle ∧ st.readers = ∅ ∧ st' = { st with machine := (st.machine.apply
      ((after Entry.logId log st.machine.sm.lastAppliedLog).take n)).1 } := by
  simp only [step] at h
  split at h
  · split_ifs at h with hr
    exact ⟨‹_›, hr, (Option.some.inj h).symm⟩
  · contradiction

theorem step_receive {snapshot : StoredSnapshot}
    (h : st.step toVec fromSlice log shardOf (.receive snapshot) = some st') :
    st.install = .idle ∧ (st' = st ∨ ∃ recovered, fromSlice snapshot.data = .ok recovered ∧
      st' = { st with
        install := .importing snapshot recovered (Store.importSteps recovered.kvEntries) }) := by
  simp only [step] at h
  split at h
  · rename_i hidle
    refine ⟨hidle, ?_⟩
    split at h
    · exact Or.inl (Option.some.inj h).symm
    · rename_i recovered hdecode
      exact Or.inr ⟨recovered, hdecode, (Option.some.inj h).symm⟩
  · contradiction

theorem step_importStep (h : st.step toVec fromSlice log shardOf .importStep = some st') :
    ∃ snapshot recovered next todo, st.install = .importing snapshot recovered (next :: todo) ∧
      st' = { st with
        machine := { st.machine with store := st.machine.store.importStep next }
        install := .importing snapshot recovered todo } := by
  simp only [step] at h
  split at h
  · exact ⟨_, _, _, _, ‹_›, (Option.some.inj h).symm⟩
  · contradiction

theorem step_finish (h : st.step toVec fromSlice log shardOf .finish = some st') :
    ∃ snapshot recovered, st.install = .importing snapshot recovered [] ∧ st.readers = ∅ ∧
      st' = { st with
        machine := { st.machine with
          sm := ⟨recovered.lastAppliedLog, recovered.lastMembership⟩
          currentSnapshot := some snapshot }
        install := .idle } := by
  simp only [step] at h
  split at h
  · split_ifs at h with hr
    exact ⟨_, _, ‹_›, hr, (Option.some.inj h).symm⟩
  · contradiction

theorem step_lock {i : ℕ} (h : st.step toVec fromSlice log shardOf (.lock i) = some st') :
    st.builders i = .idle ∧ st' = { st with
      readers := insert i st.readers
      builders := Function.update st.builders i (.exporting 0 []) } := by
  simp only [step] at h
  split at h
  · exact ⟨‹_›, (Option.some.inj h).symm⟩
  · contradiction

theorem step_visit {i : ℕ} {kvEntries : List SnapshotEntry}
    (h : st.step toVec fromSlice log shardOf (.visit i kvEntries) = some st') :
    ∃ n acc, st.builders i = .exporting n acc ∧ n < shards ∧
      kvEntries.Perm (st.machine.store.exportShard shardOf n) ∧ st' = { st with
        builders := Function.update st.builders i (.exporting (n + 1) (acc ++ kvEntries)) } := by
  simp only [step] at h
  split at h
  · split_ifs at h with hv
    exact ⟨_, _, ‹_›, hv.1, hv.2, (Option.some.inj h).symm⟩
  · contradiction

theorem step_release {i : ℕ} (h : st.step toVec fromSlice log shardOf (.release i) = some st') :
    ∃ acc, st.builders i = .exporting shards acc ∧ st' = { st with
      readers := st.readers.erase i
      builders :=
        Function.update st.builders i (.exported (st.machine.fullSnapshotData acc)) } := by
  simp only [step] at h
  split at h
  · split_ifs at h with hn
    subst hn
    exact ⟨_, ‹_›, (Option.some.inj h).symm⟩
  · contradiction

theorem step_publish {i : ℕ} (h : st.step toVec fromSlice log shardOf (.publish i) = some st') :
    ∃ snapData, st.builders i = .exported snapData ∧ st' = { st with
      machine := (st.machine.publishSnapshot toVec snapData).1
      builders := Function.update st.builders i
        (.returned snapData (st.machine.publishSnapshot toVec snapData).2) } := by
  simp only [step] at h
  split at h
  · exact ⟨_, ‹_›, (Option.some.inj h).symm⟩
  · contradiction

end

end SnapshotNode

/-! ### The calls on their own -/

section
variable {toVec : FullSnapshotData → Except String Bytes}
  {fromSlice : Bytes → Except String FullSnapshotData} {log : List Entry} {shards : ℕ}
  {shardOf : Bytes → Fin shards}

theorem Store.exportShards_succ (s : Store) (n : ℕ) :
    (s.exportShards shardOf n ++ s.exportShard shardOf n).Perm (s.exportShards shardOf (n + 1)) := by
  unfold exportShards exportShard
  have hlow : s.exportSnapshotData.filter (fun e => (shardOf e.key).val < n) =
      (s.exportSnapshotData.filter (fun e => (shardOf e.key).val < n + 1)).filter
        (fun e => (shardOf e.key).val < n) := by
    rw [List.filter_filter]
    congr 1
    funext e
    by_cases h : (shardOf e.key).val < n
    · simp [h, Nat.lt_succ_of_lt h]
    · simp [h]
  have htop : s.exportSnapshotData.filter (fun e => (shardOf e.key).val = n) =
      (s.exportSnapshotData.filter (fun e => (shardOf e.key).val < n + 1)).filter
        (fun e => !((shardOf e.key).val < n : Bool)) := by
    rw [List.filter_filter]
    congr 1
    funext e
    by_cases h : (shardOf e.key).val = n
    · simp [h]
    · by_cases hlt : (shardOf e.key).val < n
      · simp [h, hlt]
      · have hge : ¬(shardOf e.key).val < n + 1 := by omega
        simp [h, hge]
  rw [hlow, htop]
  exact List.filter_append_perm _ _

theorem Store.exportShards_all (s : Store) : s.exportShards shardOf shards = s.exportSnapshotData := by
  unfold exportShards
  apply List.filter_eq_self.mpr
  intro e _
  exact decide_eq_true (shardOf e.key).isLt

namespace SnapshotNode

theorem run_visits {st : SnapshotNode} {i : ℕ} (h : st.builders i = .exporting 0 []) {n : ℕ}
    (hn : n ≤ shards) : ∃ trace acc, acc.Perm (st.machine.store.exportShards shardOf n) ∧
      st.run toVec fromSlice log shardOf trace =
        some { st with builders := Function.update st.builders i (.exporting n acc) } := by
  induction n with
  | zero =>
    refine ⟨[], [], ?_, ?_⟩
    · unfold Store.exportShards
      rw [List.filter_eq_nil_iff.mpr (by simp)]
    · rw [← h, Function.update_eq_self]
      rfl
  | succ n ih =>
    obtain ⟨trace, acc, hacc, hrun⟩ := ih (by omega)
    refine ⟨trace ++ [.visit i (st.machine.store.exportShard shardOf n)],
      acc ++ st.machine.store.exportShard shardOf n, ?_, PartialRun.run_concat hrun ?_⟩
    · exact (hacc.append_right _).trans (st.machine.store.exportShards_succ n)
    · simp only [step, Function.update_self]
      rw [if_pos ⟨by omega, List.Perm.refl _⟩, Function.update_idem]

/-- A build that nothing comes between is `build_snapshot`. -/
theorem run_build {st : SnapshotNode} {i : ℕ} (h : st.builders i = .idle) (hi : i ∉ st.readers) :
    ∃ trace kvEntries, st.machine.store.IsExport kvEntries ∧
      st.run toVec fromSlice log shardOf trace = some { st with
        machine := (st.machine.buildSnapshot toVec kvEntries).1
        builders := Function.update st.builders i (.returned (st.machine.fullSnapshotData kvEntries)
          (st.machine.buildSnapshot toVec kvEntries).2) } := by
  let locked : SnapshotNode := { st with
    readers := insert i st.readers
    builders := Function.update st.builders i (.exporting 0 []) }
  have hlock : st.step toVec fromSlice log shardOf (.lock i) = some locked := by
    simp only [step, h]
    rfl
  obtain ⟨trace, acc, hacc, hrun⟩ : ∃ trace acc,
      acc.Perm (locked.machine.store.exportShards shardOf shards) ∧
        locked.run toVec fromSlice log shardOf trace = some { locked with
          builders := Function.update locked.builders i (.exporting shards acc) } :=
    run_visits (Function.update_self ..) (le_refl shards)
  rw [Store.exportShards_all] at hacc
  refine ⟨(.lock i :: trace) ++ [.release i] ++ [.publish i], acc, hacc, ?_⟩
  have hvisited : st.run toVec fromSlice log shardOf (.lock i :: trace) = some { locked with
      builders := Function.update locked.builders i (.exporting shards acc) } := by
    change (st.step toVec fromSlice log shardOf (.lock i)).bind _ = _
    rw [hlock, Option.bind_some]
    exact hrun
  have hreleased : st.run toVec fromSlice log shardOf ((.lock i :: trace) ++ [.release i]) =
      some { st with builders :=
        Function.update st.builders i (.exported (st.machine.fullSnapshotData acc)) } := by
    refine PartialRun.run_concat hvisited ?_
    simp only [step, Function.update_self, Function.update_idem, locked, if_true]
    rw [Finset.erase_insert hi]
  refine PartialRun.run_concat hreleased ?_
  simp only [step, Function.update_self, Function.update_idem]
  rfl

theorem run_importSteps {st : SnapshotNode} {snapshot : StoredSnapshot}
    {recovered : FullSnapshotData} {todo : List ImportStep}
    (h : st.install = .importing snapshot recovered todo) :
    st.run toVec fromSlice log shardOf (List.replicate todo.length .importStep) = some { st with
      machine := { st.machine with store := todo.foldl Store.importStep st.machine.store }
      install := .importing snapshot recovered [] } := by
  induction todo generalizing st with
  | nil =>
    rw [← h]
    rfl
  | cons next todo ih =>
    rw [List.length_cons, List.replicate_succ]
    change (st.step toVec fromSlice log shardOf .importStep).bind _ = _
    simp only [step, h, Option.bind_some]
    exact ih rfl

/-- An installation that nothing comes between is `install_snapshot`. -/
theorem run_install {st : SnapshotNode} {snapshot : StoredSnapshot} {recovered : FullSnapshotData}
    (h : st.install = .idle) (hr : st.readers = ∅) (hd : fromSlice snapshot.data = .ok recovered) :
    st.run toVec fromSlice log shardOf ((.receive snapshot ::
        List.replicate (Store.importSteps recovered.kvEntries).length .importStep) ++ [.finish]) =
      some { st with machine := (st.machine.installSnapshot fromSlice snapshot).1 } := by
  have himported : st.run toVec fromSlice log shardOf (.receive snapshot ::
      List.replicate (Store.importSteps recovered.kvEntries).length .importStep) = some { st with
        machine := { st.machine with
          store := st.machine.store.importSnapshotData recovered.kvEntries }
        install := .importing snapshot recovered [] } := by
    change (st.step toVec fromSlice log shardOf (.receive snapshot)).bind _ = _
    simp only [step, h, hd, Option.bind_some]
    refine (run_importSteps rfl).trans ?_
    rw [← Store.importing_done _ (le_refl _)]
    unfold Store.importing
    rw [List.take_length]
  refine PartialRun.run_concat himported ?_
  simp only [step, hr, if_true]
  unfold StateMachineStore.installSnapshot
  simp only [hd, h]

end SnapshotNode

end

/-! ### A schedule -/

def BuildPhase.outcome : BuildPhase → Option (FullSnapshotData × Option LogId)
  | .returned snapData (.ok snapshot) => some (snapData, snapshot.snapshotMeta.lastLogId)
  | _ => none

theorem BuildPhase.outcome_eq {phase : BuildPhase} {snapData : FullSnapshotData}
    {last : Option LogId} (h : phase.outcome = some (snapData, last)) :
    ∃ snapshot, phase = .returned snapData (.ok snapshot) ∧
      snapshot.snapshotMeta.lastLogId = last := by
  unfold BuildPhase.outcome at h
  split at h
  · rename_i d snapshot
    cases h
    exact ⟨snapshot, rfl, rfl⟩
  · contradiction

namespace SnapshotNode

open StateMachineStore (setEntry oneKeyData)

/-- The log sets `a` and then `b`. -/
def shortLog : List Entry := [setEntry 1 [97] [1], setEntry 2 [98] [2]]

def bothKeysData : FullSnapshotData :=
  ⟨some ⟨⟨1, 1⟩, 2⟩, ⟨none, ⟨[], []⟩⟩, [⟨[97], [1], 1, 1, 1⟩, ⟨[98], [2], 2, 2, 1⟩]⟩

def bothKeysJson : String :=
  "\x7b\"last_applied_log\":\x7b\"leader_id\":\x7b\"term\":1,\"node_id\":1\x7d,\"index\":2\x7d," ++
  "\"last_membership\":\x7b\"log_id\":null,\"membership\":\x7b\"configs\":[],\"nodes\":\x7b\x7d\x7d\x7d," ++
  "\"kv_entries\":[[[97],[1],1,1,1],[[98],[2],2,2,1]]\x7d"

def bothKeysSnapshot : StoredSnapshot :=
  ⟨⟨some ⟨⟨1, 1⟩, 2⟩, ⟨none, ⟨[], []⟩⟩, "T1-N1-2-1"⟩, utf8Bytes bothKeysJson.toList⟩

/-- A build has exported before an import begins, and stores its snapshot after the
installation. -/
def earlyExport : List SnapshotAction :=
  [.apply 1, .lock 0, .receive bothKeysSnapshot, .visit 0 oneKeyData.kvEntries, .release 0,
    .importStep, .importStep, .importStep, .importStep, .importStep, .importStep, .importStep,
    .finish, .publish 0]

end SnapshotNode

end MemEtcd
