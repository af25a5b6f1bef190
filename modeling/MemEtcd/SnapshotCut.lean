import MemEtcd.SnapshotSteps

/-! What a snapshot holds, compared with the log up to the entry that its metadata
names. The values of the keys count here: a node that has installed a snapshot may
number its changes differently. -/
namespace MemEtcd

open VersionLog (Cell)
open LogPrefix (upTo after advance)

/-! ### Two stores with the same values under the same log -/

def Store.valueOf (s : Store) (k : Bytes) : Option Bytes := (s.view k).latestValue.value

theorem live_bind_value (c : Value) : (c.live).bind (·.value) = c.value := by
  by_cases h : c.value.isSome
  · rw [Cell.live_of_isSome h]
    rfl
  · have hn : c.value = none := by simpa using h
    rw [Cell.live_of_isNone hn, hn]
    rfl

theorem Store.valueOf_eq (s : Store) (k : Bytes) : s.valueOf k = (s.live k).bind (·.value) :=
  (live_bind_value _).symm

structure SameValues (s t : Store) : Prop where
  left : s.Coherent
  right : t.Coherent
  value : ∀ k, s.valueOf k = t.valueOf k

theorem SameValues.sameKeys {s t : Store} (h : SameValues s t) : SameKeys s t := by
  have halive (u : Store) (k : Bytes) : (u.live k).isSome = (u.valueOf k).isSome :=
    Cell.live_isSome _
  refine ⟨h.left, h.right, ?_⟩
  intro k
  rw [halive, halive, h.value]

theorem SameValues.effect {s t : Store} (h : SameValues s t) (e : Entry) :
    SameValues (e.effect s) (e.effect t) := by
  have hsucc := h.sameKeys.succeeds_eq e
  refine ⟨e.effect_coherent h.left, e.effect_coherent h.right, ?_⟩
  intro k
  unfold Entry.effect
  unfold Entry.succeeds at hsucc
  split
  · rename_i req hp
    rw [hp] at hsucc
    dsimp only at hsucc
    rw [Store.valueOf_eq, Store.valueOf_eq, (req.run_spec h.left.toWF).2.2,
      (req.run_spec h.right.toWF).2.2, ← hsucc]
    split_ifs
    · rw [live_bind_value, live_bind_value, Cell.next_value, Cell.next_value]
    · rw [← Store.valueOf_eq, ← Store.valueOf_eq]
      exact h.value k
  · exact h.value k

theorem SameValues.foldl_effect {s t : Store} (h : SameValues s t) (es : List Entry) :
    SameValues (es.foldl (fun u e => e.effect u) s) (es.foldl (fun u e => e.effect u) t) := by
  induction es generalizing s t with
  | nil => exact h
  | cons e es ih => exact ih (h.effect e)

namespace StateMachineStore

theorem apply_store {m : StateMachineStore} (hm : m.store.Coherent) (es : List Entry) :
    (m.apply es).1.store = es.foldl (fun s e => e.effect s) m.store := by
  induction es generalizing m with
  | nil => rfl
  | cons e es ih =>
    have hstore := (applyEntry_eq hm e).1
    rw [apply_cons, List.foldl_cons, ← hstore]
    apply ih
    rw [hstore]
    exact e.effect_coherent hm

theorem applyEntry_lastAppliedLog (m : StateMachineStore) (e : Entry) :
    (m.applyEntry e).1.sm.lastAppliedLog = some e.logId := by
  unfold applyEntry
  cases e.payload <;> rfl

theorem apply_lastAppliedLog (m : StateMachineStore) (es : List Entry) :
    (m.apply es).1.sm.lastAppliedLog = advance Entry.logId m.sm.lastAppliedLog es := by
  induction es generalizing m with
  | nil => rfl
  | cons e es ih =>
    rw [apply_cons]
    dsimp only
    rw [ih, applyEntry_lastAppliedLog]
    unfold advance
    cases es with
    | nil => rfl
    | cons e' es =>
      rw [List.getLast?_cons_cons, List.getLast?_eq_some_getLast (List.cons_ne_nil e' es)]
      rfl

end StateMachineStore

/-! ### Cuts of the log -/

def storeUpTo (s : Store) (log : List Entry) (last : Option LogId) : Store :=
  ((StateMachineStore.new s).apply (upTo Entry.logId log last)).1.store

/-- The key-values of a snapshot are the live keys after the log up to an entry. -/
structure IsCut (s : Store) (log : List Entry) (last : Option LogId)
    (kvEntries : List SnapshotEntry) : Prop where
  keys : (kvEntries.map (·.key)).Nodup
  positive : ∀ e ∈ kvEntries, 0 < e.modRevision
  value : ∀ k v, (∃ e ∈ kvEntries, e.key = k ∧ e.value = v) ↔
    (storeUpTo s log last).valueOf k = some v

/-- A store has the values of the log up to an entry. In a run without an installation
it is the very store that the log leads to. -/
structure Reflects (s : Store) (log : List Entry) (installs : Prop) (last : Option LogId)
    (u : Store) : Prop where
  coherent : u.Coherent
  value : ∀ k, u.valueOf k = (storeUpTo s log last).valueOf k
  exactly : ¬installs → u = storeUpTo s log last

section
variable {s : Store} {log : List Entry} {installs : Prop} {last : Option LogId} {u : Store}
  {kvEntries : List SnapshotEntry}

theorem Reflects.isCut (h : Reflects s log installs last u) (he : u.IsExport kvEntries) :
    IsCut s log last kvEntries := by
  refine ⟨he.keys_nodup, he.positive h.coherent, ?_⟩
  intro k v
  rw [← h.value, Store.valueOf_eq]
  constructor
  · rintro ⟨e, hein, rfl, rfl⟩
    rw [(he.mem_iff_live e).mp hein]
    rfl
  · intro hv
    obtain ⟨c, hc, hcv⟩ := Option.bind_eq_some_iff.mp hv
    obtain ⟨e, hein, hk, hcell⟩ := he.exists_entry hc
    refine ⟨e, hein, hk, ?_⟩
    rw [← hcell] at hcv
    exact Option.some.inj hcv

/-- Whoever imports a cut has the values of the log up to it. -/
theorem IsCut.reflects (h : IsCut s log last kvEntries) (hi : installs) (t : Store) :
    Reflects s log installs last (t.importSnapshotData kvEntries) := by
  refine ⟨(t.importSnapshotData_coherent h.keys h.positive).1, ?_, fun hn => absurd hi hn⟩
  obtain ⟨-, hin, hout, -⟩ := t.importSnapshotData_items h.keys
  intro k
  by_cases hk : k ∈ kvEntries.map (·.key)
  · obtain ⟨e, hein, rfl⟩ := List.mem_map.mp hk
    rw [(h.value e.key e.value).mp ⟨e, hein, rfl, rfl⟩, Store.valueOf, hin e hein]
    rfl
  · have hnone : (storeUpTo s log last).valueOf k = none := by
      apply Option.eq_none_iff_forall_ne_some.mpr
      intro v hv
      obtain ⟨e, hein, rfl, -⟩ := (h.value k v).mpr hv
      exact hk (List.mem_map_of_mem hein)
    rw [hnone, Store.valueOf, hout k hk]
    rfl

/-- The next entries of the log take a store with the values of one cut to the next. -/
theorem Reflects.apply (hs : s.Coherent) (hlog : (log.map Entry.logId).Nodup)
    {m : StateMachineStore} (h : Reflects s log installs m.sm.lastAppliedLog m.store) (n : ℕ) :
    Reflects s log installs
      (m.apply ((after Entry.logId log m.sm.lastAppliedLog).take n)).1.sm.lastAppliedLog
      (m.apply ((after Entry.logId log m.sm.lastAppliedLog).take n)).1.store := by
  have hnext : storeUpTo s log (advance Entry.logId m.sm.lastAppliedLog
        ((after Entry.logId log m.sm.lastAppliedLog).take n)) =
      ((after Entry.logId log m.sm.lastAppliedLog).take n).foldl (fun u e => e.effect u)
        (storeUpTo s log m.sm.lastAppliedLog) := by
    unfold storeUpTo
    rw [LogPrefix.upTo_advance hlog, StateMachineStore.apply_append]
    exact StateMachineStore.apply_store (StateMachineStore.apply_coherent hs _) _
  have hcoh : (storeUpTo s log m.sm.lastAppliedLog).Coherent :=
    StateMachineStore.apply_coherent hs _
  rw [StateMachineStore.apply_lastAppliedLog, StateMachineStore.apply_store h.coherent]
  have hsame := SameValues.foldl_effect ⟨h.coherent, hcoh, h.value⟩
    ((after Entry.logId log m.sm.lastAppliedLog).take n)
  -- the values only, since the revisions of an imported store may be others
  refine ⟨hsame.left, ?_, ?_⟩
  · intro k
    rw [hnext]
    exact hsame.value k
  · intro hn
    rw [hnext, h.exactly hn]

end

namespace SnapshotNode

/-! ### What the phases of a node mean -/

section
variable (toVec : FullSnapshotData → Except String Bytes) (s : Store) (log : List Entry)
  (installs : Prop) {shards : ℕ} (shardOf : Bytes → Fin shards)

def Sound (snapData : FullSnapshotData) : Prop :=
  IsCut s log snapData.lastAppliedLog snapData.kvEntries ∧
    (¬installs → (storeUpTo s log snapData.lastAppliedLog).IsExport snapData.kvEntries)

def InstallOk (st : SnapshotNode) : InstallPhase → Prop
  | .idle => Reflects s log installs st.machine.sm.lastAppliedLog st.machine.store
  | .importing _ recovered todo =>
    installs ∧ IsCut s log recovered.lastAppliedLog recovered.kvEntries ∧
      ∃ u n, Reflects s log installs st.machine.sm.lastAppliedLog u ∧
        st.machine.store = u.importing recovered.kvEntries n ∧
        todo = (Store.importSteps recovered.kvEntries).drop n

def BuildOk (st : SnapshotNode) (i : ℕ) : BuildPhase → Prop
  | .idle => i ∉ st.readers
  | .exporting n acc => i ∈ st.readers ∧ ∃ u,
      Reflects s log installs st.machine.sm.lastAppliedLog u ∧
        acc.Perm (u.exportShards shardOf n) ∧
        -- it is the store of now, unless an import has begun
        (st.install.begun = false → u = st.machine.store)
  | .exported snapData => i ∉ st.readers ∧ Sound s log installs snapData
  | .returned snapData res => i ∉ st.readers ∧ Sound s log installs snapData ∧
      ∀ snapshot, res = .ok snapshot → toVec snapData = .ok snapshot.data ∧
        snapshot.snapshotMeta.lastLogId = snapData.lastAppliedLog

structure Consistent (st : SnapshotNode) : Prop where
  install : InstallOk s log installs st st.install
  builders : ∀ i, BuildOk toVec s log installs shardOf st i (st.builders i)

end

section
variable {toVec : FullSnapshotData → Except String Bytes}
  {fromSlice : Bytes → Except String FullSnapshotData} {s : Store} {log : List Entry}
  {installs : Prop} {shards : ℕ} {shardOf : Bytes → Fin shards} {st st' : SnapshotNode}

theorem init_consistent (hs : s.Coherent) :
    Consistent toVec s log installs shardOf (init (StateMachineStore.new s)) :=
  ⟨⟨hs, fun _ => rfl, fun _ => rfl⟩, fun _ => Finset.notMem_empty _⟩

/-- The store of before the import is there, in the node or behind it. -/
theorem Consistent.reflects (h : Consistent toVec s log installs shardOf st) :
    ∃ u, Reflects s log installs st.machine.sm.lastAppliedLog u ∧
      (st.install.begun = false → u = st.machine.store) := by
  have hinstall := h.install
  cases hi : st.install with
  | idle =>
    rw [hi] at hinstall
    exact ⟨st.machine.store, hinstall, fun _ => rfl⟩
  | importing snapshot recovered todo =>
    rw [hi] at hinstall
    obtain ⟨-, -, u, n, hu, hstore, htodo⟩ := hinstall
    refine ⟨u, hu, ?_⟩
    intro hbegun
    have hlen : ¬todo.length < (Store.importSteps recovered.kvEntries).length :=
      of_decide_eq_false hbegun
    have hsteps : 0 < (Store.importSteps recovered.kvEntries).length := Nat.succ_pos _
    rw [htodo, List.length_drop] at hlen
    have hn : n = 0 := by omega
    rw [hstore, hn]
    rfl

theorem Consistent.no_reader (h : Consistent toVec s log installs shardOf st)
    (hr : st.readers = ∅) (i : ℕ) {n : ℕ} {acc : List SnapshotEntry} :
    st.builders i ≠ .exporting n acc := by
  intro hi
  have hb := h.builders i
  rw [hi] at hb
  have hmem := hb.1
  rw [hr] at hmem
  exact absurd hmem (Finset.notMem_empty i)

/-- A build that is not exporting does not look at the state machine. -/
theorem BuildOk.of_readers {i : ℕ} {phase : BuildPhase}
    (h : BuildOk toVec s log installs shardOf st i phase)
    (hnot : ∀ n acc, phase ≠ .exporting n acc) (hr : i ∈ st'.readers ↔ i ∈ st.readers) :
    BuildOk toVec s log installs shardOf st' i phase := by
  cases phase with
  | idle => exact fun hm => h (hr.mp hm)
  | exporting n acc => exact absurd rfl (hnot n acc)
  | exported snapData => exact ⟨fun hm => h.1 (hr.mp hm), h.2⟩
  | returned snapData res => exact ⟨fun hm => h.1 (hr.mp hm), h.2⟩

/-- A build that is exporting depends on the metadata, which it holds the lock of. -/
theorem BuildOk.of_metadata {i : ℕ} {phase : BuildPhase}
    (h : BuildOk toVec s log installs shardOf st i phase)
    (hr : i ∈ st'.readers ↔ i ∈ st.readers)
    (hsm : st'.machine.sm.lastAppliedLog = st.machine.sm.lastAppliedLog)
    (hstore : st'.install.begun = false →
      st.install.begun = false ∧ st'.machine.store = st.machine.store) :
    BuildOk toVec s log installs shardOf st' i phase := by
  cases phase with
  | exporting n acc =>
    obtain ⟨hm, u, hu, hacc, hnow⟩ := h
    refine ⟨hr.mpr hm, u, by rw [hsm]; exact hu, hacc, ?_⟩
    intro hbegun
    obtain ⟨hb, heq⟩ := hstore hbegun
    rw [heq]
    exact hnow hb
  | idle => exact h.of_readers (fun _ _ => BuildPhase.noConfusion) hr
  | exported snapData => exact h.of_readers (fun _ _ => BuildPhase.noConfusion) hr
  | returned snapData res => exact h.of_readers (fun _ _ => BuildPhase.noConfusion) hr

theorem InstallOk.congr {phase : InstallPhase} (h : InstallOk s log installs st phase)
    (hsm : st'.machine.sm = st.machine.sm) (hstore : st'.machine.store = st.machine.store) :
    InstallOk s log installs st' phase := by
  cases phase with
  | idle =>
    change Reflects s log installs st'.machine.sm.lastAppliedLog st'.machine.store
    rw [hsm, hstore]
    exact h
  | importing snapshot recovered todo =>
    obtain ⟨hi, hcut, u, n, hu, heq, htodo⟩ := h
    exact ⟨hi, hcut, u, n, by rw [hsm]; exact hu, by rw [hstore]; exact heq, htodo⟩

/-! ### Steps of the state machine -/

theorem Consistent.apply (h : Consistent toVec s log installs shardOf st) (hs : s.Coherent)
    (hlog : (log.map Entry.logId).Nodup) {n : ℕ}
    (hstep : st.step toVec fromSlice log shardOf (.apply n) = some st') :
    Consistent toVec s log installs shardOf st' := by
  obtain ⟨hidle, hr, rfl⟩ := step_apply hstep
  have hinstall := h.install
  rw [hidle] at hinstall
  refine ⟨?_, ?_⟩
  · dsimp only
    rw [hidle]
    exact hinstall.apply hs hlog n
  · -- the write lock: nobody is exporting
    intro i
    exact (h.builders i).of_readers (fun _ _ => h.no_reader hr i) Iff.rfl

theorem Consistent.receive (h : Consistent toVec s log installs shardOf st)
    {snapshot : StoredSnapshot}
    (hcut : ∀ recovered, fromSlice snapshot.data = .ok recovered →
      installs ∧ IsCut s log recovered.lastAppliedLog recovered.kvEntries)
    (hstep : st.step toVec fromSlice log shardOf (.receive snapshot) = some st') :
    Consistent toVec s log installs shardOf st' := by
  obtain ⟨hidle, rfl | ⟨recovered, hd, rfl⟩⟩ := step_receive hstep
  · exact h
  · have hinstall := h.install
    rw [hidle] at hinstall
    obtain ⟨hi, hc⟩ := hcut recovered hd
    refine ⟨⟨hi, hc, st.machine.store, 0, hinstall, rfl, rfl⟩, ?_⟩
    intro i
    refine (h.builders i).of_metadata Iff.rfl rfl (fun _ => ⟨?_, rfl⟩)
    rw [hidle]
    rfl

theorem Consistent.importStep (h : Consistent toVec s log installs shardOf st)
    (hstep : st.step toVec fromSlice log shardOf .importStep = some st') :
    Consistent toVec s log installs shardOf st' := by
  obtain ⟨snapshot, recovered, next, todo, hi, rfl⟩ := step_importStep hstep
  have hinstall := h.install
  rw [hi] at hinstall
  obtain ⟨hin, hcut, u, n, hu, hstore, htodo⟩ := hinstall
  have hnext : (Store.importSteps recovered.kvEntries)[n]? = some next := by
    rw [← List.head?_drop, ← htodo]
    rfl
  have hrest : todo = (Store.importSteps recovered.kvEntries).drop (n + 1) := by
    rw [← List.tail_drop, ← htodo]
    rfl
  refine ⟨⟨hin, hcut, u, n + 1, hu, ?_, hrest⟩, ?_⟩
  · rw [Store.importing_succ u hnext, ← hstore]
  · -- the import does not take the lock, and from now on it has begun
    intro i
    refine (h.builders i).of_metadata Iff.rfl rfl (fun hb => ?_)
    have hn := (List.getElem?_eq_some_iff.mp hnext).1
    have hlt : todo.length < (Store.importSteps recovered.kvEntries).length := by
      rw [hrest, List.length_drop]
      omega
    exact absurd hlt (of_decide_eq_false hb)

theorem Consistent.finish (h : Consistent toVec s log installs shardOf st)
    (hstep : st.step toVec fromSlice log shardOf .finish = some st') :
    Consistent toVec s log installs shardOf st' := by
  obtain ⟨snapshot, recovered, hi, hr, rfl⟩ := step_finish hstep
  have hinstall := h.install
  rw [hi] at hinstall
  obtain ⟨hin, hcut, u, n, -, hstore, htodo⟩ := hinstall
  have hdone := u.importing_done (List.drop_eq_nil_iff.mp htodo.symm)
  refine ⟨?_, ?_⟩
  · change Reflects s log installs recovered.lastAppliedLog st.machine.store
    rw [hstore, hdone]
    exact hcut.reflects hin u
  · intro i
    exact (h.builders i).of_readers (fun _ _ => h.no_reader hr i) Iff.rfl

/-! ### Steps of a build -/

/-- Only the phase of one build changes. -/
theorem Consistent.build (h : Consistent toVec s log installs shardOf st) {i : ℕ}
    {phase : BuildPhase} (hinstall : st'.install = st.install)
    (hsm : st'.machine.sm = st.machine.sm) (hstore : st'.machine.store = st.machine.store)
    (hbuilders : st'.builders = Function.update st.builders i phase)
    (hreaders : ∀ j, j ≠ i → (j ∈ st'.readers ↔ j ∈ st.readers))
    (hphase : BuildOk toVec s log installs shardOf st' i phase) :
    Consistent toVec s log installs shardOf st' := by
  refine ⟨?_, ?_⟩
  · rw [hinstall]
    exact h.install.congr hsm hstore
  · intro j
    rw [hbuilders]
    by_cases hj : j = i
    · subst hj
      rw [Function.update_self]
      exact hphase
    · rw [Function.update_of_ne hj]
      refine (h.builders j).of_metadata (hreaders j hj) (by rw [hsm]) (fun hb => ⟨?_, hstore⟩)
      rw [← hinstall]
      exact hb

theorem Consistent.lock (h : Consistent toVec s log installs shardOf st) {i : ℕ}
    (hstep : st.step toVec fromSlice log shardOf (.lock i) = some st') :
    Consistent toVec s log installs shardOf st' := by
  obtain ⟨-, rfl⟩ := step_lock hstep
  obtain ⟨u, hu, hnow⟩ := h.reflects
  refine h.build rfl rfl rfl rfl ?_ ⟨Finset.mem_insert_self i _, u, hu, ?_, hnow⟩
  · intro j hj
    rw [Finset.mem_insert, or_iff_right hj]
  · unfold Store.exportShards
    rw [List.filter_eq_nil_iff.mpr (by simp)]

theorem Consistent.visit (h : Consistent toVec s log installs shardOf st)
    (hbegun : st.install.begun = false) {i : ℕ} {kvEntries : List SnapshotEntry}
    (hstep : st.step toVec fromSlice log shardOf (.visit i kvEntries) = some st') :
    Consistent toVec s log installs shardOf st' := by
  obtain ⟨n, acc, hi, -, hperm, rfl⟩ := step_visit hstep
  have hb := h.builders i
  rw [hi] at hb
  obtain ⟨hm, u, hu, hacc, hnow⟩ := hb
  refine h.build rfl rfl rfl rfl (fun _ _ => Iff.rfl) ⟨hm, u, hu, ?_, hnow⟩
  -- what is visited is still the store of the metadata
  rw [← hnow hbegun] at hperm
  exact (hacc.append hperm).trans (u.exportShards_succ n)

theorem Consistent.release (h : Consistent toVec s log installs shardOf st) {i : ℕ}
    (hstep : st.step toVec fromSlice log shardOf (.release i) = some st') :
    Consistent toVec s log installs shardOf st' := by
  obtain ⟨acc, hi, rfl⟩ := step_release hstep
  have hb := h.builders i
  rw [hi] at hb
  obtain ⟨-, u, hu, hacc, -⟩ := hb
  rw [Store.exportShards_all] at hacc
  refine h.build rfl rfl rfl rfl ?_ ⟨Finset.notMem_erase i _, hu.isCut hacc, ?_⟩
  · intro j hj
    rw [Finset.mem_erase, and_iff_right hj]
  · intro hn
    have hstore := hu.exactly hn
    subst hstore
    exact hacc

theorem Consistent.publish (h : Consistent toVec s log installs shardOf st) {i : ℕ}
    (hstep : st.step toVec fromSlice log shardOf (.publish i) = some st') :
    Consistent toVec s log installs shardOf st' := by
  obtain ⟨snapData, hi, rfl⟩ := step_publish hstep
  have hb := h.builders i
  rw [hi] at hb
  obtain ⟨hm, hsound⟩ := hb
  rcases st.machine.publishSnapshot_cases toVec snapData with
    ⟨e, -, heq⟩ | ⟨snapshot, hdata, hlast, heq⟩
  · rw [heq]
    exact h.build rfl rfl rfl rfl (fun _ _ => Iff.rfl) ⟨hm, hsound, fun _ hres => nomatch hres⟩
  · rw [heq]
    refine h.build rfl rfl rfl rfl (fun _ _ => Iff.rfl) ⟨hm, hsound, ?_⟩
    rintro _ ⟨⟩
    exact ⟨hdata, hlast⟩

/-! ### Runs -/

def nextBegun (begun : Bool) : SnapshotAction → Bool
  | .importStep => true
  | .finish => false
  | _ => begun

/-- No build visits a shard between the first step of an import and the update of the
metadata. -/
def apart : Bool → List SnapshotAction → Bool
  | _, [] => true
  | begun, .visit _ _ :: rest => !begun && apart begun rest
  | begun, a :: rest => apart (nextBegun begun a) rest

theorem apart_cons {begun : Bool} {a : SnapshotAction} {rest : List SnapshotAction}
    (h : apart begun (a :: rest) = true) :
    apart (nextBegun begun a) rest = true ∧ ∀ i kvEntries, a = .visit i kvEntries → begun = false := by
  cases a with
  | visit i kvEntries =>
    obtain ⟨hb, hrest⟩ := Bool.and_eq_true_iff.mp h
    exact ⟨hrest, fun _ _ _ => by simpa using hb⟩
  | _ => exact ⟨h, fun _ _ he => nomatch he⟩

theorem Consistent.begun (h : Consistent toVec s log installs shardOf st) {a : SnapshotAction}
    (hstep : st.step toVec fromSlice log shardOf a = some st') :
    st'.install.begun = nextBegun st.install.begun a := by
  cases a with
  | apply n =>
    obtain ⟨-, -, rfl⟩ := step_apply hstep
    rfl
  | receive snapshot =>
    obtain ⟨hidle, rfl | ⟨recovered, -, rfl⟩⟩ := step_receive hstep
    · rfl
    · rw [hidle]
      exact decide_eq_false (lt_irrefl _)
  | importStep =>
    obtain ⟨snapshot, recovered, next, todo, hi, rfl⟩ := step_importStep hstep
    have hinstall := h.install
    rw [hi] at hinstall
    obtain ⟨-, -, u, n, -, -, htodo⟩ := hinstall
    have hlen := congrArg List.length htodo
    rw [List.length_cons, List.length_drop] at hlen
    exact decide_eq_true (by omega)
  | finish =>
    obtain ⟨snapshot, recovered, -, -, rfl⟩ := step_finish hstep
    rfl
  | lock i =>
    obtain ⟨-, rfl⟩ := step_lock hstep
    rfl
  | visit i kvEntries =>
    obtain ⟨n, acc, -, -, -, rfl⟩ := step_visit hstep
    rfl
  | release i =>
    obtain ⟨acc, -, rfl⟩ := step_release hstep
    rfl
  | publish i =>
    obtain ⟨snapData, -, rfl⟩ := step_publish hstep
    rfl

theorem Consistent.step (h : Consistent toVec s log installs shardOf st) (hs : s.Coherent)
    (hlog : (log.map Entry.logId).Nodup) {a : SnapshotAction}
    (hcut : ∀ snapshot, a = .receive snapshot → ∀ recovered,
      fromSlice snapshot.data = .ok recovered →
        installs ∧ IsCut s log recovered.lastAppliedLog recovered.kvEntries)
    (hbegun : ∀ i kvEntries, a = .visit i kvEntries → st.install.begun = false)
    (hstep : st.step toVec fromSlice log shardOf a = some st') :
    Consistent toVec s log installs shardOf st' := by
  cases a with
  | apply n => exact h.apply hs hlog hstep
  | receive snapshot => exact h.receive (hcut snapshot rfl) hstep
  | importStep => exact h.importStep hstep
  | finish => exact h.finish hstep
  | lock i => exact h.lock hstep
  | visit i kvEntries => exact h.visit (hbegun i kvEntries rfl) hstep
  | release i => exact h.release hstep
  | publish i => exact h.publish hstep

theorem Consistent.run (h : Consistent toVec s log installs shardOf st) (hs : s.Coherent)
    (hlog : (log.map Entry.logId).Nodup) {trace : List SnapshotAction}
    (hcut : ∀ snapshot recovered, SnapshotAction.receive snapshot ∈ trace →
      fromSlice snapshot.data = .ok recovered →
        installs ∧ IsCut s log recovered.lastAppliedLog recovered.kvEntries)
    (hapart : apart st.install.begun trace = true)
    (hrun : st.run toVec fromSlice log shardOf trace = some st') :
    Consistent toVec s log installs shardOf st' := by
  induction trace generalizing st with
  | nil =>
    cases hrun
    exact h
  | cons a trace ih =>
    obtain ⟨mid, hmid, hrest⟩ := Option.bind_eq_some_iff.mp hrun
    obtain ⟨hlater, hvisit⟩ := apart_cons hapart
    rw [← h.begun hmid] at hlater
    apply ih (h.step hs hlog ?_ hvisit hmid) ?_ hlater hrest
    · rintro snapshot rfl recovered
      exact hcut snapshot recovered List.mem_cons_self
    · intro snapshot recovered hmem
      exact hcut snapshot recovered (List.mem_cons_of_mem _ hmem)

end

/-- If the installed snapshots are cuts of the log and no build exports while one is
being imported, then every snapshot that a build returns is a cut: its key-values are
the live keys after the log up to its last log id, and unless a snapshot was received,
with the revisions that the log gives them. -/
theorem built_snapshot_consistent {toVec : FullSnapshotData → Except String Bytes}
    {fromSlice : Bytes → Except String FullSnapshotData} {s : Store} (hs : s.Coherent)
    {log : List Entry} (hlog : (log.map Entry.logId).Nodup) {shards : ℕ}
    {shardOf : Bytes → Fin shards} {trace : List SnapshotAction} {st : SnapshotNode}
    (hrun : (init (StateMachineStore.new s)).run toVec fromSlice log shardOf trace = some st)
    (hcut : ∀ snapshot recovered, SnapshotAction.receive snapshot ∈ trace →
      fromSlice snapshot.data = .ok recovered →
        IsCut s log recovered.lastAppliedLog recovered.kvEntries)
    (hapart : apart false trace = true) {i : ℕ} {snapData : FullSnapshotData}
    {snapshot : StoredSnapshot} (hres : st.builders i = .returned snapData (.ok snapshot)) :
    toVec snapData = .ok snapshot.data ∧
      IsCut s log snapshot.snapshotMeta.lastLogId snapData.kvEntries ∧
      ((∀ received, SnapshotAction.receive received ∉ trace) →
        (storeUpTo s log snapshot.snapshotMeta.lastLogId).IsExport snapData.kvEntries) := by
  have hinit : Consistent toVec s log (∃ received, SnapshotAction.receive received ∈ trace)
      shardOf (init (StateMachineStore.new s)) := init_consistent hs
  have hconsistent := hinit.run hs hlog
    (fun received recovered hmem hd => ⟨⟨received, hmem⟩, hcut received recovered hmem hd⟩)
    hapart hrun
  have hbuild := hconsistent.builders i
  rw [hres] at hbuild
  obtain ⟨-, ⟨hsound, hexact⟩, hok⟩ := hbuild
  obtain ⟨hdata, hmeta⟩ := hok snapshot rfl
  rw [hmeta]
  refine ⟨hdata, hsound, ?_⟩
  intro hnone
  apply hexact
  rintro ⟨received, hmem⟩
  exact hnone received hmem

open StateMachineStore (knownToVec knownFromSlice oneKeyData oneKeyJson)

theorem isCut_of_export {s : Store} (hs : s.Coherent) {log : List Entry} {last : Option LogId}
    {kvEntries : List SnapshotEntry} (he : (storeUpTo s log last).IsExport kvEntries) :
    IsCut s log last kvEntries := by
  have hself : Reflects s log True last (storeUpTo s log last) :=
    ⟨StateMachineStore.apply_coherent hs _, fun _ => rfl, fun _ => rfl⟩
  exact hself.isCut he

theorem bothKeys_isCut : IsCut (Store.new none) shortLog bothKeysData.lastAppliedLog
    bothKeysData.kvEntries :=
  isCut_of_export ((Store.new_represents none).coherent (Store.new_wf none))
    (List.Perm.of_eq (by decide +kernel))

/-- A build that has exported before the import begins. -/
theorem built_snapshot_consistent_early_export :
    ∃ st snapshot, (init (StateMachineStore.new (Store.new none))).run
        (knownToVec oneKeyData oneKeyJson) (knownFromSlice bothKeysData bothKeysJson) shortLog
        (fun _ => (0 : Fin 1)) earlyExport = some st ∧
      st.builders 0 = .returned oneKeyData (.ok snapshot) ∧
      IsCut (Store.new none) shortLog snapshot.snapshotMeta.lastLogId oneKeyData.kvEntries := by
  have hrun : ((init (StateMachineStore.new (Store.new none))).run
      (knownToVec oneKeyData oneKeyJson) (knownFromSlice bothKeysData bothKeysJson) shortLog
      (fun _ => (0 : Fin 1)) earlyExport).bind (fun st => (st.builders 0).outcome) =
      some (oneKeyData, some ⟨⟨1, 1⟩, 1⟩) := by decide +kernel
  obtain ⟨st, hst, hout⟩ := Option.bind_eq_some_iff.mp hrun
  obtain ⟨snapshot, hres, -⟩ := BuildPhase.outcome_eq hout
  have hs := (Store.new_represents none).coherent (Store.new_wf none)
  have hcut (received : StoredSnapshot) (recovered : FullSnapshotData)
      (hd : knownFromSlice bothKeysData bothKeysJson received.data = .ok recovered) :
      IsCut (Store.new none) shortLog recovered.lastAppliedLog recovered.kvEntries := by
    unfold knownFromSlice at hd
    split_ifs at hd
    cases hd
    exact bothKeys_isCut
  have hapart : apart false earlyExport = true := by decide
  have hcorrect := built_snapshot_consistent hs (by decide) hst
    (fun received recovered _ hd => hcut received recovered hd) hapart hres
  exact ⟨st, snapshot, hst, hres, hcorrect.2.1⟩

/-- The snapshot of a node that has set `a` and no longer has it. -/
def nothingData : FullSnapshotData := ⟨some ⟨⟨1, 1⟩, 1⟩, ⟨none, ⟨[], []⟩⟩, []⟩

def nothingJson : String :=
  "\x7b\"last_applied_log\":\x7b\"leader_id\":\x7b\"term\":1,\"node_id\":1\x7d,\"index\":1\x7d," ++
  "\"last_membership\":\x7b\"log_id\":null,\"membership\":\x7b\"configs\":[],\"nodes\":\x7b\x7d\x7d\x7d," ++
  "\"kv_entries\":[]\x7d"

/-- A node that has applied the first entry installs a snapshot of both. A build that
runs after the key map is cleared and before the metadata is updated returns a snapshot
without a key, for a log that has set one. -/
theorem built_snapshot_inconsistent :
    IsCut (Store.new none) shortLog bothKeysData.lastAppliedLog bothKeysData.kvEntries ∧
    ∃ st snapshot, (init (StateMachineStore.new (Store.new none))).run
        (knownToVec nothingData nothingJson) (knownFromSlice bothKeysData bothKeysJson) shortLog
        (fun _ => (0 : Fin 1)) [.apply 1, .receive bothKeysSnapshot, .importStep, .importStep,
          .lock 0, .visit 0 [], .release 0, .publish 0] = some st ∧
      st.builders 0 = .returned nothingData (.ok snapshot) ∧
      snapshot.snapshotMeta.lastLogId = some ⟨⟨1, 1⟩, 1⟩ ∧ nothingData.kvEntries = [] ∧
      (storeUpTo (Store.new none) shortLog (some ⟨⟨1, 1⟩, 1⟩)).valueOf [97] = some [1] := by
  have hrun : ((init (StateMachineStore.new (Store.new none))).run
      (knownToVec nothingData nothingJson) (knownFromSlice bothKeysData bothKeysJson) shortLog
      (fun _ => (0 : Fin 1)) [.apply 1, .receive bothKeysSnapshot, .importStep, .importStep,
        .lock 0, .visit 0 [], .release 0, .publish 0]).bind (fun st => (st.builders 0).outcome) =
      some (nothingData, some ⟨⟨1, 1⟩, 1⟩) := by decide +kernel
  obtain ⟨st, hst, hout⟩ := Option.bind_eq_some_iff.mp hrun
  obtain ⟨snapshot, hres, hlast⟩ := BuildPhase.outcome_eq hout
  exact ⟨bothKeys_isCut, st, snapshot, hst, hres, hlast, rfl, by decide⟩

end SnapshotNode
end MemEtcd
