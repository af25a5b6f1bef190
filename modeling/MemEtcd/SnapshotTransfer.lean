import MemEtcd.SnapshotOrder

/-! Nodes that catch up by the log or by a snapshot of another node, in any mix. The network
may deliver a snapshot late, more than once or never. What a node holds is compared with the
log up to the entry that the node applied last. -/
namespace MemEtcd

open LogPrefix (after upTo advance upTo_advance)

/-! ### The membership in a log -/

def Entry.membershipAfter (mem : StoredMembership) (e : Entry) : StoredMembership :=
  match e.payload with
  | .membership m => ⟨some e.logId, m⟩
  | _ => mem

def membershipUpTo (log : List Entry) (last : Option LogId) : StoredMembership :=
  (upTo Entry.logId log last).foldl Entry.membershipAfter ⟨none, ⟨[], []⟩⟩

namespace StateMachineStore

def getCurrentSnapshot (m : StateMachineStore) : Option StoredSnapshot := m.currentSnapshot

theorem apply_lastMembership (m : StateMachineStore) (es : List Entry) :
    (m.apply es).1.sm.lastMembership = es.foldl Entry.membershipAfter m.sm.lastMembership := by
  induction es generalizing m with
  | nil => rfl
  | cons e es ih =>
    have hentry : (m.applyEntry e).1.sm.lastMembership =
        Entry.membershipAfter m.sm.lastMembership e := by
      unfold applyEntry Entry.membershipAfter
      cases e.payload <;> rfl
    rw [apply_cons, List.foldl_cons, ← hentry]
    exact ih _

/-- The next entries of the log take the membership along with the position. -/
theorem apply_membershipUpTo {log : List Entry} (hlog : (log.map Entry.logId).Nodup)
    {m : StateMachineStore} (h : m.sm.lastMembership = membershipUpTo log m.sm.lastAppliedLog)
    (n : ℕ) :
    (m.apply ((after Entry.logId log m.sm.lastAppliedLog).take n)).1.sm.lastMembership =
      membershipUpTo log
        (m.apply ((after Entry.logId log m.sm.lastAppliedLog).take n)).1.sm.lastAppliedLog := by
  rw [apply_lastMembership, apply_lastAppliedLog, h]
  unfold membershipUpTo
  rw [upTo_advance hlog, List.foldl_append]

end StateMachineStore

def InstallPhase.isIdle : InstallPhase → Bool
  | .idle => true
  | .importing .. => false

theorem InstallPhase.eq_idle {phase : InstallPhase} (h : phase.isIdle = true) : phase = .idle := by
  cases phase with
  | idle => rfl
  | importing => contradiction

/-! ### The cluster -/

structure SnapshotCluster where
  nodes : ℕ → SnapshotNode
  sent : List StoredSnapshot

/-- A node hands its stored snapshot to the network, or takes a step of its own. -/
inductive TransferAction where
  | send (n : ℕ)
  | act (n : ℕ) (a : SnapshotAction)

namespace SnapshotCluster

def start (s : Store) : SnapshotCluster := ⟨fun _ => .init (StateMachineStore.new s), []⟩

def deliverable (c : SnapshotCluster) : SnapshotAction → Bool
  | .receive snapshot => decide (snapshot ∈ c.sent)
  | _ => true

section
variable (toVec : FullSnapshotData → Except String Bytes)
  (fromSlice : Bytes → Except String FullSnapshotData) (log : List Entry) {shards : ℕ}
  (shardOf : Bytes → Fin shards)

def step (c : SnapshotCluster) : TransferAction → Option SnapshotCluster
  | .send n => do
    let snapshot ← (c.nodes n).machine.getCurrentSnapshot
    return { c with sent := snapshot :: c.sent }
  | .act n a =>
    if c.deliverable a then do
      let st ← (c.nodes n).step toVec fromSlice log shardOf a
      return { c with nodes := Function.update c.nodes n st }
    else none

def run (c : SnapshotCluster) (trace : List TransferAction) : Option SnapshotCluster :=
  PartialRun.run (step toVec fromSlice log shardOf) c trace

end

def actionsOf (n : ℕ) (trace : List TransferAction) : List SnapshotAction :=
  trace.filterMap (fun
    | .send _ => none
    | .act m a => if m = n then some a else none)

section
variable {toVec : FullSnapshotData → Except String Bytes}
  {fromSlice : Bytes → Except String FullSnapshotData} {log : List Entry} {shards : ℕ}
  {shardOf : Bytes → Fin shards} {c c' : SnapshotCluster}

theorem step_send {n : ℕ} (h : c.step toVec fromSlice log shardOf (.send n) = some c') :
    ∃ snapshot, (c.nodes n).machine.currentSnapshot = some snapshot ∧
      c' = { c with sent := snapshot :: c.sent } := by
  obtain ⟨snapshot, hsnap, hc⟩ := Option.bind_eq_some_iff.mp h
  exact ⟨snapshot, hsnap, (Option.some.inj hc).symm⟩

theorem step_act {n : ℕ} {a : SnapshotAction}
    (h : c.step toVec fromSlice log shardOf (.act n a) = some c') :
    c.deliverable a = true ∧ ∃ st, (c.nodes n).step toVec fromSlice log shardOf a = some st ∧
      c' = { c with nodes := Function.update c.nodes n st } := by
  simp only [step] at h
  split_ifs at h with hd
  obtain ⟨st, hst, hc⟩ := Option.bind_eq_some_iff.mp h
  exact ⟨hd, st, hst, (Option.some.inj hc).symm⟩

end

end SnapshotCluster

/-! ### What snapshots and nodes hold -/

namespace SnapshotNode

section
variable (fromSlice : Bytes → Except String FullSnapshotData) (s : Store) (log : List Entry)

/-- The data is that of the log up to the entry it names. -/
structure Accurate (snapData : FullSnapshotData) : Prop where
  cut : IsCut s log snapData.lastAppliedLog snapData.kvEntries
  member : snapData.lastMembership = membershipUpTo log snapData.lastAppliedLog

/-- What is decoded from the snapshot is accurate, and is about the entry in its metadata. -/
def Genuine (snapshot : StoredSnapshot) : Prop :=
  ∀ recovered, fromSlice snapshot.data = .ok recovered →
    Accurate s log recovered ∧ snapshot.snapshotMeta.lastLogId = recovered.lastAppliedLog

variable (toVec : FullSnapshotData → Except String Bytes) {shards : ℕ}
  (shardOf : Bytes → Fin shards)

/-- What every node keeps, as long as it receives genuine snapshots. -/
structure Faithful (st : SnapshotNode) : Prop where
  consistent : Consistent toVec s log True shardOf st
  member : st.machine.sm.lastMembership = membershipUpTo log st.machine.sm.lastAppliedLog
  exported : ∀ i snapData, st.builders i = .exported snapData →
    snapData.lastMembership = membershipUpTo log snapData.lastAppliedLog
  importing : ∀ snapshot recovered todo, st.install = .importing snapshot recovered todo →
    Genuine fromSlice s log snapshot ∧
      recovered.lastMembership = membershipUpTo log recovered.lastAppliedLog
  stored : ∀ snapshot, st.machine.currentSnapshot = some snapshot → Genuine fromSlice s log snapshot

end

section
variable {toVec : FullSnapshotData → Except String Bytes}
  {fromSlice : Bytes → Except String FullSnapshotData} {s : Store} {log : List Entry} {shards : ℕ}
  {shardOf : Bytes → Fin shards} {st st' : SnapshotNode}

theorem init_faithful (hs : s.Coherent) :
    Faithful fromSlice s log toVec shardOf (init (StateMachineStore.new s)) where
  consistent := init_consistent hs
  member := rfl
  exported _ _ h := nomatch h
  importing _ _ _ h := nomatch h
  stored _ h := nomatch h

theorem exported_update {builders : ℕ → BuildPhase} {P : FullSnapshotData → Prop} {i : ℕ}
    {phase : BuildPhase} (h : ∀ j snapData, builders j = .exported snapData → P snapData)
    (hphase : ∀ snapData, phase = .exported snapData → P snapData) (j : ℕ)
    (snapData : FullSnapshotData)
    (hj : Function.update builders i phase j = .exported snapData) : P snapData := by
  by_cases hji : j = i
  · rw [hji, Function.update_self] at hj
    exact hphase snapData hj
  · rw [Function.update_of_ne hji] at hj
    exact h j snapData hj

/-- A snapshot that is built from accurate data is genuine, as decoding undoes encoding. -/
theorem Faithful.publish (h : Faithful fromSlice s log toVec shardOf st)
    (hcodec : ∀ snapData data, toVec snapData = .ok data → fromSlice data = .ok snapData)
    {i : ℕ} (hstep : st.step toVec fromSlice log shardOf (.publish i) = some st')
    (hc : Consistent toVec s log True shardOf st') :
    Faithful fromSlice s log toVec shardOf st' := by
  obtain ⟨snapData, hi, rfl⟩ := step_publish hstep
  have hbuild := h.consistent.builders i
  rw [hi] at hbuild
  have haccurate : Accurate s log snapData := ⟨hbuild.2.1, h.exported i snapData hi⟩
  have hexported := @exported_update st.builders _ i
    (.returned snapData (st.machine.publishSnapshot toVec snapData).2) h.exported
    (fun _ he => nomatch he)
  rcases st.machine.publishSnapshot_cases toVec snapData with
    ⟨e, -, hm⟩ | ⟨snapshot, hdata, hlast, hm⟩
  · refine ⟨hc, ?_, hexported, h.importing, ?_⟩
    · show (st.machine.publishSnapshot toVec snapData).1.sm.lastMembership = _
      rw [hm]
      exact h.member
    · show ∀ stored, (st.machine.publishSnapshot toVec snapData).1.currentSnapshot = some stored → _
      rw [hm]
      exact h.stored
  · refine ⟨hc, ?_, hexported, h.importing, ?_⟩
    · show (st.machine.publishSnapshot toVec snapData).1.sm.lastMembership = _
      rw [hm]
      exact h.member
    · show ∀ stored, (st.machine.publishSnapshot toVec snapData).1.currentSnapshot = some stored → _
      rw [hm]
      intro stored hstored recovered hrecovered
      cases Option.some.inj hstored
      rw [hcodec snapData _ hdata] at hrecovered
      cases hrecovered
      exact ⟨haccurate, hlast⟩

/-- A node that receives genuine snapshots only, and does not export while it imports, stays
faithful. -/
theorem Faithful.step (h : Faithful fromSlice s log toVec shardOf st) (hs : s.Coherent)
    (hlog : (log.map Entry.logId).Nodup)
    (hcodec : ∀ snapData data, toVec snapData = .ok data → fromSlice data = .ok snapData)
    {a : SnapshotAction}
    (hgenuine : ∀ snapshot, a = .receive snapshot → Genuine fromSlice s log snapshot)
    (hbegun : ∀ i kvEntries, a = .visit i kvEntries → st.install.begun = false)
    (hstep : st.step toVec fromSlice log shardOf a = some st') :
    Faithful fromSlice s log toVec shardOf st' := by
  have hc : Consistent toVec s log True shardOf st' := by
    apply h.consistent.step hs hlog _ hbegun hstep
    intro snapshot ha recovered hrecovered
    exact ⟨trivial, (hgenuine snapshot ha recovered hrecovered).1.cut⟩
  cases a with
  | apply n =>
    obtain ⟨-, -, rfl⟩ := step_apply hstep
    refine ⟨hc, StateMachineStore.apply_membershipUpTo hlog h.member n, h.exported, h.importing, ?_⟩
    intro snapshot hsnap
    apply h.stored snapshot
    rw [← hsnap]
    exact (StateMachineStore.apply_currentSnapshot ..).symm
  | receive snapshot =>
    obtain ⟨-, rfl | ⟨recovered, hrecovered, rfl⟩⟩ := step_receive hstep
    · exact h
    · refine ⟨hc, h.member, h.exported, ?_, h.stored⟩
      intro snapshot' recovered' todo' hinstall
      cases hinstall
      have hg := hgenuine snapshot rfl
      exact ⟨hg, (hg recovered hrecovered).1.member⟩
  | importStep =>
    obtain ⟨snapshot, recovered, next, todo, hi, rfl⟩ := step_importStep hstep
    refine ⟨hc, h.member, h.exported, ?_, h.stored⟩
    intro snapshot' recovered' todo' hinstall
    cases hinstall
    exact h.importing _ _ _ hi
  | finish =>
    obtain ⟨snapshot, recovered, hi, -, rfl⟩ := step_finish hstep
    obtain ⟨hg, hmember⟩ := h.importing _ _ _ hi
    refine ⟨hc, hmember, h.exported, (fun _ _ _ hinstall => nomatch hinstall), ?_⟩
    intro stored hstored
    cases Option.some.inj hstored
    exact hg
  | lock i =>
    obtain ⟨-, rfl⟩ := step_lock hstep
    refine ⟨hc, h.member, ?_, h.importing, h.stored⟩
    exact exported_update h.exported (fun _ he => nomatch he)
  | visit i kvEntries =>
    obtain ⟨n, acc, -, -, -, rfl⟩ := step_visit hstep
    refine ⟨hc, h.member, ?_, h.importing, h.stored⟩
    exact exported_update h.exported (fun _ he => nomatch he)
  | release i =>
    obtain ⟨acc, -, rfl⟩ := step_release hstep
    refine ⟨hc, h.member, ?_, h.importing, h.stored⟩
    apply exported_update h.exported
    intro snapData he
    cases he
    exact h.member
  | publish i => exact h.publish hcodec hstep hc

end

end SnapshotNode

namespace SnapshotCluster

open SnapshotNode (apart Faithful Genuine)

section
variable {toVec : FullSnapshotData → Except String Bytes}
  {fromSlice : Bytes → Except String FullSnapshotData} {s : Store} {log : List Entry} {shards : ℕ}
  {shardOf : Bytes → Fin shards} {c c' : SnapshotCluster}

/-- Every node is faithful, and what is on the network is genuine. -/
structure Truthful (fromSlice : Bytes → Except String FullSnapshotData) (s : Store)
    (log : List Entry) (toVec : FullSnapshotData → Except String Bytes) {shards : ℕ}
    (shardOf : Bytes → Fin shards) (c : SnapshotCluster) : Prop where
  nodes : ∀ n, Faithful fromSlice s log toVec shardOf (c.nodes n)
  sent : ∀ snapshot ∈ c.sent, Genuine fromSlice s log snapshot

theorem start_truthful (hs : s.Coherent) :
    Truthful fromSlice s log toVec shardOf (start s) where
  nodes _ := SnapshotNode.init_faithful hs
  sent _ h := nomatch h

theorem Truthful.step (h : Truthful fromSlice s log toVec shardOf c) (hs : s.Coherent)
    (hlog : (log.map Entry.logId).Nodup)
    (hcodec : ∀ snapData data, toVec snapData = .ok data → fromSlice data = .ok snapData)
    {a : TransferAction}
    (hbegun : ∀ n i kvEntries, a = .act n (.visit i kvEntries) →
      (c.nodes n).install.begun = false)
    (hstep : c.step toVec fromSlice log shardOf a = some c') :
    Truthful fromSlice s log toVec shardOf c' := by
  cases a with
  | send n =>
    obtain ⟨snapshot, hsnap, rfl⟩ := step_send hstep
    refine ⟨h.nodes, ?_⟩
    intro other hmem
    rcases List.mem_cons.mp hmem with rfl | hother
    · exact (h.nodes n).stored other hsnap
    · exact h.sent other hother
  | act n a =>
    obtain ⟨hd, st, hst, rfl⟩ := step_act hstep
    refine ⟨?_, h.sent⟩
    intro m
    by_cases hmn : m = n
    · subst hmn
      show Faithful fromSlice s log toVec shardOf (Function.update c.nodes m st m)
      rw [Function.update_self]
      apply (h.nodes m).step hs hlog hcodec _ (fun i kvEntries ha => ?_) hst
      · -- what is received was sent
        intro snapshot ha
        subst ha
        exact h.sent snapshot (of_decide_eq_true hd)
      · exact hbegun m i kvEntries (congrArg _ ha)
    · show Faithful fromSlice s log toVec shardOf (Function.update c.nodes n st m)
      rw [Function.update_of_ne hmn]
      exact h.nodes m

theorem actionsOf_act (n m : ℕ) (a : SnapshotAction) (trace : List TransferAction) :
    actionsOf n (.act m a :: trace) =
      if m = n then a :: actionsOf n trace else actionsOf n trace := by
  unfold actionsOf
  rw [List.filterMap_cons]
  dsimp only
  split_ifs <;> rfl

theorem Truthful.run (h : Truthful fromSlice s log toVec shardOf c) (hs : s.Coherent)
    (hlog : (log.map Entry.logId).Nodup)
    (hcodec : ∀ snapData data, toVec snapData = .ok data → fromSlice data = .ok snapData)
    {trace : List TransferAction}
    (hapart : ∀ n, apart (c.nodes n).install.begun (actionsOf n trace) = true)
    (hrun : c.run toVec fromSlice log shardOf trace = some c') :
    Truthful fromSlice s log toVec shardOf c' := by
  induction trace generalizing c with
  | nil =>
    cases hrun
    exact h
  | cons a trace ih =>
    obtain ⟨mid, hmid, hrest⟩ := Option.bind_eq_some_iff.mp hrun
    cases a with
    | send n =>
      apply ih (h.step hs hlog hcodec ?_ hmid) _ hrest
      · intro m i kvEntries ha
        contradiction
      · obtain ⟨snapshot, -, rfl⟩ := step_send hmid
        exact hapart
    | act n a =>
      have hn := hapart n
      rw [actionsOf_act, if_pos rfl] at hn
      obtain ⟨hlater, hvisit⟩ := SnapshotNode.apart_cons hn
      apply ih (h.step hs hlog hcodec ?_ hmid) _ hrest
      · intro m i kvEntries ha
        cases ha
        exact hvisit i kvEntries rfl
      · obtain ⟨-, st, hst, rfl⟩ := step_act hmid
        intro m
        show apart (Function.update c.nodes n st m).install.begun _ = true
        by_cases hmn : m = n
        · subst hmn
          rw [Function.update_self, (h.nodes m).consistent.begun hst]
          exact hlater
        · rw [Function.update_of_ne hmn]
          have hm := hapart m
          rw [actionsOf_act, if_neg (Ne.symm hmn)] at hm
          exact hm

/-- What the cluster agrees on, whichever way its nodes caught up: outside an installation a
node holds for every key the value, and it has the membership, that the log gives up to the
entry it applied last. So nodes that are as far in the log hold the same. -/
theorem nodes_converge (hs : s.Coherent) (hlog : (log.map Entry.logId).Nodup)
    (hcodec : ∀ snapData data, toVec snapData = .ok data → fromSlice data = .ok snapData)
    {trace : List TransferAction} (hapart : ∀ n, apart false (actionsOf n trace) = true)
    (hrun : (start s).run toVec fromSlice log shardOf trace = some c) :
    (∀ n, (c.nodes n).install = .idle →
      (∀ k, (c.nodes n).machine.store.valueOf k =
        (storeUpTo s log (c.nodes n).machine.sm.lastAppliedLog).valueOf k) ∧
      (c.nodes n).machine.sm.lastMembership =
        membershipUpTo log (c.nodes n).machine.sm.lastAppliedLog) ∧
    ∀ m n, (c.nodes m).install = .idle → (c.nodes n).install = .idle →
      (c.nodes m).machine.sm.lastAppliedLog = (c.nodes n).machine.sm.lastAppliedLog →
      (c.nodes m).machine.sm = (c.nodes n).machine.sm ∧
        ∀ k, (c.nodes m).machine.store.valueOf k = (c.nodes n).machine.store.valueOf k := by
  have htruthful := (start_truthful hs).run hs hlog hcodec hapart hrun
  have hnode (n : ℕ) (hidle : (c.nodes n).install = .idle) :
      (∀ k, (c.nodes n).machine.store.valueOf k =
        (storeUpTo s log (c.nodes n).machine.sm.lastAppliedLog).valueOf k) ∧
      (c.nodes n).machine.sm.lastMembership =
        membershipUpTo log (c.nodes n).machine.sm.lastAppliedLog := by
    have hinstall := (htruthful.nodes n).consistent.install
    rw [hidle] at hinstall
    exact ⟨hinstall.value, (htruthful.nodes n).member⟩
  refine ⟨hnode, ?_⟩
  intro m n hm hn hlast
  obtain ⟨hvm, hmm⟩ := hnode m hm
  obtain ⟨hvn, hmn⟩ := hnode n hn
  rw [hlast] at hvm hmm
  refine ⟨?_, fun k => (hvm k).trans (hvn k).symm⟩
  calc
    (c.nodes m).machine.sm = ⟨(c.nodes m).machine.sm.lastAppliedLog,
        (c.nodes m).machine.sm.lastMembership⟩ := rfl
    _ = ⟨(c.nodes n).machine.sm.lastAppliedLog, (c.nodes n).machine.sm.lastMembership⟩ := by
      rw [hlast, hmm, hmn]

end

open StateMachineStore (knownToVec knownFromSlice setEntry deleteEntry afterDeleteData
  afterDeleteJson)

def deletingLog : List Entry :=
  [setEntry 1 [97] [1], setEntry 2 [98] [2], deleteEntry 3 [98], setEntry 4 [99] [3]]

def afterDeleteSnapshot : StoredSnapshot :=
  ⟨⟨some ⟨⟨1, 1⟩, 3⟩, ⟨none, ⟨[], []⟩⟩, "T1-N1-3-1"⟩, utf8Bytes afterDeleteJson.toList⟩

/-- Node 1 installs the snapshot of node 0; both apply the last entry. -/
def transferTrace : List TransferAction :=
  [.act 0 (.apply 3), .act 0 (.lock 0), .act 0 (.visit 0 afterDeleteData.kvEntries),
    .act 0 (.release 0), .act 0 (.publish 0), .send 0, .act 0 (.apply 1),
    .act 1 (.receive afterDeleteSnapshot), .act 1 .importStep, .act 1 .importStep,
    .act 1 .importStep, .act 1 .importStep, .act 1 .importStep, .act 1 .finish,
    .act 1 (.apply 1)]

/-- The nodes agree on the values, though not on the revision. -/
theorem nodes_converge_transferTrace :
    ∃ c, (start (Store.new none)).run (knownToVec afterDeleteData afterDeleteJson)
        (knownFromSlice afterDeleteData afterDeleteJson) deletingLog (fun _ => (0 : Fin 1))
        transferTrace = some c ∧
      (c.nodes 0).machine.sm.lastAppliedLog = some ⟨⟨1, 1⟩, 4⟩ ∧
      (∀ k, (c.nodes 0).machine.store.valueOf k = (c.nodes 1).machine.store.valueOf k) ∧
      (c.nodes 0).machine.store.currentRevision = 4 ∧
      (c.nodes 1).machine.store.currentRevision = 2 := by
  have hview : ((start (Store.new none)).run (knownToVec afterDeleteData afterDeleteJson)
      (knownFromSlice afterDeleteData afterDeleteJson) deletingLog (fun _ => (0 : Fin 1))
      transferTrace).map (fun c =>
        [0, 1].map (fun n => ((c.nodes n).install.isIdle, (c.nodes n).machine.sm.lastAppliedLog,
          (c.nodes n).machine.store.currentRevision))) =
      some [(true, some ⟨⟨1, 1⟩, 4⟩, 4), (true, some ⟨⟨1, 1⟩, 4⟩, 2)] := by decide +kernel
  obtain ⟨c, hc, hfields⟩ := Option.map_eq_some_iff.mp hview
  simp only [List.map_cons, List.map_nil, List.cons.injEq, Prod.mk.injEq, and_true] at hfields
  obtain ⟨⟨hidle0, hlast0, hrev0⟩, hidle1, hlast1, hrev1⟩ := hfields
  have hcodec (snapData : FullSnapshotData) (data : Bytes)
      (h : knownToVec afterDeleteData afterDeleteJson snapData = .ok data) :
      knownFromSlice afterDeleteData afterDeleteJson data = .ok snapData := by
    unfold knownToVec at h
    split_ifs at h with hd
    rw [← Except.ok.inj h, hd]
    exact if_pos rfl
  have hapart (n : ℕ) : apart false (actionsOf n transferTrace) = true := by
    match n with
    | 0 => decide
    | 1 => decide
    | _ + 2 => rfl
  have hagree := (nodes_converge ((Store.new_represents none).coherent (Store.new_wf none))
    (by decide) hcodec hapart hc).2 0 1 (InstallPhase.eq_idle hidle0)
    (InstallPhase.eq_idle hidle1) (hlast0.trans hlast1.symm)
  exact ⟨c, hc, hlast0, hagree.2, hrev0, hrev1⟩

end SnapshotCluster
end MemEtcd
