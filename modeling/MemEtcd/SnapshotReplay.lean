import MemEtcd.Snapshot

/-! A node that installs a snapshot and applies the rest of the log is compared
with a node that applies the whole log. -/
namespace MemEtcd

open VersionLog (Cell)

/-- The newest revision, if there is one, belongs to a key that is alive. -/
def Store.TipLive (s : Store) : Prop :=
  s.currentRevision = 0 ∨ ∃ k v, s.live k = some v ∧ v.modRevision = s.currentRevision

/-- A snapshot keeps the revision exactly if the newest change is alive. -/
theorem Store.maxModRev_eq_iff {s : Store} (hs : s.Coherent) {entries : List SnapshotEntry}
    (he : s.IsExport entries) : maxModRev entries = s.currentRevision ↔ s.TipLive := by
  obtain ⟨hnn, hle, hmax⟩ := maxModRev_spec entries (he.positive hs)
  have hbound : ∀ e ∈ entries, e.modRevision ≤ s.currentRevision := by
    intro e h
    have hb := hs.bounded e.key
    rw [(Cell.live_eq_some_iff.mp ((he.mem_iff_live e).mp h)).1] at hb
    exact hb
  unfold TipLive
  constructor
  · intro h
    rcases hmax with hz | ⟨e, hein, hem⟩
    · exact Or.inl (by omega)
    · exact Or.inr ⟨e.key, e.cell, (he.mem_iff_live e).mp hein, hem.trans h⟩
  · rintro (hz | ⟨k, v, hv, hvm⟩)
    · -- at revision zero nothing is exported
      rcases hmax with hz' | ⟨e, hein, _⟩
      · omega
      · have := hs.live_eq_none hz e.key
        rw [(he.mem_iff_live e).mp hein] at this
        contradiction
    · obtain ⟨e, hein, _, rfl⟩ := he.exists_entry hv
      have hlow : e.modRevision ≤ maxModRev entries := hle e hein
      have hcur : e.modRevision = s.currentRevision := hvm
      have hpos := he.positive hs e hein
      rcases hmax with hz | ⟨e', hein', hem⟩
      · omega
      · have := hbound e' hein'
        omega

def RoundTrips (toVec : FullSnapshotData → Except String Bytes)
    (fromSlice : Bytes → Except String FullSnapshotData) (d : FullSnapshotData) : Prop :=
  ∃ data, toVec d = .ok data ∧ fromSlice data = .ok d

namespace StateMachineStore

/-- Building a snapshot and installing it moves the exported key-values into the
other store. -/
theorem installSnapshot_built {toVec : FullSnapshotData → Except String Bytes}
    {fromSlice : Bytes → Except String FullSnapshotData} {m : StateMachineStore}
    {kvEntries : List SnapshotEntry}
    (h : RoundTrips toVec fromSlice (m.fullSnapshotData kvEntries)) (other : StateMachineStore) :
    ∃ snap, (m.buildSnapshot toVec kvEntries).2 = .ok snap ∧
      (other.installSnapshot fromSlice snap).2 = .ok () ∧
      (other.installSnapshot fromSlice snap).1.store =
        other.store.importSnapshotData kvEntries := by
  obtain ⟨data, hto, hfrom⟩ := h
  unfold buildSnapshot
  simp only [hto]
  refine ⟨_, rfl, ?_⟩
  unfold installSnapshot
  simp only [hfrom]
  exact ⟨trivial, rfl⟩

/-- The answers to `entries` and the current state that reads see afterwards. -/
def SameOutcome (n m : StateMachineStore) (entries : List Entry) : Prop :=
  (n.apply entries).2 = (m.apply entries).2 ∧
    (n.apply entries).1.store.currentRevision = (m.apply entries).1.store.currentRevision ∧
    ∀ key, (n.apply entries).1.store.range key [] 0 none =
      (m.apply entries).1.store.range key [] 0 none

/-- The rest of the log takes the store to a positive revision, or it touches
every key that has an item. -/
def Recovers (s : Store) (entries : List Entry) : Prop :=
  0 < s.currentRevision ∨ (∃ e ∈ entries, ∃ key value, e.payload = .normal (.set key value)) ∨
    ∀ key, (s.treeMap[key]?).isSome → ∃ e ∈ entries, e.payload = .normal (.delete key)

/-- An entry without a `Set` that has a key is a `Delete`. -/
theorem delete_of_key? {e : Entry} {key : Bytes} (hk : e.key? = some key)
    (hns : ∀ key value, e.payload ≠ .normal (.set key value)) :
    e.payload = .normal (.delete key) := by
  unfold Entry.key? at hk
  split at hk
  · rename_i req hp
    cases req with
    | set k v => exact absurd hp (hns k v)
    | delete k =>
      rw [hp]
      congr 2
      exact Option.some.inj hk
  · contradiction

theorem key?_of_delete {e : Entry} {key : Bytes} (h : e.payload = .normal (.delete key)) :
    e.key? = some key := by
  unfold Entry.key?
  rw [h]
  rfl

/-- Without a live key and without a `Set` nothing succeeds. -/
theorem apply_revision_zero {m : StateMachineStore} (hm : m.store.Coherent)
    (hz : m.store.currentRevision = 0) (es : List Entry)
    (hns : ¬∃ e ∈ es, ∃ key value, e.payload = .normal (.set key value)) :
    (m.apply es).1.store.currentRevision = 0 := by
  induction es generalizing m with
  | nil => exact hz
  | cons e es ih =>
    rw [List.exists_mem_cons_iff, not_or] at hns
    have hstore := (applyEntry_eq hm e).1
    have hrev := e.effect_revision hm
    -- there is no `Set`, and nothing to delete
    have hfail : e.succeeds m.store = false := by
      unfold Entry.succeeds
      split
      · rename_i req hp
        cases req with
        | set k v => exact absurd ⟨k, v, hp⟩ hns.1
        | delete k => simp [RaftRequest.succeeds, RaftRequest.change, hm.live_eq_none hz]
      · rfl
    rw [apply_cons]
    apply ih _ _ hns.2
    · rw [hstore]
      exact e.effect_coherent hm
    · rw [hstore, hrev, hfail, hz]
      rfl

structure Imported (n m : StateMachineStore) : Prop where
  coherent : n.store.Coherent
  exporter : m.store.Coherent
  live : ∀ k, n.store.live k = m.store.live k
  vacant : ∀ k, n.store.treeMap[k]? = none ↔ m.store.live k = none

/-- At revision zero a placeholder of the exporter that the rest of the log does not
touch makes a current read fail there only. -/
theorem Imported.recovers {n m : StateMachineStore} (h : Imported n m) {es : List Entry}
    (hsame : SameOutcome n m es) : Recovers m.store es := by
  by_contra hrec
  unfold Recovers at hrec
  push Not at hrec
  obtain ⟨hzero, hns, key, hitem, hnd⟩ := hrec
  have hz : m.store.currentRevision = 0 := by
    have := m.store.currentRevision_nonneg
    omega
  have hm0 : (m.apply es).1.store.currentRevision = 0 := by
    apply apply_revision_zero h.exporter hz es
    rintro ⟨e, he, k, v, hp⟩
    exact hns e he k v hp
  -- the exporter still has an item for the key, the importing node has none
  have hmitem := (apply_treeMap h.exporter es key).mpr (Or.inl hitem)
  have hnitem : ¬((n.apply es).1.store.treeMap[key]?).isSome := by
    rw [apply_treeMap h.coherent es key]
    rintro (hn | ⟨e, he, hk⟩)
    · rw [(h.vacant key).mpr (h.exporter.live_eq_none hz key)] at hn
      contradiction
    · exact hnd e he (delete_of_key? hk (fun k v => hns e he k v))
  have heq := hsame.2.2 key
  rw [Store.range_single_current (apply_coherent h.coherent es),
    Store.range_single_current (apply_coherent h.exporter es), hsame.2.1, hm0,
    if_neg (lt_irrefl 0), if_neg (lt_irrefl 0),
    if_pos (Option.not_isSome_iff_eq_none.mp hnitem),
    if_neg (fun hn => by rw [hn] at hmitem; contradiction)] at heq
  contradiction

/-- If the rest of the log recovers and leaves the revision at zero, it has deleted
every key that has an item at either node. -/
theorem Imported.treeMap_isSome_iff {n m : StateMachineStore} (h : Imported n m)
    {es : List Entry} (hrec : Recovers m.store es)
    (hfinal : ¬0 < (m.apply es).1.store.currentRevision) (key : Bytes) :
    ((n.apply es).1.store.treeMap[key]?).isSome ↔
      ((m.apply es).1.store.treeMap[key]?).isSome := by
  obtain ⟨hle, hlt⟩ := apply_revision_le h.exporter es
  have hnn := m.store.currentRevision_nonneg
  have hz : m.store.currentRevision = 0 := by omega
  rw [apply_treeMap h.coherent es key, apply_treeMap h.exporter es key,
    (h.vacant key).mpr (h.exporter.live_eq_none hz key)]
  rcases hrec with hpos | hset | hdel
  · omega
  · have := hlt hset
    omega
  · constructor
    · rintro (hn | hn)
      · contradiction
      · exact Or.inr hn
    · rintro (hm | hm)
      · obtain ⟨e, he, hp⟩ := hdel key hm
        exact Or.inr ⟨e, he, key?_of_delete hp⟩
      · exact Or.inr hm

theorem Imported.sameOutcome {n m : StateMachineStore} (h : Imported n m) {es : List Entry}
    (hrev : n.store.currentRevision = m.store.currentRevision) (hrec : Recovers m.store es) :
    SameOutcome n m es := by
  have hlive : SameLive n.store m.store := ⟨h.coherent, h.exporter, hrev, h.live⟩
  obtain ⟨hfinal, hres⟩ := apply_sameLive hlive es
  refine ⟨hres, hfinal.revision, ?_⟩
  intro key
  rw [Store.range_single_current (apply_coherent h.coherent es),
    Store.range_single_current (apply_coherent h.exporter es), hfinal.revision, hfinal.live]
  by_cases hpos : 0 < (m.apply es).1.store.currentRevision
  · rw [if_pos hpos, if_pos hpos]
  · have hnone : (n.apply es).1.store.treeMap[key]? = none ↔
        (m.apply es).1.store.treeMap[key]? = none := by
      rw [← Option.not_isSome_iff_eq_none, ← Option.not_isSome_iff_eq_none,
        h.treeMap_isSome_iff hrec hpos key]
    rw [if_neg hpos, if_neg hpos]
    simp only [hnone]

/-- The comparison of a node whose store was imported with the exporting node,
over the rest of the log. -/
theorem sameOutcome_imported_iff {m n : StateMachineStore} (hm : m.store.Coherent)
    {t : Store} {kvEntries : List SnapshotEntry} (hexp : m.store.IsExport kvEntries)
    (hn : n.store = t.importSnapshotData kvEntries) (es : List Entry) :
    SameOutcome n m es ↔ m.store.TipLive ∧ Recovers m.store es := by
  obtain ⟨hnc, hnrev, hnlive, hntree⟩ := Store.importSnapshotData_spec t hm hexp
  rw [← hn] at hnc hnrev hnlive hntree
  have himported : Imported n m := ⟨hnc, hm, hnlive, hntree⟩
  have htip := Store.maxModRev_eq_iff hm hexp
  rw [← hnrev] at htip
  constructor
  · intro hsame
    refine ⟨htip.mp ?_, himported.recovers hsame⟩
    -- both nodes make the same steps, so the revisions differ in the end as at the cut
    have hdiff := apply_sameKeys ⟨hnc, hm, fun k => by rw [hnlive]⟩ es
    have hrev := hsame.2.1
    omega
  · rintro ⟨hlive, hrec⟩
    exact himported.sameOutcome (htip.mpr hlive) hrec

/-- Snapshot plus rest against full replay, for every log and every cut: the
answers to the rest of the log, the final revision and all current reads agree
exactly if the newest change before the cut is alive, and the store leaves
revision zero or the rest deletes every key that has an item. -/
theorem snapshot_then_rest_iff (toVec : FullSnapshotData → Except String Bytes)
    (fromSlice : Bytes → Except String FullSnapshotData) (init other : StateMachineStore)
    (hinit : init.store.Coherent) (l1 l2 : List Entry) (kvEntries : List SnapshotEntry)
    (hexp : (init.apply l1).1.store.IsExport kvEntries)
    (hserde : RoundTrips toVec fromSlice ((init.apply l1).1.fullSnapshotData kvEntries)) :
    ∃ snap, ((init.apply l1).1.buildSnapshot toVec kvEntries).2 = .ok snap ∧
      (other.installSnapshot fromSlice snap).2 = .ok () ∧
      ((((other.installSnapshot fromSlice snap).1.apply l2).2 =
            (init.apply (l1 ++ l2)).2.drop l1.length ∧
          ((other.installSnapshot fromSlice snap).1.apply l2).1.store.currentRevision =
            (init.apply (l1 ++ l2)).1.store.currentRevision ∧
          ∀ key, ((other.installSnapshot fromSlice snap).1.apply l2).1.store.range key [] 0 none =
            (init.apply (l1 ++ l2)).1.store.range key [] 0 none) ↔
        (init.apply l1).1.store.TipLive ∧ Recovers (init.apply l1).1.store l2) := by
  obtain ⟨snap, hbuild, hinstall, hstore⟩ := installSnapshot_built hserde other
  refine ⟨snap, hbuild, hinstall, ?_⟩
  have hdrop : (init.apply (l1 ++ l2)).2.drop l1.length = ((init.apply l1).1.apply l2).2 := by
    rw [apply_append]
    exact List.drop_left' (apply_length init l1)
  have hfinal : (init.apply (l1 ++ l2)).1 = ((init.apply l1).1.apply l2).1 := by
    rw [apply_append]
  rw [hdrop, hfinal]
  exact sameOutcome_imported_iff (apply_coherent hinit l1) hexp hstore l2

def knownToVec (d : FullSnapshotData) (text : String) (x : FullSnapshotData) :
    Except String Bytes :=
  if x = d then .ok (utf8Bytes text.toList) else .error "unknown snapshot"

def knownFromSlice (d : FullSnapshotData) (text : String) (x : Bytes) :
    Except String FullSnapshotData :=
  if x = utf8Bytes text.toList then .ok d else .error "unknown text"

theorem known_roundTrips (d : FullSnapshotData) (text : String) :
    RoundTrips (knownToVec d text) (knownFromSlice d text) d :=
  ⟨utf8Bytes text.toList, if_pos rfl, if_pos rfl⟩

def setEntry (index : ℕ) (key value : Bytes) : Entry := ⟨⟨⟨1, 1⟩, index⟩, .normal (.set key value)⟩

def deleteEntry (index : ℕ) (key : Bytes) : Entry := ⟨⟨⟨1, 1⟩, index⟩, .normal (.delete key)⟩

def emptyNode : StateMachineStore := new (Store.new none)

/-- The snapshot of a node that has set `a`. -/
def oneKeyData : FullSnapshotData :=
  ⟨some ⟨⟨1, 1⟩, 1⟩, ⟨none, ⟨[], []⟩⟩, [⟨[97], [1], 1, 1, 1⟩]⟩

def oneKeyJson : String :=
  "\x7b\"last_applied_log\":\x7b\"leader_id\":\x7b\"term\":1,\"node_id\":1\x7d,\"index\":1\x7d," ++
  "\"last_membership\":\x7b\"log_id\":null,\"membership\":\x7b\"configs\":[],\"nodes\":\x7b\x7d\x7d\x7d," ++
  "\"kv_entries\":[[[97],[1],1,1,1]]\x7d"

theorem snapshot_then_rest_of_one_key :
    ∃ snap, ((emptyNode.apply [setEntry 1 [97] [1]]).1.buildSnapshot
        (knownToVec oneKeyData oneKeyJson) oneKeyData.kvEntries).2 = .ok snap ∧
      (emptyNode.installSnapshot (knownFromSlice oneKeyData oneKeyJson) snap).2 = .ok () ∧
      ((((emptyNode.installSnapshot (knownFromSlice oneKeyData oneKeyJson) snap).1.apply
              [setEntry 2 [98] [2]]).2 =
            (emptyNode.apply ([setEntry 1 [97] [1]] ++ [setEntry 2 [98] [2]])).2.drop 1 ∧
          ((emptyNode.installSnapshot (knownFromSlice oneKeyData oneKeyJson) snap).1.apply
              [setEntry 2 [98] [2]]).1.store.currentRevision =
            (emptyNode.apply ([setEntry 1 [97] [1]] ++
              [setEntry 2 [98] [2]])).1.store.currentRevision ∧
          ∀ key, ((emptyNode.installSnapshot (knownFromSlice oneKeyData oneKeyJson) snap).1.apply
              [setEntry 2 [98] [2]]).1.store.range key [] 0 none =
            (emptyNode.apply ([setEntry 1 [97] [1]] ++
              [setEntry 2 [98] [2]])).1.store.range key [] 0 none) ↔
        (emptyNode.apply [setEntry 1 [97] [1]]).1.store.TipLive ∧
          Recovers (emptyNode.apply [setEntry 1 [97] [1]]).1.store [setEntry 2 [98] [2]]) :=
  snapshot_then_rest_iff _ _ emptyNode emptyNode
    ((Store.new_represents none).coherent (Store.new_wf none)) _ _ _
    (List.Perm.of_eq (by decide)) (known_roundTrips oneKeyData oneKeyJson)

/-- The snapshot of a node that has set `a`, set `b` and deleted `b`. -/
def afterDeleteData : FullSnapshotData :=
  ⟨some ⟨⟨1, 1⟩, 3⟩, ⟨none, ⟨[], []⟩⟩, [⟨[97], [1], 1, 1, 1⟩]⟩

def afterDeleteJson : String :=
  "\x7b\"last_applied_log\":\x7b\"leader_id\":\x7b\"term\":1,\"node_id\":1\x7d,\"index\":3\x7d," ++
  "\"last_membership\":\x7b\"log_id\":null,\"membership\":\x7b\"configs\":[],\"nodes\":\x7b\x7d\x7d\x7d," ++
  "\"kv_entries\":[[[97],[1],1,1,1]]\x7d"

/-- The log sets `a`, sets `b`, deletes `b` and, after the snapshot, sets `c`: the
full replay gives `c` revision 4, the node with the snapshot gives it revision 2. -/
theorem snapshot_loses_deleted_revisions :
    (emptyNode.apply [setEntry 1 [97] [1], setEntry 2 [98] [2],
        deleteEntry 3 [98]]).1.store.IsExport afterDeleteData.kvEntries ∧
    ∃ snap, ((emptyNode.apply [setEntry 1 [97] [1], setEntry 2 [98] [2],
          deleteEntry 3 [98]]).1.buildSnapshot (knownToVec afterDeleteData afterDeleteJson)
          afterDeleteData.kvEntries).2 = .ok snap ∧
      (emptyNode.installSnapshot (knownFromSlice afterDeleteData afterDeleteJson) snap).2 =
        .ok () ∧
      ((emptyNode.installSnapshot (knownFromSlice afterDeleteData afterDeleteJson) snap).1.apply
        [setEntry 4 [99] [3]]).2 = [⟨2⟩] ∧
      (emptyNode.apply [setEntry 1 [97] [1], setEntry 2 [98] [2], deleteEntry 3 [98],
        setEntry 4 [99] [3]]).2.drop 3 = [⟨4⟩] := by
  have hserde : RoundTrips (knownToVec afterDeleteData afterDeleteJson)
      (knownFromSlice afterDeleteData afterDeleteJson)
      ((emptyNode.apply [setEntry 1 [97] [1], setEntry 2 [98] [2],
        deleteEntry 3 [98]]).1.fullSnapshotData afterDeleteData.kvEntries) :=
    known_roundTrips afterDeleteData afterDeleteJson
  obtain ⟨snap, hbuild, hinstall, hstore⟩ := installSnapshot_built hserde emptyNode
  refine ⟨List.Perm.of_eq (by decide), snap, hbuild, hinstall, ?_, by decide⟩
  rw [apply_congr (n := new (emptyNode.store.importSnapshotData afterDeleteData.kvEntries)) hstore]
  decide

end StateMachineStore
end MemEtcd
