import MemEtcd.Raft

/-! Snapshots of the Raft state machine. A snapshot holds the live values only;
the revision counter of the importing store is set to the largest revision among
them. -/
namespace MemEtcd

open VersionLog (Cell)

/-! ### The effect of a log entry -/

def Entry.effect (e : Entry) (s : Store) : Store :=
  match e.payload with
  | .normal req => (req.run s).1
  | _ => s

def Entry.succeeds (e : Entry) (s : Store) : Bool :=
  match e.payload with
  | .normal req => req.succeeds s
  | _ => false

def Entry.key? (e : Entry) : Option Bytes :=
  match e.payload with
  | .normal req => some req.change.1
  | _ => none

theorem Entry.effect_coherent (e : Entry) {s : Store} (hs : s.Coherent) : (e.effect s).Coherent := by
  unfold effect
  split
  · rename_i req _
    exact req.run_coherent hs
  · exact hs

theorem Entry.effect_revision (e : Entry) {s : Store} (hs : s.Coherent) :
    (e.effect s).currentRevision = s.currentRevision + (if e.succeeds s then 1 else 0) := by
  unfold effect succeeds
  split
  · rename_i req _
    exact (req.run_spec hs.toWF).1
  · simp

theorem Entry.effect_treeMap (e : Entry) {s : Store} (hs : s.Coherent) (k : Bytes) :
    ((e.effect s).treeMap[k]?).isSome ↔ (s.treeMap[k]?).isSome ∨ e.key? = some k := by
  unfold effect key?
  split
  · rename_i req _
    rw [req.run_treeMap hs.toWF, Option.some_inj, eq_comm (a := k)]
  · simp

namespace StateMachineStore

theorem applyEntry_eq {m : StateMachineStore} (hm : m.store.Coherent) (e : Entry) :
    (m.applyEntry e).1.store = e.effect m.store ∧
      (m.applyEntry e).2 = ⟨(e.effect m.store).currentRevision⟩ := by
  unfold applyEntry Entry.effect
  cases e.payload with
  | blank => exact ⟨rfl, rfl⟩
  | normal req => exact ⟨rfl, congrArg RaftResponse.mk (req.run_spec hm.toWF).2.1⟩
  | membership mem => exact ⟨rfl, rfl⟩

theorem apply_cons (m : StateMachineStore) (e : Entry) (es : List Entry) :
    m.apply (e :: es) = (((m.applyEntry e).1.apply es).1,
      (m.applyEntry e).2 :: ((m.applyEntry e).1.apply es).2) := rfl

theorem apply_length (m : StateMachineStore) (es : List Entry) :
    (m.apply es).2.length = es.length := by
  induction es generalizing m with
  | nil => rfl
  | cons e es ih => rw [apply_cons, List.length_cons, List.length_cons, ih]

theorem apply_append (m : StateMachineStore) (es es' : List Entry) :
    m.apply (es ++ es') = (((m.apply es).1.apply es').1,
      (m.apply es).2 ++ ((m.apply es).1.apply es').2) := by
  induction es generalizing m with
  | nil => rfl
  | cons e es ih =>
    rw [List.cons_append, apply_cons, ih, apply_cons]
    rfl

theorem apply_congr {m n : StateMachineStore} (h : m.store = n.store) (es : List Entry) :
    (m.apply es).2 = (n.apply es).2 := by
  induction es generalizing m n with
  | nil => rfl
  | cons e es ih =>
    have hentry : (m.applyEntry e).1.store = (n.applyEntry e).1.store ∧
        (m.applyEntry e).2 = (n.applyEntry e).2 := by
      unfold applyEntry
      cases e.payload with
      | blank => exact ⟨h, by dsimp only; rw [h]⟩
      | normal req => exact ⟨by dsimp only; rw [h], by dsimp only; rw [h]⟩
      | membership mem => exact ⟨h, by dsimp only; rw [h]⟩
    rw [apply_cons, apply_cons]
    dsimp only
    rw [hentry.2, ih hentry.1]

theorem apply_coherent {m : StateMachineStore} (hm : m.store.Coherent) (es : List Entry) :
    (m.apply es).1.store.Coherent := by
  induction es generalizing m with
  | nil => exact hm
  | cons e es ih =>
    rw [apply_cons]
    apply ih
    rw [(applyEntry_eq hm e).1]
    exact e.effect_coherent hm

theorem apply_treeMap {m : StateMachineStore} (hm : m.store.Coherent) (es : List Entry)
    (k : Bytes) :
    ((m.apply es).1.store.treeMap[k]?).isSome ↔
      (m.store.treeMap[k]?).isSome ∨ ∃ e ∈ es, e.key? = some k := by
  induction es generalizing m with
  | nil => simp [apply]
  | cons e es ih =>
    have hstore := (applyEntry_eq hm e).1
    rw [apply_cons, ih (by rw [hstore]; exact e.effect_coherent hm), hstore,
      e.effect_treeMap hm k, List.exists_mem_cons_iff, or_assoc]

/-- Revisions never decrease, and every entry with a `Set` advances them. -/
theorem apply_revision_le {m : StateMachineStore} (hm : m.store.Coherent) (es : List Entry) :
    m.store.currentRevision ≤ (m.apply es).1.store.currentRevision ∧
      ((∃ e ∈ es, ∃ key value, e.payload = .normal (.set key value)) →
        m.store.currentRevision < (m.apply es).1.store.currentRevision) := by
  induction es generalizing m with
  | nil => exact ⟨le_refl _, by rintro ⟨e, he, _⟩; contradiction⟩
  | cons e es ih =>
    have hstore := (applyEntry_eq hm e).1
    have hrev := e.effect_revision hm
    obtain ⟨hle, hlt⟩ := ih (m := (m.applyEntry e).1) (by rw [hstore]; exact e.effect_coherent hm)
    rw [hstore, hrev] at hle hlt
    rw [apply_cons]
    dsimp only
    refine ⟨by split_ifs at hle <;> omega, ?_⟩
    rintro ⟨e', he', key, value, hp⟩
    rcases List.mem_cons.mp he' with rfl | he'
    · have hs : e'.succeeds m.store = true := by
        unfold Entry.succeeds
        rw [hp]
        simp [RaftRequest.succeeds, RaftRequest.change]
      rw [hs, if_pos rfl] at hle
      omega
    · have := hlt ⟨e', he', key, value, hp⟩
      split_ifs at this <;> omega

end StateMachineStore

/-! ### Two stores under the same log -/

/-- The same keys are alive in both stores; revisions may differ. -/
structure SameKeys (s t : Store) : Prop where
  left : s.Coherent
  right : t.Coherent
  alive : ∀ k, (s.live k).isSome = (t.live k).isSome

/-- Both stores have the same live values and the same revision. -/
structure SameLive (s t : Store) : Prop where
  left : s.Coherent
  right : t.Coherent
  revision : s.currentRevision = t.currentRevision
  live : ∀ k, s.live k = t.live k

theorem SameLive.sameKeys {s t : Store} (h : SameLive s t) : SameKeys s t :=
  ⟨h.left, h.right, fun k => by rw [h.live]⟩

theorem SameKeys.succeeds_eq {s t : Store} (h : SameKeys s t) (e : Entry) :
    e.succeeds s = e.succeeds t := by
  unfold Entry.succeeds RaftRequest.succeeds
  split
  · rw [h.alive]
  · rfl

/-- Requests succeed on the same keys, so they keep the same keys alive. -/
theorem SameKeys.effect {s t : Store} (h : SameKeys s t) (e : Entry) :
    SameKeys (e.effect s) (e.effect t) := by
  refine ⟨e.effect_coherent h.left, e.effect_coherent h.right, ?_⟩
  intro k
  have hsucc := h.succeeds_eq e
  unfold Entry.effect
  unfold Entry.succeeds at hsucc
  split
  · rename_i req hp
    rw [hp] at hsucc
    dsimp only at hsucc
    rw [(req.run_spec h.left.toWF).2.2, (req.run_spec h.right.toWF).2.2, ← hsucc]
    split_ifs
    · rw [Cell.live_isSome, Cell.live_isSome, Cell.next_value, Cell.next_value]
    · exact h.alive k
  · exact h.alive k

theorem SameLive.effect {s t : Store} (h : SameLive s t) (e : Entry) :
    SameLive (e.effect s) (e.effect t) := by
  have hsucc := h.sameKeys.succeeds_eq e
  refine ⟨e.effect_coherent h.left, e.effect_coherent h.right, ?_, ?_⟩
  · rw [e.effect_revision h.left, e.effect_revision h.right, hsucc, h.revision]
  · intro k
    unfold Entry.effect
    unfold Entry.succeeds at hsucc
    split
    · rename_i req hp
      rw [hp] at hsucc
      dsimp only at hsucc
      rw [(req.run_spec h.left.toWF).2.2, (req.run_spec h.right.toWF).2.2, ← hsucc, h.live,
        h.revision]
    · exact h.live k

namespace StateMachineStore

/-- The rest of the log advances both revisions by the same amount. -/
theorem apply_sameKeys {m n : StateMachineStore} (h : SameKeys m.store n.store)
    (es : List Entry) :
    (m.apply es).1.store.currentRevision - m.store.currentRevision =
      (n.apply es).1.store.currentRevision - n.store.currentRevision := by
  induction es generalizing m n with
  | nil => simp [apply]
  | cons e es ih =>
    have hm := (applyEntry_eq h.left e).1
    have hn := (applyEntry_eq h.right e).1
    have hstep := ih (m := (m.applyEntry e).1) (n := (n.applyEntry e).1)
      (by rw [hm, hn]; exact h.effect e)
    rw [apply_cons, apply_cons]
    rw [hm, hn, e.effect_revision h.left, e.effect_revision h.right, h.succeeds_eq e] at hstep
    dsimp only
    omega

/-- From the same live state the rest of the log gets the same answers. -/
theorem apply_sameLive {m n : StateMachineStore} (h : SameLive m.store n.store)
    (es : List Entry) :
    SameLive (m.apply es).1.store (n.apply es).1.store ∧ (m.apply es).2 = (n.apply es).2 := by
  induction es generalizing m n with
  | nil => exact ⟨h, rfl⟩
  | cons e es ih =>
    obtain ⟨hm, hmr⟩ := applyEntry_eq h.left e
    obtain ⟨hn, hnr⟩ := applyEntry_eq h.right e
    have he := h.effect e
    obtain ⟨hlive, hres⟩ := ih (m := (m.applyEntry e).1) (n := (n.applyEntry e).1)
      (by rw [hm, hn]; exact he)
    rw [apply_cons, apply_cons]
    refine ⟨hlive, ?_⟩
    dsimp only
    rw [hmr, hnr, hres, he.revision]

end StateMachineStore

/-! ### Export and import -/

def SnapshotEntry.cell (e : SnapshotEntry) : Value :=
  ⟨e.createRevision, e.modRevision, e.version, some e.value⟩

def SnapshotEntry.item (e : SnapshotEntry) : TreeItem := ⟨e.key, [e.modRevision], e.cell⟩

namespace Store

/-- The export lists every live value once. -/
theorem mem_exportSnapshotData {s : Store} (e : SnapshotEntry) :
    e ∈ s.exportSnapshotData ↔ s.live e.key = some e.cell := by
  unfold exportSnapshotData
  simp only [List.mem_filterMap, Prod.exists, Std.ExtTreeMap.mem_toList_iff_getElem?_eq_some,
    Option.map_eq_some_iff]
  unfold live
  rw [Cell.live_eq_some_iff]
  constructor
  · rintro ⟨k, a, ha, v, hv, rfl⟩
    rw [view_of_owned ha]
    refine ⟨?_, by rw [hv]; rfl⟩
    unfold SnapshotEntry.cell
    rw [← hv]
  · rintro ⟨hc, _⟩
    cases ha : s.treeMap[e.key]? with
    | none =>
      have hv : (s.view e.key).latestValue.value = none := by
        simp [view, item?, ha, TreeItem.placeholder, Cell.blank]
      rw [hc] at hv
      contradiction
    | some a =>
      rw [view_of_owned ha] at hc
      refine ⟨e.key, a, ha, e.value, by rw [hc]; rfl, ?_⟩
      rw [hc]
      rfl

theorem exportSnapshotData_nodup (s : Store) : (s.exportSnapshotData.map (·.key)).Nodup := by
  apply List.pairwise_map.mpr
  apply List.Pairwise.filterMap _ _ Std.ExtTreeMap.distinct_keys_toList
  intro a b hab x hx y hy
  obtain ⟨_, _, rfl⟩ := Option.map_eq_some_iff.mp hx
  obtain ⟨_, _, rfl⟩ := Option.map_eq_some_iff.mp hy
  intro he
  exact hab (Std.LawfulEqCmp.compare_eq_iff_eq.mpr he)

theorem importEntry_eq (s : Store) (e : SnapshotEntry) :
    s.importEntry e =
      s.addItem e.item (s.valuesByRevision.set (e.modRevision.toNat - 1) e.cell).2 := rfl

/-- The insertion loop of the import. -/
theorem foldl_importEntry_spec (es : List SnapshotEntry) (hn : (es.map (·.key)).Nodup)
    {s : Store} (hs : s.WF) :
    (es.foldl importEntry s).WF ∧
      (∀ e ∈ es, (es.foldl importEntry s).view e.key = e.item) ∧
      (∀ k, k ∉ es.map (·.key) → (es.foldl importEntry s).view k = s.view k) ∧
      ∀ k, ((es.foldl importEntry s).treeMap[k]?).isSome ↔
        (s.treeMap[k]?).isSome ∨ k ∈ es.map (·.key) := by
  induction es generalizing s with
  | nil => exact ⟨hs, by simp, fun _ _ => rfl, by simp⟩
  | cons e es ih =>
    rw [List.map_cons, List.nodup_cons] at hn
    have hview : (s.importEntry e).view = Function.update s.view e.key e.item := by
      rw [importEntry_eq]
      exact view_addItem hs.toHeapOk _ _
    have htree : ∀ k, ((s.importEntry e).treeMap[k]?).isSome ↔
        (s.treeMap[k]?).isSome ∨ k = e.key := by
      intro k
      rw [importEntry_eq, addItem_treeMap]
      by_cases hk : e.item.key = k
      · rw [if_pos hk]
        exact iff_of_true rfl (Or.inr hk.symm)
      · rw [if_neg hk]
        have hk' : ¬k = e.key := fun h => hk h.symm
        simp only [hk', or_false]
    have hwf : (s.importEntry e).WF := by
      rw [importEntry_eq]
      exact addItem_wf hs _ _
    obtain ⟨iw, iin, iout, it⟩ := ih hn.2 hwf
    rw [List.foldl_cons]
    refine ⟨iw, ?_, ?_, ?_⟩
    · intro e' he'
      rcases List.mem_cons.mp he' with rfl | he'
      · rw [iout _ hn.1, hview, Function.update_self]
      · exact iin e' he'
    · intro k hk
      rw [List.map_cons, List.mem_cons, not_or] at hk
      rw [iout k hk.2, hview, Function.update_of_ne hk.1]
    · intro k
      rw [it, htree, List.map_cons, List.mem_cons, or_assoc]

theorem cleared_wf (s : Store) (values : BlockDeque Value storeBlock) :
    { s with prefixMap := ∅, treeMap := ∅, valuesByRevision := values : Store }.WF := by
  refine ⟨⟨?_, ?_⟩, ?_⟩
  · intro k a h
    simp at h
  · intro p t a h
    simp [bucket?] at h
  · intro k a h
    simp at h

theorem latestRevision_foldl_push (n : ℕ) (v : Value) (d : BlockDeque Value storeBlock) :
    ((List.replicate n v).foldl (fun d v => (d.push v).2) d).latestRevision =
      d.latestRevision + n := by
  induction n generalizing d with
  | zero => rfl
  | succ n ih =>
    rw [List.replicate_succ, List.foldl_cons, ih, BlockDeque.latestRevision_push]
    omega

theorem foldl_importEntry_latest (es : List SnapshotEntry) (s : Store) :
    (es.foldl importEntry s).valuesByRevision.latestRevision =
        s.valuesByRevision.latestRevision ∧
      SameNotify s (es.foldl importEntry s) := by
  induction es generalizing s with
  | nil => exact ⟨rfl, rfl, rfl, rfl, rfl⟩
  | cons e es ih =>
    obtain ⟨hl, hn⟩ := ih (s.importEntry e)
    rw [List.foldl_cons, hl]
    exact ⟨BlockDeque.latestRevision_set _ _ _, hn.watchers, hn.watchCounter, hn.notifyTx, hn.wal⟩

/-- An import sets the revision counter to the largest revision it brings. -/
theorem importSnapshotData_latest (s : Store) (entries : List SnapshotEntry) :
    (s.importSnapshotData entries).valuesByRevision.latestRevision = (maxModRev entries).toNat := by
  unfold importSnapshotData
  rw [(foldl_importEntry_latest entries _).1]
  change BlockDeque.latestRevision (List.foldl _ s.valuesByRevision.clear _) = _
  rw [latestRevision_foldl_push]
  exact Nat.zero_add _

theorem importSnapshotData_sameNotify (s : Store) (entries : List SnapshotEntry) :
    SameNotify s (s.importSnapshotData entries) := by
  have h := (foldl_importEntry_latest entries { s with
    prefixMap := ∅, treeMap := ∅
    valuesByRevision := (List.replicate (maxModRev entries).toNat ⟨0, 0, 0, none⟩).foldl
      (fun d v => (d.push v).2) s.valuesByRevision.clear }).2
  exact ⟨h.watchers, h.watchCounter, h.notifyTx, h.wal⟩

theorem maxModRev_spec (es : List SnapshotEntry) (hpos : ∀ e ∈ es, 0 < e.modRevision) :
    0 ≤ maxModRev es ∧ (∀ e ∈ es, e.modRevision ≤ maxModRev es) ∧
      (maxModRev es = 0 ∨ ∃ e ∈ es, e.modRevision = maxModRev es) := by
  unfold maxModRev
  cases hm : (es.map (·.modRevision)).max? with
  | none =>
    rw [List.max?_eq_none_iff, List.map_eq_nil_iff] at hm
    rw [hm]
    simp
  | some m =>
    obtain ⟨hin, hle⟩ := List.max?_eq_some_iff.mp hm
    obtain ⟨e, he, hem⟩ := List.mem_map.mp hin
    have hp := hpos e he
    rw [Option.getD_some]
    refine ⟨by omega, ?_, Or.inr ⟨e, he, hem⟩⟩
    intro e' he'
    exact hle _ (List.mem_map_of_mem he')

namespace IsExport

variable {s : Store} {entries : List SnapshotEntry}

theorem mem_iff_live (he : s.IsExport entries) (e : SnapshotEntry) :
    e ∈ entries ↔ s.live e.key = some e.cell := by
  rw [List.Perm.mem_iff he, mem_exportSnapshotData]

theorem positive (he : s.IsExport entries) (hs : s.Coherent) :
    ∀ e ∈ entries, 0 < e.modRevision := by
  intro e h
  exact hs.positive _ _ ((he.mem_iff_live e).mp h)

theorem exists_entry (he : s.IsExport entries) {k : Bytes} {v : Value} (hv : s.live k = some v) :
    ∃ e ∈ entries, e.key = k ∧ e.cell = v := by
  obtain ⟨hc, hsome⟩ := Cell.live_eq_some_iff.mp hv
  obtain ⟨b, hb⟩ := Option.isSome_iff_exists.mp hsome
  rw [hc] at hb
  have hcell : SnapshotEntry.cell ⟨k, b, v.createRevision, v.modRevision, v.version⟩ = v := by
    unfold SnapshotEntry.cell
    rw [← hb]
  refine ⟨⟨k, b, v.createRevision, v.modRevision, v.version⟩, ?_, rfl, hcell⟩
  rw [he.mem_iff_live, hcell]
  exact hv

/-- A key is exported exactly if it is live. -/
theorem mem_keys_iff (he : s.IsExport entries) (k : Bytes) :
    k ∈ entries.map (·.key) ↔ s.live k ≠ none := by
  rw [List.mem_map]
  constructor
  · rintro ⟨e, hein, rfl⟩
    rw [(he.mem_iff_live e).mp hein]
    exact Option.some_ne_none _
  · intro hk
    obtain ⟨v, hv⟩ := Option.ne_none_iff_exists'.mp hk
    obtain ⟨e, hein, hkey, _⟩ := he.exists_entry hv
    exact ⟨e, hein, hkey⟩

theorem keys_nodup (he : s.IsExport entries) : (entries.map (·.key)).Nodup :=
  (List.Perm.map (·.key) he).nodup_iff.mpr (exportSnapshotData_nodup s)

end IsExport

theorem importSnapshotData_items (t : Store) {entries : List SnapshotEntry}
    (hn : (entries.map (·.key)).Nodup) :
    (t.importSnapshotData entries).WF ∧
      (∀ e ∈ entries, (t.importSnapshotData entries).view e.key = e.item) ∧
      (∀ k, k ∉ entries.map (·.key) →
        (t.importSnapshotData entries).view k = TreeItem.placeholder k) ∧
      ∀ k, ((t.importSnapshotData entries).treeMap[k]?).isSome ↔ k ∈ entries.map (·.key) := by
  obtain ⟨hw, hin, hout, htree⟩ := foldl_importEntry_spec entries hn (cleared_wf t
    ((List.replicate (maxModRev entries).toNat ⟨0, 0, 0, none⟩).foldl
      (fun d v => (d.push v).2) t.valuesByRevision.clear))
  refine ⟨hw, hin, ?_, ?_⟩
  · intro k hk
    refine (hout k hk).trans (view_of_vacant ?_)
    exact Std.ExtTreeMap.getElem?_empty
  · intro k
    refine (htree k).trans (or_iff_right ?_)
    rw [Std.ExtTreeMap.getElem?_empty]
    exact Bool.false_ne_true

/-- An import sets the revision to the largest one it brings, and no item is newer. -/
theorem importSnapshotData_coherent (t : Store) {entries : List SnapshotEntry}
    (hn : (entries.map (·.key)).Nodup) (hpos : ∀ e ∈ entries, 0 < e.modRevision) :
    (t.importSnapshotData entries).Coherent ∧
      (t.importSnapshotData entries).currentRevision = maxModRev entries := by
  obtain ⟨hnn, hle, -⟩ := maxModRev_spec entries hpos
  obtain ⟨hw, hin, hout, -⟩ := t.importSnapshotData_items hn
  have hcur : (t.importSnapshotData entries).currentRevision = maxModRev entries := by
    unfold currentRevision
    rw [importSnapshotData_latest]
    omega
  refine ⟨⟨hw, ?_, ?_⟩, hcur⟩
  · intro k
    rw [hcur]
    by_cases hk : k ∈ entries.map (·.key)
    · obtain ⟨e, hein, rfl⟩ := List.mem_map.mp hk
      rw [hin e hein]
      exact hle e hein
    · rw [hout k hk]
      exact hnn
  · intro k v hv
    by_cases hk : k ∈ entries.map (·.key)
    · obtain ⟨e, hein, rfl⟩ := List.mem_map.mp hk
      rw [live, hin e hein] at hv
      cases hv
      exact hpos e hein
    · rw [live, hout k hk] at hv
      contradiction

/-- What an import leaves, whatever the store held before: the live values of
the exporting store, at the largest revision among them. -/
theorem importSnapshotData_spec (t : Store) {s : Store} (hs : s.Coherent)
    {entries : List SnapshotEntry} (he : s.IsExport entries) :
    (t.importSnapshotData entries).Coherent ∧
      (t.importSnapshotData entries).currentRevision = maxModRev entries ∧
      (∀ k, (t.importSnapshotData entries).live k = s.live k) ∧
      ∀ k, (t.importSnapshotData entries).treeMap[k]? = none ↔ s.live k = none := by
  obtain ⟨hcoh, hcur⟩ := t.importSnapshotData_coherent he.keys_nodup (he.positive hs)
  obtain ⟨-, hin, hout, htree⟩ := t.importSnapshotData_items he.keys_nodup
  refine ⟨hcoh, hcur, ?_, ?_⟩
  · -- exported keys get their cells back, all others have no item
    intro k
    by_cases hk : k ∈ entries.map (·.key)
    · obtain ⟨e, hein, rfl⟩ := List.mem_map.mp hk
      rw [live, hin e hein, (he.mem_iff_live e).mp hein]
      rfl
    · rw [live, hout k hk]
      rw [he.mem_keys_iff, not_not] at hk
      rw [hk]
      rfl
  · intro k
    rw [← Option.not_isSome_iff_eq_none, htree, he.mem_keys_iff, not_not]

end Store

end MemEtcd
