import MemEtcd.DequeCommands
import MemEtcd.ImportSteps
import MemEtcd.Indexes

/-! The writes into the revision array. `BlockDeque::set` drops the old content of a slot
twice, which is harmless as long as that content is a placeholder without a value. This
module collects the calls of `set` that the operations of the store make, and shows that
each of them finds such a placeholder. -/
namespace MemEtcd

/-- A call of `BlockDeque::set`. -/
structure SlotWrite where
  values : BlockDeque Value storeBlock
  index : ℕ
  value : Value

namespace SlotWrite

def apply (w : SlotWrite) : Bool × BlockDeque Value storeBlock := w.values.set w.index w.value

/-- The call hits a slot that was never given a value. -/
structure Fresh (w : SlotWrite) : Prop where
  hits : w.apply.1 = true
  placeholder : ∃ v, w.values.get w.index = .ok v ∧ v.value = none ∧ v.modRevision = 0
  /-- what is written is no placeholder any more -/
  revision : w.value.modRevision = w.index + 1

theorem fresh_of_at? {w : SlotWrite} {v : Value}
    (hlo : w.values.earliestRevision ≤ w.index) (hhi : w.index < w.values.latestRevision)
    (hat : w.values.at? w.index = some v) (hvalue : v.value = none) (hmod : v.modRevision = 0)
    (hrev : w.value.modRevision = w.index + 1) : w.Fresh := by
  refine ⟨?_, ⟨v, ?_, hvalue, hmod⟩, hrev⟩
  · unfold apply
    rw [BlockDeque.set_fst, if_pos ⟨hlo, hhi⟩]
  · rw [BlockDeque.get_eq_at?, hat]

/-- The calls lead from one array to another: each is made on the array that the one before
has left. -/
def Chained (values : BlockDeque Value storeBlock) :
    List SlotWrite → BlockDeque Value storeBlock → Prop
  | [], result => result = values
  | w :: ws, result => w.values = values ∧ Chained w.apply.2 ws result

end SlotWrite

/-! ### The calls of each operation -/

/-- The call in the update of an item, in `set` and in `set_for_replay`: the slot was pushed
just before. -/
def updateWrite (item : TreeItem) (values : BlockDeque Value storeBlock) (value : Option Bytes) :
    SlotWrite :=
  let (index, values) := values.push placeholderValue
  let newRev : ℤ := index + 1
  ⟨values, newRev.toNat - 1,
    if item.latestValue.value.isSome then
      ⟨item.latestValue.createRevision, newRev, item.latestValue.version + 1, value⟩
    else ⟨newRev, newRev, 1, value⟩⟩

/-- The snapshots that a mutation may bring come from reachable stores. -/
def Mutation.Genuine : Mutation → Prop
  | .operation _ => True
  | .load entries => ∃ t : Store, t.Reached ∧ t.IsExport entries

namespace Store

def callWrites (s : Store) (c : Call) : List SlotWrite :=
  let (s, a, isNewItem) := s.entry c.key
  let s := if isNewItem then s.index c.key a else s
  match checkItem (s.deref a) c.value c.required with
  | .error _ => []
  | .ok () => [updateWrite (s.deref a) s.valuesByRevision c.value]

def replayWrites (s : Store) (key : Bytes) (value : Option Bytes) : List SlotWrite :=
  match s.treeMap[key]? with
  | some a =>
    if (s.deref a).latestValue.value.isNone ∧ value.isNone then []
    else [updateWrite (s.deref a) s.valuesByRevision value]
  | none =>
    if value.isNone then []
    else [updateWrite (TreeItem.placeholder key) s.valuesByRevision value]

/-- The calls of the insertion loop of `import_snapshot_data`. -/
def entryWrites (s : Store) : List SnapshotEntry → List SlotWrite
  | [] => []
  | e :: es =>
    ⟨s.valuesByRevision, e.modRevision.toNat - 1,
        ⟨e.createRevision, e.modRevision, e.version, some e.value⟩⟩ ::
      (s.importEntry e).entryWrites es

/-- The calls of `BlockDeque::set` that a mutation makes, in their order. -/
def slotWrites (s : Store) : Mutation → List SlotWrite
  | .operation (.call c) => s.callWrites c
  | .operation (.replay key value) => s.replayWrites key value
  | .operation (.compact _) => []
  | .load entries => (s.cleared entries).entryWrites entries

def pushedFor (s : Store) : List SlotWrite → BlockDeque Value storeBlock
  | [] => s.valuesByRevision
  | _ :: _ => (s.valuesByRevision.push placeholderValue).2

def startValues (s : Store) : Mutation → BlockDeque Value storeBlock
  | .operation (.compact rev) => (s.compact rev).1.valuesByRevision
  | .operation op => s.pushedFor (s.slotWrites (.operation op))
  | .load entries => (s.cleared entries).valuesByRevision

/-! ### They are the calls of the model -/

theorem callWrites_chained (s : Store) (c : Call) :
    SlotWrite.Chained (s.pushedFor (s.callWrites c)) (s.callWrites c)
      (s.call c).1.valuesByRevision := by
  have hupdate : (s.call c).1.valuesByRevision =
      ((s.touch c.key).locked (s.entry c.key).2.1 (s.entry c.key).2.2 c.value
        c.required).1.valuesByRevision := by
    rw [← update_eq_locked, call]
    rcases set_cases s c.key c.value c.required with ⟨kv, _, he⟩ | ⟨d, _, he⟩
    · rw [he]
    · rw [he]
      rfl
  have hwrites : s.callWrites c =
      match checkItem ((s.touch c.key).deref (s.entry c.key).2.1) c.value c.required with
      | .error _ => []
      | .ok () => [updateWrite ((s.touch c.key).deref (s.entry c.key).2.1)
          (s.touch c.key).valuesByRevision c.value] := rfl
  have htouch := touch_valuesByRevision s c.key
  rw [hupdate, hwrites]
  rcases locked_cases (s.touch c.key) (s.entry c.key).2.1 (s.entry c.key).2.2 c.value c.required with
    ⟨kv, hcheck, he⟩ | ⟨hcheck, he⟩
  · rw [he, hcheck]
    exact htouch
  · rw [he, hcheck]
    refine ⟨?_, rfl⟩
    change ((s.touch c.key).valuesByRevision.push placeholderValue).2 = _
    rw [htouch]
    rfl

theorem replayWrites_chained (s : Store) (key : Bytes) (value : Option Bytes) :
    SlotWrite.Chained (s.pushedFor (s.replayWrites key value)) (s.replayWrites key value)
      (s.setForReplay key value).valuesByRevision := by
  unfold setForReplay replayWrites
  cases s.treeMap[key]? with
  | some a =>
    dsimp only
    split_ifs
    · rfl
    · exact ⟨rfl, rfl⟩
  | none =>
    dsimp only
    split_ifs
    · rfl
    · exact ⟨rfl, rfl⟩

theorem entryWrites_chained (es : List SnapshotEntry) (s : Store) :
    SlotWrite.Chained s.valuesByRevision (s.entryWrites es)
      (es.foldl importEntry s).valuesByRevision := by
  induction es generalizing s with
  | nil => rfl
  | cons e es ih =>
    refine ⟨rfl, ?_⟩
    rw [List.foldl_cons]
    exact ih (s.importEntry e)

/-- The calls of a mutation make the array that it leaves, one after the other. -/
theorem mutate_chained (s : Store) (m : Mutation) :
    SlotWrite.Chained (s.startValues m) (s.slotWrites m) (s.mutate m).valuesByRevision := by
  cases m with
  | operation op =>
    cases op with
    | call c =>
      have hcall : (s.mutate (.operation (.call c))).valuesByRevision =
          (s.call c).1.valuesByRevision := by
        cases h : (s.call c).2 with
        | ok rev => rw [mutate, perform_accepted h]
        | error e => rw [mutate, perform_refused h]
      rw [hcall]
      exact s.callWrites_chained c
    | replay key value => exact s.replayWrites_chained key value
    | compact rev => rfl
  | load entries =>
    have hload : s.mutate (.load entries) = entries.foldl importEntry (s.cleared entries) := by
      rw [cleared_eq]
      rfl
    rw [hload]
    exact entryWrites_chained entries (s.cleared entries)

/-! ### They hit placeholders -/

/-- The slot of an update was pushed just before. -/
theorem updateWrite_fresh (item : TreeItem) (values : BlockDeque Value storeBlock)
    (value : Option Bytes) : (updateWrite item values value).Fresh := by
  have hb : values.earliestRevision ≤ values.latestRevision := Nat.le_add_left _ _
  have hindex : (updateWrite item values value).index = values.latestRevision := by
    change (((values.push placeholderValue).1 : ℤ) + 1).toNat - 1 = _
    rw [BlockDeque.push_fst]
    omega
  have hrev : (updateWrite item values value).value.modRevision = values.latestRevision + 1 := by
    unfold updateWrite
    dsimp only
    rw [BlockDeque.push_fst]
    split_ifs <;> rfl
  refine SlotWrite.fresh_of_at? (v := placeholderValue) ?_ ?_ ?_ rfl rfl ?_
  · rw [hindex]
    exact (BlockDeque.earliestRevision_push _ _).trans_le hb
  · rw [hindex]
    exact (Nat.lt_succ_self _).trans_eq (BlockDeque.latestRevision_push _ _).symm
  · rw [hindex]
    refine (BlockDeque.at?_push _ _ _).trans ?_
    rw [if_pos rfl]
  · rw [hrev, hindex]

theorem callWrites_fresh (s : Store) (c : Call) : ∀ w ∈ s.callWrites c, w.Fresh := by
  intro w hw
  unfold callWrites at hw
  dsimp only at hw
  split at hw
  · contradiction
  · rw [List.mem_singleton.mp hw]
    exact updateWrite_fresh _ _ _

theorem replayWrites_fresh (s : Store) (key : Bytes) (value : Option Bytes) :
    ∀ w ∈ s.replayWrites key value, w.Fresh := by
  intro w hw
  unfold replayWrites at hw
  split at hw
  · split_ifs at hw
    · contradiction
    · rw [List.mem_singleton.mp hw]
      exact updateWrite_fresh _ _ _
  · split_ifs at hw
    · contradiction
    · rw [List.mem_singleton.mp hw]
      exact updateWrite_fresh _ _ _

/-- The insertion loop: as long as the revisions differ, the slots of the entries that are
still to come keep their placeholders. -/
theorem entryWrites_fresh (es : List SnapshotEntry) (hn : (es.map (·.modRevision)).Nodup)
    (hpos : ∀ e ∈ es, 0 < e.modRevision) {s : Store}
    (hstart : s.valuesByRevision.earliestRevision = 0)
    (hroom : ∀ e ∈ es, e.modRevision ≤ s.valuesByRevision.latestRevision)
    (hblank : ∀ e ∈ es, s.valuesByRevision.at? (e.modRevision.toNat - 1) =
      some ⟨0, 0, 0, none⟩) : ∀ w ∈ s.entryWrites es, w.Fresh := by
  induction es generalizing s with
  | nil => nofun
  | cons e es ih =>
    rw [List.map_cons, List.nodup_cons] at hn
    have hp := hpos e List.mem_cons_self
    have hr := hroom e List.mem_cons_self
    intro w hw
    rcases List.mem_cons.mp hw with rfl | hw
    · refine SlotWrite.fresh_of_at? ?_ ?_ (hblank e List.mem_cons_self) rfl rfl ?_
      · dsimp only
        omega
      · dsimp only
        omega
      · dsimp only
        omega
    · refine ih hn.2 (fun e' he' => hpos e' (List.mem_cons_of_mem _ he')) ?_ ?_ ?_ w hw
      · exact (BlockDeque.earliestRevision_set _ _ _).trans hstart
      · intro e' he'
        rw [importEntry_eq]
        change e'.modRevision ≤ ((s.valuesByRevision.set _ _).2.latestRevision : ℤ)
        rw [BlockDeque.latestRevision_set]
        exact hroom e' (List.mem_cons_of_mem _ he')
      · intro e' he'
        have hp' := hpos e' (List.mem_cons_of_mem _ he')
        have hne : e'.modRevision ≠ e.modRevision := by
          intro hsame
          exact hn.1 (List.mem_map.mpr ⟨e', he', hsame⟩)
        rw [importEntry_eq]
        change (s.valuesByRevision.set _ _).2.at? _ = _
        rw [BlockDeque.at?_set, if_neg (by omega)]
        exact hblank e' (List.mem_cons_of_mem _ he')

/-! ### Distinct revisions -/

/-- A write takes a revision that is above all others. -/
theorem DistinctRevisions.write {s t : Store} (hs : s.Coherent) (h : s.DistinctRevisions)
    {key : Bytes} {item : TreeItem} (hmod : item.latestValue.modRevision = s.currentRevision + 1)
    (hv : t.view = Function.update s.view key item) : t.DistinctRevisions := by
  intro k k' hpos heq
  have hk := hs.bounded k
  have hk' := hs.bounded k'
  rw [hv, Function.update_apply] at hpos heq
  rw [Function.update_apply] at heq
  split_ifs at heq hpos with he he' he'
  · rw [he, he']
  · omega
  · omega
  · exact h k k' hpos heq

theorem DistinctRevisions.congr {s t : Store} (h : s.DistinctRevisions) (hv : t.view = s.view) :
    t.DistinctRevisions := by
  unfold DistinctRevisions
  rw [hv]
  exact h

theorem setForReplay_distinctRevisions {s : Store} (hs : s.Coherent) (h : s.DistinctRevisions)
    (key : Bytes) (value : Option Bytes) : (s.setForReplay key value).DistinctRevisions := by
  by_cases heff : value.isSome ∨ (s.view key).latestValue.value.isSome
  · exact h.write hs (VersionLog.Cell.next_modRevision _ _ _) (setForReplay_spec hs.toWF heff).2.1
  · rw [setForReplay_dead heff]
    exact h

theorem importSnapshotData_distinctRevisions (s : Store) {t : Store} (ht : t.DistinctRevisions)
    {entries : List SnapshotEntry} (he : t.IsExport entries) :
    (s.importSnapshotData entries).DistinctRevisions := by
  obtain ⟨_, hin, hout, _⟩ := s.importSnapshotData_items he.keys_nodup
  have hmod (k : Bytes) (hpos : 0 < ((s.importSnapshotData entries).view k).latestValue.modRevision) :
      ((s.importSnapshotData entries).view k).latestValue.modRevision =
        (t.view k).latestValue.modRevision := by
    by_cases hk : k ∈ entries.map (·.key)
    · obtain ⟨e, hein, rfl⟩ := List.mem_map.mp hk
      have hcell := (VersionLog.Cell.live_eq_some_iff.mp ((he.mem_iff_live e).mp hein)).1
      rw [hin e hein, hcell]
      rfl
    · rw [hout k hk] at hpos
      exact absurd hpos (lt_irrefl 0)
  intro k k' hpos heq
  apply ht k k'
  · rw [← hmod k hpos]
    exact hpos
  · rw [← hmod k hpos, ← hmod k' (heq ▸ hpos)]
    exact heq

theorem Reached.distinctRevisions {s : Store} (h : s.Reached) : s.DistinctRevisions := by
  induction h with
  | new wal => exact (new_represents wal).distinctRevisions
  | @call s c hs ih => exact call_distinctRevisions hs.coherent ih c
  | @replay s key value hs ih => exact setForReplay_distinctRevisions hs.coherent ih key value
  | @compact s rev _ ih => exact ih.congr (s.compact_view rev)
  | @watch s start endKey rev wantPrevKv _ ih =>
    rcases s.watch_store start endKey rev wantPrevKv with he | ⟨startRev, he⟩
    · rw [he]
      exact ih
    · rw [he]
      exact ih.congr rfl
  | unwatch start watcherId _ ih => exact ih.congr rfl
  | dispatch _ _ ih => exact ih.congr rfl
  | @load s t entries he _ _ iht _ => exact importSnapshotData_distinctRevisions s iht he

theorem IsExport.modRevisions_nodup {s : Store} {entries : List SnapshotEntry}
    (he : s.IsExport entries) (hs : s.Reached) : (entries.map (·.modRevision)).Nodup := by
  have hmod {e : SnapshotEntry} (h : e ∈ entries) :
      (s.view e.key).latestValue.modRevision = e.modRevision := by
    rw [(VersionLog.Cell.live_eq_some_iff.mp ((he.mem_iff_live e).mp h)).1]
    rfl
  have hkeys := he.keys_nodup
  refine (List.Nodup.of_map _ hkeys).map_on ?_
  intro e h e' h' hsame
  have hpos := he.positive hs.coherent e h
  apply List.inj_on_of_nodup_map hkeys h h'
  apply hs.distinctRevisions
  · rw [hmod h]
    exact hpos
  · rw [hmod h, hmod h', hsame]

/-! ### Every call -/

theorem at?_foldl_push (n : ℕ) (v : Value) (d : BlockDeque Value storeBlock) (i : ℕ) :
    ((List.replicate n v).foldl (fun d v => (d.push v).2) d).at? i =
      if d.latestRevision ≤ i ∧ i < d.latestRevision + n then some v else d.at? i := by
  induction n generalizing d with
  | zero => rw [if_neg (by omega), List.replicate_zero, List.foldl_nil]
  | succ n ih =>
    rw [List.replicate_succ, List.foldl_cons, ih, BlockDeque.latestRevision_push,
      BlockDeque.at?_push]
    split_ifs <;> first | rfl | omega

theorem earliestRevision_foldl_push (n : ℕ) (v : Value) (d : BlockDeque Value storeBlock) :
    ((List.replicate n v).foldl (fun d v => (d.push v).2) d).earliestRevision =
      d.earliestRevision := by
  induction n generalizing d with
  | zero => rfl
  | succ n ih => rw [List.replicate_succ, List.foldl_cons, ih, BlockDeque.earliestRevision_push]

/-- An import of what a reachable store has exported. -/
theorem importWrites_fresh (s : Store) {t : Store} (ht : t.Reached)
    {entries : List SnapshotEntry} (he : t.IsExport entries) :
    ∀ w ∈ (s.cleared entries).entryWrites entries, w.Fresh := by
  have hpos := he.positive ht.coherent
  obtain ⟨hnn, hle, _⟩ := maxModRev_spec entries hpos
  have hlatest : (s.cleared entries).valuesByRevision.latestRevision =
      (maxModRev entries).toNat := by
    rw [cleared_eq]
    exact (latestRevision_foldl_push _ _ _).trans (Nat.zero_add _)
  apply entryWrites_fresh entries (he.modRevisions_nodup ht) hpos
  · rw [cleared_eq]
    exact earliestRevision_foldl_push _ _ _
  · intro e hein
    have hmax := hle e hein
    rw [hlatest]
    omega
  · intro e hein
    have hmax := hle e hein
    have hp := hpos e hein
    rw [cleared_eq]
    refine (at?_foldl_push _ _ _ _).trans (if_pos ⟨Nat.zero_le _, ?_⟩)
    change e.modRevision.toNat - 1 < 0 + (maxModRev entries).toNat
    omega

theorem slotWrites_fresh (s : Store) {m : Mutation} (hm : m.Genuine) :
    ∀ w ∈ s.slotWrites m, w.Fresh := by
  cases m with
  | operation op =>
    cases op with
    | call c => exact s.callWrites_fresh c
    | replay key value => exact s.replayWrites_fresh key value
    | compact rev => nofun
  | load entries =>
    obtain ⟨t, ht, he⟩ := hm
    exact s.importWrites_fresh ht he

def runWrites (s : Store) : List Mutation → List SlotWrite
  | [] => []
  | m :: ms => s.slotWrites m ++ (s.mutate m).runWrites ms

theorem runWrites_fresh (s : Store) {ms : List Mutation} (hm : ∀ m ∈ ms, m.Genuine) :
    ∀ w ∈ s.runWrites ms, w.Fresh := by
  induction ms generalizing s with
  | nil => nofun
  | cons m ms ih =>
    intro w hw
    rcases List.mem_append.mp hw with hw | hw
    · exact s.slotWrites_fresh (hm m List.mem_cons_self) w hw
    · exact ih (s.mutate m) (fun m' h => hm m' (List.mem_cons_of_mem _ h)) w hw

/-- In every run of `set`, `delete`, `set_for_replay`, `compact` and imports of what
reachable stores have exported, every call of `BlockDeque::set` returns true, finds a
placeholder in its slot and leaves a value with the revision of the slot. The calls of a
mutation follow one another, and the last leaves the array of the store. -/
theorem slots_written_once (wal : Option WalMode) (ms : List Mutation)
    (hm : ∀ m ∈ ms, m.Genuine) :
    (∀ w ∈ (new wal).runWrites ms, w.apply.1 = true ∧
      (∃ v, w.values.get w.index = .ok v ∧ v.value = none ∧ v.modRevision = 0) ∧
      w.value.modRevision = w.index + 1) ∧
    ∀ (s : Store) (m : Mutation),
      SlotWrite.Chained (s.startValues m) (s.slotWrites m) (s.mutate m).valuesByRevision := by
  refine ⟨?_, mutate_chained⟩
  intro w hw
  obtain ⟨hhits, hplaceholder, hrevision⟩ := (new wal).runWrites_fresh hm w hw
  exact ⟨hhits, hplaceholder, hrevision⟩

def importingRun : List Mutation :=
  [.operation (.call ⟨[97], some [1], none⟩), .operation (.call ⟨[98], some [2], none⟩),
    .load [⟨[97], [1], 1, 1, 1⟩, ⟨[98], [2], 2, 2, 1⟩], .operation (.replay [97] (some [2]))]

theorem slots_written_once_by_import :
    ((new none).runWrites importingRun).map (·.index) = [0, 1, 0, 1, 2] ∧
      ∀ w ∈ (new none).runWrites importingRun, w.apply.1 = true ∧
        (∃ v, w.values.get w.index = .ok v ∧ v.value = none ∧ v.modRevision = 0) ∧
        w.value.modRevision = w.index + 1 := by
  refine ⟨by decide, (slots_written_once none importingRun ?_).1⟩
  intro m hm
  rcases List.mem_cons.mp hm with rfl | hm
  · trivial
  rcases List.mem_cons.mp hm with rfl | hm
  · trivial
  rcases List.mem_cons.mp hm with rfl | hm
  · exact ⟨_, .call ⟨[98], some [2], none⟩ (.call ⟨[97], some [1], none⟩ (.new none)),
      List.Perm.of_eq (by decide)⟩
  · rw [List.mem_singleton.mp hm]
    trivial

end Store
end MemEtcd
