import MemEtcd.Snapshot
import MemEtcd.StoreReplay

/-! The stores that a server can have: everything that operations, the replay of
the WAL, the dispatcher and imports of snapshots lead to. -/
namespace MemEtcd
namespace Store

inductive Reached : Store → Prop
  | new (wal : Option WalMode) : Reached (new wal)
  | call {s : Store} (c : Call) : Reached s → Reached (s.call c).1
  | replay {s : Store} (key : Bytes) (value : Option Bytes) :
      Reached s → Reached (s.setForReplay key value)
  | compact {s : Store} (rev : ℤ) : Reached s → Reached (s.compact rev).1
  | watch {s : Store} (start endKey : Bytes) (rev : ℤ) (wantPrevKv : Bool) :
      Reached s → Reached (s.watch start endKey rev wantPrevKv).1
  | unwatch {s : Store} (start : Bytes) (watcherId : ℤ) :
      Reached s → Reached (s.unwatch start watcherId)
  /-- the notify thread has received jobs -/
  | dispatch {s : Store} {jobs : List NotifyJob} : jobs <:+ s.notifyTx →
      Reached s → Reached { s with notifyTx := jobs }
  /-- a snapshot of a reachable store is installed -/
  | load {s t : Store} {entries : List SnapshotEntry} : t.IsExport entries →
      Reached t → Reached s → Reached (s.importSnapshotData entries)

/-! ### What the operations leave alone -/

theorem setForReplay_sameNotify (s : Store) (key : Bytes) (value : Option Bytes) :
    SameNotify s (s.setForReplay key value) := by
  unfold setForReplay
  cases s.treeMap[key]? with
  | none =>
    dsimp only
    split_ifs <;> exact ⟨rfl, rfl, rfl, rfl⟩
  | some a =>
    dsimp only
    split_ifs <;> exact ⟨rfl, rfl, rfl, rfl⟩

theorem compact_latest (s : Store) (rev : ℤ) :
    (s.compact rev).1.valuesByRevision.latestRevision = s.valuesByRevision.latestRevision := by
  cases h : (s.compact rev).2 with
  | error e => rw [compact_error h]
  | ok u =>
    obtain ⟨n, _, hlo, hhi, he⟩ := compact_ok h
    rw [he]
    exact BlockDeque.latestRevision_removeBefore _ n ⟨hlo, hhi.le⟩

theorem compact_sameNotify (s : Store) (rev : ℤ) : SameNotify s (s.compact rev).1 := by
  cases h : (s.compact rev).2 with
  | error e =>
    rw [compact_error h]
    exact ⟨rfl, rfl, rfl, rfl⟩
  | ok u =>
    obtain ⟨n, _, _, _, he⟩ := compact_ok h
    rw [he]
    exact ⟨rfl, rfl, rfl, rfl⟩

theorem compact_view (s : Store) (rev : ℤ) : (s.compact rev).1.view = s.view := by
  cases h : (s.compact rev).2 with
  | error e => rw [compact_error h]
  | ok u =>
    obtain ⟨n, _, _, _, he⟩ := compact_ok h
    rw [he]
    rfl

/-- `watch` registers a watcher or leaves the store. -/
theorem watch_store (s : Store) (startKey endKey : Bytes) (rev : ℤ) (wantPrevKv : Bool) :
    (s.watch startKey endKey rev wantPrevKv).1 = s ∨
      ∃ startRev, (s.watch startKey endKey rev wantPrevKv).1 =
        s.register startKey endKey startRev := by
  unfold watch
  dsimp only
  generalize (if rev ≤ 0 then s.currentRevision else rev) = startRev
  split_ifs
  · exact Or.inl rfl
  · refine Or.inr ⟨startRev, ?_⟩
    split
    · rfl
    · split
      · rfl
      · split <;> rfl
  · exact Or.inr ⟨startRev, rfl⟩

/-! ### Coherence -/

theorem setForReplay_coherent {s : Store} (hs : s.Coherent) (key : Bytes)
    (value : Option Bytes) : (s.setForReplay key value).Coherent := by
  by_cases heff : value.isSome ∨ (s.view key).latestValue.value.isSome
  · obtain ⟨hw, hview, hd⟩ := setForReplay_spec hs.toWF heff
    apply hs.write hw hview
    unfold currentRevision
    rw [hd, latestRevision_commitValue]
    push_cast
    rfl
  · rw [setForReplay_dead heff]
    exact hs

theorem compact_coherent {s : Store} (hs : s.Coherent) (rev : ℤ) :
    (s.compact rev).1.Coherent := by
  apply hs.congr (compact_wf hs.toWF rev) (s.compact_view rev)
  unfold currentRevision
  rw [compact_latest]

theorem Reached.coherent {s : Store} (h : s.Reached) : s.Coherent := by
  induction h with
  | new wal => exact (new_represents wal).coherent (new_wf wal)
  | call c _ ih => exact set_coherent ih c.key c.value c.required
  | replay key value _ ih => exact setForReplay_coherent ih key value
  | compact rev _ ih => exact compact_coherent ih rev
  | @watch s start endKey rev wantPrevKv _ ih =>
    rcases s.watch_store start endKey rev wantPrevKv with he | ⟨startRev, he⟩
    · rw [he]
      exact ih
    · rw [he]
      exact ih.congr ⟨⟨ih.owned, ih.listed⟩, ih.indexed⟩ rfl rfl
  | unwatch start watcherId _ ih => exact ih.congr ⟨⟨ih.owned, ih.listed⟩, ih.indexed⟩ rfl rfl
  | dispatch _ _ ih => exact ih.congr ⟨⟨ih.owned, ih.listed⟩, ih.indexed⟩ rfl rfl
  | load hexport _ _ ht _ => exact (importSnapshotData_spec _ ht hexport).1

end Store
end MemEtcd
