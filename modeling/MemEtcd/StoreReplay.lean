import MemEtcd.StoreHistory

/-! The replay of WAL records. `set_for_replay` does to a store what the call did
that has written the record. -/
namespace MemEtcd

open VersionLog (cells Effective)

namespace Store

/-- A replayed change that has an effect becomes the next change of the log,
like the call it comes from. -/
theorem setForReplay_spec {s : Store} (hs : s.WF) {key : Bytes} {value : Option Bytes}
    (heff : value.isSome ∨ (s.view key).latestValue.value.isSome) :
    (s.setForReplay key value).WF ∧
      (s.setForReplay key value).view = Function.update s.view key
        ⟨key, (s.view key).revisions ++ [(s.valuesByRevision.latestRevision + 1 : ℤ)],
          (s.view key).latestValue.next (s.valuesByRevision.latestRevision + 1) value⟩ ∧
      (s.setForReplay key value).valuesByRevision = commitValue s.valuesByRevision
        ((s.view key).latestValue.next (s.valuesByRevision.latestRevision + 1) value) := by
  have hkey := view_key hs.toHeapOk key
  unfold setForReplay
  cases ht : s.treeMap[key]? with
  | some a =>
    have hview := view_of_owned ht
    dsimp only
    rw [← hview, if_neg, replayItem_eq, hkey]
    · exact ⟨⟨writeItem_heapOk hs.toHeapOk _ ht rfl, hs.indexed⟩,
        view_writeItem hs.toHeapOk _ ht, rfl⟩
    · rintro ⟨hdead, hnone⟩
      rcases heff with h | h
      · rw [Option.isNone_iff_eq_none.mp hnone] at h
        contradiction
      · rw [Option.isNone_iff_eq_none.mp hdead] at h
        contradiction
  | none =>
    have hview : s.view key = TreeItem.placeholder key := view_of_vacant ht
    have hsome : ¬value.isNone := by
      rcases heff with h | h
      · rw [← Option.not_isSome, h]
        decide
      · rw [hview] at h
        contradiction
    dsimp only
    rw [if_neg hsome, replayItem_eq, hview]
    exact ⟨addItem_wf hs _ _, view_addItem hs.toHeapOk _ _, rfl⟩

/-- The replay of a deletion does nothing when the key has no value. -/
theorem setForReplay_dead {s : Store} {key : Bytes} {value : Option Bytes}
    (h : ¬(value.isSome ∨ (s.view key).latestValue.value.isSome)) :
    s.setForReplay key value = s := by
  rw [not_or, Option.not_isSome_iff_eq_none, Option.not_isSome_iff_eq_none] at h
  obtain ⟨rfl, hdead⟩ := h
  unfold setForReplay
  cases ht : s.treeMap[key]? with
  | some a =>
    rw [view_of_owned ht] at hdead
    dsimp only
    rw [if_pos ⟨by rw [hdead]; rfl, rfl⟩]
  | none => rfl

theorem setForReplay_represents {s : Store} (hs : s.WF) {log : History} (h : s.Represents log)
    {key : Bytes} {value : Option Bytes} (heff : value.isSome ∨ (cells log key).value.isSome) :
    (s.setForReplay key value).WF ∧
      (s.setForReplay key value).Represents (log ++ [(key, value)]) ∧
      (s.setForReplay key value).valuesByRevision.earliestRevision =
        s.valuesByRevision.earliestRevision := by
  rw [← h.latest] at heff
  obtain ⟨hw, hview, hd⟩ := setForReplay_spec hs heff
  obtain ⟨d, hde, hr⟩ := h.revisions key
  refine ⟨hw, h.write hde ?_ hd, by rw [hd, earliestRevision_commitValue]⟩
  rw [hview, hr]

/-- Replaying a log rebuilds a store with that log. -/
theorem replay_represents (wal : Option WalMode) {log : History} (h : Effective log) :
    (log.foldl (fun s c => s.setForReplay c.1 c.2) (new wal)).WF ∧
      (log.foldl (fun s c => s.setForReplay c.1 c.2) (new wal)).Represents log ∧
      (log.foldl (fun s c => s.setForReplay c.1 c.2)
        (new wal)).valuesByRevision.earliestRevision = 0 := by
  induction h with
  | nil => exact ⟨new_wf wal, new_represents wal, rfl⟩
  | append _ heff ih =>
    obtain ⟨hw, hr, he⟩ := ih
    rw [List.foldl_append, List.foldl_cons, List.foldl_nil]
    obtain ⟨hw', hr', he'⟩ := setForReplay_represents hw hr heff
    exact ⟨hw', hr', he'.trans he⟩

end Store
end MemEtcd
