import MemEtcd.ReorderBuffer
import MemEtcd.StoreReach

/-! The bookkeeping of revisions. The items, their revisions and the revision
array are tied together by the list of writes that took a revision; every
operation of the store keeps that tie. -/
namespace MemEtcd

open VersionLog (cells revisionsOf livePuts)
open ReorderBuffer (upTo)

inductive Operation where
  /-- `set`, or `delete` when the call has no value -/
  | call (c : Call)
  /-- `set_for_replay` -/
  | replay (key : Bytes) (value : Option Bytes)
  | compact (rev : ℤ)
  deriving DecidableEq, Repr

structure Write where
  rev : ℤ
  key : Bytes
  value : Option Bytes
  deriving DecidableEq, Repr

def Write.change (w : Write) : Bytes × Option Bytes := (w.key, w.value)

namespace Store

/-- An operation and the write it makes, if it succeeds. `set_for_replay` has no
result: it has succeeded if the current revision has moved. -/
def perform (s : Store) : Operation → Store × Option Write
  | .call c =>
    match s.call c with
    | (s, .ok rev) => (s, some ⟨rev, c.key, c.value⟩)
    | (s, .error _) => (s, none)
  | .replay key value =>
    let s' := s.setForReplay key value
    (s', if s'.currentRevision = s.currentRevision then none
      else some ⟨s'.currentRevision, key, value⟩)
  | .compact rev => ((s.compact rev).1, none)

def performAll (s : Store) : List Operation → Store × List Write
  | [] => (s, [])
  | op :: ops =>
    let (s, write) := s.perform op
    let (s, writes) := s.performAll ops
    (s, write.toList ++ writes)

/-- The revisions of a written item end with that of its newest value; an item
that was never written has none. -/
def Anchored (s : Store) : Prop :=
  ∀ k, (s.view k).revisions.getLast? =
    if (s.view k).latestValue.modRevision = 0 then none
    else some (s.view k).latestValue.modRevision

theorem new_anchored (wal : Option WalMode) : (new wal).Anchored := by
  intro k
  simp [view, item?, new, TreeItem.placeholder, VersionLog.Cell.blank]

theorem Anchored.congr {s s' : Store} (h : s.Anchored) (hv : s'.view = s.view) : s'.Anchored := by
  intro k
  rw [hv]
  exact h k

theorem Anchored.write {s s' : Store} (h : s.Anchored) {key : Bytes} {kept : List ℤ} {n : ℕ}
    {value : Option Bytes}
    (hv : s'.view = Function.update s.view key
      ⟨key, kept ++ [(n + 1 : ℤ)], (s.view key).latestValue.next (n + 1) value⟩) :
    s'.Anchored := by
  intro k
  rw [hv, Function.update_apply]
  split_ifs with hk hz hz
  · rw [VersionLog.Cell.next_modRevision] at hz
    omega
  · rw [VersionLog.Cell.next_modRevision, List.getLast?_append]
    rfl
  · rw [h k, if_pos hz]
  · rw [h k, if_neg hz]

/-- The items and the revision array after the given writes. Calls may be under way. -/
structure Tracked (s : Store) (writes : List Write) : Prop where
  heap : s.HeapOk
  represents : s.Represents (writes.map Write.change)
  revisions : writes.map Write.rev = upTo writes.length
  anchored : s.Anchored

structure Bookkept (s : Store) (writes : List Write) : Prop extends Tracked s writes where
  wf : s.WF

theorem new_bookkept (wal : Option WalMode) : (new wal).Bookkept [] :=
  ⟨⟨(new_wf wal).toHeapOk, new_represents wal, rfl, new_anchored wal⟩, new_wf wal⟩

/-- A write extends the list when it takes the next revision. -/
theorem Tracked.write {s s' : Store} {writes : List Write} (h : s.Tracked writes) {w : Write}
    (hh : s'.HeapOk) (hr : s'.Represents (writes.map Write.change ++ [w.change]))
    (hrev : w.rev = writes.length + 1) (ha : s'.Anchored) : s'.Tracked (writes ++ [w]) := by
  refine ⟨hh, ?_, ?_, ha⟩
  · rw [List.map_append, List.map_singleton]
    exact hr
  · rw [List.map_append, h.revisions, List.length_append, List.length_singleton,
      ReorderBuffer.upTo_succ, List.map_singleton, hrev]

/-- What changes neither a key nor the array leaves the writes as they are. -/
theorem Tracked.congr {s s' : Store} {writes : List Write} (h : s.Tracked writes)
    (hh : s'.HeapOk) (hview : s'.view = s.view)
    (hd : s'.valuesByRevision = s.valuesByRevision) : s'.Tracked writes :=
  ⟨hh, h.represents.congr hview hd, h.revisions, h.anchored.congr hview⟩

theorem Tracked.latestRevision {s : Store} {writes : List Write} (h : s.Tracked writes) :
    s.valuesByRevision.latestRevision = writes.length := by
  rw [h.represents.length, List.length_map]

theorem perform_refused {s : Store} {c : Call} {e : ℤ × Option KeyValue}
    (h : (s.call c).2 = .error e) : s.perform (.call c) = ((s.call c).1, none) := by
  simp only [perform]
  generalize s.call c = res at h
  obtain ⟨s', res⟩ := res
  cases h
  rfl

theorem perform_accepted {s : Store} {c : Call} {rev : ℤ} (h : (s.call c).2 = .ok rev) :
    s.perform (.call c) = ((s.call c).1, some ⟨rev, c.key, c.value⟩) := by
  simp only [perform]
  generalize s.call c = res at h
  obtain ⟨s', res⟩ := res
  cases h
  rfl

theorem call_bookkept {s : Store} {writes : List Write} (h : s.Bookkept writes) (c : Call) :
    (s.perform (.call c)).1.Bookkept (writes ++ (s.perform (.call c)).2.toList) := by
  have hw := call_wf h.wf c
  cases hv : verdict (writes.map Write.change) c with
  | error kv =>
    obtain ⟨hres, hview, hd⟩ := call_refused h.wf h.represents hv
    rw [perform_refused hres, Option.toList_none, List.append_nil]
    exact ⟨h.toTracked.congr hw.toHeapOk hview hd, hw⟩
  | ok u =>
    obtain ⟨hres, hr, _⟩ := call_accepted h.wf h.represents hv
    have hcheck := (h.represents.checkItem_view h.wf c).trans hv
    rw [perform_accepted hres, Option.toList_some]
    refine ⟨h.write (w := ⟨_, c.key, c.value⟩) hw.toHeapOk hr ?_ ?_, hw⟩
    · rw [List.length_map]
    · exact h.anchored.write (set_accepted h.wf hcheck).2.1

theorem replay_bookkept {s : Store} {writes : List Write} (h : s.Bookkept writes) (key : Bytes)
    (value : Option Bytes) :
    (s.perform (.replay key value)).1.Bookkept
      (writes ++ (s.perform (.replay key value)).2.toList) := by
  simp only [perform]
  by_cases heff : value.isSome ∨ (s.view key).latestValue.value.isSome
  · obtain ⟨hw, hview, hd⟩ := setForReplay_spec h.wf heff
    have hrev : (s.setForReplay key value).currentRevision = writes.length + 1 := by
      unfold currentRevision
      rw [hd, latestRevision_commitValue, h.latestRevision]
      push_cast
      rfl
    have hne : (s.setForReplay key value).currentRevision ≠ s.currentRevision := by
      rw [hrev]
      unfold currentRevision
      rw [h.latestRevision]
      omega
    rw [if_neg hne]
    refine ⟨h.write hw.toHeapOk ?_ hrev (h.anchored.write hview), hw⟩
    rw [h.represents.latest] at heff
    exact (setForReplay_represents h.wf h.represents heff).2.1
  · -- the deletion of a key without a value takes no revision
    rw [setForReplay_dead heff, if_pos rfl, Option.toList_none, List.append_nil]
    exact h

theorem compact_tracked {s : Store} {writes : List Write} (h : s.Tracked writes) (rev : ℤ) :
    (s.compact rev).1.Tracked writes :=
  ⟨compact_heapOk h.heap rev, compact_represents h.represents rev, h.revisions,
    h.anchored.congr (s.compact_view rev)⟩

theorem compact_bookkept {s : Store} {writes : List Write} (h : s.Bookkept writes) (rev : ℤ) :
    (s.compact rev).1.Bookkept writes := by
  have hw := compact_wf h.wf rev
  exact ⟨compact_tracked h.toTracked rev, hw⟩

theorem perform_bookkept {s : Store} {writes : List Write} (h : s.Bookkept writes)
    (op : Operation) : (s.perform op).1.Bookkept (writes ++ (s.perform op).2.toList) := by
  cases op with
  | call c => exact call_bookkept h c
  | replay key value => exact replay_bookkept h key value
  | compact rev =>
    change (s.compact rev).1.Bookkept (writes ++ [])
    rw [List.append_nil]
    exact compact_bookkept h rev

theorem performAll_bookkept {s : Store} {writes : List Write} (h : s.Bookkept writes)
    (ops : List Operation) :
    (s.performAll ops).1.Bookkept (writes ++ (s.performAll ops).2) := by
  induction ops generalizing s writes with
  | nil =>
    change s.Bookkept (writes ++ [])
    rw [List.append_nil]
    exact h
  | cons op ops ih =>
    have hrun := ih (perform_bookkept h op)
    rw [List.append_assoc] at hrun
    exact hrun

/-- The section of a call under the lock of its item. -/
theorem Tracked.locked {s : Store} {writes : List Write} (h : s.Tracked writes) {c : Call} {a : ℕ}
    (ha : s.treeMap[c.key]? = some a) (isNew : Bool) :
    (∃ kv, s.locked a isNew c.value c.required = (s, .error kv)) ∨
    ∃ done, (s.locked a isNew c.value c.required).2 = .ok done ∧
      done.newRev = writes.length + 1 ∧ done.key = c.key ∧
      done.value = (cells (writes.map Write.change) c.key).next (writes.length + 1) c.value ∧
      (s.locked a isNew c.value c.required).1.Tracked
        (writes ++ [⟨done.newRev, done.key, done.value.value⟩]) := by
  cases hc : checkItem (s.view c.key) c.value c.required with
  | error kv =>
    rw [view_of_owned ha] at hc
    exact Or.inl ⟨kv, locked_error hc⟩
  | ok u =>
    obtain ⟨hres, hview, hd⟩ := locked_ok h.heap ha isNew hc
    rw [h.latestRevision, h.represents.latest] at hres
    refine Or.inr ⟨_, hres, rfl, rfl, rfl, ?_⟩
    dsimp only
    rw [VersionLog.Cell.next_value]
    exact h.write (locked_heapOk h.heap ha isNew _ _)
      (locked_represents h.heap h.represents ha isNew hc) rfl (h.anchored.write hview)

/-! ### What the bookkeeping means -/

theorem Tracked.getElem? {s : Store} {writes : List Write} (h : s.Tracked writes) {w : Write}
    (hw : w ∈ writes) : ∃ n : ℕ, w.rev = n + 1 ∧ writes[n]? = some w := by
  obtain ⟨n, hn, hget⟩ := List.mem_iff_getElem.mp hw
  refine ⟨n, ?_, by rw [List.getElem?_eq_getElem hn, hget]⟩
  have hmap : (writes.map Write.rev)[n]? = (upTo writes.length)[n]? := by rw [h.revisions]
  rw [List.getElem?_map, List.getElem?_eq_getElem hn, hget] at hmap
  simpa [upTo, hn] using hmap

theorem Tracked.mem_revisionsOf {s : Store} {writes : List Write} (h : s.Tracked writes)
    {w : Write} (hw : w ∈ writes) : w.rev ∈ revisionsOf (writes.map Write.change) w.key := by
  obtain ⟨n, hrev, hget⟩ := h.getElem? hw
  refine VersionLog.mem_revisionsOf.mpr ⟨n, hrev, w.value, ?_⟩
  rw [List.getElem?_map, hget]
  rfl

/-- The array holds the value of every write that is not compacted. -/
theorem Tracked.stored {s : Store} {writes : List Write} (h : s.Tracked writes) {w : Write}
    (hw : w ∈ writes) (hc : s.compactedRevision < w.rev) :
    ∃ v, s.valuesByRevision.get (w.rev.toNat - 1) = .ok v ∧ v.value = w.value ∧
      v.modRevision = w.rev := by
  obtain ⟨n, hrev, hget⟩ := h.getElem? hw
  have hmem := h.mem_revisionsOf hw
  unfold compactedRevision at hc
  have hlog : (writes.map Write.change)[n]? = some (w.key, w.value) := by
    rw [List.getElem?_map, hget]
    rfl
  have hlast : cells ((writes.map Write.change).take (n + 1)) w.key =
      (cells ((writes.map Write.change).take n) w.key).next w.rev w.value := by
    rw [VersionLog.cells_take_succ hlog, hrev]
  have hcast : w.rev = (n + 1 : ℕ) := by
    rw [hrev]
    push_cast
    rfl
  rw [hcast] at hmem
  have hstored := h.represents.stored w.key (n + 1) (by omega) hmem
  rw [hlast] at hstored
  have hindex : w.rev.toNat - 1 = n + 1 - 1 := by omega
  have hvalue := s.valuesByRevision.get_eq_at? (n + 1 - 1)
  rw [hstored, ← hindex] at hvalue
  exact ⟨_, hvalue, VersionLog.Cell.next_value _ _ _, VersionLog.Cell.next_modRevision _ _ _⟩

/-- A written key has an item, whose revisions are in order, end with that of the
newest value and miss none that is not compacted. -/
theorem Tracked.item {s : Store} {writes : List Write} (h : s.Tracked writes) {w : Write}
    (hw : w ∈ writes) :
    ∃ item, s.item? w.key = some item ∧ item.revisions.Pairwise (· < ·) ∧
      item.revisions.getLast? = some item.latestValue.modRevision ∧
      ∀ w' ∈ writes, w'.key = w.key → s.compactedRevision < w'.rev →
        w'.rev ∈ item.revisions := by
  have hmem := h.mem_revisionsOf hw
  have hmod : (s.view w.key).latestValue.modRevision ≠ 0 := by
    intro hz
    have hlast := VersionLog.getLast?_revisionsOf (writes.map Write.change) w.key
    rw [← h.represents.latest, if_pos hz, List.getLast?_eq_none_iff] at hlast
    rw [hlast] at hmem
    contradiction
  have hitem : s.item? w.key = some (s.view w.key) := by
    cases ht : s.treeMap[w.key]? with
    | some a => exact item?_of_owned ht
    | none =>
      rw [view_of_vacant ht] at hmod
      exact absurd rfl hmod
  refine ⟨_, hitem, h.represents.revisions_sorted w.key, ?_, ?_⟩
  · rw [h.anchored w.key, if_neg hmod]
  · intro w' hw' hkey hc
    obtain ⟨d, hd, hr⟩ := h.represents.revisions w.key
    unfold compactedRevision at hc
    rw [hr, List.mem_filter]
    refine ⟨?_, decide_eq_true (by omega)⟩
    rw [← hkey]
    exact h.mem_revisionsOf hw'

/-- A live item was created by the first put since the last deletion of its key,
and counts the puts since then. -/
theorem Tracked.live {s : Store} {writes : List Write} (h : s.Tracked writes) {k : Bytes}
    {item : TreeItem} (hi : s.item? k = some item) (hlive : item.latestValue.value.isSome) :
    (livePuts (writes.map Write.change) k).head? = some item.latestValue.createRevision ∧
      ((livePuts (writes.map Write.change) k).length : ℤ) = item.latestValue.version := by
  have hview : s.view k = item := by
    unfold view
    rw [hi]
    rfl
  have hcell : cells (writes.map Write.change) k = item.latestValue := by
    rw [← h.represents.latest k, hview]
  have hspec := VersionLog.livePuts_spec (writes.map Write.change) k
  rw [hcell, if_pos hlive] at hspec
  exact hspec

/-- Every revision from 1 to the current one belongs to one successful operation,
and the array, the revisions of the items and their newest values are those of
the writes so far. -/
theorem performAll_bookkeeping (wal : Option WalMode) (ops : List Operation) :
    let s := ((new wal).performAll ops).1
    let writes := ((new wal).performAll ops).2
    writes.map Write.rev = upTo s.currentRevision.toNat ∧
    (∀ w ∈ writes, s.compactedRevision < w.rev →
      ∃ v, s.valuesByRevision.get (w.rev.toNat - 1) = .ok v ∧ v.value = w.value ∧
        v.modRevision = w.rev) ∧
    (∀ w ∈ writes, ∃ item, s.item? w.key = some item ∧ item.revisions.Pairwise (· < ·) ∧
      item.revisions.getLast? = some item.latestValue.modRevision ∧
      ∀ w' ∈ writes, w'.key = w.key → s.compactedRevision < w'.rev →
        w'.rev ∈ item.revisions) ∧
    (∀ k item, s.item? k = some item → item.latestValue.value.isSome →
      (livePuts (writes.map Write.change) k).head? = some item.latestValue.createRevision ∧
        ((livePuts (writes.map Write.change) k).length : ℤ) = item.latestValue.version) := by
  have h := performAll_bookkept (new_bookkept wal) ops
  rw [List.nil_append] at h
  refine ⟨?_, fun w hw hc => h.stored hw hc, fun w hw => h.item hw,
    fun k item hi hlive => h.live hi hlive⟩
  rw [h.revisions]
  unfold currentRevision
  rw [h.latestRevision]
  rfl

end Store
end MemEtcd
