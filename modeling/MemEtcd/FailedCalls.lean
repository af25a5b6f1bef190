import MemEtcd.WatchCoverage

/-! What a call that fails leaves behind. `set` creates the item of its key in both
indexes before it checks its conditions, and `watch` registers its watcher between its two
checks; neither takes this back when it fails. -/
namespace MemEtcd

open Std (ExtTreeMap)

section Maps

variable {α β : Type} {cmp : α → α → Ordering} [Std.TransCmp cmp]

theorem size_insert_vacant {m : ExtTreeMap α β cmp} {k : α} (h : m[k]? = none) (v : β) :
    (m.insert k v).size = m.size + 1 := by
  have hnew : ¬m.contains k = true := by
    rw [ExtTreeMap.contains_eq_isSome_getElem?, h]
    exact Bool.false_ne_true
  rw [ExtTreeMap.size_insert, if_neg hnew]

/-- A map that differs in one new entry at most is the old one when that is taken out. -/
theorem erase_vacant [Std.LawfulEqCmp cmp] {m m' : ExtTreeMap α β cmp} {k : α}
    (h : m[k]? = none) (hm : ∀ j, k ≠ j → m'[j]? = m[j]?) : m'.erase k = m := by
  apply ExtTreeMap.ext_getElem?
  intro j
  rw [ExtTreeMap.getElem?_erase]
  by_cases hj : k = j
  · rw [if_pos (Std.LawfulEqCmp.compare_eq_iff_eq.mpr hj), ← hj, h]
  · rw [if_neg (fun he => hj (Std.LawfulEqCmp.compare_eq_iff_eq.mp he)), hm j hj]

end Maps

namespace Store

/-! ### A failing `set` -/

/-- A failing `set` leaves the store with the item that it has created or found. -/
theorem set_failed {s : Store} {key : Bytes} {value : Option Bytes}
    {required : Option SetRequired} {e : ℤ × Option KeyValue}
    (h : (s.set key value required).2 = .error e) :
    (s.set key value required).1 = s.touch key := by
  rcases set_cases s key value required with ⟨kv, hu, he⟩ | ⟨c, _, he⟩
  · -- under the item's lock the check has failed, and nothing is written
    rw [he]
    rw [update_eq_locked] at hu ⊢
    rcases locked_cases (s.touch key) (s.entry key).2.1 (s.entry key).2.2 value required with
      ⟨kv', _, hl⟩ | ⟨_, hl⟩
    · rw [hl]
    · rw [hl] at hu
      contradiction
  · rw [he] at h
    contradiction

theorem touch_eq_self_iff (s : Store) (key : Bytes) :
    s.touch key = s ↔ (s.treeMap[key]?).isSome := by
  constructor
  · intro h
    have ho := s.touch_owned key
    rw [h] at ho
    rw [ho]
    rfl
  · intro h
    rcases entry_cases s key with ⟨a, _, he⟩ | ⟨hn, _⟩
    · unfold touch
      rw [he]
      rfl
    · rw [hn] at h
      contradiction

theorem touch_vacant {s : Store} {key : Bytes} (h : s.treeMap[key]? = none) :
    (s.touch key).items = s.items ++ [TreeItem.placeholder key] ∧
      (s.touch key).treeMap = s.treeMap.insert key s.items.length := by
  rcases entry_cases s key with ⟨a, ha, _⟩ | ⟨_, he⟩
  · rw [h] at ha
    contradiction
  · unfold touch
    rw [he]
    exact ⟨rfl, rfl⟩

/-- A failing `set` leaves the array, the watchers and the notifications as they are. It
leaves the whole store as it is exactly if its key has an item already; on any other key it
adds one to the heap and to `tree_map`, and the next call of the key finds it there. -/
theorem failed_set_unchanged_iff {s : Store} {key : Bytes} {value : Option Bytes}
    {required : Option SetRequired} {e : ℤ × Option KeyValue}
    (h : (s.set key value required).2 = .error e) :
    let t := (s.set key value required).1
    t.valuesByRevision = s.valuesByRevision ∧ SameNotify s t ∧
      (t = s ↔ (s.treeMap[key]?).isSome) ∧
      (s.treeMap[key]? = none → t.items = s.items ++ [TreeItem.placeholder key] ∧
        t.treeMap.size = s.treeMap.size + 1) := by
  dsimp only
  rw [set_failed h]
  refine ⟨touch_valuesByRevision s key, touch_sameNotify s key, touch_eq_self_iff s key, ?_⟩
  intro hn
  obtain ⟨hitems, htree⟩ := touch_vacant hn
  refine ⟨hitems, ?_⟩
  rw [htree, size_insert_vacant hn]

/-- A write of `a` that requires revision 5 while `a` is at revision 1. -/
theorem failed_set_on_item :
    let s := ((new none).call ⟨[97], some [1], none⟩).1
    (s.set [97] (some [2]) (some ⟨some 5, none, 0⟩)).2 =
        .error (1, some ⟨[97], [1], 1, 1, 1, 0⟩) ∧
      (s.set [97] (some [2]) (some ⟨some 5, none, 0⟩)).1 = s := by
  have hfail : (((new none).call ⟨[97], some [1], none⟩).1.set [97] (some [2])
      (some ⟨some 5, none, 0⟩)).2 = .error (1, some ⟨[97], [1], 1, 1, 1, 0⟩) := by decide
  exact ⟨hfail, (failed_set_unchanged_iff hfail).2.2.1.mpr (by decide)⟩

/-- The deletion of a key that was never written fails and leaves an item in both indexes.
A read of the key panics after it, where it found nothing before, and the next write of
the key is announced with a previous key-value. -/
theorem failed_set_leaves_item :
    let s := new none
    let t := (s.set [97] none none).1
    (s.set [97] none none).2 = .error (0, none) ∧
      s.treeMap.size = 0 ∧ t.treeMap.size = 1 ∧ s.bucket? [] [97] = none ∧
      t.bucket? [] [97] = some 0 ∧ s.items = [] ∧ t.items = [TreeItem.placeholder [97]] ∧
      s.range [97] [] 0 none = .ok ⟨[], 0, 0⟩ ∧
      t.range [97] [] 0 none = .error (.panic .revisionAssertion) ∧
      (s.set [97] (some [1]) none).1.notifyTx.map (·.msg.prevKv) = [none] ∧
      (t.set [97] (some [1]) none).1.notifyTx.map (·.msg.prevKv) =
        [some ⟨[97], [], 0, 0, 0, 0⟩] := by
  dsimp only
  refine ⟨?_, ?_, ?_, ?_, ?_, ?_, ?_, ?_, ?_, ?_, ?_⟩ <;> decide

/-! ### A refused `watch` -/

def watcherCount (s : Store) : ℕ := s.watchers.size

/-- `watch` refuses a request for compacted revisions before it registers a watcher, and
a range that is not within one bucket after that. -/
theorem watch_refused {s : Store} {start endKey : Bytes} {rev compacted : ℤ}
    {wantPrevKv : Bool} (h : (s.watch start endKey rev wantPrevKv).2 = .ok (.error compacted)) :
    (rev ≤ s.compactedRevision ∧ (s.watch start endKey rev wantPrevKv).1 = s) ∨
      (s.compactedRevision < rev ∧ (∃ e, prefixAndRangeOfKey start endKey = .error e) ∧
        (s.watch start endKey rev wantPrevKv).1 = s.register start endKey rev) := by
  unfold watch at h ⊢
  dsimp only at h ⊢
  split_ifs at h ⊢ with hc hpos
  · exact Or.inl ⟨hc.2, rfl⟩
  · exact absurd hpos (by omega)
  · -- the watcher is registered; only the range can be refused from here on
    cases ha : prefixAndRangeOfKey start endKey with
    | error e => exact Or.inr ⟨by omega, ⟨e, rfl⟩, rfl⟩
    | ok acc =>
      obtain ⟨pfx, lo, hi⟩ := acc
      rw [ha] at h
      dsimp only at h
      split at h
      · cases h
      · split at h
        · cases h
        · cases h
  · cases h
  · cases h

/-- The id of the next watcher is not in use. -/
theorem Enrolled.next_vacant {s : Store} (h : s.Enrolled) (start : Bytes) :
    s.watchers[(start, s.watchCounter + 1)]? = none := by
  cases hw : s.watchers[(start, s.watchCounter + 1)]? with
  | none => rfl
  | some w =>
    have hle := (h.entry start _ w hw).2.2.2
    omega

/-- A watch that is refused for compacted revisions leaves no watcher behind. One that is
refused for its range does: nobody holds it, and `watcher_count` counts it from then on. An
accepted watch is gone once it is cancelled. -/
theorem refused_watch_traceless_iff {s : Store} (hs : s.Reached) (start endKey : Bytes)
    (rev : ℤ) (wantPrevKv : Bool) :
    let t := (s.watch start endKey rev wantPrevKv).1
    (∀ compacted, (s.watch start endKey rev wantPrevKv).2 = .ok (.error compacted) →
      (t.watchers = s.watchers ↔ rev ≤ s.compactedRevision) ∧
      (t.watcherCount = s.watcherCount ↔ rev ≤ s.compactedRevision) ∧
      (s.compactedRevision < rev → t.watcherCount = s.watcherCount + 1)) ∧
    ∀ past id, (s.watch start endKey rev wantPrevKv).2 = .ok (.ok (past, id)) →
      (t.unwatch start id).watchers = s.watchers := by
  have hvacant := hs.enrolled.next_vacant start
  have hgrown (startRev : ℤ) :
      (s.register start endKey startRev).watcherCount = s.watcherCount + 1 :=
    size_insert_vacant hvacant _
  dsimp only
  constructor
  · intro compacted h
    rcases watch_refused h with ⟨hc, he⟩ | ⟨hc, _, he⟩
    · rw [he]
      exact ⟨iff_of_true rfl hc, iff_of_true rfl hc, fun hlt => absurd hc (by omega)⟩
    · have hcount := hgrown rev
      rw [he]
      refine ⟨iff_of_false ?_ (by omega), iff_of_false (by omega) (by omega), fun _ => hcount⟩
      intro hsame
      have hsize : (s.register start endKey rev).watcherCount = s.watcherCount :=
        congrArg ExtTreeMap.size hsame
      omega
  · intro past id h
    rw [watch_id h]
    apply erase_vacant hvacant
    intro e hne
    rcases s.watch_store start endKey rev wantPrevKv with he | ⟨startRev, he⟩
    · rw [he]
    · rw [he, getElem?_register, if_neg hne]

/-- Two watches that are refused, and one that is accepted and cancelled, in a store whose
revision 1 is compacted. -/
theorem refused_watch_when_compacted :
    let s := ((((new none).call ⟨[97], some [1], none⟩).1.call ⟨[97], some [2], none⟩).1.compact
      2).1
    (s.watch [97] [] 1 true).1.watchers = s.watchers ∧
      (s.watch [97] podKey 2 true).1.watcherCount = s.watcherCount + 1 ∧
      ((s.watch [97] [] 2 true).1.unwatch [97] 1).watchers = s.watchers := by
  have hs : ((((new none).call ⟨[97], some [1], none⟩).1.call ⟨[97], some [2], none⟩).1.compact
      2).1.Reached := .compact 2 (.call _ (.call _ (.new none)))
  refine ⟨?_, ?_, ?_⟩
  · exact ((refused_watch_traceless_iff hs [97] [] 1 true).1 1 (by decide)).1.mpr (by decide)
  · exact ((refused_watch_traceless_iff hs [97] podKey 2 true).1 1 (by decide)).2.2 (by decide)
  · exact (refused_watch_traceless_iff hs [97] [] 2 true).2
      [⟨⟨[97], [2], 1, 2, 2, 0⟩, none⟩] 1 (by decide)

/-- A watch from `/` up to a key of another bucket is refused and stays registered; a
write of `/` is sent to it. -/
theorem refused_watch_leaves_watcher :
    let s := new none
    let t := (s.watch [47] podKey 1 false).1
    (s.watch [47] podKey 1 false).2 = .ok (.error 0) ∧
      s.watcherCount = 0 ∧ t.watcherCount = 1 ∧ t.watchers ≠ s.watchers ∧
      t.watchers[(([47] : Bytes), (1 : ℤ))]? = some ⟨1, [47], podKey, 1⟩ ∧
      t.watchersToNotify [47] 1 = [1] := by
  refine ⟨by decide, by decide, by decide, ?_, by decide, by decide⟩
  intro h
  exact absurd (congrArg ExtTreeMap.size h) (by decide)

end Store
end MemEtcd
