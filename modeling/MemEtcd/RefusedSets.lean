import MemEtcd.ConcurrentSet
import MemEtcd.StoreReach

/-! The revision that a refused call of `set` reports. It is read at the start of the
call, the key-value that is reported beside it under the lock of the item: a call on the
same key that commits in between makes the revision older than the key-value. -/
namespace MemEtcd

/-- The revision that a call has read and not used yet. -/
def SetPhase.sampled : SetPhase → Option ℤ
  | .started rev => some rev
  | .created rev _ => some rev
  | .ready rev _ _ => some rev
  | _ => none

/-- The revision and the key-value that a call is refused with. -/
def SetPhase.refusal : SetPhase → Option (ℤ × KeyValue)
  | .unlocked rev (.error (some kv)) => some (rev, kv)
  | .returned (.error (rev, some kv)) => some (rev, kv)
  | _ => none

theorem Store.checkItem_modRevision {item : TreeItem} {value : Option Bytes}
    {required : Option SetRequired} {kv : KeyValue}
    (h : checkItem item value required = .error (some kv)) :
    kv.modRevision = item.latestValue.modRevision := by
  unfold checkItem at h
  dsimp only at h
  split_ifs at h
  · cases h
    rfl
  · cases h
  · cases h

namespace Concurrent

variable {calls : ℕ → Call}

/-! ### One step -/

/-- Only a section that succeeds moves the items and the revision. -/
theorem step_moves {c c' : Concurrent} {a : SetAction} (ht : c.Tidy calls)
    (h : c.step calls a = some c') :
    (c'.store.view = c.store.view ∧ c'.store.currentRevision = c.store.currentRevision ∧
      ∀ j, a = .lock j → (c'.phases j).revision = none) ∨
    ∃ j item, a = .lock j ∧ (c'.phases j).revision ≠ none ∧
      c'.store.view = Function.update c.store.view (calls j).key item ∧
      item.latestValue.modRevision = c.store.currentRevision + 1 ∧
      c'.store.currentRevision = c.store.currentRevision + 1 := by
  have hsame {s : Store} (hv : s.valuesByRevision = c.store.valuesByRevision) :
      s.currentRevision = c.store.currentRevision := by
    unfold Store.currentRevision
    rw [hv]
  rcases step_cases h with ⟨i, rfl, hi, rfl⟩ | ⟨i, rev, rfl, hi, rfl⟩ |
    ⟨i, rev, b, rfl, hi, rfl⟩ | ⟨i, rev, b, isNew, rfl, hi, rfl⟩ | ⟨i, rev, res, rfl, hi, rfl⟩
  · exact Or.inl ⟨rfl, rfl, by nofun⟩
  · exact Or.inl ⟨Store.view_entry ht.heapOk _, hsame (Store.entry_valuesByRevision ..), by nofun⟩
  · exact Or.inl ⟨Store.view_index .., hsame (Store.valuesByRevision_index ..), by nofun⟩
  · have hown := ht.owned i b (by rw [hi]; rfl)
    rcases Store.locked_cases c.store b isNew (calls i).value (calls i).required with
      ⟨kv, _, he⟩ | ⟨_, he⟩
    · rw [he]
      refine Or.inl ⟨rfl, rfl, ?_⟩
      intro j hj
      cases hj
      dsimp only
      rw [Function.update_self]
      rfl
    · rw [he]
      refine Or.inr ⟨i, _, rfl, ?_, Store.view_writeItem ht.heapOk _ hown, ?_, ?_⟩
      · dsimp only
        rw [Function.update_self]
        exact Option.some_ne_none _
      · rw [updateItem_eq]
        exact VersionLog.Cell.next_modRevision _ _ _
      · rw [updateItem_eq]
        change ((commitValue _ _).latestRevision : ℤ) = _
        rw [latestRevision_commitValue]
        push_cast
        rfl
  · exact Or.inl ⟨Store.finish_view .., hsame (Store.finish_valuesByRevision ..), by nofun⟩

/-- A call keeps its outcome. -/
theorem step_outcome {c c' : Concurrent} {a : SetAction} (h : c.step calls a = some c') {j : ℕ}
    (hj : (c.phases j).outcome.isSome) : (c'.phases j).outcome = (c.phases j).outcome := by
  -- the calls that step before their section have no outcome yet
  have hkeep {i : ℕ} {phase : SetPhase} (hp : (c.phases i).outcome = none) :
      (Function.update c.phases i phase j).outcome = (c.phases j).outcome := by
    have hne : j ≠ i := by
      rintro rfl
      rw [hp] at hj
      contradiction
    rw [Function.update_of_ne hne]
  rcases step_cases h with ⟨i, rfl, hi, rfl⟩ | ⟨i, rev, rfl, hi, rfl⟩ |
    ⟨i, rev, b, rfl, hi, rfl⟩ | ⟨i, rev, b, isNew, rfl, hi, rfl⟩ | ⟨i, rev, res, rfl, hi, rfl⟩
  · exact hkeep (by rw [hi]; rfl)
  · exact hkeep (by rw [hi]; rfl)
  · exact hkeep (by rw [hi]; rfl)
  · exact hkeep (by rw [hi]; rfl)
  · dsimp only
    rw [Function.update_apply]
    split_ifs with hji
    · rw [hji, hi]
      exact congrArg some (Store.finish_outcome ..)
    · rfl

theorem lock_outcome {c c' : Concurrent} {j : ℕ} (h : c.step calls (.lock j) = some c') :
    (c.phases j).outcome = none ∧ (c'.phases j).outcome.isSome := by
  rcases step_cases h with ⟨i, ha, _⟩ | ⟨i, rev, ha, _⟩ | ⟨i, rev, b, ha, _⟩ |
    ⟨i, rev, b, isNew, ha, hi, rfl⟩ | ⟨i, rev, res, ha, _⟩
  · contradiction
  · contradiction
  · contradiction
  · cases ha
    dsimp only
    rw [Function.update_self, hi]
    exact ⟨rfl, rfl⟩
  · contradiction

/-- A call has read its revision before the step, or reads it in the step. -/
theorem step_sampled {c c' : Concurrent} {a : SetAction} (h : c.step calls a = some c') {i : ℕ}
    {rev : ℤ} (hi : (c'.phases i).sampled = some rev) :
    (c.phases i).sampled = some rev ∨
      a = .invoke i ∧ rev = c.store.currentRevision ∧ c'.store = c.store := by
  rcases step_cases h with ⟨j, rfl, hj, rfl⟩ | ⟨j, rev', rfl, hj, rfl⟩ |
    ⟨j, rev', b, rfl, hj, rfl⟩ | ⟨j, rev', b, isNew, rfl, hj, rfl⟩ | ⟨j, rev', res, rfl, hj, rfl⟩
  all_goals
    dsimp only at hi
    rw [Function.update_apply] at hi
    split_ifs at hi with hij
  · cases hi
    exact Or.inr ⟨by rw [hij], rfl, rfl⟩
  · exact Or.inl hi
  · rw [hij, hj]
    exact Or.inl hi
  · rw [hij, hj]
    exact Or.inl hi
  · exact Or.inl hi
  · rw [hij, hj]
    exact Or.inl hi
  · exact Or.inl hi
  · cases hi
  · exact Or.inl hi
  · cases hi
  · exact Or.inl hi

/-- A call is refused in its section, with the newest value of its item. -/
theorem step_refusal {c c' : Concurrent} {a : SetAction} (ht : c.Tidy calls)
    (h : c.step calls a = some c') {i : ℕ} {rev : ℤ} {kv : KeyValue}
    (hi : (c'.phases i).refusal = some (rev, kv)) :
    (c.phases i).refusal = some (rev, kv) ∨
      a = .lock i ∧ (c.phases i).sampled = some rev ∧
        kv.modRevision = (c.store.view (calls i).key).latestValue.modRevision := by
  rcases step_cases h with ⟨j, rfl, hj, rfl⟩ | ⟨j, rev', rfl, hj, rfl⟩ |
    ⟨j, rev', b, rfl, hj, rfl⟩ | ⟨j, rev', b, isNew, rfl, hj, rfl⟩ | ⟨j, rev', res, rfl, hj, rfl⟩
  all_goals
    dsimp only at hi
    rw [Function.update_apply] at hi
    split_ifs at hi with hij
  · cases hi
  · exact Or.inl hi
  · cases hi
  · cases hi
  · exact Or.inl hi
  · cases hi
  · exact Or.inl hi
  · refine Or.inr ⟨by rw [hij], ?_⟩
    have hown := ht.owned j b (by rw [hj]; rfl)
    rcases Store.locked_cases c.store b isNew (calls j).value (calls j).required with
      ⟨found, hcheck, he⟩ | ⟨_, he⟩
    · rw [he] at hi
      cases found with
      | none => cases hi
      | some kv' =>
        cases hi
        rw [hij, hj, Store.view_of_owned hown]
        exact ⟨rfl, Store.checkItem_modRevision hcheck⟩
    · rw [he] at hi
      cases hi
  · exact Or.inl hi
  · rw [hij, hj]
    refine Or.inl ?_
    cases res with
    | ok d => cases hi
    | error found =>
      cases found with
      | none => cases hi
      | some kv' => exact hi
  · exact Or.inl hi

/-! ### Between the two reads of a call -/

/-- No call whose section is in `mid` has committed the key of call `i`. -/
def Undisturbed (calls : ℕ → Call) (i : ℕ) (mid : List SetAction) (c : Concurrent) : Prop :=
  ∀ j, .lock j ∈ mid → (calls j).key = (calls i).key → (c.phases j).revision = none

/-- Call `i` has read the revision `rev`, and the steps `mid` were made since then. -/
structure Window (calls : ℕ → Call) (i : ℕ) (rev : ℤ) (mid : List SetAction) (c : Concurrent) :
    Prop where
  sampled : rev ≤ c.store.currentRevision
  locked : ∀ j, .lock j ∈ mid → (c.phases j).outcome.isSome
  covers : (c.store.view (calls i).key).latestValue.modRevision ≤ rev ↔ Undisturbed calls i mid c

/-- Later steps do not change what has happened in `mid`. -/
theorem undisturbed_step {c c' : Concurrent} {a : SetAction} (h : c.step calls a = some c')
    {i : ℕ} {mid : List SetAction} (hl : ∀ j, .lock j ∈ mid → (c.phases j).outcome.isSome) :
    (∀ j, .lock j ∈ mid → (c'.phases j).outcome.isSome) ∧
      (Undisturbed calls i mid c' ↔ Undisturbed calls i mid c) := by
  have hsame (j : ℕ) (hj : .lock j ∈ mid) : (c'.phases j).outcome = (c.phases j).outcome :=
    step_outcome h (hl j hj)
  refine ⟨?_, ?_⟩
  · intro j hj
    rw [hsame j hj]
    exact hl j hj
  · apply forall_congr'
    intro j
    apply forall_congr'
    intro hj
    unfold SetPhase.revision
    rw [hsame j hj]

theorem Window.step {c c' : Concurrent} {a : SetAction} {i : ℕ} {rev : ℤ} {mid : List SetAction}
    (hw : Window calls i rev mid c) (ht : c.Tidy calls) (h : c.step calls a = some c') :
    Window calls i rev (mid ++ [a]) c' := by
  obtain ⟨hlocked, hkept⟩ := undisturbed_step (i := i) h hw.locked
  have hlast : Undisturbed calls i (mid ++ [a]) c' ↔ Undisturbed calls i mid c ∧
      ∀ j, a = .lock j → (calls j).key = (calls i).key → (c'.phases j).revision = none := by
    rw [← hkept]
    unfold Undisturbed
    simp only [List.mem_append, List.mem_singleton, or_imp, forall_and, eq_comm]
  refine ⟨?_, ?_, ?_⟩
  · have hle := hw.sampled
    rcases step_moves ht h with ⟨_, hrev, _⟩ | ⟨j, item, _, _, _, _, hrev⟩
    · omega
    · omega
  · intro j hj
    rcases List.mem_append.mp hj with hj | hj
    · exact hlocked j hj
    · rw [← List.mem_singleton.mp hj] at h
      exact (lock_outcome h).2
  · rw [hlast]
    rcases step_moves ht h with ⟨hview, _, hnone⟩ | ⟨j, item, ha, hsome, hview, hmod, _⟩
    · rw [hview, hw.covers]
      exact (and_iff_left (fun j hj _ => hnone j hj)).symm
    · rw [hview, Function.update_apply]
      split_ifs with hkey
      · -- the commit is newer than what call `i` has read
        have hle := hw.sampled
        refine iff_of_false (by omega) ?_
        intro hall
        exact hsome (hall.2 j ha hkey.symm)
      · rw [hw.covers]
        refine (and_iff_left ?_).symm
        intro j' ha' hkey'
        rw [ha] at ha'
        cases ha'
        exact absurd hkey'.symm hkey

/-! ### A whole run -/

/-- The trace has call `i` read `rev` and later run its section, with the steps `mid` in
between. The key-value of the refusal is not newer than `rev` exactly if none of them has
committed the key. -/
def Explains (calls : ℕ → Call) (i : ℕ) (trace : List SetAction) (c : Concurrent) (rev : ℤ)
    (kv : KeyValue) : Prop :=
  ∃ past mid rest, trace = past ++ .invoke i :: mid ++ .lock i :: rest ∧
    (∀ j, .lock j ∈ mid → (c.phases j).outcome.isSome) ∧
    (kv.modRevision ≤ rev ↔ Undisturbed calls i mid c)

structure Observed (calls : ℕ → Call) (i : ℕ) (trace : List SetAction) (c : Concurrent) :
    Prop where
  tidy : c.Tidy calls
  bounded : ∀ k, (c.store.view k).latestValue.modRevision ≤ c.store.currentRevision
  pending : ∀ rev, (c.phases i).sampled = some rev →
    ∃ past mid, trace = past ++ .invoke i :: mid ∧ Window calls i rev mid c
  refused : ∀ rev kv, (c.phases i).refusal = some (rev, kv) → Explains calls i trace c rev kv

theorem start_observed {s : Store} (hs : s.Coherent) (calls : ℕ → Call) (i : ℕ) :
    Observed calls i [] (start s) :=
  ⟨start_tidy hs.toWF, hs.bounded, by nofun, by nofun⟩

theorem step_bounded {c c' : Concurrent} {a : SetAction} (ht : c.Tidy calls)
    (hb : ∀ k, (c.store.view k).latestValue.modRevision ≤ c.store.currentRevision)
    (h : c.step calls a = some c') (k : Bytes) :
    (c'.store.view k).latestValue.modRevision ≤ c'.store.currentRevision := by
  have hk := hb k
  rcases step_moves ht h with ⟨hview, hrev, _⟩ | ⟨j, item, _, _, hview, hmod, hrev⟩
  · rw [hview, hrev]
    exact hk
  · rw [hview, hrev, Function.update_apply]
    split_ifs
    · omega
    · omega

theorem step_observed {c c' : Concurrent} {a : SetAction} {i : ℕ} {trace : List SetAction}
    (ho : Observed calls i trace c) (h : c.step calls a = some c') :
    Observed calls i (trace ++ [a]) c' := by
  refine ⟨step_tidy ho.tidy h, step_bounded ho.tidy ho.bounded h, ?_, ?_⟩
  · intro rev hrev
    rcases step_sampled h hrev with hrev | ⟨rfl, rfl, hstore⟩
    · obtain ⟨past, mid, rfl, hw⟩ := ho.pending rev hrev
      exact ⟨past, mid ++ [a], by simp, hw.step ho.tidy h⟩
    · refine ⟨trace, [], rfl, ?_, by nofun, ?_⟩
      · rw [hstore]
      · rw [hstore]
        exact iff_of_true (ho.bounded _) (by nofun)
  · intro rev kv hkv
    rcases step_refusal ho.tidy h hkv with hkv | ⟨rfl, hrev, hmod⟩
    · obtain ⟨past, mid, rest, rfl, hl, hiff⟩ := ho.refused rev kv hkv
      obtain ⟨hl', hkept⟩ := undisturbed_step (i := i) h hl
      exact ⟨past, mid, rest ++ [a], by simp, hl', hiff.trans hkept.symm⟩
    · obtain ⟨past, mid, rfl, hw⟩ := ho.pending rev hrev
      obtain ⟨hl, hkept⟩ := undisturbed_step (i := i) h hw.locked
      refine ⟨past, mid, [], rfl, hl, ?_⟩
      rw [hmod, hw.covers, hkept]

/-- A refused call reports a revision that covers the key-value beside it exactly if no
call on the same key has committed between its first read and its section. -/
theorem refusal_covers_iff {s₀ : Store} (hs : s₀.Reached) (calls : ℕ → Call)
    (trace : List SetAction) (c : Concurrent) (hrun : (start s₀).run calls trace = some c)
    (i : ℕ) (rev : ℤ) (kv : KeyValue) (hi : c.phases i = .returned (.error (rev, some kv))) :
    ∃ past mid rest, trace = past ++ .invoke i :: mid ++ .lock i :: rest ∧
      (kv.modRevision ≤ rev ↔
        ∀ j, .lock j ∈ mid → (calls j).key = (calls i).key → (c.phases j).revision = none) := by
  have ho : Observed calls i ([] ++ trace) c :=
    PartialRun.run_trace_induct step_observed (start_observed hs.coherent calls i) hrun
  obtain ⟨past, mid, rest, htrace, _, hiff⟩ := ho.refused rev kv (by rw [hi]; rfl)
  exact ⟨past, mid, rest, htrace, hiff⟩

/-- A call that requires revision 5 of `a`, one that puts `a` and one that puts `b`. -/
def staleCalls : ℕ → Call
  | 0 => ⟨[97], some [1], some ⟨some 5, none, 0⟩⟩
  | 1 => ⟨[97], some [2], none⟩
  | _ => ⟨[98], some [3], none⟩

/-- The put of `a` has returned before the first call starts; the put of `b` commits between
its two reads. -/
def lateTrace : List SetAction :=
  [.invoke 1, .entry 1, .lock 1, .ret 1, .invoke 0, .entry 0, .invoke 2, .entry 2, .index 2,
    .lock 2, .ret 2, .lock 0, .ret 0]

theorem refusal_covers_of_late_call :
    ∃ c kv, (start ((Store.new none).call ⟨[97], some [0], none⟩).1).run staleCalls lateTrace =
        some c ∧ c.store.currentRevision = 3 ∧
      c.phases 0 = .returned (.error (2, some kv)) ∧ kv.modRevision = 2 ∧
      ∃ past mid rest, lateTrace = past ++ .invoke 0 :: mid ++ .lock 0 :: rest ∧
        (kv.modRevision ≤ 2 ↔ ∀ j, .lock j ∈ mid → (staleCalls j).key = (staleCalls 0).key →
          (c.phases j).revision = none) := by
  obtain ⟨c, hrun, hrev, hi⟩ : ∃ c, (start ((Store.new none).call ⟨[97], some [0], none⟩).1).run
      staleCalls lateTrace = some c ∧ c.store.currentRevision = 3 ∧
        c.phases 0 = .returned (.error (2, some ⟨[97], [2], 1, 2, 2, 0⟩)) := ⟨_, rfl, rfl, rfl⟩
  exact ⟨c, _, hrun, hrev, hi, rfl,
    refusal_covers_iff (.call _ (.new none)) staleCalls lateTrace c hrun 0 2 _ hi⟩

/-- The put commits while the other call is between its two reads. The call is refused at
revision 1 with a key-value of revision 2. -/
theorem refusal_older_than_kv :
    ∃ c, (start ((Store.new none).call ⟨[97], some [0], none⟩).1).run staleCalls
        [.invoke 0, .invoke 1, .entry 1, .lock 1, .ret 1, .entry 0, .lock 0, .ret 0] = some c ∧
      c.phases 0 = .returned (.error (1, some ⟨[97], [2], 1, 2, 2, 0⟩)) :=
  ⟨_, rfl, rfl⟩

end Concurrent
end MemEtcd
