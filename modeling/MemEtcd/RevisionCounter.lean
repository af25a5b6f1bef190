import MemEtcd.BlockDeque
import MemEtcd.PartialRun

/-! The current revision is the sum of two atomics. `latest_revision` loads `length` and
then `start_offset`, without the lock under which `remove_before` changes first the one
and later the other. Every access to the two is a step here. Nothing tells pushes apart but
how far they are, so that they are counted. -/
namespace MemEtcd

open PartialRun (run)

/-- `remove_before` under the write lock: `start` is the start offset that it has loaded. -/
inductive RemovalPhase where
  /-- nobody has the write lock -/
  | free
  | locked (idx start : ℕ)
  /-- the index is in bounds -/
  | checked (idx start : ℕ)
  /-- `length` has been lowered and `start_offset` has not been raised -/
  | subtracted (idx : ℕ)
  deriving DecidableEq, Repr

/-- A call of `latest_revision`. -/
inductive LatestPhase where
  | idle
  | loaded (length : ℕ)
  | returned (revision : ℕ)
  deriving DecidableEq, Repr

/-- The two atomics with the threads that use them, and the numbers of pushes that have
begun, that have increased the length and that have returned. -/
structure RevisionCounter where
  length : ℕ
  startOffset : ℕ
  begun : ℕ
  added : ℕ
  completed : ℕ
  removal : RemovalPhase
  calls : ℕ → LatestPhase

inductive CounterAction where
  | beginPush
  /-- `fetch_add` of a push, under the read lock -/
  | addLength
  | completePush
  /-- `remove_before` takes the write lock and loads `start_offset` -/
  | lockRemoval (idx : ℕ)
  /-- it loads `length` and compares its index -/
  | checkRemoval
  /-- `fetch_sub` -/
  | subLength
  /-- it stores `start_offset` and releases the lock -/
  | storeStart
  /-- the first load of a call of `latest_revision` -/
  | loadLength (c : ℕ)
  /-- the second load -/
  | loadStart (c : ℕ)
  deriving DecidableEq, Repr

namespace RevisionCounter

def new : RevisionCounter := ⟨0, 0, 0, 0, 0, .free, fun _ => .idle⟩

def step (t : RevisionCounter) : CounterAction → Option RevisionCounter
  | .beginPush => some { t with begun := t.begun + 1 }
  | .addLength =>
    if t.added < t.begun ∧ t.removal = .free then
      some { t with length := t.length + 1, added := t.added + 1 }
    else none
  | .completePush =>
    if t.completed < t.added then some { t with completed := t.completed + 1 } else none
  | .lockRemoval idx =>
    if t.removal = .free then some { t with removal := .locked idx t.startOffset } else none
  | .checkRemoval =>
    match t.removal with
    | .locked idx start =>
      some { t with removal :=
        if idx > start + t.length then .free
        else if idx < start then .free
        else .checked idx start }
    | _ => none
  | .subLength =>
    match t.removal with
    | .checked idx start =>
      some { t with length := t.length - (idx - start), removal := .subtracted idx }
    | _ => none
  | .storeStart =>
    match t.removal with
    | .subtracted idx => some { t with startOffset := idx, removal := .free }
    | _ => none
  | .loadLength c =>
    if t.calls c = .idle then
      some { t with calls := Function.update t.calls c (.loaded t.length) }
    else none
  | .loadStart c =>
    match t.calls c with
    | .loaded length =>
      some { t with calls := Function.update t.calls c (.returned (length + t.startOffset)) }
    | _ => none

/-! ### Calls alone -/

section Alone

variable {T : Type*} {B : ℕ} [NeZero B] {t : RevisionCounter} {d : BlockDeque T B}

structure Counts (t : RevisionCounter) (d : BlockDeque T B) : Prop where
  latest : t.length + t.startOffset = d.latestRevision
  earliest : t.startOffset = d.earliestRevision
  idle : t.begun = t.added ∧ t.completed = t.added
  free : t.removal = .free

/-- The steps of one push are a push of the array. -/
theorem Counts.push (h : Counts t d) (value : T) :
    ∃ t', run step t [.beginPush, .addLength, .completePush] = some t' ∧
      Counts t' (d.push value).2 := by
  obtain ⟨length, startOffset, begun, added, completed, removal, calls⟩ := t
  obtain ⟨hlatest, hearliest, ⟨hbegun, hcompleted⟩, hfree⟩ := h
  dsimp only at hlatest hearliest hbegun hcompleted hfree
  subst hbegun hcompleted hfree
  refine ⟨⟨length + 1, startOffset, completed + 1, completed + 1, completed + 1, .free, calls⟩,
    by simp [run, step], ?_⟩
  constructor
  · rw [BlockDeque.latestRevision_push, ← hlatest]
    dsimp only
    omega
  · rw [BlockDeque.earliestRevision_push]
    exact hearliest
  · exact ⟨rfl, rfl⟩
  · rfl

/-- The steps of one `remove_before` with an index in bounds are that of the array. -/
theorem Counts.removeBefore (h : Counts t d) {idx : ℕ}
    (hidx : d.earliestRevision ≤ idx ∧ idx ≤ d.latestRevision) :
    ∃ t', run step t [.lockRemoval idx, .checkRemoval, .subLength, .storeStart] = some t' ∧
      Counts t' (d.removeBefore idx).2 := by
  obtain ⟨length, startOffset, begun, added, completed, removal, calls⟩ := t
  obtain ⟨hlatest, hearliest, hidle, hfree⟩ := h
  dsimp only at hlatest hearliest hfree
  subst hfree
  have hhigh : ¬idx > startOffset + length := by omega
  have hlow : ¬idx < startOffset := by omega
  refine ⟨⟨length - (idx - startOffset), idx, begun, added, completed, .free, calls⟩, ?_, ?_⟩
  · simp only [run, step, if_true, if_neg hhigh, if_neg hlow, Option.bind_some]
  · constructor
    · rw [BlockDeque.latestRevision_removeBefore d idx hidx, ← hlatest]
      dsimp only
      omega
    · exact (BlockDeque.earliestRevision_removeBefore d idx hidx).symm
    · exact hidle
    · rfl

/-- With another index it ends at the check, and the array stays as it is. -/
theorem Counts.removeBefore_refused (h : Counts t d) {idx : ℕ}
    (hidx : ¬(d.earliestRevision ≤ idx ∧ idx ≤ d.latestRevision)) :
    run step t [.lockRemoval idx, .checkRemoval] = some t ∧ (d.removeBefore idx).2 = d := by
  refine ⟨?_, d.removeBefore_failed idx hidx⟩
  obtain ⟨length, startOffset, begun, added, completed, removal, calls⟩ := t
  obtain ⟨hlatest, hearliest, -, hfree⟩ := h
  dsimp only at hlatest hearliest hfree
  subst hfree
  simp only [run, step, if_true, Option.bind_some]
  split_ifs with hhigh hlow
  · rfl
  · rfl
  · exact absurd ⟨by omega, by omega⟩ hidx

/-- The loads of one call are `latest_revision` of the array. -/
theorem Counts.latestRevision (h : Counts t d) {c : ℕ} (hc : t.calls c = .idle) :
    (run step t [.loadLength c, .loadStart c]).map (fun t => t.calls c) =
      some (.returned d.latestRevision) := by
  simp only [run, step, if_pos hc, Option.bind_some, Function.update_self, Option.map_some]
  rw [h.latest]

end Alone

/-! ### Interleaved calls -/

/-- How much has been taken from `length` in all. -/
def removed (t : RevisionCounter) : ℕ :=
  match t.removal with
  | .subtracted idx => idx
  | _ => t.startOffset

/-- What the removal in progress has loaded is still so, as it has the lock. -/
def RemovalFits (t : RevisionCounter) : Prop :=
  match t.removal with
  | .locked _ start => start = t.startOffset
  | .checked idx start =>
    start = t.startOffset ∧ start ≤ idx ∧ idx ≤ start + t.length
  | _ => True

/-- The length is the pushes that have been counted less what has been taken from it. -/
structure Balanced (t : RevisionCounter) : Prop where
  total : t.length + t.removed = t.added
  completed : t.completed ≤ t.added
  begun : t.added ≤ t.begun
  fits : t.RemovalFits

inductive Moves (t : RevisionCounter) : CounterAction → RevisionCounter → Prop
  | began : Moves t .beginPush { t with begun := t.begun + 1 }
  | added : t.added < t.begun → t.removal = .free →
      Moves t .addLength { t with length := t.length + 1, added := t.added + 1 }
  | completed : t.completed < t.added →
      Moves t .completePush { t with completed := t.completed + 1 }
  | locked {idx : ℕ} : t.removal = .free →
      Moves t (.lockRemoval idx) { t with removal := .locked idx t.startOffset }
  /-- the index is out of bounds, and the lock is released -/
  | refused {idx start : ℕ} : t.removal = .locked idx start →
      Moves t .checkRemoval { t with removal := .free }
  | checked {idx start : ℕ} : t.removal = .locked idx start → start ≤ idx →
      idx ≤ start + t.length → Moves t .checkRemoval { t with removal := .checked idx start }
  | subtracted {idx start : ℕ} : t.removal = .checked idx start →
      Moves t .subLength { t with length := t.length - (idx - start), removal := .subtracted idx }
  | stored {idx : ℕ} : t.removal = .subtracted idx →
      Moves t .storeStart { t with startOffset := idx, removal := .free }
  | loaded {c : ℕ} : t.calls c = .idle → Moves t (.loadLength c)
      { t with calls := Function.update t.calls c (.loaded t.length) }
  | returned {c length : ℕ} : t.calls c = .loaded length → Moves t (.loadStart c)
      { t with calls := Function.update t.calls c (.returned (length + t.startOffset)) }

theorem step_moves {t t' : RevisionCounter} {a : CounterAction} (hstep : step t a = some t') :
    Moves t a t' := by
  cases a with
  | beginPush =>
    cases hstep
    exact .began
  | addLength =>
    simp only [step] at hstep
    split_ifs at hstep with hg
    cases hstep
    exact .added hg.1 hg.2
  | completePush =>
    simp only [step] at hstep
    split_ifs at hstep with hlt
    cases hstep
    exact .completed hlt
  | lockRemoval idx =>
    simp only [step] at hstep
    split_ifs at hstep with hfree
    cases hstep
    exact .locked hfree
  | checkRemoval =>
    simp only [step] at hstep
    split at hstep
    · rename_i idx start hlocked
      cases hstep
      split_ifs with hhigh hlow
      · exact .refused hlocked
      · exact .refused hlocked
      · exact .checked hlocked (not_lt.mp hlow) (not_lt.mp hhigh)
    · cases hstep
  | subLength =>
    simp only [step] at hstep
    split at hstep
    · rename_i idx start hchecked
      cases hstep
      exact .subtracted hchecked
    · cases hstep
  | storeStart =>
    simp only [step] at hstep
    split at hstep
    · rename_i idx hsub
      cases hstep
      exact .stored hsub
    · cases hstep
  | loadLength c =>
    simp only [step] at hstep
    split_ifs at hstep with hidle
    cases hstep
    exact .loaded hidle
  | loadStart c =>
    simp only [step] at hstep
    split at hstep
    · rename_i length hloaded
      cases hstep
      exact .returned hloaded
    · cases hstep

theorem new_balanced : Balanced new :=
  ⟨rfl, le_refl _, le_refl _, trivial⟩

theorem Moves.balanced {t t' : RevisionCounter} {a : CounterAction} (hmove : Moves t a t')
    (h : Balanced t) : Balanced t' := by
  obtain ⟨length, startOffset, begun, added, completed, removal, calls⟩ := t
  obtain ⟨htotal, hcompleted, hbegun, hfits⟩ := h
  dsimp only at hcompleted hbegun
  cases hmove with
  | began => exact ⟨htotal, hcompleted, hbegun.trans (Nat.le_succ _), hfits⟩
  | added hlt hfree =>
    cases hfree
    dsimp only [removed] at htotal
    refine ⟨?_, hcompleted.trans (Nat.le_succ _), hlt, trivial⟩
    dsimp only [removed]
    omega
  | completed hlt => exact ⟨htotal, hlt, hbegun, hfits⟩
  | locked hfree =>
    cases hfree
    exact ⟨htotal, hcompleted, hbegun, rfl⟩
  | refused hlocked =>
    cases hlocked
    exact ⟨htotal, hcompleted, hbegun, trivial⟩
  | checked hlocked hlow hhigh =>
    cases hlocked
    exact ⟨htotal, hcompleted, hbegun, hfits, hlow, hhigh⟩
  | subtracted hchecked =>
    -- what is taken from the length is what the total removed grows by
    cases hchecked
    obtain ⟨hstart, hlow, hhigh⟩ := hfits
    refine ⟨?_, hcompleted, hbegun, trivial⟩
    dsimp only [removed] at htotal hstart hhigh ⊢
    omega
  | stored hsub =>
    cases hsub
    exact ⟨htotal, hcompleted, hbegun, trivial⟩
  | loaded _ => exact ⟨htotal, hcompleted, hbegun, hfits⟩
  | returned _ => exact ⟨htotal, hcompleted, hbegun, hfits⟩

/-- Every state of a run is balanced. -/
theorem run_balanced {actions : List CounterAction} {t : RevisionCounter}
    (hrun : run step new actions = some t) : Balanced t :=
  PartialRun.run_induct (fun h hstep => (step_moves hstep).balanced h) new_balanced hrun

/-- The counts do not fall; a call changes at its own loads, and the start offset at the
store. -/
structure Frame (t : RevisionCounter) (a : CounterAction) (t' : RevisionCounter) : Prop where
  begun : t.begun ≤ t'.begun
  added : t.added ≤ t'.added
  completed : t.completed ≤ t'.completed
  calls : ∀ c, a ≠ .loadLength c → a ≠ .loadStart c → t'.calls c = t.calls c
  startOffset : a ≠ .storeStart → t'.startOffset = t.startOffset

theorem Moves.frame {t t' : RevisionCounter} {a : CounterAction} (hmove : Moves t a t') :
    Frame t a t' := by
  have hother (c c' : ℕ) (phase : LatestPhase) (hne : c ≠ c') :
      Function.update t.calls c phase c' = t.calls c' := Function.update_of_ne hne.symm _ _
  cases hmove with
  | loaded _ =>
    refine ⟨le_refl _, le_refl _, le_refl _, ?_, fun _ => rfl⟩
    intro c' hne _
    exact hother _ c' _ (fun h => hne (congrArg _ h))
  | returned _ =>
    refine ⟨le_refl _, le_refl _, le_refl _, ?_, fun _ => rfl⟩
    intro c' _ hne
    exact hother _ c' _ (fun h => hne (congrArg _ h))
  | _ => constructor <;> simp

/-- A call that has loaded the length keeps it until it has loaded the start offset. -/
theorem run_loaded {actions : List CounterAction} {t t' : RevisionCounter} {c length : ℕ}
    (h : t.calls c = .loaded length) (hrun : run step t actions = some t') :
    t'.calls c = .loaded length ∨ ∃ v, t'.calls c = .returned v := by
  apply PartialRun.run_induct
    (P := fun s => s.calls c = .loaded length ∨ ∃ v, s.calls c = .returned v) _ (Or.inl h) hrun
  intro s s' a hs hstep
  by_cases hlength : a = .loadLength c
  · subst hlength
    cases step_moves hstep with
    | loaded hidle =>
      rw [hidle] at hs
      simp at hs
  by_cases hstart : a = .loadStart c
  · subst hstart
    cases step_moves hstep with
    | returned _ => exact Or.inr ⟨_, Function.update_self ..⟩
  rwa [(step_moves hstep).frame.calls c hlength hstart]

/-- One call of `latest_revision` in a run: it loads the length in `t1` and the start offset
in `t2`, and returns `v`. -/
structure LatestRevision (past : List CounterAction) (c : ℕ) (mid : List CounterAction)
    (t1 t2 : RevisionCounter) (v : ℕ) : Prop where
  first : run step new past = some t1
  second : run step new (past ++ .loadLength c :: mid) = some t2
  returns : (step t2 (.loadStart c)).map (fun t => t.calls c) = some (.returned v)

/-- What a call returns, against the pushes counted when it loaded the length. -/
theorem LatestRevision.value {past mid : List CounterAction} {c : ℕ} {t1 t2 : RevisionCounter}
    {v : ℕ} (h : LatestRevision past c mid t1 t2 v) :
    v + t1.removed = t1.added + t2.startOffset := by
  obtain ⟨loaded, hload, hmid⟩ := PartialRun.run_next h.first h.second
  obtain ⟨t3, hstart, hv⟩ := Option.map_eq_some_iff.mp h.returns
  have hkept : t2.calls c = .loaded t1.length ∨ ∃ w, t2.calls c = .returned w := by
    cases step_moves hload with
    | loaded _ => exact run_loaded (Function.update_self ..) hmid
  have hvalue : v = t1.length + t2.startOffset := by
    cases step_moves hstart with
    | returned hloaded =>
      dsimp only at hv
      rw [Function.update_self] at hv
      cases hv
      -- the length it has is still the one it loaded in the first state
      rw [hloaded] at hkept
      simpa using hkept
  have htotal := (run_balanced h.first).total
  omega

/-- The counts do not fall along a run. -/
theorem run_counts {past later : List CounterAction} {t t' : RevisionCounter}
    (hpast : run step new past = some t) (hlater : run step new (past ++ later) = some t') :
    t.begun ≤ t'.begun ∧ t.added ≤ t'.added ∧ t.completed ≤ t'.completed := by
  rw [PartialRun.run_resume hpast] at hlater
  apply PartialRun.run_induct _ ⟨le_refl _, le_refl _, le_refl _⟩ hlater
  intro s s' a hs hstep
  obtain ⟨hbegun, hadded, hcompleted⟩ := hs
  have hframe := (step_moves hstep).frame
  exact ⟨hbegun.trans hframe.begun, hadded.trans hframe.added, hcompleted.trans hframe.completed⟩

/-- The start offset stays where no removal stores it. -/
theorem run_startOffset {actions : List CounterAction} {t t' : RevisionCounter}
    (hstore : .storeStart ∉ actions) (hrun : run step t actions = some t') :
    t'.startOffset = t.startOffset := by
  apply PartialRun.run_induct_of (P := fun s => s.startOffset = t.startOffset)
    (G := fun _ a => a ≠ .storeStart) _ rfl _ hrun
  · intro s s' a hs hne hstep
    exact ((step_moves hstep).frame.startOffset hne).trans hs
  · intro past a rest mid hsplit _ ha
    apply hstore
    rw [hsplit, ← ha]
    exact List.mem_append_right _ List.mem_cons_self

theorem LatestRevision.quiet {past mid : List CounterAction} {c : ℕ} {t1 t2 : RevisionCounter}
    {v : ℕ} (h : LatestRevision past c mid t1 t2 v)
    (hremoval : ∀ idx, t1.removal ≠ .subtracted idx) (hstore : .storeStart ∉ mid) :
    t2.startOffset = t1.removed := by
  have hrun := h.second
  rw [PartialRun.run_resume h.first] at hrun
  have hnone : .storeStart ∉ .loadLength c :: mid := by simpa using hstore
  have hkept := run_startOffset hnone hrun
  unfold removed
  cases hphase : t1.removal with
  | subtracted idx => exact absurd hphase (hremoval idx)
  | _ => exact hkept

/-- The value of a call whose two loads fit is the number of pushes counted at the first. -/
theorem LatestRevision.bounds {past mid : List CounterAction} {c : ℕ} {t1 t2 : RevisionCounter}
    {v : ℕ} (h : LatestRevision past c mid t1 t2 v) (hfit : t2.startOffset = t1.removed) :
    (∀ earlier rest t0, past = earlier ++ rest → run step new earlier = some t0 →
      t0.completed ≤ v) ∧ v ≤ t2.begun := by
  have hvalue := h.value
  have hv : v = t1.added := by omega
  constructor
  · rintro earlier rest t0 rfl hearlier
    calc
      t0.completed ≤ t1.completed := (run_counts hearlier h.first).2.2
      _ ≤ t1.added := (run_balanced h.first).completed
      _ = v := hv.symm
  · calc
      v = t1.added := hv
      _ ≤ t1.begun := (run_balanced h.first).begun
      _ ≤ t2.begun := (run_counts h.first h.second).1

/-- `latest_revision` returns the number of pushes that were counted when it loaded the
length if and only if the start offset it loads later is what had been taken from the length
by then; so it is if no removal is between its two updates at the first load and none stores
a start offset between the loads. The value is then at least the number of pushes completed
before the call and at most the number begun before it returns, and a later call of that
kind does not return less. While no push is in progress, the condition is also necessary. -/
theorem latest_revision_truthful_iff {past mid : List CounterAction} {c : ℕ}
    {t1 t2 : RevisionCounter} {v : ℕ} (h : LatestRevision past c mid t1 t2 v) :
    (v = t1.added ↔ t2.startOffset = t1.removed) ∧
      (t2.startOffset = t1.removed →
        ((∀ earlier rest t0, past = earlier ++ rest → run step new earlier = some t0 →
          t0.completed ≤ v) ∧ v ≤ t2.begun) ∧
        ∀ past' c' mid' t1' t2' v', LatestRevision past' c' mid' t1' t2' v' →
          past ++ .loadLength c :: mid ++ [.loadStart c] <+: past' →
          t2'.startOffset = t1'.removed → v ≤ v') ∧
      ((∀ idx, t1.removal ≠ .subtracted idx) → .storeStart ∉ mid →
        t2.startOffset = t1.removed) ∧
      (t1.completed = t2.begun →
        (t1.completed ≤ v ∧ v ≤ t2.begun ↔ t2.startOffset = t1.removed)) := by
  have hvalue := h.value
  refine ⟨by omega, ?_, h.quiet, ?_⟩
  · intro hfit
    refine ⟨h.bounds hfit, ?_⟩
    rintro past' c' mid' t1' t2' v' h' ⟨rest, rfl⟩ hfit'
    have hvalue' := h'.value
    have hlater := h'.first
    rw [List.append_assoc, List.append_assoc] at hlater
    calc
      v = t1.added := by omega
      _ ≤ t1'.added := (run_counts h.first hlater).2.1
      _ = v' := by omega
  · -- with no push in progress the two bounds are the number of pushes
    intro hquiet
    have hb := run_balanced h.first
    have hcompleted := hb.completed
    have hbegun := hb.begun
    have hlater := (run_counts h.first h.second).1
    omega

def pushedAndRemoved : List CounterAction :=
  [.beginPush, .addLength, .completePush, .beginPush, .addLength, .completePush, .lockRemoval 1,
    .checkRemoval, .subLength, .storeStart]

/-- A third push comes between the two loads of a call, which returns the two that were
counted at its first load. -/
theorem latest_revision_after_removal :
    ∃ t1 t2, LatestRevision pushedAndRemoved 0 [.beginPush, .addLength, .completePush] t1 t2 2 ∧
      t1.startOffset = 1 ∧ t1.completed = 2 ∧ t2.begun = 3 ∧ t1.added = 2 ∧
      ∀ earlier rest t0, pushedAndRemoved = earlier ++ rest → run step new earlier = some t0 →
        t0.completed ≤ 2 := by
  have hcall : LatestRevision pushedAndRemoved 0 [.beginPush, .addLength, .completePush]
      ⟨1, 1, 2, 2, 2, .free, fun _ => .idle⟩
      ⟨2, 1, 3, 3, 3, .free, Function.update (fun _ => .idle) 0 (.loaded 1)⟩ 2 := ⟨rfl, rfl, rfl⟩
  obtain ⟨htrue, hbounds, -, -⟩ := latest_revision_truthful_iff hcall
  exact ⟨_, _, hcall, rfl, rfl, rfl, (htrue.mpr rfl).symm, (hbounds rfl).1.1⟩

/-- Two pushes have returned and no other begins. A call with `remove_before(1)` between its
two loads returns 3; a call between the two updates of `remove_before(1)` returns 1, after
one that has returned 2. -/
theorem latest_revision_untruthful :
    (∃ t1 t2, LatestRevision [.beginPush, .addLength, .completePush, .beginPush, .addLength,
        .completePush] 0 [.lockRemoval 1, .checkRemoval, .subLength, .storeStart] t1 t2 3 ∧
      t1.completed = 2 ∧ t2.begun = 2) ∧
    ∃ t1 t2 t1' t2', LatestRevision [.beginPush, .addLength, .completePush, .beginPush,
        .addLength, .completePush] 0 [] t1 t2 2 ∧
      LatestRevision [.beginPush, .addLength, .completePush, .beginPush, .addLength,
        .completePush, .loadLength 0, .loadStart 0, .lockRemoval 1, .checkRemoval, .subLength]
        1 [] t1' t2' 1 ∧ t1'.completed = 2 ∧ t2'.begun = 2 :=
  ⟨⟨_, _, ⟨rfl, rfl, rfl⟩, rfl, rfl⟩,
    _, _, _, _, ⟨rfl, rfl, rfl⟩, ⟨rfl, rfl, rfl⟩, rfl, rfl⟩

end RevisionCounter
end MemEtcd
