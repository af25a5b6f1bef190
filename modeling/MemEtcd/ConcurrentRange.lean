import MemEtcd.ConcurrentSet

/-! A current `range` among concurrent calls of `set` and `delete`. It reads the
current revision, takes the bucket of its prefix, and then reads one item after the
other. `set` finds the item of a key through `tree_map`, `range` through
`prefix_map`, and the creator of a key fills the two in separate steps. -/
namespace MemEtcd

/-- How far a `range` at revision 0 has come. While it scans it holds the guard of
its bucket: `rest` is what is left of the bucket's items. -/
inductive RangePhase where
  | idle
  | started (latestRev : ℤ)
  | scanning (latestRev : ℤ) (pfx : Bytes) (rest : List (Bytes × ℕ)) (results : List KeyValue)
      (count : ℕ)
  | returned (res : Except Fault RangeResult)
  deriving DecidableEq, Repr

namespace Store

/-- `range` takes the bucket of its prefix. -/
def rangeBucket (s : Store) (start endKey : Bytes) (latestRev : ℤ) : RangePhase :=
  match prefixAndRangeOfKey start endKey with
  | .error e => .returned (.error (.status e))
  | .ok (pfx, lo, hi) =>
    match s.prefixMap[pfx]? with
    | none => .returned (.ok ⟨[], latestRev, 0⟩)
    | some btree =>
      match btreeRange btree lo hi with
      | .error fault => .returned (.error fault)
      | .ok entries => .scanning latestRev pfx entries [] 0

/-- `range` goes to the next item of its bucket, or returns. -/
def rangeItem (s : Store) (latestRev : ℤ) (pfx : Bytes) (results : List KeyValue) (count : ℕ) :
    List (Bytes × ℕ) → RangePhase
  | [] => .returned (.ok ⟨results, latestRev, count⟩)
  | e :: rest =>
    match s.scan latestRev none pfx [e] results count with
    | .error fault => .returned (.error fault)
    | .ok (results, count) => .scanning latestRev pfx rest results count

end Store

/-- The calls on a store, and a `range` among them. -/
structure Reading where
  writers : Concurrent
  range : RangePhase

inductive RangeAction where
  | write (a : SetAction)
  | revision
  | bucket
  | item
  deriving DecidableEq, Repr

def writes (trace : List RangeAction) : List SetAction :=
  trace.filterMap (fun a => match a with | .write a => some a | _ => none)

/-- The loop of `range`, cut after its first round. -/
theorem Store.scan_cons (s : Store) (rev : ℤ) (limit : Option ℕ) (pfx : Bytes) (e : Bytes × ℕ)
    (rest : List (Bytes × ℕ)) (results : List KeyValue) (count : ℕ) :
    s.scan rev limit pfx (e :: rest) results count =
      (s.scan rev limit pfx [e] results count).bind
        (fun p => s.scan rev limit pfx rest p.1 p.2) := by
  obtain ⟨suffix, a⟩ := e
  simp only [scan, bind, Except.bind]
  split_ifs
  · cases s.hasValueForRevision (s.deref a) rev <;> rfl
  all_goals
    cases s.findValueForRevision (s.deref a) rev with
    | error fault => rfl
    | ok found =>
      cases found with
      | none => rfl
      | some v =>
        dsimp only
        split_ifs <;> rfl

namespace Reading

/-- The store that the calls and the `range` share. -/
def store (r : Reading) : Store := r.writers.store

def init (s : Store) : Reading := ⟨Concurrent.start s, .idle⟩

variable (calls : ℕ → Call) (start endKey : Bytes)

def step (r : Reading) : RangeAction → Option Reading
  | .write a => (r.writers.step calls a).map (fun w => ⟨w, r.range⟩)
  | .revision =>
    match r.range with
    | .idle => some ⟨r.writers, .started r.store.currentRevision⟩
    | _ => none
  | .bucket =>
    match r.range with
    | .started latestRev => some ⟨r.writers, r.store.rangeBucket start endKey latestRev⟩
    | _ => none
  | .item =>
    match r.range with
    | .scanning latestRev pfx rest results count =>
      some ⟨r.writers, r.store.rangeItem latestRev pfx results count rest⟩
    | _ => none

def run (r : Reading) (trace : List RangeAction) : Option Reading :=
  PartialRun.run (step calls start endKey) r trace

variable {calls start endKey}

/-! ### The steps -/

theorem step_write {r r' : Reading} {a : SetAction}
    (h : r.step calls start endKey (.write a) = some r') :
    ∃ w, r.writers.step calls a = some w ∧ r' = ⟨w, r.range⟩ := by
  obtain ⟨w, hw, he⟩ := Option.map_eq_some_iff.mp h
  exact ⟨w, hw, he.symm⟩

theorem step_revision {r r' : Reading} (h : r.step calls start endKey .revision = some r') :
    r.range = .idle ∧ r' = ⟨r.writers, .started r.store.currentRevision⟩ := by
  simp only [step] at h
  split at h
  · exact ⟨‹_›, (Option.some.inj h).symm⟩
  · contradiction

theorem step_bucket {r r' : Reading} (h : r.step calls start endKey .bucket = some r') :
    ∃ rev, r.range = .started rev ∧ r' = ⟨r.writers, r.store.rangeBucket start endKey rev⟩ := by
  simp only [step] at h
  split at h
  · exact ⟨_, ‹_›, (Option.some.inj h).symm⟩
  · contradiction

theorem step_item {r r' : Reading} (h : r.step calls start endKey .item = some r') :
    ∃ rev pfx rest results count, r.range = .scanning rev pfx rest results count ∧
      r' = ⟨r.writers, r.store.rangeItem rev pfx results count rest⟩ := by
  simp only [step] at h
  split at h
  · exact ⟨_, _, _, _, _, ‹_›, (Option.some.inj h).symm⟩
  · contradiction

/-- The rounds of a scan, one after the other, are the loop of `range`. -/
theorem run_items {r : Reading} {latestRev : ℤ} {pfx : Bytes} {rest : List (Bytes × ℕ)}
    {results : List KeyValue} {count : ℕ}
    (h : r.range = .scanning latestRev pfx rest results count) :
    ∃ trace, r.run calls start endKey trace = some ⟨r.writers, .returned
      ((r.store.scan latestRev none pfx rest results count).map
        (fun p => ⟨p.1, latestRev, p.2⟩))⟩ := by
  induction rest generalizing r results count with
  | nil =>
    refine ⟨[.item], ?_⟩
    simp only [run, PartialRun.run, step, h]
    rfl
  | cons e rest ih =>
    rw [Store.scan_cons]
    cases hone : r.store.scan latestRev none pfx [e] results count with
    | error fault =>
      refine ⟨[.item], ?_⟩
      simp only [run, PartialRun.run, step, h, Store.rangeItem, hone]
      rfl
    | ok p =>
      obtain ⟨trace, htrace⟩ := ih (r := ⟨r.writers, .scanning latestRev pfx rest p.1 p.2⟩) rfl
      refine ⟨.item :: trace, ?_⟩
      simp only [run, PartialRun.run, step, h, Store.rangeItem, hone]
      exact htrace

/-- The steps of a `range` on its own are `range` at revision 0. -/
theorem run_alone {r : Reading} (h : r.range = .idle) :
    ∃ trace, r.run calls start endKey trace =
      some ⟨r.writers, .returned (r.store.range start endKey 0 none)⟩ := by
  have hnn := r.store.currentRevision_nonneg
  have hg : ¬(0 : ℤ) > r.store.currentRevision := by omega
  have hcc : ¬((0 : ℤ) > 0 ∧ (0 : ℤ) ≤ r.store.compactedRevision) := by omega
  have hrun : r.run calls start endKey [.revision, .bucket] =
      some ⟨r.writers, r.store.rangeBucket start endKey r.store.currentRevision⟩ := by
    simp only [run, PartialRun.run, step, h]
    rfl
  unfold Store.range
  unfold Store.rangeBucket at hrun
  simp only [if_neg hg, if_neg hcc, if_true]
  cases ha : prefixAndRangeOfKey start endKey with
  | error e =>
    simp only [ha] at hrun
    exact ⟨_, hrun⟩
  | ok acc =>
    obtain ⟨pfx, lo, hi⟩ := acc
    simp only [ha] at hrun ⊢
    cases hb : r.store.prefixMap[pfx]? with
    | none =>
      simp only [hb] at hrun
      exact ⟨_, hrun⟩
    | some btree =>
      simp only [hb] at hrun ⊢
      cases hr : btreeRange btree lo hi with
      | error fault =>
        simp only [hr] at hrun
        exact ⟨_, hrun⟩
      | ok entries =>
        simp only [hr] at hrun
        obtain ⟨trace, htrace⟩ := @run_items calls start endKey
          ⟨r.writers, .scanning r.store.currentRevision pfx entries [] 0⟩ _ _ _ _ _ rfl
        refine ⟨[.revision, .bucket] ++ trace, ?_⟩
        rw [run, PartialRun.run_append]
        change (r.run calls start endKey [.revision, .bucket]).bind _ = _
        rw [hrun, Option.bind_some]
        refine htrace.trans ?_
        simp only [bind, Except.bind, store]
        cases r.writers.store.scan r.writers.store.currentRevision none pfx entries [] 0 <;> rfl

/-- The calls do not notice the `range`. -/
theorem step_writers {r r' : Reading} {a : RangeAction}
    (h : r.step calls start endKey a = some r') :
    r.writers.run calls (writes [a]) = some r'.writers := by
  cases a with
  | write a =>
    obtain ⟨w, hw, rfl⟩ := step_write h
    change (r.writers.step calls a).bind some = some w
    rw [hw]
    rfl
  | revision =>
    obtain ⟨_, rfl⟩ := step_revision h
    rfl
  | bucket =>
    obtain ⟨_, _, rfl⟩ := step_bucket h
    rfl
  | item =>
    obtain ⟨_, _, _, _, _, _, rfl⟩ := step_item h
    rfl

theorem run_writers {r r' : Reading} {trace : List RangeAction}
    (h : r.run calls start endKey trace = some r') :
    r.writers.run calls (writes trace) = some r'.writers := by
  induction trace generalizing r with
  | nil =>
    cases h
    rfl
  | cons a trace ih =>
    obtain ⟨mid, hstep, hrest⟩ := Option.bind_eq_some_iff.mp h
    have hsplit : writes (a :: trace) = writes [a] ++ writes trace :=
      List.filterMap_append (l := [a])
    rw [hsplit, Concurrent.run, PartialRun.run_append]
    change (r.writers.run calls (writes [a])).bind _ = _
    rw [step_writers hstep]
    exact ih hrest

end Reading

end MemEtcd
