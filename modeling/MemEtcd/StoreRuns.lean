import MemEtcd.StoreHistory

/-! Runs of `set` and `delete` calls, and the log that a run writes. -/
namespace MemEtcd

open VersionLog (cells)

/-- A call of `set`, or of `delete` when it has no value. -/
structure Call where
  key : Bytes
  value : Option Bytes
  required : Option SetRequired
  deriving DecidableEq, Repr

/-- The verdict of the checks of `set` on a store with the given log. -/
def verdict (log : History) (c : Call) : Except (Option KeyValue) Unit :=
  checkItem ⟨c.key, [], cells log c.key⟩ c.value c.required

def logCall (log : History) (c : Call) : History :=
  match verdict log c with
  | .ok () => log ++ [(c.key, c.value)]
  | .error _ => log

def logCalls (log : History) (calls : List Call) : History := calls.foldl logCall log

/-- The checks read the newest cell and the key of the item only. -/
theorem checkItem_congr {i j : TreeItem} (hk : i.key = j.key)
    (hv : i.latestValue = j.latestValue) (value : Option Bytes)
    (required : Option SetRequired) : checkItem i value required = checkItem j value required := by
  unfold checkItem
  rw [hk, hv]

/-- A change that passes the checks has an effect. -/
theorem checkItem_effective {item : TreeItem} {value : Option Bytes}
    {required : Option SetRequired} (h : checkItem item value required = .ok ()) :
    value.isSome ∨ item.latestValue.value.isSome := by
  unfold checkItem at h
  by_cases hlive : item.latestValue.value.isSome
  · exact Or.inr hlive
  · refine Or.inl ?_
    dsimp only at h
    rw [if_neg hlive] at h
    split_ifs at h with _ hnone
    rwa [Option.isNone_iff_eq_none, ← Option.not_isSome_iff_eq_none, not_not] at hnone

theorem logCall_extends (log : History) (c : Call) : log <+: logCall log c := by
  unfold logCall
  cases verdict log c with
  | ok u => exact List.prefix_append log _
  | error e => exact List.prefix_refl log

theorem logCalls_extends (log : History) (calls : List Call) : log <+: logCalls log calls := by
  induction calls generalizing log with
  | nil => exact List.prefix_refl log
  | cons c calls ih => exact (logCall_extends log c).trans (ih (logCall log c))

namespace Store

def call (s : Store) (c : Call) : Store × Except (ℤ × Option KeyValue) ℤ :=
  s.set c.key c.value c.required

def run (s : Store) (calls : List Call) : Store := calls.foldl (fun s c => (s.call c).1) s

@[simp] theorem run_nil (s : Store) : s.run [] = s := rfl

@[simp] theorem run_cons (s : Store) (c : Call) (calls : List Call) :
    s.run (c :: calls) = (s.call c).1.run calls := rfl

/-- The store right after the `r`-th successful call of a run, if there are that
many. -/
def afterSuccess (s : Store) : List Call → ℕ → Option Store
  | _, 0 => some s
  | [], _ + 1 => none
  | c :: calls, r + 1 =>
    match s.call c with
    | (s, .ok _) => s.afterSuccess calls r
    | (s, .error _) => s.afterSuccess calls (r + 1)

theorem call_wf {s : Store} (hs : s.WF) (c : Call) : (s.call c).1.WF :=
  set_wf hs c.key c.value c.required

theorem Represents.checkItem_view {s : Store} (hs : s.WF) {log : History} (h : s.Represents log)
    (c : Call) : checkItem (s.view c.key) c.value c.required = verdict log c :=
  checkItem_congr (view_key hs.toHeapOk c.key) (h.latest c.key) c.value c.required

/-- A refused call returns the revision at its start and what the check
reports; it leaves the items and the array. -/
theorem call_refused {s : Store} (hs : s.WF) {log : History} (h : s.Represents log) {c : Call}
    {kv : Option KeyValue} (hv : verdict log c = .error kv) :
    (s.call c).2 = .error (s.currentRevision, kv) ∧ (s.call c).1.view = s.view ∧
      (s.call c).1.valuesByRevision = s.valuesByRevision :=
  set_refused hs ((h.checkItem_view hs c).trans hv)

/-- An accepted call returns the next revision and extends the log. -/
theorem call_accepted {s : Store} (hs : s.WF) {log : History} (h : s.Represents log) {c : Call}
    (hv : verdict log c = .ok ()) :
    (s.call c).2 = .ok (log.length + 1) ∧
      (s.call c).1.Represents (log ++ [(c.key, c.value)]) ∧
      (s.call c).1.valuesByRevision.earliestRevision = s.valuesByRevision.earliestRevision := by
  rw [← h.checkItem_view hs c] at hv
  obtain ⟨hr, hview, hd⟩ := set_accepted hs hv
  obtain ⟨_, huview, hud⟩ := update_ok hs hv
  refine ⟨?_, (update_represents hs h hv).congr ?_ ?_, ?_⟩
  · rw [call, hr, h.currentRevision_eq]
  · rw [call, hview, huview]
  · rw [call, hd, hud]
  · rw [call, hd, earliestRevision_commitValue]

theorem call_represents {s : Store} (hs : s.WF) {log : History} (h : s.Represents log)
    (c : Call) : (s.call c).1.Represents (logCall log c) := by
  unfold logCall
  cases hv : verdict log c with
  | ok u => exact (call_accepted hs h hv).2.1
  | error kv =>
    obtain ⟨_, hview, hd⟩ := call_refused hs h hv
    exact h.congr hview hd

theorem call_earliest {s : Store} (hs : s.WF) {log : History} (h : s.Represents log) (c : Call) :
    (s.call c).1.valuesByRevision.earliestRevision = s.valuesByRevision.earliestRevision := by
  cases hv : verdict log c with
  | ok u => exact (call_accepted hs h hv).2.2
  | error kv => rw [(call_refused hs h hv).2.2]

/-- A run extends the log by its successful changes and compacts nothing. -/
theorem run_represents {s : Store} (hs : s.WF) {log : History} (h : s.Represents log)
    (calls : List Call) :
    (s.run calls).WF ∧ (s.run calls).Represents (logCalls log calls) ∧
      (s.run calls).valuesByRevision.earliestRevision =
        s.valuesByRevision.earliestRevision := by
  induction calls generalizing s log with
  | nil => exact ⟨hs, h, rfl⟩
  | cons c calls ih =>
    obtain ⟨hw, hr, he⟩ := ih (call_wf hs c) (call_represents hs h c)
    exact ⟨hw, hr, he.trans (call_earliest hs h c)⟩

/-- The store holds the whole history of its log. -/
structure Uncompacted (s : Store) (log : History) : Prop where
  wf : s.WF
  represents : s.Represents log
  earliest : s.valuesByRevision.earliestRevision = 0

theorem Uncompacted.compactedRevision {s : Store} {log : History} (h : s.Uncompacted log) :
    s.compactedRevision = 0 := by
  unfold Store.compactedRevision
  rw [h.earliest]
  rfl

theorem Uncompacted.run {s : Store} {log : History} (h : s.Uncompacted log) (calls : List Call) :
    (s.run calls).Uncompacted (logCalls log calls) := by
  obtain ⟨hw, hr, he⟩ := run_represents h.wf h.represents calls
  exact ⟨hw, hr, he.trans h.earliest⟩

/-- After the `r`-th success the log has exactly the first `r` changes of the
run. -/
theorem afterSuccess_represents {s : Store} (hs : s.WF) {log : History} (h : s.Represents log)
    (calls : List Call) {r : ℕ} (hr : log.length + r ≤ (logCalls log calls).length) :
    ∃ past, s.afterSuccess calls r = some past ∧ past.WF ∧
      past.Represents ((logCalls log calls).take (log.length + r)) := by
  induction calls generalizing s log r with
  | nil =>
    have hz : r = 0 := by
      change log.length + r ≤ log.length at hr
      omega
    subst hz
    refine ⟨s, rfl, hs, ?_⟩
    rw [Nat.add_zero]
    change s.Represents (log.take log.length)
    rw [List.take_length]
    exact h
  | cons c calls ih =>
    cases r with
    | zero =>
      have hp := logCalls_extends log (c :: calls)
      refine ⟨s, rfl, hs, ?_⟩
      rw [Nat.add_zero, ← List.prefix_iff_eq_take.mp hp]
      exact h
    | succ r =>
      have hw := call_wf hs c
      have hrep := call_represents hs h c
      have hlog : logCalls log (c :: calls) = logCalls (logCall log c) calls := rfl
      rw [hlog] at hr ⊢
      unfold afterSuccess
      cases hv : verdict log c with
      | ok u =>
        have hl : logCall log c = log ++ [(c.key, c.value)] := by simp only [logCall, hv]
        have hlen : (logCall log c).length = log.length + 1 := by
          rw [hl, List.length_append, List.length_singleton]
        have hres := (call_accepted hs h hv).1
        generalize s.call c = res at hres hw hrep
        obtain ⟨s', res⟩ := res
        cases hres
        obtain ⟨past, hp, hpw, hpr⟩ := ih hw hrep (r := r) (by omega)
        refine ⟨past, hp, hpw, ?_⟩
        rw [hlen, Nat.add_right_comm] at hpr
        exact hpr
      | error kv =>
        -- a refused call leaves the count and the log
        have hl : logCall log c = log := by simp only [logCall, hv]
        have hres := (call_refused hs h hv).1
        rw [hl] at hrep hr ⊢
        generalize s.call c = res at hres hw hrep
        obtain ⟨s', res⟩ := res
        cases hres
        exact ih hw hrep hr

/-! ### The results of a run -/

def outcome : Except (ℤ × Option KeyValue) ℤ → Except (Option KeyValue) ℤ
  | .ok rev => .ok rev
  | .error (_, kv) => .error kv

def results (s : Store) : List Call → List (Except (Option KeyValue) ℤ)
  | [] => []
  | c :: calls => outcome (s.call c).2 :: (s.call c).1.results calls

theorem run_snoc (s : Store) (calls : List Call) (c : Call) :
    s.run (calls ++ [c]) = ((s.run calls).call c).1 := List.foldl_append

theorem results_snoc (s : Store) (calls : List Call) (c : Call) :
    s.results (calls ++ [c]) = s.results calls ++ [outcome ((s.run calls).call c).2] := by
  induction calls generalizing s with
  | nil => rfl
  | cons c' calls ih =>
    rw [List.cons_append, results, ih]
    rfl

theorem run_wf {s : Store} (hs : s.WF) (calls : List Call) : (s.run calls).WF := by
  induction calls generalizing s with
  | nil => exact hs
  | cons c calls ih => exact ih (call_wf hs c)

theorem call_revision (s : Store) (c : Call) :
    (∃ kv, outcome (s.call c).2 = .error kv ∧ (s.call c).1.currentRevision = s.currentRevision) ∨
    (outcome (s.call c).2 = .ok (s.currentRevision + 1) ∧
      (s.call c).1.currentRevision = s.currentRevision + 1) := by
  unfold call currentRevision
  rcases s.update_revision c.key c.value c.required with ⟨kv, hkv, hv⟩ | ⟨d, hd, hrev, _, hv⟩
  · rcases set_cases s c.key c.value c.required with ⟨kv', _, he⟩ | ⟨d, hd, _⟩
    · rw [he]
      exact Or.inl ⟨kv', rfl, by rw [hv]⟩
    · rw [hkv] at hd
      contradiction
  · rcases set_cases s c.key c.value c.required with ⟨kv, hkv, _⟩ | ⟨d', hd', he⟩
    · rw [hd] at hkv
      contradiction
    · rw [hd] at hd'
      cases hd'
      rw [he]
      refine Or.inr ⟨congrArg Except.ok hrev, ?_⟩
      change ((s.update c.key c.value c.required).1.valuesByRevision.latestRevision : ℤ) = _
      rw [hv, latestRevision_commitValue]
      push_cast
      rfl

/-- The successful calls of a run take consecutive revisions. -/
theorem results_consecutive (s : Store) (calls : List Call) :
    (s.results calls).filterMap Except.toOption =
      (List.range ((s.results calls).filterMap Except.toOption).length).map
        (fun n : ℕ => s.currentRevision + 1 + n) := by
  induction calls generalizing s with
  | nil => rfl
  | cons c calls ih =>
    rw [results, List.filterMap_cons]
    rcases s.call_revision c with ⟨kv, hres, hrev⟩ | ⟨hres, hrev⟩
    · rw [hres]
      have := ih (s.call c).1
      rwa [hrev] at this
    · rw [hres]
      have hih := ih (s.call c).1
      rw [hrev] at hih
      change (s.currentRevision + 1) :: _ = (List.range (_ + 1)).map _
      rw [List.range_succ_eq_map, List.map_cons, List.map_map]
      conv_lhs => rw [hih]
      rw [List.cons.injEq]
      refine ⟨by push_cast; omega, ?_⟩
      apply List.map_congr_left
      intro n _
      simp only [Function.comp_apply, Nat.succ_eq_add_one]
      push_cast
      omega

end Store
end MemEtcd
