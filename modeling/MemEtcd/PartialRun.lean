import Mathlib.Tactic

/-! Runs of a system whose actions are possible in some states only. -/
namespace PartialRun

variable {σ α : Type*} (step : σ → α → Option σ)

def run (s : σ) : List α → Option σ
  | [] => some s
  | a :: actions => (step s a).bind (fun s => run s actions)

variable {step}

theorem run_append (s : σ) (actions actions' : List α) :
    run step s (actions ++ actions') =
      (run step s actions).bind (fun s => run step s actions') := by
  induction actions generalizing s with
  | nil => rfl
  | cons a actions ih =>
    change (step s a).bind _ = ((step s a).bind _).bind _
    rw [Option.bind_assoc]
    congr 1
    funext s
    exact ih s

/-- A run goes on from where its first part has led. -/
theorem run_resume {s mid : σ} {past : List α} (h : run step s past = some mid) (rest : List α) :
    run step s (past ++ rest) = run step mid rest := by
  rw [run_append, h, Option.bind_some]

/-- The action that comes after the first part of a run is possible there. -/
theorem run_next {s mid s' : σ} {past rest : List α} {a : α} (h : run step s past = some mid)
    (hrun : run step s (past ++ a :: rest) = some s') :
    ∃ next, step mid a = some next ∧ run step next rest = some s' := by
  rw [run_resume h] at hrun
  exact Option.bind_eq_some_iff.mp hrun

/-- One more action. -/
theorem run_concat {s mid s' : σ} {actions : List α} {a : α} (h : run step s actions = some mid)
    (hstep : step mid a = some s') : run step s (actions ++ [a]) = some s' := by
  rw [run_resume h]
  change (step mid a).bind some = some s'
  rw [hstep, Option.bind_some]

/-- What every step carries on to the extended trace holds along a run. -/
theorem run_trace_induct {P : List α → σ → Prop}
    (hstep : ∀ {past s s' a}, P past s → step s a = some s' → P (past ++ [a]) s')
    {past actions : List α} {s s' : σ} (h : P past s) (hrun : run step s actions = some s') :
    P (past ++ actions) s' := by
  induction actions generalizing past s with
  | nil =>
    cases hrun
    rw [List.append_nil]
    exact h
  | cons a actions ih =>
    obtain ⟨mid, hmid, hrest⟩ := Option.bind_eq_some_iff.mp hrun
    rw [List.append_cons]
    exact ih (hstep h hmid) hrest

/-- What every step keeps holds along a run. -/
theorem run_induct {P : σ → Prop} (hstep : ∀ {s s' a}, P s → step s a = some s' → P s')
    {actions : List α} {s s' : σ} (h : P s) (hrun : run step s actions = some s') : P s' :=
  @run_trace_induct σ α step (fun _ => P) hstep [] actions s s' h hrun

/-- What no step of a trace lowers does not fall between any two moments of it. -/
theorem run_mono {R : Type*} [Preorder R] {f : σ → R} {s : σ} {trace : List α}
    (hstep : ∀ past a rest mid mid', trace = past ++ a :: rest → run step s past = some mid →
      step mid a = some mid' → f mid ≤ f mid')
    {past later rest : List α} {mid mid' : σ} (hsplit : trace = past ++ later ++ rest)
    (hmid : run step s past = some mid) (hlater : run step s (past ++ later) = some mid') :
    f mid ≤ f mid' := by
  induction later generalizing past mid with
  | nil =>
    rw [List.append_nil, hmid] at hlater
    cases hlater
    exact le_refl _
  | cons a later ih =>
    obtain ⟨next, hnext, -⟩ := run_next hmid hlater
    rw [List.append_cons] at hsplit hlater
    calc
      f mid ≤ f next := by
        apply hstep past a (later ++ rest) mid next _ hmid hnext
        rw [hsplit, List.append_assoc, List.append_assoc]
        rfl
      _ ≤ f mid' := ih hsplit (run_concat hmid hnext) hlater

/-- What every step keeps that obeys a condition holds along a run all of whose steps
obey it. -/
theorem run_induct_of {P : σ → Prop} {G : σ → α → Prop}
    (hstep : ∀ {s s' a}, P s → G s a → step s a = some s' → P s') {actions : List α} {s s' : σ}
    (h : P s) (hG : ∀ past a rest mid, actions = past ++ a :: rest → run step s past = some mid →
      G mid a) (hrun : run step s actions = some s') : P s' := by
  induction actions generalizing s with
  | nil =>
    cases hrun
    exact h
  | cons a actions ih =>
    obtain ⟨mid, hmid, hrest⟩ := Option.bind_eq_some_iff.mp hrun
    apply ih (hstep h (hG [] a actions s rfl rfl) hmid) _ hrest
    intro past b rest mid' hsplit hpast
    apply hG (a :: past) b rest mid' (congrArg (List.cons a) hsplit)
    change (step s a).bind _ = some mid'
    rw [hmid]
    exact hpast

/-! ### Actions that return something -/

section Outputs

variable {τ β : Type*}

/-- The state after a sequence of actions and what they return, if each of them is
possible. -/
def runOutputs (step : σ → α → Option (σ × β)) (s : σ) : List α → Option (σ × List β)
  | [] => some (s, [])
  | a :: actions => do
    let (s, out) ← step s a
    let (s, outs) ← runOutputs step s actions
    return (s, out :: outs)

def outputs (step : τ → α → τ × β) (t : τ) : List α → τ × List β
  | [] => (t, [])
  | a :: actions =>
    let (t, out) := step t a
    let (t, outs) := outputs step t actions
    (t, out :: outs)

/-- A system that from related states can take every action, with the same result and to
related states, returns in every run what the other system returns. -/
theorem runOutputs_simulates {step : σ → α → Option (σ × β)} {spec : τ → α → τ × β}
    {rel : σ → τ → Prop}
    (hstep : ∀ {s t} a, rel s t → ∃ s', step s a = some (s', (spec t a).2) ∧ rel s' (spec t a).1)
    {s : σ} {t : τ} (h : rel s t) (actions : List α) :
    ∃ s', runOutputs step s actions = some (s', (outputs spec t actions).2) ∧
      rel s' (outputs spec t actions).1 := by
  induction actions generalizing s t with
  | nil => exact ⟨s, rfl, h⟩
  | cons a actions ih =>
    obtain ⟨mid, hmid, hrel⟩ := hstep a h
    obtain ⟨s', hrun, hend⟩ := ih hrel
    refine ⟨s', ?_, hend⟩
    unfold runOutputs
    rw [hmid]
    change (runOutputs step mid actions).bind _ = _
    rw [hrun]
    rfl

/-! A specification that is a relation: in state `t` an action may return what `answers`
allows, and the state after it is `next`. -/

variable (next : τ → α → τ)

/-- Every action of a sequence is one the specification covers, in the state it is taken in. -/
def Covered (covers : τ → α → Prop) (t : τ) : List α → Prop
  | [] => True
  | a :: actions => covers t a ∧ Covered covers (next t a) actions

/-- What a sequence of actions returned is allowed, action by action. -/
def Allowed (answers : τ → α → β → Prop) (t : τ) : List α → List β → Prop
  | [], outs => outs = []
  | _ :: _, [] => False
  | a :: actions, out :: outs => answers t a out ∧ Allowed answers (next t a) actions outs

/-- A system whose single steps are right wherever the specification covers the action is
right on every covered run. -/
theorem outputs_allowed {step : σ → α → σ × β} {covers : τ → α → Prop}
    {answers : τ → α → β → Prop} {rel : σ → τ → Prop}
    (hstep : ∀ {s t a}, rel s t → covers t a →
      answers t a (step s a).2 ∧ rel (step s a).1 (next t a))
    {s : σ} {t : τ} (h : rel s t) {actions : List α} (hcov : Covered next covers t actions) :
    Allowed next answers t actions (outputs step s actions).2 ∧
      rel (outputs step s actions).1 (actions.foldl next t) := by
  induction actions generalizing s t with
  | nil => exact ⟨rfl, h⟩
  | cons a actions ih =>
    obtain ⟨hanswer, hrel⟩ := hstep h hcov.1
    obtain ⟨hrest, hend⟩ := ih hrel hcov.2
    exact ⟨⟨hanswer, hrest⟩, hend⟩

end Outputs

end PartialRun
