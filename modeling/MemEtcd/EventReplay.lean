import Mathlib.Tactic

/-! A copy of a map that is kept up to date by events. An event says what one key holds from
then on. For the copy to be right about a key, the events of that key have to come in order;
the order across keys does not matter. -/
namespace EventReplay

variable {α K V : Type*} [DecidableEq K] (key : α → K) (value : α → Option V)

def replay (copy : K → Option V) (events : List α) : K → Option V :=
  events.foldl (fun copy e => Function.update copy (key e) (value e)) copy

variable {key value} {copy : K → Option V} {events : List α}

theorem replay_concat (copy : K → Option V) (events : List α) (e : α) :
    replay key value copy (events ++ [e]) =
      Function.update (replay key value copy events) (key e) (value e) := by
  unfold replay
  rw [List.foldl_append, List.foldl_cons, List.foldl_nil]

/-- A key without an event is as it was. -/
theorem replay_of_absent {k : K} (h : ∀ e ∈ events, key e ≠ k) :
    replay key value copy events k = copy k := by
  induction events using List.reverseRecOn with
  | nil => rfl
  | append_singleton events x ih =>
    have hx : k ≠ key x := Ne.symm (h x List.mem_concat_self)
    rw [replay_concat, Function.update_of_ne hx]
    apply ih
    intro e he
    exact h e (List.mem_append_left _ he)

/-- A key holds what its latest event says. -/
theorem replay_of_latest {seq : α → ℤ}
    (hord : events.Pairwise (fun a b => key a = key b → seq a < seq b)) {e : α} (he : e ∈ events)
    (hlast : ∀ x ∈ events, key x = key e → seq x ≤ seq e) :
    replay key value copy events (key e) = value e := by
  induction events using List.reverseRecOn with
  | nil => exact absurd he List.not_mem_nil
  | append_singleton events x ih =>
    obtain ⟨hord, -, hcross⟩ := List.pairwise_append.mp hord
    rw [replay_concat]
    rcases List.mem_append.mp he with hin | hx
    · -- the event at the end is one of another key
      have hne : key e ≠ key x := by
        intro hkey
        have hlt := hcross e hin x (List.mem_singleton_self x) hkey
        have hle := hlast x List.mem_concat_self hkey.symm
        omega
      rw [Function.update_of_ne hne]
      apply ih hord hin
      intro y hy
      exact hlast y (List.mem_append_left _ hy)
    · rw [List.mem_singleton.mp hx, Function.update_self]

/-- A key with an event holds what its latest one says. -/
theorem replay_of_present {seq : α → ℤ}
    (hord : events.Pairwise (fun a b => key a = key b → seq a < seq b)) {k : K}
    (h : ∃ e ∈ events, key e = k) :
    ∃ e ∈ events, key e = k ∧ (∀ x ∈ events, key x = k → seq x ≤ seq e) ∧
      replay key value copy events k = value e := by
  obtain ⟨e, ⟨he, hkey⟩, hmax⟩ := Set.exists_max_image {e | e ∈ events ∧ key e = k} seq
    (events.finite_toSet.subset (fun _ he => he.1)) h
  have hlast (x : α) (hx : x ∈ events) (hxk : key x = k) : seq x ≤ seq e := hmax x ⟨hx, hxk⟩
  refine ⟨e, he, hkey, hlast, ?_⟩
  subst hkey
  exact replay_of_latest hord he hlast

end EventReplay
