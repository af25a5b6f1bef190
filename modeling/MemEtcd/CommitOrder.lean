import Mathlib.Tactic

/-! Real-time order of concurrent operations that each take effect at one point
between their invocation and their return. The order of these points respects
real time: an operation that returned before another one was invoked comes first. -/
namespace CommitOrder

variable {ι : Type*}

inductive Event (ι : Type*) where
  | invoke (i : ι)
  | ret (i : ι)
  deriving DecidableEq, Repr

/-- `i` is in the order, and `j` is not in front of it. -/
def Precedes (order : List ι) (i j : ι) : Prop :=
  ∃ before after, order = before ++ after ∧ i ∈ before ∧ j ∉ before

/-- Whoever returned before `j` was invoked comes before `j`. -/
def RealTime (history : List (Event ι)) (order : List ι) : Prop :=
  ∀ past future i j, history = past ++ .invoke j :: future → .ret i ∈ past → Precedes order i j

theorem Precedes.append {order : List ι} {i j : ι} (h : Precedes order i j) (k : ι) :
    Precedes (order ++ [k]) i j := by
  obtain ⟨before, after, rfl, hi, hj⟩ := h
  exact ⟨before, after ++ [k], List.append_assoc _ _ _, hi, hj⟩

/-- Every operation that returned has its place in the order, and the order
respects real time. -/
structure Timely (history : List (Event ι)) (order : List ι) : Prop where
  returned : ∀ i, .ret i ∈ history → i ∈ order
  realTime : RealTime history order

theorem timely_nil : Timely ([] : List (Event ι)) [] := by
  refine ⟨?_, ?_⟩
  · intro i h
    contradiction
  · intro past future i j h
    have := congrArg List.length h
    simp at this

theorem Timely.commit {history : List (Event ι)} {order : List ι} (h : Timely history order)
    (k : ι) : Timely history (order ++ [k]) := by
  refine ⟨?_, ?_⟩
  · intro i hi
    exact List.mem_append_left _ (h.returned i hi)
  · intro past future i j heq hi
    exact (h.realTime past future i j heq hi).append k

theorem Timely.ret {history : List (Event ι)} {order : List ι} (h : Timely history order)
    {k : ι} (hk : k ∈ order) : Timely (history ++ [.ret k]) order := by
  refine ⟨?_, ?_⟩
  · intro i hi
    rcases List.mem_append.mp hi with hi | hi
    · exact h.returned i hi
    · cases List.mem_singleton.mp hi
      exact hk
  · intro past future i j heq hi
    rcases List.eq_nil_or_concat future with rfl | ⟨future, e, rfl⟩
    · have := (List.append_inj' heq rfl).2
      simp at this
    · rw [List.concat_eq_append, ← List.cons_append, ← List.append_assoc] at heq
      exact h.realTime past future i j (List.append_inj' heq rfl).1 hi

/-- An operation is invoked before it takes effect, and after all that returned
took effect. -/
theorem Timely.invoke {history : List (Event ι)} {order : List ι} (h : Timely history order)
    {k : ι} (hk : k ∉ order) : Timely (history ++ [.invoke k]) order := by
  refine ⟨?_, ?_⟩
  · intro i hi
    rcases List.mem_append.mp hi with hi | hi
    · exact h.returned i hi
    · cases List.mem_singleton.mp hi
  · intro past future i j heq hi
    rcases List.eq_nil_or_concat future with rfl | ⟨future, e, rfl⟩
    · -- `k` itself: all that returned is in the order, and `k` is not
      obtain ⟨rfl, hlast⟩ := List.append_inj' heq rfl
      rw [List.cons.injEq, Event.invoke.injEq] at hlast
      exact ⟨order, [], (List.append_nil _).symm, h.returned i hi, hlast.1 ▸ hk⟩
    · rw [List.concat_eq_append, ← List.cons_append, ← List.append_assoc] at heq
      exact h.realTime past future i j (List.append_inj' heq rfl).1 hi

end CommitOrder
