import MemEtcd.PartialRun

/-! A pool of workers that share the work on many queues. A producer puts an item
into a queue and then sends a token for it; a worker takes a token, claims the queue
if it is not empty and not claimed, takes items, finishes them, gives the claim up
and looks at the queue once more. Tokens for an empty or a claimed queue are thrown
away. -/
namespace WorkerPool

variable {P α W : Type*}

inductive Phase (P α : Type*) where
  | waiting
  /-- has taken a token -/
  | received (p : P)
  /-- has found the queue not empty -/
  | claiming (p : P)
  /-- has claimed the queue and taken a batch from it -/
  | working (p : P) (batch : List α)
  /-- has finished the batch -/
  | worked (p : P)
  /-- has given the claim up -/
  | released (p : P)
  /-- has found the queue not empty once more -/
  | resending (p : P)
  deriving DecidableEq, Repr

/-- A worker has claimed the queue. -/
def Phase.holds (p : P) : Phase P α → Prop
  | .working q _ => q = p
  | .worked q => q = p
  | _ => False

/-- A worker has a token for the queue, or will look at it once more. -/
def Phase.attends (p : P) : Phase P α → Prop
  | .waiting => False
  | .received q => q = p
  | .claiming q => q = p
  | .working q _ => q = p
  | .worked q => q = p
  | .released q => q = p
  | .resending q => q = p

theorem attends_of_holds {p : P} {phase : Phase P α} (h : phase.holds p) : phase.attends p := by
  cases phase with
  | working q batch => exact h
  | worked q => exact h
  | _ => exact h.elim

theorem ne_working_of_not_holds {p : P} {phase : Phase P α} (h : ¬phase.holds p) (b : List α) :
    phase ≠ .working p b := by
  rintro rfl
  exact h rfl

/-- A worker attends to one queue at most. -/
theorem attends_unique {p q : P} {phase : Phase P α} (hp : phase.attends p) (hq : phase.attends q) :
    p = q := by
  cases phase with
  | waiting => exact hp.elim
  | _ => exact hp.symm.trans hq

/-- `unsent` are the queues whose producers have not sent their token yet. -/
structure Pool (P α W : Type*) where
  queue : P → List α
  finished : P → List α
  claimed : P → Bool
  tokens : List P
  unsent : List P
  workers : W → Phase P α

inductive Action (P α W : Type*) where
  | submit (p : P) (x : α)
  | send (i : ℕ)
  /-- a worker takes an item of the queue it works on -/
  | take (w : W)
  /-- any other step of a worker -/
  | advance (w : W)

def Pool.start : Pool P α W :=
  ⟨fun _ => [], fun _ => [], fun _ => false, [], [], fun _ => .waiting⟩

/-- The batch that a worker has taken from a queue; none if nobody works on it. -/
def InHand (workers : W → Phase P α) (p : P) (batch : List α) : Prop :=
  (∃ w, workers w = .working p batch) ∨ (batch = [] ∧ ∀ w b, workers w ≠ .working p b)

/-- At most one worker has claimed a queue, no item is lost, and a queue that is not
empty has a token or somebody who will look at it. -/
structure Inv (s : Pool P α W) (items : P → List α) : Prop where
  single : ∀ {p v w}, (s.workers v).holds p → (s.workers w).holds p → v = w
  claimed : ∀ p, s.claimed p = true ↔ ∃ w, (s.workers w).holds p
  order : ∀ p, ∃ batch, InHand s.workers p batch ∧
    s.finished p ++ batch ++ s.queue p = items p
  awake : ∀ p, s.queue p ≠ [] → p ∈ s.tokens ∨ p ∈ s.unsent ∨ ∃ w, (s.workers w).attends p

theorem inv_start : Inv (Pool.start : Pool P α W) (fun _ => []) := by
  refine ⟨?_, ?_, ?_, ?_⟩
  · intro p v w h
    exact h.elim
  · intro p
    exact ⟨fun h => absurd h Bool.false_ne_true, fun ⟨_, h⟩ => h.elim⟩
  · intro p
    exact ⟨[], Or.inr ⟨rfl, fun w b h => nomatch h⟩, rfl⟩
  · intro p h
    exact absurd rfl h

namespace Inv

variable {s : Pool P α W} {items : P → List α} {w : W} {p : P}

/-- The batch of the worker that has claimed a queue. -/
theorem working (h : Inv s items) {batch : List α} (hw : s.workers w = .working p batch) :
    s.finished p ++ batch ++ s.queue p = items p := by
  have hholds {v : W} {b : List α} (hv : s.workers v = .working p b) : (s.workers v).holds p := by
    rw [hv]
    rfl
  obtain ⟨batch', hin, horder⟩ := h.order p
  rcases hin with ⟨v, hv⟩ | ⟨_, hnone⟩
  · have hvw := h.single (hholds hv) (hholds hw)
    rw [hvw, hw] at hv
    cases hv
    exact horder
  · exact absurd hw (hnone w batch)

/-- The other workers do not hold what a worker holds. -/
theorem alone (h : Inv s items) (hw : (s.workers w).holds p) (v : W) (hvw : v ≠ w) :
    ¬(s.workers v).holds p :=
  fun hv => hvw (h.single hv hw)

/-- A producer sends its token. -/
theorem send (h : Inv s items) {i : ℕ} (hi : s.unsent[i]? = some p) :
    Inv { s with unsent := s.unsent.eraseIdx i, tokens := s.tokens ++ [p] } items := by
  refine ⟨h.single, h.claimed, h.order, ?_⟩
  intro q hne
  obtain ⟨hlt, hget⟩ := List.getElem?_eq_some_iff.mp hi
  have hperm := List.getElem_cons_eraseIdx_perm hlt
  rw [hget] at hperm
  rcases h.awake q hne with ht | hu | ha
  · exact Or.inl (List.mem_append_left _ ht)
  · rcases List.mem_cons.mp (hperm.mem_iff.mpr hu) with rfl | hu
    · exact Or.inl (List.mem_append_right _ List.mem_cons_self)
    · exact Or.inr (Or.inl hu)
  · exact Or.inr (Or.inr ha)

end Inv

/-! ### One worker moves -/

section

variable [DecidableEq W]

def Pool.goTo (s : Pool P α W) (w : W) (phase : Phase P α) : Pool P α W :=
  { s with workers := Function.update s.workers w phase }

variable {workers : W → Phase P α} {w : W} {phase : Phase P α} {p : P} {s : Pool P α W}
  {items : P → List α}

/-- Somebody still looks after a queue if the worker that moves does. -/
theorem attends_update (h : ∃ v, (workers v).attends p)
    (hw : (workers w).attends p → phase.attends p) :
    ∃ v, (Function.update workers w phase v).attends p := by
  obtain ⟨v, hv⟩ := h
  by_cases hvw : v = w
  · subst hvw
    exact ⟨v, by rw [Function.update_self]; exact hw hv⟩
  · exact ⟨v, by rw [Function.update_of_ne hvw]; exact hv⟩

/-- A batch in the hands of another worker stays there. -/
theorem InHand.update {batch : List α} (h : InHand workers p batch)
    (hold : ∀ b, workers w ≠ .working p b) (hnew : ∀ b, phase ≠ .working p b) :
    InHand (Function.update workers w phase) p batch := by
  have hsame (v : W) (b : List α) :
      Function.update workers w phase v = .working p b ↔ workers v = .working p b := by
    by_cases hvw : v = w
    · subst hvw
      rw [Function.update_self]
      exact iff_of_false (hnew b) (hold b)
    · rw [Function.update_of_ne hvw]
  rcases h with ⟨v, hv⟩ | ⟨rfl, hnone⟩
  · exact Or.inl ⟨v, (hsame v batch).mpr hv⟩
  · exact Or.inr ⟨rfl, fun v b hv => hnone v b ((hsame v b).mp hv)⟩

theorem holds_update_of_not {q : P} (hold : ¬(workers w).holds q) (hnew : ¬phase.holds q) (v : W) :
    (Function.update workers w phase v).holds q ↔ (workers v).holds q := by
  by_cases hvw : v = w
  · subst hvw
    rw [Function.update_self]
    exact iff_of_false hnew hold
  · rw [Function.update_of_ne hvw]

theorem holds_update_of_alone (halone : ∀ v, v ≠ w → ¬(workers v).holds p) (v : W) :
    (Function.update workers w phase v).holds p ↔ v = w ∧ phase.holds p := by
  by_cases hvw : v = w
  · subst hvw
    rw [Function.update_self]
    exact (and_iff_right rfl).symm
  · rw [Function.update_of_ne hvw]
    exact iff_of_false (halone v hvw) (fun hv => hvw hv.1)

/-- The batch of a queue that one worker alone may hold is the one of its phase. -/
theorem InHand.of_alone {batch : List α} (halone : ∀ v, v ≠ w → ¬(workers v).holds p)
    (hbatch : phase = .working p batch ∨ (batch = [] ∧ ∀ b, phase ≠ .working p b)) :
    InHand (Function.update workers w phase) p batch := by
  rcases hbatch with rfl | ⟨rfl, hnone⟩
  · exact Or.inl ⟨w, Function.update_self ..⟩
  · refine Or.inr ⟨rfl, fun v b hv => ?_⟩
    by_cases hvw : v = w
    · subst hvw
      rw [Function.update_self] at hv
      exact hnone b hv
    · rw [Function.update_of_ne hvw] at hv
      exact ne_working_of_not_holds (halone v hvw) b hv

/-- A worker that has claimed nothing and claims nothing. -/
theorem Inv.move (h : Inv s items) {tokens : List P}
    (hold : ∀ q, ¬(s.workers w).holds q) (hnew : ∀ q, ¬phase.holds q)
    (hawake : ∀ q, s.queue q ≠ [] → q ∈ tokens ∨ q ∈ s.unsent ∨
      ∃ v, (Function.update s.workers w phase v).attends q) :
    Inv ({ s with tokens := tokens }.goTo w phase) items := by
  have hiff (q : P) := holds_update_of_not (hold q) (hnew q)
  refine ⟨?_, ?_, ?_, hawake⟩
  · intro q v v' hv hv'
    exact h.single ((hiff q v).mp hv) ((hiff q v').mp hv')
  · intro q
    refine (h.claimed q).trans (exists_congr ?_)
    exact fun v => (hiff q v).symm
  · intro q
    obtain ⟨batch, hin, horder⟩ := h.order q
    exact ⟨batch, hin.update (ne_working_of_not_holds (hold q)) (ne_working_of_not_holds (hnew q)),
      horder⟩

/-- A waiting worker takes a token. -/
theorem Inv.receive (h : Inv s items) (hw : s.workers w = .waiting) {rest : List P}
    (htokens : s.tokens = p :: rest) :
    Inv ({ s with tokens := rest }.goTo w (.received p)) items := by
  refine h.move (by rw [hw]; exact fun _ => id) (fun _ => id) ?_
  intro q hne
  rcases h.awake q hne with ht | hu | ha
  · rw [htokens] at ht
    rcases List.mem_cons.mp ht with rfl | ht
    · exact Or.inr (Or.inr ⟨w, by rw [Function.update_self]; rfl⟩)
    · exact Or.inl ht
  · exact Or.inr (Or.inl hu)
  · refine Or.inr (Or.inr (attends_update ha ?_))
    rw [hw]
    exact False.elim

/-- A worker looks at the queue it attends to. If it is empty, there is nothing more to
attend to. -/
theorem Inv.look (h : Inv s items) {next : Phase P α} (hfrom : (s.workers w).attends p)
    (hold : ∀ q, ¬(s.workers w).holds q) (hnext : next.attends p) (hnew : ∀ q, ¬next.holds q) :
    Inv (s.goTo w (if (s.queue p).isEmpty then .waiting else next)) items := by
  refine h.move hold ?_ ?_
  · intro q
    split_ifs
    · exact id
    · exact hnew q
  · intro q hne
    rcases h.awake q hne with ht | hu | ha
    · exact Or.inl ht
    · exact Or.inr (Or.inl hu)
    · refine Or.inr (Or.inr (attends_update ha ?_))
      intro hq
      cases attends_unique hfrom hq
      rw [if_neg (by simpa using hne)]
      exact hnext

/-- A worker throws its token away: the one that has claimed the queue is still there. -/
theorem Inv.discard (h : Inv s items) (hw : s.workers w = .claiming p) (hclaimed : s.claimed p = true) :
    Inv (s.goTo w .waiting) items := by
  obtain ⟨v, hv⟩ := (h.claimed p).mp hclaimed
  have hvw : v ≠ w := by
    rintro rfl
    rw [hw] at hv
    exact hv
  refine h.move (by rw [hw]; exact fun _ => id) (fun _ => id) ?_
  intro q hne
  rcases h.awake q hne with ht | hu | ⟨u, hu⟩
  · exact Or.inl ht
  · exact Or.inr (Or.inl hu)
  · by_cases huw : u = w
    · rw [huw, hw] at hu
      cases hu
      exact Or.inr (Or.inr ⟨v, by rw [Function.update_of_ne hvw]; exact attends_of_holds hv⟩)
    · exact Or.inr (Or.inr ⟨u, by rw [Function.update_of_ne huw]; exact hu⟩)

/-- A worker sends a token for the queue that it has left. -/
theorem Inv.resend (h : Inv s items) (hw : s.workers w = .resending p) :
    Inv ({ s with tokens := s.tokens ++ [p] }.goTo w .waiting) items := by
  refine h.move (by rw [hw]; exact fun _ => id) (fun _ => id) ?_
  intro q hne
  rcases h.awake q hne with ht | hu | ⟨u, hu⟩
  · exact Or.inl (List.mem_append_left _ ht)
  · exact Or.inr (Or.inl hu)
  · by_cases huw : u = w
    · rw [huw, hw] at hu
      cases hu
      exact Or.inl (List.mem_append_right _ List.mem_cons_self)
    · exact Or.inr (Or.inr ⟨u, by rw [Function.update_of_ne huw]; exact hu⟩)

end

/-! ### The steps -/

variable [DecidableEq P]

/-- A producer puts an item into a queue. -/
theorem Inv.submit {s : Pool P α W} {items : P → List α} (h : Inv s items) (p : P) (x : α) :
    Inv { s with queue := Function.update s.queue p (s.queue p ++ [x]), unsent := s.unsent ++ [p] }
      (Function.update items p (items p ++ [x])) := by
  refine ⟨h.single, h.claimed, ?_, ?_⟩
  · intro q
    obtain ⟨batch, hin, horder⟩ := h.order q
    refine ⟨batch, hin, ?_⟩
    by_cases hq : q = p
    · subst hq
      dsimp only
      rw [Function.update_self, Function.update_self, ← horder, ← List.append_assoc]
    · dsimp only
      rw [Function.update_of_ne hq, Function.update_of_ne hq]
      exact horder
  · intro q hne
    by_cases hq : q = p
    · exact Or.inr (Or.inl (List.mem_append_right _ (List.mem_singleton.mpr hq)))
    · dsimp only at hne
      rw [Function.update_of_ne hq] at hne
      rcases h.awake q hne with ht | hu | ha
      · exact Or.inl ht
      · exact Or.inr (Or.inl (List.mem_append_left _ hu))
      · exact Or.inr (Or.inr ha)

variable [DecidableEq W]

namespace Pool

def advance (s : Pool P α W) (w : W) : Phase P α → Option (Pool P α W)
  | .waiting =>
    match s.tokens with
    | [] => none
    | p :: rest => some ({ s with tokens := rest }.goTo w (.received p))
  | .received p => some (s.goTo w (if (s.queue p).isEmpty then .waiting else .claiming p))
  | .claiming p =>
    if s.claimed p then some (s.goTo w .waiting)
    else some ({ s with claimed := Function.update s.claimed p true }.goTo w (.working p []))
  | .working p batch =>
    some ({ s with
      finished := Function.update s.finished p (s.finished p ++ batch) }.goTo w (.worked p))
  | .worked p =>
    some ({ s with claimed := Function.update s.claimed p false }.goTo w (.released p))
  | .released p => some (s.goTo w (if (s.queue p).isEmpty then .waiting else .resending p))
  | .resending p => some ({ s with tokens := s.tokens ++ [p] }.goTo w .waiting)

def step (s : Pool P α W) : Action P α W → Option (Pool P α W)
  | .submit p x => some { s with
      queue := Function.update s.queue p (s.queue p ++ [x]), unsent := s.unsent ++ [p] }
  | .send i => (s.unsent[i]?).map (fun p =>
      { s with unsent := s.unsent.eraseIdx i, tokens := s.tokens ++ [p] })
  | .take w =>
    match s.workers w with
    | .working p batch =>
      match s.queue p with
      | [] => none
      | x :: rest => some ({ s with
          queue := Function.update s.queue p rest }.goTo w (.working p (batch ++ [x])))
    | _ => none
  | .advance w => s.advance w (s.workers w)

def run (s : Pool P α W) (actions : List (Action P α W)) : Option (Pool P α W) :=
  PartialRun.run step s actions

end Pool

def submitted (actions : List (Action P α W)) (p : P) : List α :=
  actions.filterMap (fun a => match a with
    | .submit q x => if q = p then some x else none
    | _ => none)

namespace Inv

variable {s : Pool P α W} {items : P → List α} {w : W} {p : P}

/-- A worker that alone may hold a queue goes from one phase for it to another, and
nothing changes for the other queues. -/
theorem own (h : Inv s items) {s' : Pool P α W} {phase : Phase P α} {batch : List α}
    (hworkers : s'.workers = Function.update s.workers w phase)
    (hfrom : (s.workers w).attends p) (hattends : phase.attends p)
    (halone : ∀ v, v ≠ w → ¬(s.workers v).holds p)
    (hsame : ∀ q, q ≠ p → s'.queue q = s.queue q ∧ s'.finished q = s.finished q ∧
      s'.claimed q = s.claimed q)
    (htokens : s'.tokens = s.tokens) (hunsent : s'.unsent = s.unsent)
    (hclaimed : s'.claimed p = true ↔ phase.holds p)
    (hbatch : phase = .working p batch ∨ (batch = [] ∧ ∀ b, phase ≠ .working p b))
    (horder : s'.finished p ++ batch ++ s'.queue p = items p) : Inv s' items := by
  have hold (q : P) (hq : q ≠ p) : ¬(s.workers w).holds q :=
    fun hw => hq (attends_unique (attends_of_holds hw) hfrom)
  have hnew (q : P) (hq : q ≠ p) : ¬phase.holds q :=
    fun hw => hq (attends_unique (attends_of_holds hw) hattends)
  have hself (v : W) : (s'.workers v).holds p ↔ v = w ∧ phase.holds p := by
    rw [hworkers]
    exact holds_update_of_alone halone v
  have hother {q : P} (hq : q ≠ p) (v : W) : (s'.workers v).holds q ↔ (s.workers v).holds q := by
    rw [hworkers]
    exact holds_update_of_not (hold q hq) (hnew q hq) v
  refine ⟨?_, ?_, ?_, ?_⟩
  · intro q v v' hv hv'
    by_cases hq : q = p
    · subst hq
      exact ((hself v).mp hv).1.trans ((hself v').mp hv').1.symm
    · exact h.single ((hother hq v).mp hv) ((hother hq v').mp hv')
  · intro q
    by_cases hq : q = p
    · subst hq
      rw [hclaimed]
      exact ⟨fun hp => ⟨w, (hself w).mpr ⟨rfl, hp⟩⟩, fun ⟨v, hv⟩ => ((hself v).mp hv).2⟩
    · rw [(hsame q hq).2.2]
      exact (h.claimed q).trans (exists_congr (fun v => (hother hq v).symm))
  · intro q
    by_cases hq : q = p
    · subst hq
      refine ⟨batch, ?_, horder⟩
      rw [hworkers]
      exact InHand.of_alone halone hbatch
    · obtain ⟨batch', hin, horder'⟩ := h.order q
      rw [hworkers, (hsame q hq).1, (hsame q hq).2.1]
      exact ⟨batch', hin.update (ne_working_of_not_holds (hold q hq))
        (ne_working_of_not_holds (hnew q hq)), horder'⟩
  · intro q hne
    rw [htokens, hunsent, hworkers]
    by_cases hq : q = p
    · subst hq
      exact Or.inr (Or.inr ⟨w, by rw [Function.update_self]; exact hattends⟩)
    · rw [(hsame q hq).1] at hne
      rcases h.awake q hne with ht | hu | ha
      · exact Or.inl ht
      · exact Or.inr (Or.inl hu)
      · refine Or.inr (Or.inr (attends_update ha ?_))
        exact fun hw => absurd (attends_unique hw hfrom) hq

/-- A worker claims a queue that nobody has claimed. -/
theorem claim (h : Inv s items) (hw : s.workers w = .claiming p) (hfree : s.claimed p = false) :
    Inv ({ s with claimed := Function.update s.claimed p true }.goTo w (.working p [])) items := by
  have hnobody (v : W) : ¬(s.workers v).holds p := by
    intro hv
    have := (h.claimed p).mpr ⟨v, hv⟩
    rw [hfree] at this
    contradiction
  have horder : s.finished p ++ [] ++ s.queue p = items p := by
    obtain ⟨batch, hin, horder⟩ := h.order p
    rcases hin with ⟨v, hv⟩ | ⟨rfl, _⟩
    · exact absurd (hv ▸ rfl : (s.workers v).holds p) (hnobody v)
    · exact horder
  refine h.own rfl (hw ▸ rfl) rfl (fun v _ => hnobody v) ?_ rfl rfl ?_ (Or.inl rfl) horder
  · intro q hq
    refine ⟨rfl, rfl, ?_⟩
    exact Function.update_of_ne hq _ _
  · change Function.update s.claimed p true p = true ↔ _
    rw [Function.update_self]
    exact iff_of_true rfl rfl

/-- A worker takes an item of its queue. -/
theorem take (h : Inv s items) {batch rest : List α} {x : α}
    (hw : s.workers w = .working p batch) (hq : s.queue p = x :: rest) :
    Inv ({ s with queue := Function.update s.queue p rest }.goTo w (.working p (batch ++ [x])))
      items := by
  have hholds : (s.workers w).holds p := hw ▸ rfl
  refine h.own rfl (hw ▸ rfl) rfl (h.alone hholds) ?_ rfl rfl ?_ (Or.inl rfl) ?_
  · intro q hq
    refine ⟨?_, rfl, rfl⟩
    exact Function.update_of_ne hq _ _
  · exact iff_of_true ((h.claimed p).mpr ⟨w, hholds⟩) rfl
  · change s.finished p ++ (batch ++ [x]) ++ Function.update s.queue p rest p = items p
    rw [Function.update_self, ← h.working hw, hq]
    simp only [List.append_assoc, List.singleton_append]

/-- A worker finishes its batch. -/
theorem finish (h : Inv s items) {batch : List α} (hw : s.workers w = .working p batch) :
    Inv ({ s with
      finished := Function.update s.finished p (s.finished p ++ batch) }.goTo w (.worked p))
      items := by
  have hholds : (s.workers w).holds p := hw ▸ rfl
  refine h.own rfl (hw ▸ rfl) rfl (h.alone hholds) ?_ rfl rfl ?_
    (Or.inr ⟨rfl, fun _ hb => nomatch hb⟩) ?_
  · intro q hq
    refine ⟨rfl, ?_, rfl⟩
    exact Function.update_of_ne hq _ _
  · exact iff_of_true ((h.claimed p).mpr ⟨w, hholds⟩) rfl
  · change Function.update s.finished p (s.finished p ++ batch) p ++ [] ++ s.queue p = items p
    rw [Function.update_self, List.append_nil]
    exact h.working hw

/-- A worker gives its claim up. -/
theorem release (h : Inv s items) (hw : s.workers w = .worked p) :
    Inv ({ s with claimed := Function.update s.claimed p false }.goTo w (.released p)) items := by
  have hholds : (s.workers w).holds p := hw ▸ rfl
  have horder : s.finished p ++ [] ++ s.queue p = items p := by
    obtain ⟨batch, hin, horder⟩ := h.order p
    rcases hin with ⟨v, hv⟩ | ⟨rfl, _⟩
    · have hvw := h.single (hv ▸ rfl : (s.workers v).holds p) hholds
      rw [hvw, hw] at hv
      contradiction
    · exact horder
  refine h.own rfl (hw ▸ rfl) rfl (h.alone hholds) ?_ rfl rfl ?_
    (Or.inr ⟨rfl, fun _ hb => nomatch hb⟩) horder
  · intro q hq
    refine ⟨rfl, rfl, ?_⟩
    exact Function.update_of_ne hq _ _
  · change Function.update s.claimed p false p = true ↔ _
    rw [Function.update_self]
    exact iff_of_false Bool.false_ne_true id

/-- A step of a worker that takes no item. -/
theorem advance (h : Inv s items) {s' : Pool P α W}
    (hstep : s.advance w (s.workers w) = some s') : Inv s' items := by
  cases hw : s.workers w with
  | waiting =>
    rw [hw] at hstep
    unfold Pool.advance at hstep
    cases htokens : s.tokens with
    | nil =>
      rw [htokens] at hstep
      contradiction
    | cons p rest =>
      rw [htokens] at hstep
      cases hstep
      exact h.receive hw htokens
  | received p =>
    rw [hw] at hstep
    cases hstep
    exact h.look (hw ▸ rfl) (by rw [hw]; exact fun _ => id) rfl (fun _ => id)
  | claiming p =>
    rw [hw] at hstep
    unfold Pool.advance at hstep
    dsimp only at hstep
    split_ifs at hstep with hclaimed
    · cases hstep
      exact h.discard hw hclaimed
    · cases hstep
      exact h.claim hw (Bool.eq_false_iff.mpr hclaimed)
  | working p batch =>
    rw [hw] at hstep
    cases hstep
    exact h.finish hw
  | worked p =>
    rw [hw] at hstep
    cases hstep
    exact h.release hw
  | released p =>
    rw [hw] at hstep
    cases hstep
    exact h.look (hw ▸ rfl) (by rw [hw]; exact fun _ => id) rfl (fun _ => id)
  | resending p =>
    rw [hw] at hstep
    cases hstep
    exact h.resend hw

theorem step (h : Inv s items) {s' : Pool P α W} {past : List (Action P α W)} {a : Action P α W}
    (hitems : items = submitted past) (hstep : s.step a = some s') :
    Inv s' (submitted (past ++ [a])) := by
  subst hitems
  have hsame (hno : ∀ q x, a ≠ .submit q x) : submitted (past ++ [a]) = submitted past := by
    funext q
    unfold submitted
    rw [List.filterMap_append]
    cases a with
    | submit p x => exact absurd rfl (hno p x)
    | _ => exact List.append_nil _
  cases a with
  | submit p x =>
    cases hstep
    have hmore : submitted (past ++ [Action.submit p x]) =
        Function.update (submitted past) p (submitted past p ++ [x]) := by
      funext q
      unfold submitted
      rw [List.filterMap_append]
      by_cases hq : q = p
      · subst hq
        rw [Function.update_self]
        simp
      · rw [Function.update_of_ne hq]
        simp [Ne.symm hq]
    rw [hmore]
    exact h.submit p x
  | send i =>
    rw [hsame (fun _ _ h => nomatch h)]
    obtain ⟨p, hp, rfl⟩ := Option.map_eq_some_iff.mp hstep
    exact h.send hp
  | take w =>
    rw [hsame (fun _ _ h => nomatch h)]
    simp only [Pool.step] at hstep
    split at hstep
    · rename_i p batch hw
      split at hstep
      · contradiction
      · rename_i x rest hq
        cases hstep
        exact h.take hw hq
    · contradiction
  | advance w =>
    rw [hsame (fun _ _ h => nomatch h)]
    exact h.advance hstep

end Inv

/-- What holds in every state of a pool. -/
theorem inv_run {actions : List (Action P α W)} {s : Pool P α W}
    (hrun : Pool.start.run actions = some s) : Inv s (submitted actions) :=
  @PartialRun.run_trace_induct _ _ _ (fun past s => Inv s (submitted past))
    (fun h hstep => h.step rfl hstep) [] _ _ _ inv_start hrun

end WorkerPool
