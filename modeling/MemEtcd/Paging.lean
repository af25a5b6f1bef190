import Mathlib.Tactic

/-! Reading a list in pages. A page is the beginning of what lies behind a key; the
last item of a page names the key of the next one. -/
namespace Paging

variable {K α ε : Type*}

/-- The items of all pages from page number `i` at key `k` on. `page` answers a
request with its items and whether there are more; `next` is the key behind an
item. The result is `none` when the fuel runs out, or when a page that announces
more items has none to go on from. -/
def collect (page : ℕ → K → Except ε (List α × Bool)) (next : α → K) :
    ℕ → ℕ → K → Except ε (Option (List α))
  | 0, _, _ => .ok none
  | fuel + 1, i, k =>
    match page i k with
    | .error e => .error e
    | .ok (items, more) =>
      if more then
        match items.getLast? with
        | none => .ok none
        | some last =>
          (collect page next fuel (i + 1) (next last)).map (Option.map (items ++ ·))
      else .ok (some items)

/-- Pages that are cut from what lies behind their key make up that list again. -/
theorem collect_eq {page : ℕ → K → Except ε (List α × Bool)} {next : α → K} {limit : ℕ}
    (hl : 1 ≤ limit) {rest : K → List α} {Valid : K → Prop}
    (hpage : ∀ i k, Valid k →
      page i k = .ok ((rest k).take limit, decide (limit < (rest k).length)))
    (hnext : ∀ k x, Valid k → (rest k)[limit - 1]? = some x →
      Valid (next x) ∧ rest (next x) = (rest k).drop limit)
    {k : K} (hk : Valid k) (i : ℕ) {fuel : ℕ} (hf : (rest k).length < fuel) :
    collect page next fuel i k = .ok (some (rest k)) := by
  -- the list behind the key gets shorter with every page
  induction fuel generalizing k i with
  | zero => omega
  | succ fuel ih =>
    unfold collect
    rw [hpage i k hk]
    by_cases hmore : limit < (rest k).length
    · have hlast : ((rest k).take limit).getLast? = (rest k)[limit - 1]? := by
        rw [List.getLast?_eq_getElem?, List.length_take, Nat.min_eq_left hmore.le,
          List.getElem?_take_of_lt (by omega)]
      obtain ⟨x, hx⟩ : ∃ x, (rest k)[limit - 1]? = some x :=
        ⟨_, List.getElem?_eq_getElem (by omega)⟩
      obtain ⟨hvalid, hdrop⟩ := hnext k x hk hx
      have hshort : (rest (next x)).length < fuel := by
        rw [hdrop, List.length_drop]
        omega
      dsimp only
      rw [if_pos (decide_eq_true hmore), hlast, hx]
      dsimp only
      rw [ih hvalid (i + 1) hshort, hdrop]
      change Except.ok (some ((rest k).take limit ++ (rest k).drop limit)) = _
      rw [List.take_append_drop]
    · dsimp only
      rw [if_neg (by simpa using hmore), List.take_of_length_le (by omega)]

/-- In an increasing list the items behind the one at position `n` are those above
it. -/
theorem filter_above {lt : α → α → Prop} [DecidableRel lt] (hirr : ∀ a, ¬lt a a)
    (hasymm : ∀ a b, lt a b → ¬lt b a) {l : List α} (h : l.Pairwise lt) {n : ℕ} {x : α}
    (hx : l[n]? = some x) : l.filter (fun y => decide (lt x y)) = l.drop (n + 1) := by
  induction l generalizing n with
  | nil => simp at hx
  | cons y l ih =>
    obtain ⟨hy, hl⟩ := List.pairwise_cons.mp h
    cases n with
    | zero =>
      obtain rfl : y = x := Option.some.inj hx
      have hall : l.filter (fun z => decide (lt y z)) = l := by
        apply List.filter_eq_self.mpr
        intro z hz
        exact decide_eq_true (hy z hz)
      rw [List.filter_cons_of_neg (by simpa using hirr y), hall]
      rfl
    | succ n =>
      have hyx : lt y x := hy x (List.mem_of_getElem? hx)
      rw [List.filter_cons_of_neg (by simpa using hasymm y x hyx)]
      exact ih hl hx

end Paging
