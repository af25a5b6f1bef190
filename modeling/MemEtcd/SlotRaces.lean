import MemEtcd.Interleaved

/-! The raw pointers of the revision array. `push` and `set` write a slot while they hold
the blocks for reading only. That no other thread uses the slot rests on two facts: the
indexes of the calls under way are all different, and none of them stands in an item, so
that no reader looks it up. -/
namespace MemEtcd

open RwLocks (Lock HeldBy)

namespace SetStage

def item : SetStage → Option ℕ
  | .created _ a => some a
  | .ready h | .locked h | .checked h | .drained h _ => some h.item
  | .filling e | .waiting e | .pushed e | .storing e | .stored e => some e.hold.item
  | _ => none

/-- The item whose lock a call has. -/
def owned : SetStage → Option ℕ
  | .locked h | .checked h | .drained h _ => some h.item
  | .filling e | .waiting e | .pushed e | .storing e | .stored e => some e.hold.item
  | _ => none

/-- The call has its index, and its item does not have it yet. -/
def effect : SetStage → Option Effect
  | .filling e | .waiting e | .pushed e | .storing e | .stored e => some e
  | _ => none

def slot : SetStage → Option ℕ
  | .filling e | .storing e => some e.index
  | _ => none

def kept : SetStage → List ℤ
  | .drained _ revisions => revisions
  | .filling e | .waiting e | .pushed e | .storing e | .stored e => e.revisions
  | _ => []

theorem effect_of_slot {stage : SetStage} {k : ℕ} (h : stage.slot = some k) :
    ∃ e, stage.effect = some e ∧ e.index = k := by
  cases stage <;> simp only [slot, reduceCtorEq, Option.some.injEq] at h
  · exact ⟨_, rfl, h⟩
  · exact ⟨_, rfl, h⟩

end SetStage

namespace LookupStage

def owned : LookupStage → Option ℕ
  | .holding a _ | .getting a _ _ => some a
  | _ => none

def slot : LookupStage → Option ℕ
  | .getting _ _ index => some index
  | _ => none

end LookupStage

/-- The index of a lookup belongs to a revision of the item. -/
theorem TreeItem.lookup_mem {item : TreeItem} {rev : ℤ} {index : ℕ}
    (h : item.lookup rev = .inr index) : ∃ r ∈ item.revisions, index = r.toNat - 1 := by
  have hmem (n : ℕ) (hn : n < item.revisions.length) :
      item.revisions.getD n 0 ∈ item.revisions := by
    rw [List.getD_eq_getElem?_getD, List.getElem?_eq_getElem hn]
    exact List.getElem_mem hn
  unfold TreeItem.lookup binarySearch at h
  split_ifs at h
  cases hx : item.revisions.idxOf? rev with
  | some i =>
    rw [hx] at h
    obtain ⟨hi, _⟩ := List.idxOf?_eq_some_iff.mp hx
    exact ⟨_, hmem i hi, (Sum.inr.inj h).symm⟩
  | none =>
    rw [hx] at h
    dsimp only at h
    split_ifs at h with hpos
    have hle := (List.takeWhile_prefix (l := item.revisions) (fun x => decide (x < rev))).length_le
    exact ⟨_, hmem _ (by omega), (Sum.inr.inj h).symm⟩

theorem drainRevisions_subset (revisions : List ℤ) (earliest : ℤ) :
    ∀ r ∈ drainRevisions revisions earliest, r ∈ revisions := by
  intro r hr
  unfold drainRevisions at hr
  split_ifs at hr
  · exact List.mem_of_mem_drop hr
  · exact hr

namespace Interleaved

variable {calls : ℕ → Call} {f f' : Interleaved}

/-! ### Indexes and revisions -/

/-- The revision is one of the past: no call is about to write it. -/
def Settled (f : Interleaved) (r : ℤ) : Prop :=
  1 ≤ r ∧ r ≤ f.values.latest ∧ ∀ i e, (f.sets i).effect = some e → e.newRev ≠ r

/-- The calls under way have indexes of their own; the items, what the calls have taken
from them and what the readers look at are of the past. -/
structure Numbered (calls : ℕ → Call) (f : Interleaved) : Prop where
  heap : ∀ (k : Bytes) (a : ℕ), f.treeMap[k]? = some a → a < f.items.length
  sets : ∀ i a, (f.sets i).item = some a → f.treeMap[(calls i).key]? = some a
  reads : ∀ j a, (f.reads j).owned = some a → ∃ k : Bytes, f.treeMap[k]? = some a
  below : ∀ i e, (f.sets i).effect = some e → e.index < f.values.latest
  apart : ∀ i j e e', (f.sets i).effect = some e → (f.sets j).effect = some e' →
    e.index = e'.index → i = j
  past : ∀ (k : Bytes) (a : ℕ), f.treeMap[k]? = some a → ∀ r ∈ (f.deref a).revisions, f.Settled r
  kept : ∀ i, ∀ r ∈ (f.sets i).kept, f.Settled r
  reading : ∀ j k, (f.reads j).slot = some k → f.Settled (k + 1)

/-- The calls under way are those of before, or call `i` with the next index. -/
structure Advances (f f' : Interleaved) (i : ℕ) : Prop where
  latest : f.values.latest ≤ f'.values.latest
  effects : ∀ j e, (f'.sets j).effect = some e → (f.sets j).effect = some e ∨
    j = i ∧ e.index = f.values.latest ∧ f.values.latest < f'.values.latest

theorem Advances.settled {i : ℕ} (h : Advances f f' i) {r : ℤ} (hr : f.Settled r) :
    f'.Settled r := by
  obtain ⟨hpos, hle, heff⟩ := hr
  refine ⟨hpos, hle.trans (by exact_mod_cast h.latest), ?_⟩
  intro j e he
  rcases h.effects j e he with hold | ⟨_, hindex, _⟩
  · exact heff j e hold
  · -- a new index is behind all revisions of the past
    unfold Effect.newRev
    omega

theorem Numbered.advance {i : ℕ} (h : f.Numbered calls) (hadv : Advances f f' i)
    (hheap : ∀ (k : Bytes) (a : ℕ), f'.treeMap[k]? = some a → a < f'.items.length)
    (hsets : ∀ j a, (f'.sets j).item = some a → f'.treeMap[(calls j).key]? = some a)
    (hreads : ∀ j a, (f'.reads j).owned = some a → ∃ k : Bytes, f'.treeMap[k]? = some a)
    (hpast : ∀ (k : Bytes) (a : ℕ), f'.treeMap[k]? = some a → ∀ r ∈ (f'.deref a).revisions,
      f.Settled r ∨ f'.Settled r)
    (hkept : ∀ j, ∀ r ∈ (f'.sets j).kept, f.Settled r)
    (hreading : ∀ j k, (f'.reads j).slot = some k → f.Settled (k + 1)) :
    f'.Numbered calls := by
  have hle := hadv.latest
  refine ⟨hheap, hsets, hreads, ?_, ?_, ?_, ?_, ?_⟩
  · intro j e he
    rcases hadv.effects j e he with hold | ⟨_, hindex, hlt⟩
    · exact (h.below j e hold).trans_le hle
    · omega
  · intro j j' e e' he he' hindex
    rcases hadv.effects j e he with hold | ⟨rfl, hnew, _⟩
    · rcases hadv.effects j' e' he' with hold' | ⟨rfl, hnew', _⟩
      · exact h.apart j j' e e' hold hold' hindex
      · have := h.below j e hold
        omega
    · rcases hadv.effects j' e' he' with hold' | ⟨rfl, _, _⟩
      · have := h.below j' e' hold'
        omega
      · rfl
  · intro k a ha r hr
    exact (hpast k a ha r hr).elim hadv.settled id
  · intro j r hr
    exact hadv.settled (hkept j r hr)
  · intro j k hk
    exact hadv.settled (hreading j k hk)

/-- A step of call `i` that leaves the items alone. -/
theorem Numbered.stage (h : f.Numbered calls) {i : ℕ} {stage : SetStage}
    (hsets : f'.sets = Function.update f.sets i stage) (hreads : f'.reads = f.reads)
    (htree : f'.treeMap = f.treeMap) (hitems : f'.items = f.items)
    (hlatest : f.values.latest ≤ f'.values.latest)
    (hitem : ∀ a, stage.item = some a → f.treeMap[(calls i).key]? = some a)
    (heffect : ∀ e, stage.effect = some e → (f.sets i).effect = some e ∨
      e.index = f.values.latest ∧ f.values.latest < f'.values.latest)
    (hkept : ∀ r ∈ stage.kept, f.Settled r) : f'.Numbered calls := by
  have hderef : f'.deref = f.deref := by
    unfold deref
    rw [hitems]
  apply h.advance (i := i)
  · refine ⟨hlatest, ?_⟩
    intro j e he
    rw [hsets, Function.update_apply] at he
    split_ifs at he with hj
    · subst hj
      exact (heffect e he).imp_right (fun hnew => ⟨rfl, hnew⟩)
    · exact Or.inl he
  · rw [htree, hitems]
    exact h.heap
  · intro j a ha
    rw [hsets, Function.update_apply] at ha
    rw [htree]
    split_ifs at ha with hj
    · subst hj
      exact hitem a ha
    · exact h.sets j a ha
  · rw [hreads, htree]
    exact h.reads
  · intro k a ha r hr
    rw [htree] at ha
    rw [hderef] at hr
    exact Or.inl (h.past k a ha r hr)
  · intro j r hr
    rw [hsets, Function.update_apply] at hr
    split_ifs at hr with hj
    · exact hkept r hr
    · exact h.kept j r hr
  · rw [hreads]
    exact h.reading

/-- A step of a reader. -/
theorem Numbered.read (h : f.Numbered calls) {j : ℕ} {stage : LookupStage}
    (hsets : f'.sets = f.sets) (hreads : f'.reads = Function.update f.reads j stage)
    (htree : f'.treeMap = f.treeMap) (hitems : f'.items = f.items)
    (hvalues : f'.values = f.values)
    (howned : ∀ a, stage.owned = some a → ∃ k : Bytes, f.treeMap[k]? = some a)
    (hslot : ∀ k, stage.slot = some k → f.Settled (k + 1)) : f'.Numbered calls := by
  have hderef : f'.deref = f.deref := by
    unfold deref
    rw [hitems]
  apply h.advance (i := 0)
  · refine ⟨by rw [hvalues], ?_⟩
    rw [hsets]
    exact fun j e he => Or.inl he
  · rw [htree, hitems]
    exact h.heap
  · rw [hsets, htree]
    exact h.sets
  · intro j' a ha
    rw [hreads, Function.update_apply] at ha
    rw [htree]
    split_ifs at ha
    · exact howned a ha
    · exact h.reads j' a ha
  · rw [htree, hderef]
    exact fun k a ha r hr => Or.inl (h.past k a ha r hr)
  · rw [hsets]
    exact h.kept
  · intro j' k hk
    rw [hreads, Function.update_apply] at hk
    split_ifs at hk
    · exact hslot k hk
    · exact h.reading j' k hk

/-- A removal, or a panic. -/
theorem Numbered.latest (h : f.Numbered calls) (hsets : f'.sets = f.sets)
    (hreads : f'.reads = f.reads) (htree : f'.treeMap = f.treeMap) (hitems : f'.items = f.items)
    (hlatest : f'.values.latest = f.values.latest) : f'.Numbered calls := by
  have hsettled : f'.Settled = f.Settled := by
    unfold Settled
    rw [hsets, hlatest]
  have hderef : f'.deref = f.deref := by
    unfold deref
    rw [hitems]
  refine ⟨?_, ?_, ?_, ?_, ?_, ?_, ?_, ?_⟩
  · rw [htree, hitems]
    exact h.heap
  · rw [hsets, htree]
    exact h.sets
  · rw [hreads, htree]
    exact h.reads
  · rw [hsets, hlatest]
    exact h.below
  · rw [hsets]
    exact h.apart
  · rw [htree, hderef, hsettled]
    exact h.past
  · rw [hsets, hsettled]
    exact h.kept
  · rw [hreads, hsettled]
    exact h.reading

theorem Settled.of_lookup {a : ℕ} {rev : ℤ} {index : ℕ}
    (h : ∀ r ∈ (f.deref a).revisions, f.Settled r) (hl : (f.deref a).lookup rev = .inr index) :
    f.Settled (index + 1) := by
  obtain ⟨r, hr, rfl⟩ := TreeItem.lookup_mem hl
  have hsettled := h r hr
  have hpos := hsettled.1
  have he : ((r.toNat - 1 : ℕ) : ℤ) + 1 = r := by omega
  rw [he]
  exact hsettled

theorem latest_of_place {d d' : RawDeque Value storeBlock} {index : ℕ} {v : Value}
    (h : d.place index v = some d') : d'.latest = d.latest := by
  rw [RawDeque.place_eq] at h
  split_ifs at h
  cases h
  rfl

theorem latest_of_remove {d d' : RawDeque Value storeBlock} {idx : ℕ} {res : Except Unit Unit}
    (hidx : idx < d.latest) (h : d.checkedRemoveBefore idx = some (res, d')) :
    d'.latest = d.latest := by
  unfold RawDeque.latest at hidx ⊢
  rw [RawDeque.checkedRemoveBefore_eq] at h
  by_cases hstart : d.startOffset ≤ idx
  · by_cases hc : idx ≤ d.allocatedEnd
    · rw [RawDeque.removeBefore_allocated _ hstart (by omega) hc] at h
      cases h
      show d.startOffset + d.length - idx + idx = _
      omega
    · rw [RawDeque.removeBefore_unallocated _ hstart (by omega) (by omega)] at h
      contradiction
  · unfold RawDeque.removeBefore at h
    rw [if_neg (by omega), if_pos (by omega)] at h
    cases h
    rfl

/-- A new item has no revisions. -/
theorem Numbered.created (h : f.Numbered calls) {i : ℕ} {rev : ℤ}
    (hi : f.sets i = .started rev) (hk : f.treeMap[(calls i).key]? = none) :
    Numbered calls ({ f with
      items := f.items ++ [TreeItem.placeholder (calls i).key]
      treeMap := f.treeMap.insert (calls i).key f.items.length }.toStage i
        (.created rev f.items.length)) := by
  have hgrow {k : Bytes} {a : ℕ} (ha : f.treeMap[k]? = some a) :
      (f.treeMap.insert (calls i).key f.items.length)[k]? = some a := by
    rw [getElem?_insert_bytes, if_neg, ha]
    intro he
    rw [← he, hk] at ha
    contradiction
  apply h.advance (i := i)
  · refine ⟨le_refl _, ?_⟩
    intro j e he
    unfold toStage at he
    dsimp only at he
    rw [Function.update_apply] at he
    split_ifs at he
    · contradiction
    · exact Or.inl he
  · intro k a ha
    show a < (f.items ++ [TreeItem.placeholder (calls i).key]).length
    rw [List.length_append, List.length_singleton]
    change (f.treeMap.insert (calls i).key f.items.length)[k]? = some a at ha
    rw [getElem?_insert_bytes] at ha
    split_ifs at ha
    · cases ha
      omega
    · have := h.heap k a ha
      omega
  · intro j a ha
    unfold toStage at ha ⊢
    dsimp only at ha ⊢
    rw [Function.update_apply] at ha
    split_ifs at ha with hj
    · subst hj
      rw [getElem?_insert_bytes, if_pos rfl]
      exact ha
    · exact hgrow (h.sets j a ha)
  · intro j a ha
    obtain ⟨k, hk'⟩ := h.reads j a ha
    exact ⟨k, hgrow hk'⟩
  · intro k a ha r hr
    change (f.treeMap.insert (calls i).key f.items.length)[k]? = some a at ha
    rw [getElem?_insert_bytes] at ha
    unfold deref toStage at hr
    dsimp only at hr
    rw [List.getD_eq_getElem?_getD] at hr
    split_ifs at ha
    · cases ha
      rw [List.getElem?_concat_length] at hr
      contradiction
    · rw [List.getElem?_append_left (h.heap k a ha), ← List.getD_eq_getElem?_getD] at hr
      exact Or.inl (h.past k a ha r hr)
  · intro j r hr
    unfold toStage at hr
    dsimp only at hr
    rw [Function.update_apply] at hr
    split_ifs at hr
    · contradiction
    · exact h.kept j r hr
  · exact h.reading

/-- The new revision belongs to the past as soon as it stands in the item. -/
theorem Numbered.committed (h : f.Numbered calls) {i : ℕ} {e : Effect} {l : Lock Thread}
    {item : TreeItem} {res : Except (Option KeyValue) Committed}
    (hi : f.sets i = .stored e) (hitem : item.revisions = e.revisions ++ [e.newRev]) :
    Numbered calls (((({ f with items := f.items.set e.hold.item item } :
      Interleaved)).withItemLock e.hold.item l).toStage i (.unlocked e.hold.latestRev res)) := by
  have heff : (f.sets i).effect = some e := by rw [hi]; rfl
  have hother {j : ℕ} {e' : Effect} (he : (Function.update f.sets i
      (.unlocked e.hold.latestRev res) j).effect = some e') :
      j ≠ i ∧ (f.sets j).effect = some e' := by
    rw [Function.update_apply] at he
    split_ifs at he with hj
    · contradiction
    · exact ⟨hj, he⟩
  apply h.advance (i := i)
  · refine ⟨le_refl _, ?_⟩
    intro j e' he
    exact Or.inl (hother he).2
  · intro k a ha
    show a < (f.items.set e.hold.item item).length
    rw [List.length_set]
    exact h.heap k a ha
  · intro j a ha
    unfold toStage withItemLock at ha
    dsimp only at ha
    rw [Function.update_apply] at ha
    split_ifs at ha
    · contradiction
    · exact h.sets j a ha
  · exact h.reads
  · intro k a ha r hr
    unfold deref toStage withItemLock at hr
    dsimp only at hr
    rw [List.getD_eq_getElem?_getD, List.getElem?_set] at hr
    split_ifs at hr with heq hlen
    · rw [Option.getD_some, hitem, List.mem_append, List.mem_singleton] at hr
      rcases hr with hr | rfl
      · exact Or.inl (h.kept i r (by rw [hi]; exact hr))
      · right
        have hbelow := h.below i e heff
        refine ⟨by unfold Effect.newRev; omega, ?_, ?_⟩
        · show e.newRev ≤ f.values.latest
          unfold Effect.newRev
          omega
        · intro j e' he hrev
          obtain ⟨hj, he⟩ := hother he
          unfold Effect.newRev at hrev
          exact hj (h.apart j i e' e he heff (by omega))
    · contradiction
    · rw [← List.getD_eq_getElem?_getD] at hr
      exact Or.inl (h.past k a ha r hr)
  · intro j r hr
    unfold toStage withItemLock at hr
    dsimp only at hr
    rw [Function.update_apply] at hr
    split_ifs at hr
    · contradiction
    · exact h.kept j r hr
  · exact h.reading

theorem step_numbered {a : Access} (h : f.Numbered calls) (hstep : f.step calls a = some f') :
    f'.Numbered calls := by
  have hlatest : f.values.latest < RawDeque.latest
      { f.values with length := f.values.length + 1 } := by
    unfold RawDeque.latest
    dsimp only
    omega
  cases step_moves hstep with
  | invoked hi =>
    exact h.stage rfl rfl rfl rfl (le_refl _) (fun _ ha => nomatch ha) (fun _ he => nomatch he)
      (fun _ hr => nomatch hr)
  | found hi hk =>
    exact h.stage rfl rfl rfl rfl (le_refl _) (fun _ ha => hk.trans ha) (fun _ he => nomatch he)
      (fun _ hr => nomatch hr)
  | created hi hk => exact h.created hi hk
  | @indexed i _ _ hi =>
    exact h.stage rfl rfl rfl rfl (le_refl _) (fun a ha => h.sets i a (by rw [hi]; exact ha))
      (fun _ he => nomatch he) (fun _ hr => nomatch hr)
  | @acquired i _ _ hi _ =>
    exact h.stage rfl rfl rfl rfl (le_refl _) (fun a ha => h.sets i a (by rw [hi]; exact ha))
      (fun _ he => nomatch he) (fun _ hr => nomatch hr)
  | refused hi _ =>
    exact h.stage rfl rfl rfl rfl (le_refl _) (fun _ ha => nomatch ha) (fun _ he => nomatch he)
      (fun _ hr => nomatch hr)
  | @checked i _ hi _ =>
    exact h.stage rfl rfl rfl rfl (le_refl _) (fun a ha => h.sets i a (by rw [hi]; exact ha))
      (fun _ he => nomatch he) (fun _ hr => nomatch hr)
  | @drained i hold hi =>
    have hown := h.sets i hold.item (by rw [hi]; rfl)
    exact h.stage rfl rfl rfl rfl (le_refl _) (fun a ha => h.sets i a (by rw [hi]; exact ha))
      (fun _ he => nomatch he)
      (fun r hr => h.past _ _ hown r (drainRevisions_subset _ _ r hr))
  | @reserved i _ _ _ hi _ _ =>
    refine h.stage rfl rfl rfl rfl hlatest.le (fun a ha => h.sets i a (by rw [hi]; exact ha)) ?_
      (fun r hr => h.kept i r (by rw [hi]; exact hr))
    intro e he
    cases he
    exact Or.inr ⟨rfl, hlatest⟩
  | @awaited i _ _ hi =>
    refine h.stage rfl rfl rfl rfl hlatest.le (fun a ha => h.sets i a (by rw [hi]; exact ha)) ?_
      (fun r hr => h.kept i r (by rw [hi]; exact hr))
    intro e he
    cases he
    exact Or.inr ⟨rfl, hlatest⟩
  | @filled i _ hi =>
    exact h.stage rfl rfl rfl rfl (le_refl _) (fun a ha => h.sets i a (by rw [hi]; exact ha))
      (fun e he => Or.inl (by rw [hi]; exact he)) (fun r hr => h.kept i r (by rw [hi]; exact hr))
  | @placed i _ _ _ hi _ hv =>
    exact h.stage rfl rfl rfl rfl (latest_of_place hv).ge
      (fun a ha => h.sets i a (by rw [hi]; exact ha))
      (fun e he => Or.inl (by rw [hi]; exact he)) (fun r hr => h.kept i r (by rw [hi]; exact hr))
  | @storing i _ _ hi _ _ =>
    exact h.stage rfl rfl rfl rfl (le_refl _) (fun a ha => h.sets i a (by rw [hi]; exact ha))
      (fun e he => Or.inl (by rw [hi]; exact he)) (fun r hr => h.kept i r (by rw [hi]; exact hr))
  | @skipped i _ hi _ =>
    exact h.stage rfl rfl rfl rfl (le_refl _) (fun a ha => h.sets i a (by rw [hi]; exact ha))
      (fun e he => Or.inl (by rw [hi]; exact he)) (fun r hr => h.kept i r (by rw [hi]; exact hr))
  | @stored i _ hi _ =>
    exact h.stage rfl rfl rfl rfl (le_refl _) (fun a ha => h.sets i a (by rw [hi]; exact ha))
      (fun e he => Or.inl (by rw [hi]; exact he)) (fun r hr => h.kept i r (by rw [hi]; exact hr))
  | committed hi => exact h.committed hi rfl
  | returned hi =>
    exact h.stage rfl rfl rfl rfl (le_refl _) (fun _ ha => nomatch ha) (fun _ he => nomatch he)
      (fun _ hr => nomatch hr)
  | holding hj hk _ _ =>
    exact h.read rfl rfl rfl rfl rfl (fun a ha => ⟨_, hk.trans ha⟩) (fun _ hs => nomatch hs)
  | known hj _ =>
    exact h.read rfl rfl rfl rfl rfl (fun _ ha => nomatch ha) (fun _ hs => nomatch hs)
  | @getting j b _ _ _ hj hl _ _ =>
    obtain ⟨k, hk⟩ := h.reads j b (by rw [hj]; rfl)
    refine h.read rfl rfl rfl rfl rfl (fun a ha => h.reads j a (by rw [hj]; exact ha)) ?_
    intro n hn
    cases hn
    exact Settled.of_lookup (h.past k b hk) hl
  | outside hj _ _ =>
    exact h.read rfl rfl rfl rfl rfl (fun _ ha => nomatch ha) (fun _ hs => nomatch hs)
  | got hj _ =>
    exact h.read rfl rfl rfl rfl rfl (fun _ ha => nomatch ha) (fun _ hs => nomatch hs)
  | removed hidx _ hv => exact h.latest rfl rfl rfl rfl (latest_of_remove hidx hv)
  | lost _ _ => exact h.latest rfl rfl rfl rfl rfl
  | unstored _ _ => exact h.latest rfl rfl rfl rfl rfl
  | ungot _ _ => exact h.latest rfl rfl rfl rfl rfl
  | unremoved _ => exact h.latest rfl rfl rfl rfl rfl

/-! ### The holders of the locks -/

def Writes (f : Interleaved) (a : ℕ) : Thread → Prop
  | .inl i => (f.sets i).owned = some a
  | .inr _ => False

def Reads (f : Interleaved) (a : ℕ) : Thread → Prop
  | .inl _ => False
  | .inr j => (f.reads j).owned = some a

/-- The slot that a thread accesses: calls write it, readers read it. -/
def slot (f : Interleaved) : Thread → Option ℕ
  | .inl i => (f.sets i).slot
  | .inr j => (f.reads j).slot

/-- The locks are with the threads that rely on them. -/
structure Guarded (f : Interleaved) : Prop where
  items : ∀ a, HeldBy (f.itemLocks a) (f.Writes a) (f.Reads a)
  blocks : HeldBy f.blocksLock (fun _ => False) (fun t => (f.slot t).isSome)

theorem writes_stage {i : ℕ} {stage : SetStage} (hsets : f'.sets = Function.update f.sets i stage)
    (a : ℕ) (t : Thread) :
    f'.Writes a t ↔ t = .inl i ∧ stage.owned = some a ∨ t ≠ .inl i ∧ f.Writes a t := by
  cases t with
  | inl j =>
    by_cases hj : j = i
    · simp [Writes, hsets, hj]
    · simp [Writes, hsets, hj]
  | inr j => simp [Writes]

theorem slot_stage {i : ℕ} {stage : SetStage} (hsets : f'.sets = Function.update f.sets i stage)
    (hreads : f'.reads = f.reads) (t : Thread) :
    (f'.slot t).isSome ↔ t = .inl i ∧ stage.slot.isSome ∨ t ≠ .inl i ∧ (f.slot t).isSome := by
  cases t with
  | inl j =>
    by_cases hj : j = i
    · simp [slot, hsets, hj]
    · simp [slot, hsets, hj]
  | inr j => simp [slot, hreads]

theorem reads_read {j : ℕ} {stage : LookupStage} (hreads : f'.reads = Function.update f.reads j stage)
    (a : ℕ) (t : Thread) :
    f'.Reads a t ↔ t = .inr j ∧ stage.owned = some a ∨ t ≠ .inr j ∧ f.Reads a t := by
  cases t with
  | inl i => simp [Reads]
  | inr j' =>
    by_cases hj : j' = j
    · simp [Reads, hreads, hj]
    · simp [Reads, hreads, hj]

theorem slot_read {j : ℕ} {stage : LookupStage} (hreads : f'.reads = Function.update f.reads j stage)
    (hsets : f'.sets = f.sets) (t : Thread) :
    (f'.slot t).isSome ↔ t = .inr j ∧ stage.slot.isSome ∨ t ≠ .inr j ∧ (f.slot t).isSome := by
  cases t with
  | inl i => simp [slot, hsets]
  | inr j' =>
    by_cases hj : j' = j
    · simp [slot, hreads, hj]
    · simp [slot, hreads, hj]

/-- A lock of which one item's holders change. -/
theorem items_update {b : ℕ} {l : Lock Thread} (h : ∀ a, HeldBy (f.itemLocks a) (f.Writes a) (f.Reads a))
    (hlocks : f'.itemLocks = Function.update f.itemLocks b l)
    (hb : HeldBy l (f'.Writes b) (f'.Reads b))
    (hwrites : ∀ a t, a ≠ b → (f.Writes a t ↔ f'.Writes a t))
    (hreads : ∀ a t, a ≠ b → (f.Reads a t ↔ f'.Reads a t)) (a : ℕ) :
    HeldBy (f'.itemLocks a) (f'.Writes a) (f'.Reads a) := by
  rw [hlocks, Function.update_apply]
  split_ifs with ha
  · rw [ha]
    exact hb
  · exact (h a).congr (fun t => hwrites a t ha) (fun t => hreads a t ha)

/-- A step of call `i` that leaves the locks of the items alone. -/
theorem Guarded.stage (h : f.Guarded) {i : ℕ} {stage : SetStage}
    (hsets : f'.sets = Function.update f.sets i stage) (hreads : f'.reads = f.reads)
    (hlocks : f'.itemLocks = f.itemLocks) (howned : stage.owned = (f.sets i).owned)
    (hblocks : HeldBy f'.blocksLock (fun _ => False) (fun t => (f'.slot t).isSome)) :
    f'.Guarded := by
  refine ⟨?_, hblocks⟩
  intro a
  rw [hlocks]
  apply (h.items a).congr
  · intro t
    rw [writes_stage hsets, howned]
    by_cases ht : t = .inl i
    · simp [ht, Writes]
    · simp [ht]
  · intro t
    unfold Reads
    rw [hreads]

/-- A step of call `i` that leaves the locks and its slot alone. -/
theorem Guarded.quiet (h : f.Guarded) {i : ℕ} {stage : SetStage}
    (hsets : f'.sets = Function.update f.sets i stage) (hreads : f'.reads = f.reads)
    (hlocks : f'.itemLocks = f.itemLocks) (hblocks : f'.blocksLock = f.blocksLock)
    (howned : stage.owned = (f.sets i).owned) (hslot : stage.slot = (f.sets i).slot) :
    f'.Guarded := by
  apply h.stage hsets hreads hlocks howned
  rw [hblocks]
  apply h.blocks.congr (fun _ => Iff.rfl)
  intro t
  rw [slot_stage hsets hreads, hslot]
  by_cases ht : t = .inl i
  · simp [ht, slot]
  · simp [ht]

/-- Call `i` goes to its slot. -/
theorem Guarded.enter (h : f.Guarded) {i : ℕ} {stage : SetStage} {l : Lock Thread}
    (hsets : f'.sets = Function.update f.sets i stage) (hreads : f'.reads = f.reads)
    (hlocks : f'.itemLocks = f.itemLocks) (hl : f.blocksLock.read (.inl i) = some l)
    (hblocks : f'.blocksLock = l) (howned : stage.owned = (f.sets i).owned)
    (hslot : stage.slot.isSome) : f'.Guarded := by
  apply h.stage hsets hreads hlocks howned
  rw [hblocks]
  apply (h.blocks.of_read hl).2.congr (fun _ => Iff.rfl)
  intro t
  rw [slot_stage hsets hreads]
  by_cases ht : t = .inl i
  · simp [ht, hslot]
  · simp [ht]

/-- Call `i` leaves its slot. -/
theorem Guarded.leave (h : f.Guarded) {i : ℕ} {stage : SetStage}
    (hsets : f'.sets = Function.update f.sets i stage) (hreads : f'.reads = f.reads)
    (hlocks : f'.itemLocks = f.itemLocks)
    (hblocks : f'.blocksLock = f.blocksLock.unread (.inl i))
    (howned : stage.owned = (f.sets i).owned) (hslot : stage.slot = none) : f'.Guarded := by
  apply h.stage hsets hreads hlocks howned
  rw [hblocks]
  apply (h.blocks.of_unread (.inl i)).congr (fun _ => Iff.rfl)
  intro t
  rw [slot_stage hsets hreads, hslot]
  simp

/-- Call `i` takes or releases the lock of item `b`. -/
theorem Guarded.relock (h : f.Guarded) {i b : ℕ} {stage : SetStage} {l : Lock Thread}
    (hsets : f'.sets = Function.update f.sets i stage) (hreads : f'.reads = f.reads)
    (hlocks : f'.itemLocks = Function.update f.itemLocks b l)
    (hblocks : f'.blocksLock = f.blocksLock) (hslot : (f.sets i).slot = none)
    (hslot' : stage.slot = none) (howned : ∀ a, a ≠ b → (f.sets i).owned ≠ some a)
    (howned' : ∀ a, a ≠ b → stage.owned ≠ some a)
    (hb : HeldBy l (f'.Writes b) (f'.Reads b)) : f'.Guarded := by
  refine ⟨items_update h.items hlocks hb ?_ ?_, ?_⟩
  · intro a t ha
    rw [writes_stage hsets]
    by_cases ht : t = .inl i
    · simp [ht, Writes, howned a ha, howned' a ha]
    · simp [ht]
  · intro a t _
    unfold Reads
    rw [hreads]
  · rw [hblocks]
    apply h.blocks.congr (fun _ => Iff.rfl)
    intro t
    rw [slot_stage hsets hreads, hslot']
    by_cases ht : t = .inl i
    · simp [ht, slot, hslot]
    · simp [ht]

/-- A lock that its only writer gives up. -/
theorem Guarded.release (h : f.Guarded) {i b : ℕ} {stage : SetStage}
    (hsets : f'.sets = Function.update f.sets i stage) (hreads : f'.reads = f.reads)
    (hlocks : f'.itemLocks = Function.update f.itemLocks b (f.itemLocks b).unwrite)
    (hblocks : f'.blocksLock = f.blocksLock) (hi : (f.sets i).owned = some b)
    (hslot : (f.sets i).slot = none) (hslot' : stage.slot = none) (howned : stage.owned = none) :
    f'.Guarded := by
  apply h.relock hsets hreads hlocks hblocks hslot hslot'
  · intro a ha he
    rw [hi] at he
    exact ha (Option.some.inj he).symm
  · intro a _ he
    rw [howned] at he
    contradiction
  · apply (h.items b).of_unwrite.congr
    · intro t
      rw [writes_stage hsets, howned]
      -- whoever else has it for writing is call `i`
      refine iff_of_false id ?_
      rintro (⟨_, hnone⟩ | ⟨hne, hw⟩)
      · contradiction
      · exact hne ((h.items b).writer_unique hw hi)
    · intro t
      unfold Reads
      rw [hreads]

/-- A step of a reader: it takes or leaves the lock of item `b`. -/
theorem Guarded.reader (h : f.Guarded) {j b : ℕ} {stage : LookupStage} {l : Lock Thread}
    (hsets : f'.sets = f.sets) (hreads : f'.reads = Function.update f.reads j stage)
    (hlocks : f'.itemLocks = Function.update f.itemLocks b l)
    (howned : ∀ a, a ≠ b → (f.reads j).owned ≠ some a) (howned' : ∀ a, a ≠ b → stage.owned ≠ some a)
    (hb : HeldBy l (f.Writes b) (f'.Reads b))
    (hblocks : HeldBy f'.blocksLock (fun _ => False) (fun t => (f'.slot t).isSome)) :
    f'.Guarded := by
  have hwrites (a : ℕ) (t : Thread) : f.Writes a t ↔ f'.Writes a t := by
    unfold Writes
    rw [hsets]
  refine ⟨items_update h.items hlocks (hb.congr (hwrites b) (fun _ => Iff.rfl)) ?_ ?_, hblocks⟩
  · intro a t _
    exact hwrites a t
  · intro a t ha
    rw [reads_read hreads]
    by_cases ht : t = .inr j
    · simp [ht, Reads, howned a ha, howned' a ha]
    · simp [ht]

/-- Call `i` takes the lock of item `b`, which nobody has. -/
theorem Guarded.acquire (h : f.Guarded) {i b : ℕ} {stage : SetStage} {l : Lock Thread}
    (hsets : f'.sets = Function.update f.sets i stage) (hreads : f'.reads = f.reads)
    (hlocks : f'.itemLocks = Function.update f.itemLocks b l)
    (hblocks : f'.blocksLock = f.blocksLock) (hl : (f.itemLocks b).write (.inl i) = some l)
    (hi : (f.sets i).owned = none) (hslot : (f.sets i).slot = none) (hslot' : stage.slot = none)
    (howned : stage.owned = some b) : f'.Guarded := by
  apply h.relock hsets hreads hlocks hblocks hslot hslot'
  · intro a _ he
    rw [hi] at he
    contradiction
  · intro a ha he
    rw [howned] at he
    exact ha (Option.some.inj he).symm
  · obtain ⟨hno, -, hheld⟩ := (h.items b).of_write hl
    apply hheld.congr
    · intro t
      rw [writes_stage hsets, howned]
      by_cases ht : t = .inl i
      · simp [ht]
      · simp [ht, hno t]
    · intro t
      unfold Reads
      rw [hreads]

/-- A reader takes the lock of item `b`. -/
theorem Guarded.hold (h : f.Guarded) {j b : ℕ} {rev : ℤ} {l : Lock Thread}
    (hsets : f'.sets = f.sets) (hreads : f'.reads = Function.update f.reads j (.holding b rev))
    (hlocks : f'.itemLocks = Function.update f.itemLocks b l)
    (hblocks : f'.blocksLock = f.blocksLock) (hl : (f.itemLocks b).read (.inr j) = some l)
    (hj : f.reads j = .idle) : f'.Guarded := by
  refine h.reader hsets hreads hlocks (by rw [hj]; exact fun _ _ he => nomatch he)
    (fun a ha he => ha (Option.some.inj he).symm) ?_ ?_
  · apply ((h.items b).of_read hl).2.congr (fun _ => Iff.rfl)
    intro t
    rw [reads_read hreads]
    by_cases ht : t = .inr j
    · simp [ht, LookupStage.owned]
    · simp [ht]
  · rw [hblocks]
    apply h.blocks.congr (fun _ => Iff.rfl)
    intro t
    rw [slot_read hreads hsets]
    by_cases ht : t = .inr j
    · simp [ht, slot, LookupStage.slot, hj]
    · simp [ht]

/-- A reader goes to its slot. -/
theorem Guarded.get (h : f.Guarded) {j b index : ℕ} {rev : ℤ} {l : Lock Thread}
    (hsets : f'.sets = f.sets) (hreads : f'.reads = Function.update f.reads j (.getting b rev index))
    (hlocks : f'.itemLocks = f.itemLocks) (hblocks : f'.blocksLock = l)
    (hl : f.blocksLock.read (.inr j) = some l) (hj : f.reads j = .holding b rev) :
    f'.Guarded := by
  have hsame : f'.itemLocks = Function.update f.itemLocks b (f.itemLocks b) := by
    rw [hlocks, Function.update_eq_self]
  refine h.reader hsets hreads hsame (by rw [hj]; exact fun a ha he => ha (Option.some.inj he).symm)
    (fun a ha he => ha (Option.some.inj he).symm) ?_ ?_
  · apply (h.items b).congr (fun _ => Iff.rfl)
    intro t
    rw [reads_read hreads]
    by_cases ht : t = .inr j
    · simp [ht, Reads, LookupStage.owned, hj]
    · simp [ht]
  · rw [hblocks]
    apply (h.blocks.of_read hl).2.congr (fun _ => Iff.rfl)
    intro t
    rw [slot_read hreads hsets]
    by_cases ht : t = .inr j
    · simp [ht, LookupStage.slot]
    · simp [ht]

/-- A reader is finished and gives up what it has. -/
theorem Guarded.finish (h : f.Guarded) {j b : ℕ} {found : Option Value}
    (hsets : f'.sets = f.sets) (hreads : f'.reads = Function.update f.reads j (.done found))
    (hlocks : f'.itemLocks = Function.update f.itemLocks b ((f.itemLocks b).unread (.inr j)))
    (howned : (f.reads j).owned = some b)
    (hblocks : f'.blocksLock = f.blocksLock ∧ (f.reads j).slot = none ∨
      f'.blocksLock = f.blocksLock.unread (.inr j)) : f'.Guarded := by
  refine h.reader hsets hreads hlocks
    (by rw [howned]; exact fun a ha he => ha (Option.some.inj he).symm)
    (fun _ _ he => nomatch he) ?_ ?_
  · apply ((h.items b).of_unread (.inr j)).congr (fun _ => Iff.rfl)
    intro t
    rw [reads_read hreads]
    simp [LookupStage.owned]
  · rcases hblocks with ⟨hblocks, hslot⟩ | hblocks
    · rw [hblocks]
      apply h.blocks.congr (fun _ => Iff.rfl)
      intro t
      have hdone : (LookupStage.done found).slot = none := rfl
      rw [slot_read hreads hsets, hdone]
      by_cases ht : t = .inr j
      · simp [ht, slot, hslot]
      · simp [ht]
    · rw [hblocks]
      apply (h.blocks.of_unread (.inr j)).congr (fun _ => Iff.rfl)
      intro t
      rw [slot_read hreads hsets]
      simp [LookupStage.slot]

theorem step_guarded {a : Access} (h : f.Guarded) (hstep : f.step calls a = some f') :
    f'.Guarded := by
  cases step_moves hstep with
  | invoked hi => exact h.quiet rfl rfl rfl rfl (by rw [hi]; rfl) (by rw [hi]; rfl)
  | found hi _ => exact h.quiet rfl rfl rfl rfl (by rw [hi]; rfl) (by rw [hi]; rfl)
  | created hi _ => exact h.quiet rfl rfl rfl rfl (by rw [hi]; rfl) (by rw [hi]; rfl)
  | indexed hi => exact h.quiet rfl rfl rfl rfl (by rw [hi]; rfl) (by rw [hi]; rfl)
  | acquired hi hl =>
    exact h.acquire rfl rfl rfl rfl hl (by rw [hi]; rfl) (by rw [hi]; rfl) rfl rfl
  | refused hi _ =>
    exact h.release rfl rfl rfl rfl (by rw [hi]; rfl) (by rw [hi]; rfl) rfl rfl
  | checked hi _ => exact h.quiet rfl rfl rfl rfl (by rw [hi]; rfl) (by rw [hi]; rfl)
  | drained hi => exact h.quiet rfl rfl rfl rfl (by rw [hi]; rfl) (by rw [hi]; rfl)
  | reserved hi hl _ => exact h.enter rfl rfl rfl hl rfl (by rw [hi]; rfl) rfl
  | awaited hi => exact h.quiet rfl rfl rfl rfl (by rw [hi]; rfl) (by rw [hi]; rfl)
  | filled hi => exact h.leave rfl rfl rfl rfl (by rw [hi]; rfl) rfl
  | placed hi _ _ => exact h.quiet rfl rfl rfl rfl (by rw [hi]; rfl) (by rw [hi]; rfl)
  | storing hi hl _ => exact h.enter rfl rfl rfl hl rfl (by rw [hi]; rfl) rfl
  | skipped hi _ => exact h.quiet rfl rfl rfl rfl (by rw [hi]; rfl) (by rw [hi]; rfl)
  | stored hi _ => exact h.leave rfl rfl rfl rfl (by rw [hi]; rfl) rfl
  | committed hi =>
    exact h.release rfl rfl rfl rfl (by rw [hi]; rfl) (by rw [hi]; rfl) rfl rfl
  | returned hi => exact h.quiet rfl rfl rfl rfl (by rw [hi]; rfl) (by rw [hi]; rfl)
  | holding hj _ _ hl => exact h.hold rfl rfl rfl rfl hl hj
  | known hj _ =>
    exact h.finish rfl rfl rfl (by rw [hj]; rfl) (Or.inl ⟨rfl, by rw [hj]; rfl⟩)
  | getting hj _ hl _ => exact h.get rfl rfl rfl rfl hl hj
  | outside hj _ _ =>
    exact h.finish rfl rfl rfl (by rw [hj]; rfl) (Or.inl ⟨rfl, by rw [hj]; rfl⟩)
  | got hj _ => exact h.finish rfl rfl rfl (by rw [hj]; rfl) (Or.inr rfl)
  | removed _ _ _ => exact ⟨h.items, h.blocks⟩
  | lost _ _ => exact ⟨h.items, h.blocks⟩
  | unstored _ _ => exact ⟨h.items, h.blocks⟩
  | ungot _ _ => exact ⟨h.items, h.blocks⟩
  | unremoved _ => exact ⟨h.items, h.blocks⟩

/-! ### No races -/

theorem start_numbered {s : Store} (hs : s.HeapOk)
    (hrevs : ∀ k, ∀ r ∈ (s.view k).revisions, 1 ≤ r ∧ r ≤ s.currentRevision) :
    (start s).Numbered calls := by
  have hset (i : ℕ) : (start s).sets i = .idle := rfl
  have hread (j : ℕ) : (start s).reads j = .idle := rfl
  constructor
  case heap => exact fun k a ha => (hs.owned k a ha).1
  case past =>
    intro k a ha r hr
    have hview : s.view k = s.deref a := by
      unfold Store.view Store.item?
      rw [show s.treeMap[k]? = some a from ha]
      rfl
    obtain ⟨hpos, hle⟩ := hrevs k r (by rw [hview]; exact hr)
    refine ⟨hpos, hle, ?_⟩
    simp [hset, SetStage.effect]
  all_goals simp [hset, hread, SetStage.item, SetStage.effect, SetStage.kept, LookupStage.owned,
    LookupStage.slot]

theorem start_guarded (s : Store) : (start s).Guarded := by
  constructor
  · intro a
    apply RwLocks.heldBy_free.congr
    · intro t
      cases t <;> exact iff_of_false id (fun h => nomatch h)
    · intro t
      cases t <;> exact iff_of_false id (fun h => nomatch h)
  · apply RwLocks.heldBy_free.congr (fun _ => Iff.rfl)
    intro t
    cases t <;> exact iff_of_false id (fun h => nomatch h)

/-- Two threads access one slot, and one of them writes it. -/
def Racy (f : Interleaved) : Prop :=
  ∃ t t' k, t ≠ t' ∧ f.slot t = some k ∧ f.slot t' = some k ∧ (t.isLeft ∨ t'.isLeft)

theorem not_racy (hn : f.Numbered calls) : ¬f.Racy := by
  have hwriter (i : ℕ) (t : Thread) (k : ℕ) (hne : .inl i ≠ t) (hi : f.slot (.inl i) = some k)
      (ht : f.slot t = some k) : False := by
    obtain ⟨e, he, hk⟩ := SetStage.effect_of_slot hi
    cases t with
    | inl j =>
      obtain ⟨e', he', hk'⟩ := SetStage.effect_of_slot ht
      exact hne (congrArg Sum.inl (hn.apart i j e e' he he' (hk.trans hk'.symm)))
    | inr j =>
      apply (hn.reading j k ht).2.2 i e he
      unfold Effect.newRev
      rw [hk]
  rintro ⟨t, t', k, hne, ht, ht', hleft | hleft⟩
  · obtain ⟨i, rfl⟩ := Sum.isLeft_iff.mp hleft
    exact hwriter i t' k hne ht ht'
  · obtain ⟨i, rfl⟩ := Sum.isLeft_iff.mp hleft
    exact hwriter i t k hne.symm ht' ht

/-- While a thread is at a slot, no block is added or removed. -/
theorem blocks_stay (h : f.Guarded) {t : Thread} (ht : (f.slot t).isSome) (i idx : ℕ) :
    f.step calls (.place i) = none ∧ f.step calls (.remove idx) = none := by
  have hmem := (h.blocks.readers t).mpr ht
  have hwrite : f.blocksLock.write (.inl i) = none := by
    unfold Lock.write
    rw [if_neg]
    rintro ⟨_, hnil⟩
    rw [hnil] at hmem
    contradiction
  have hfree : f.blocksLock ≠ .free := by
    intro he
    rw [he] at hmem
    contradiction
  constructor
  · unfold step
    dsimp only
    by_cases hp : f.panicked.isSome
    · rw [if_pos hp]
    · rw [if_neg hp]
      cases f.sets i <;> dsimp only
      rw [hwrite]
      rfl
  · unfold step
    dsimp only
    rw [if_neg (fun he : idx < f.values.latest ∧ f.blocksLock = .free => hfree he.2), ite_self]

/-- The unsafe writes of `push` and `set`, among calls, reads at past revisions and
compactions in any order: a slot that is written is not accessed by another thread, no
block goes or comes while a slot is accessed, and an item that is written is with one
thread only. -/
theorem slots_race_free {s : Store} (hs : s.HeapOk)
    (hrevs : ∀ k, ∀ r ∈ (s.view k).revisions, 1 ≤ r ∧ r ≤ s.currentRevision)
    {trace : List Access} (hrun : (start s).run calls trace = some f) :
    ¬f.Racy ∧
      (∀ t, (f.slot t).isSome → ∀ i idx,
        f.step calls (.place i) = none ∧ f.step calls (.remove idx) = none) ∧
      ∀ i a, (f.sets i).owned = some a →
        (∀ j, (f.sets j).owned = some a → j = i) ∧ ∀ j, (f.reads j).owned ≠ some a := by
  obtain ⟨hn, hg⟩ : f.Numbered calls ∧ f.Guarded := by
    apply @PartialRun.run_induct _ _ _ (fun f => f.Numbered calls ∧ f.Guarded) _ _ _ _
      ⟨start_numbered hs hrevs, start_guarded s⟩ hrun
    intro f f' a h hstep
    exact ⟨step_numbered h.1 hstep, step_guarded h.2 hstep⟩
  refine ⟨not_racy hn, fun t ht i idx => blocks_stay hg ht i idx, ?_⟩
  intro i a hi
  constructor
  · intro j hj
    exact Sum.inl.inj ((hg.items a).writer_unique (i := .inl j) (j := .inl i) hj hi)
  · intro j hj
    exact (hg.items a).exclusive (.inl i) (.inr j) hi hj

def wholeSet (i : ℕ) (push : List Access) : List Access :=
  [.acquire i, .check i, .drain i, .reserve i] ++ push ++ [.beginStore i, .endStore i, .commit i]

/-- An empty store has no revisions. -/
theorem new_revisions {wal : Option WalMode} : ∀ k, ∀ r ∈ ((Store.new wal).view k).revisions,
    1 ≤ r ∧ r ≤ (Store.new wal).currentRevision := by
  intro k r hr
  have hview : (Store.new wal).view k = TreeItem.placeholder k := by
    simp [Store.view, Store.item?, Store.new]
  rw [hview] at hr
  contradiction

/-- Two writes of `a`, then a read at revision 1 while a write of `b` fills its slot. -/
def busyCalls : ℕ → Call
  | 0 => ⟨[97], some [1], none⟩
  | 1 => ⟨[97], some [2], none⟩
  | _ => ⟨[98], some [3], none⟩

def busyTrace : List Access :=
  [.invoke 0, .entry 0, .index 0, .invoke 1, .entry 1] ++ wholeSet 0 [.place 0] ++
    wholeSet 1 [.fill 1] ++ [.remove 0, .invoke 2, .entry 2, .index 2, .acquire 2, .check 2,
      .drain 2, .readItem 0 [97] 1, .reserve 2, .lookup 0]

theorem slots_race_free_busyTrace :
    ∃ f, (start (Store.new none)).run busyCalls busyTrace = some f ∧
      f.slot (.inl 2) = some 2 ∧ f.slot (.inr 0) = some 0 ∧ ¬f.Racy := by
  have hslots : ((start (Store.new none)).run busyCalls busyTrace).map
      (fun f => (f.slot (.inl 2), f.slot (.inr 0))) = some (some 2, some 0) := by decide
  obtain ⟨f, hrun, hf⟩ := Option.map_eq_some_iff.mp hslots
  obtain ⟨hcall, hread⟩ := Prod.mk.inj hf
  exact ⟨f, hrun, hcall, hread, (slots_race_free (Store.new_wf none).toHeapOk new_revisions hrun).1⟩

end Interleaved
end MemEtcd
