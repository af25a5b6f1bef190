import MemEtcd.Linearizable
import MemEtcd.SlotRaces

/-! The section of `set` under the lock of its item is as good as one step. As long as
nothing is compacted, a run of single accesses is matched by a run of whole sections: a
section that fails takes place where it is refused, one that succeeds where its push takes
the index. From there on the atomic model has the new item and the new value, and the
threads cannot see that the memory does not have them yet. -/
namespace MemEtcd

open CommitOrder (Event Timely)
open RwLocks (Lock)

def SetStage.phase (call : Call) (item : ℕ → TreeItem) : SetStage → SetPhase
  | .idle => .idle
  | .started rev => .started rev
  | .created rev a => .created rev a
  | .ready h | .locked h | .checked h | .drained h _ => .ready h.latestRev h.item h.isNewItem
  | .filling e | .waiting e | .pushed e | .storing e | .stored e =>
    .unlocked e.hold.latestRev (.ok (e.committed (item e.hold.item) call.value))
  | .unlocked rev res => .unlocked rev res
  | .returned res => .returned res

theorem SetStage.phase_congr {call : Call} {item item' : ℕ → TreeItem} {stage : SetStage}
    (h : ∀ e, stage.effect = some e → item e.hold.item = item' e.hold.item) :
    stage.phase call item = stage.phase call item' := by
  cases stage <;> first | rfl | (simp only [phase]; rw [h _ rfl])

namespace Interleaved

variable {calls : ℕ → Call} {f f' : Interleaved} {c c' : Concurrent}

/-- The store of the atomic model is ahead of the memory by the calls under way: their items
and their values are there already. -/
structure Ahead (calls : ℕ → Call) (f : Interleaved) (s : Store) : Prop where
  items : ∀ a, (∀ i e, (f.sets i).effect = some e → e.hold.item ≠ a) → s.deref a = f.deref a
  slots : ∀ k, f.values.InBounds k → (∀ i e, (f.sets i).effect = some e → e.index ≠ k) →
    f.values.slot k = s.valuesByRevision.at? k
  effects : ∀ i e, (f.sets i).effect = some e →
    s.deref e.hold.item = e.newItem (f.deref e.hold.item) (calls i).value ∧
      s.valuesByRevision.at? e.index = some (e.newValue (f.deref e.hold.item) (calls i).value) ∧
      f.values.startOffset ≤ e.index

/-- Every index has its block, except for those of calls that wait for one. -/
def Allocated (f : Interleaved) : Prop :=
  ∀ k, f.values.InBounds k → (∀ i e, f.sets i = .waiting e → e.index ≠ k) →
    f.values.blockIndex k < f.values.blocks.length

/-- What a call has found out, or written, on its way through the section. -/
def Earned (call : Call) (f : Interleaved) : SetStage → Prop
  | .checked h => checkItem (f.deref h.item) call.value call.required = .ok ()
  | .drained h r => checkItem (f.deref h.item) call.value call.required = .ok () ∧
      r = drainRevisions (f.deref h.item).revisions f.values.startOffset
  | .stored e => f.values.slot e.index = some (e.newValue (f.deref e.hold.item) call.value)
  | _ => True

/-- The atomic model has what the memory has, except for the calls under way. -/
structure Matches (calls : ℕ → Call) (f : Interleaved) (c : Concurrent) : Prop
    extends Ahead calls f c.store where
  treeMap : c.store.treeMap = f.treeMap
  prefixMap : c.store.prefixMap = f.prefixMap
  length : c.store.items.length = f.items.length
  earliest : c.store.valuesByRevision.earliestRevision = f.values.startOffset
  latest : c.store.valuesByRevision.latestRevision = f.values.latest
  phases : ∀ i, c.phases i = (f.sets i).phase (calls i) f.deref
  allocated : f.Allocated
  earned : ∀ i, f.Earned (calls i) (f.sets i)
  reads : ∀ j a rev k, f.reads j = .getting a rev k →
    f.values.startOffset ≤ k ∧ (f.deref a).lookup rev = .inr k

theorem deref_of_items (h : f'.items = f.items) : f'.deref = f.deref := by
  unfold deref
  rw [h]

/-! ### The threads that do not take the step -/

theorem owned_of_effect {stage : SetStage} {e : Effect} (h : stage.effect = some e) :
    stage.owned = some e.hold.item := by
  cases stage <;> simp only [SetStage.effect, reduceCtorEq, Option.some.injEq] at h <;>
    (subst h; rfl)

theorem item_of_owned {stage : SetStage} {a : ℕ} (h : stage.owned = some a) :
    stage.item = some a := by
  cases stage <;> first | exact h | contradiction

/-- A step of call `i` after which the other threads find what they have found. -/
structure Framed (f f' : Interleaved) (i : ℕ) (stage : SetStage) : Prop where
  sets : f'.sets = Function.update f.sets i stage
  reads : f'.reads = f.reads
  startOffset : f'.values.startOffset = f.values.startOffset
  owned : ∀ j ≠ i, ∀ a, (f.sets j).owned = some a → f'.deref a = f.deref a
  held : ∀ j a, (f.reads j).owned = some a → f'.deref a = f.deref a
  slots : ∀ j ≠ i, ∀ e v, (f.sets j).effect = some e → f.values.slot e.index = some v →
    f'.values.slot e.index = some v

namespace Framed

variable {i : ℕ} {stage : SetStage}

theorem phases (hf : Framed f f' i stage) (h : f.Matches calls c)
    (hphases : c'.phases = Function.update c.phases i (stage.phase (calls i) f'.deref)) (j : ℕ) :
    c'.phases j = (f'.sets j).phase (calls j) f'.deref := by
  rw [hphases, hf.sets, Function.update_apply, Function.update_apply]
  split_ifs with hj
  · rw [hj]
  · rw [h.phases j]
    exact SetStage.phase_congr (fun e he => (hf.owned j hj _ (owned_of_effect he)).symm)

theorem earned (hf : Framed f f' i stage) (h : f.Matches calls c)
    (hstage : f'.Earned (calls i) stage) (j : ℕ) : f'.Earned (calls j) (f'.sets j) := by
  rw [hf.sets, Function.update_apply]
  split_ifs with hj
  · rw [hj]
    exact hstage
  · have hold := h.earned j
    have howned := hf.owned j hj
    have hslots := hf.slots j hj
    cases hs : f.sets j with
    | checked hd =>
      rw [hs] at hold howned
      rw [Earned, howned _ rfl]
      exact hold
    | drained hd r =>
      rw [hs] at hold howned
      rw [Earned, howned _ rfl, hf.startOffset]
      exact hold
    | stored e =>
      rw [hs] at hold howned hslots
      rw [Earned, howned _ rfl]
      exact hslots e _ rfl hold
    | _ => trivial

theorem reading (hf : Framed f f' i stage) (h : f.Matches calls c) (j a : ℕ) (rev : ℤ) (k : ℕ)
    (hj : f'.reads j = .getting a rev k) :
    f'.values.startOffset ≤ k ∧ (f'.deref a).lookup rev = .inr k := by
  rw [hf.reads] at hj
  rw [hf.startOffset, hf.held j a (by rw [hj]; rfl)]
  exact h.reads j a rev k hj

/-- A call that does not wait for a block needs none. -/
theorem allocated (hf : Framed f f' i stage) (h : f.Allocated) (hvalues : f'.values = f.values)
    (hwait : ∀ e, f.sets i ≠ .waiting e) : f'.Allocated := by
  intro k hk hfree
  rw [hvalues] at hk ⊢
  apply h k hk
  intro j e he
  have hj : j ≠ i := by
    rintro rfl
    exact hwait e he
  exact hfree j e (by rw [hf.sets, Function.update_of_ne hj, he])

end Framed

/-! ### Steps that change neither the items nor the calls under way -/

/-- What such a step of call `i` does. -/
structure Local (calls : ℕ → Call) (f f' : Interleaved) (i : ℕ) (stage : SetStage) : Prop where
  sets : f'.sets = Function.update f.sets i stage
  reads : f'.reads = f.reads
  items : f'.items = f.items
  startOffset : f'.values.startOffset = f.values.startOffset
  latest : f'.values.latest = f.values.latest
  effect : stage.effect = (f.sets i).effect
  slot : ∀ k v, f.values.InBounds k → (∀ e, stage.effect = some e → e.index ≠ k) →
    f.values.slot k = some v → f'.values.slot k = some v
  grows : f.values.blocks.length ≤ f'.values.blocks.length
  placed : ∀ e, f.sets i = .waiting e → f'.values.blockIndex e.index < f'.values.blocks.length
  earned : f'.Earned (calls i) stage

/-- Where the array has an index, the atomic model has a value. -/
theorem Matches.present (h : f.Matches calls c) {k : ℕ} (hk : f.values.InBounds k) :
    ∃ v, c.store.valuesByRevision.at? k = some v := by
  have hfirst := h.earliest
  have hlast := h.latest
  unfold BlockDeque.earliestRevision at hfirst
  unfold BlockDeque.latestRevision at hlast
  obtain ⟨hk1, hk2⟩ := hk
  apply Option.isSome_iff_exists.mp
  unfold BlockDeque.at?
  rw [if_pos ⟨by omega, by omega⟩]
  exact c.store.valuesByRevision.wf.filled k (by omega) (by omega)

namespace Local

variable {i : ℕ} {stage : SetStage}

theorem effect_eq (hl : Local calls f f' i stage) (j : ℕ) :
    (f'.sets j).effect = (f.sets j).effect := by
  rw [hl.sets, Function.update_apply]
  split_ifs with hj
  · rw [hl.effect, hj]
  · rfl

theorem inBounds (hl : Local calls f f' i stage) {k : ℕ} (hk : f'.values.InBounds k) :
    f.values.InBounds k := by
  unfold RawDeque.InBounds at hk ⊢
  rwa [hl.startOffset, hl.latest] at hk

theorem framed (hl : Local calls f f' i stage) (h : f.Matches calls c) (hn : f.Numbered calls) :
    Framed f f' i stage where
  sets := hl.sets
  reads := hl.reads
  startOffset := hl.startOffset
  owned _ _ a _ := congrFun (deref_of_items hl.items) a
  held _ a _ := congrFun (deref_of_items hl.items) a
  slots j hj e v he := by
    apply hl.slot _ v ⟨(h.effects j e he).2.2, hn.below j e he⟩
    -- another call has another index
    intro e' he' heq
    rw [hl.effect] at he'
    exact hj (hn.apart j i e e' he he' heq.symm)

theorem ahead (hl : Local calls f f' i stage) (h : f.Matches calls c) {s : Store}
    (hitems : s.items = c.store.items)
    (hvalues : s.valuesByRevision = c.store.valuesByRevision) : Ahead calls f' s := by
  have hderef := deref_of_items hl.items
  have hsderef : s.deref = c.store.deref := by
    unfold Store.deref
    rw [hitems]
  refine ⟨?_, ?_, ?_⟩
  · intro a ha
    rw [hsderef, hderef]
    exact h.items a (fun j e he => ha j e (by rw [hl.effect_eq, he]))
  · intro k hk hfree
    have hk := hl.inBounds hk
    have hold := h.slots k hk (fun j e he => hfree j e (by rw [hl.effect_eq, he]))
    obtain ⟨v, hv⟩ := h.present hk
    rw [hvalues, hv]
    apply hl.slot k v hk _ (hold.trans hv)
    intro e he
    exact hfree i e (by rw [hl.effect_eq, ← hl.effect, he])
  · intro j e he
    rw [hl.effect_eq] at he
    rw [hsderef, hderef, hvalues, hl.startOffset]
    exact h.effects j e he

theorem allocated (hl : Local calls f f' i stage) (h : f.Allocated) : f'.Allocated := by
  intro k hk hfree
  by_cases hi : ∃ e, f.sets i = .waiting e ∧ e.index = k
  · obtain ⟨e, he, rfl⟩ := hi
    exact hl.placed e he
  · have hblock : f'.values.blockIndex k = f.values.blockIndex k := by
      unfold RawDeque.blockIndex
      rw [hl.startOffset]
    rw [hblock]
    apply lt_of_lt_of_le (h k (hl.inBounds hk) _) hl.grows
    intro j e he hek
    by_cases hj : j = i
    · exact hi ⟨e, hj ▸ he, hek⟩
    · exact hfree j e (by rw [hl.sets, Function.update_of_ne hj, he]) hek

/-- The step of a call that neither writes a slot nor counts as one of the atomic model. -/
theorem quiet (hsets : f'.sets = Function.update f.sets i stage) (hreads : f'.reads = f.reads)
    (hitems : f'.items = f.items) (hvalues : f'.values = f.values)
    (heffect : stage.effect = (f.sets i).effect) (hwait : ∀ e, f.sets i ≠ .waiting e)
    (hearned : f'.Earned (calls i) stage) : Local calls f f' i stage where
  sets := hsets
  reads := hreads
  items := hitems
  startOffset := by rw [hvalues]
  latest := by rw [hvalues]
  effect := heffect
  slot k v _ _ hv := by rw [hvalues, hv]
  grows := by rw [hvalues]
  placed e he := absurd he (hwait e)
  earned := hearned

/-- The step of a call that writes its slot, in a block that is there or new. -/
theorem writes {m : ℕ} {e : Effect} {v : Value} (hm : f.Matches calls c)
    (hi : (f.sets i).effect = some e) (hsets : f'.sets = Function.update f.sets i stage)
    (hreads : f'.reads = f.reads) (hitems : f'.items = f.items)
    (hvalues : f'.values = f.values.written m f.values.length e.index v)
    (hblock : f.values.blockIndex e.index < f.values.blocks.length + m)
    (hstage : stage = .pushed e ∨
      stage = .stored e ∧ v = e.newValue (f.deref e.hold.item) (calls i).value) :
    Local calls f f' i stage := by
  have hdiv : f.values.startOffset / storeBlock ≤ e.index / storeBlock :=
    Nat.div_le_div_right (hm.effects i e hi).2.2
  have hlen : f'.values.blocks.length = f.values.blocks.length + m := by
    rw [hvalues]
    unfold RawDeque.written RawDeque.writeSlot
    rw [List.length_modify, List.length_append, List.length_replicate]
  have heffect : stage.effect = some e := by
    rcases hstage with rfl | ⟨rfl, _⟩ <;> rfl
  constructor
  case sets => exact hsets
  case reads => exact hreads
  case items => exact hitems
  case startOffset => rw [hvalues]; rfl
  case latest => rw [hvalues]; rfl
  case effect => rw [heffect, hi]
  case slot =>
    intro k w hk hne hw
    rw [hvalues]
    exact RawDeque.slot_written_of_ne _ _ hdiv hblock (Nat.div_le_div_right hk.1)
      (fun he => hne e heffect he.symm) hw
  case grows => omega
  case placed =>
    intro e' he'
    rw [he'] at hi
    cases hi
    rw [hlen, hvalues]
    exact hblock
  case earned =>
    rcases hstage with rfl | ⟨rfl, rfl⟩
    · trivial
    · rw [Earned, deref_of_items hitems, hvalues]
      exact RawDeque.slot_written_self _ _ _ hdiv hblock

end Local

/-- A step of call `i` that changes neither the items nor the calls under way. -/
theorem Matches.stays (h : f.Matches calls c) (hn : f.Numbered calls) {i : ℕ} {stage : SetStage}
    (hl : Local calls f f' i stage) (htree : c'.store.treeMap = f'.treeMap)
    (hpfx : c'.store.prefixMap = f'.prefixMap) (hitems : c'.store.items = c.store.items)
    (hvalues : c'.store.valuesByRevision = c.store.valuesByRevision)
    (hphases : c'.phases = Function.update c.phases i (stage.phase (calls i) f.deref)) :
    f'.Matches calls c' where
  toAhead := hl.ahead h hitems hvalues
  treeMap := htree
  prefixMap := hpfx
  length := by rw [hitems, hl.items, h.length]
  earliest := by rw [hvalues, hl.startOffset, h.earliest]
  latest := by rw [hvalues, hl.latest, h.latest]
  phases := (hl.framed h hn).phases h (by rw [hphases, deref_of_items hl.items])
  allocated := hl.allocated h.allocated
  earned := (hl.framed h hn).earned h hl.earned
  reads := (hl.framed h hn).reading h

/-- A step of reader `j`. -/
theorem Matches.reader (h : f.Matches calls c) {j : ℕ} {stage : LookupStage}
    (hreads : f'.reads = Function.update f.reads j stage) (hsets : f'.sets = f.sets)
    (htree : f'.treeMap = f.treeMap) (hpfx : f'.prefixMap = f.prefixMap)
    (hitems : f'.items = f.items) (hvalues : f'.values = f.values)
    (hstage : ∀ a rev k, stage = .getting a rev k →
      f.values.startOffset ≤ k ∧ (f.deref a).lookup rev = .inr k) : f'.Matches calls c := by
  have hderef := deref_of_items hitems
  constructor
  case toAhead =>
    refine ⟨?_, ?_, ?_⟩
    · rw [hsets, hderef]; exact h.items
    · rw [hsets, hvalues]; exact h.slots
    · rw [hsets, hderef, hvalues]; exact h.effects
  case treeMap => rw [htree, h.treeMap]
  case prefixMap => rw [hpfx, h.prefixMap]
  case length => rw [hitems, h.length]
  case earliest => rw [hvalues, h.earliest]
  case latest => rw [hvalues, h.latest]
  case phases => rw [hsets, hderef]; exact h.phases
  case allocated => unfold Allocated; rw [hsets, hvalues]; exact h.allocated
  case earned => rw [hsets]; unfold Earned; rw [hderef, hvalues]; exact h.earned
  case reads =>
    intro j' a rev k hk
    rw [hreads, Function.update_apply] at hk
    rw [hderef, hvalues]
    split_ifs at hk
    · exact hstage a rev k hk
    · exact h.reads j' a rev k hk

/-! ### Calls under way -/

/-- Two calls that have the lock of one item are the same. -/
theorem Guarded.same (hg : f.Guarded) {i j a : ℕ} (hi : (f.sets i).owned = some a)
    (hj : (f.sets j).owned = some a) : j = i :=
  Sum.inl.inj ((hg.items a).writer_unique (i := .inl j) (j := .inl i) hj hi)

/-- A call that has the lock and no index yet sees its item as the atomic model has it. -/
theorem Matches.deref_eq (h : f.Matches calls c) (hg : f.Guarded) {i a : ℕ}
    (hi : (f.sets i).owned = some a) (hno : (f.sets i).effect = none) :
    c.store.deref a = f.deref a := by
  apply h.items
  rintro j e hj rfl
  rw [hg.same hi (owned_of_effect hj), hno] at hj
  contradiction

/-- So does a reader that has the lock. -/
theorem Matches.deref_read (h : f.Matches calls c) (hg : f.Guarded) {j a : ℕ}
    (hj : (f.reads j).owned = some a) : c.store.deref a = f.deref a := by
  apply h.items
  rintro i e hi rfl
  exact (hg.items _).exclusive (.inl i) (.inr j) (owned_of_effect hi) hj

/-! ### A new item -/

theorem getD_concat (items : List TreeItem) (item : TreeItem) (a : ℕ) :
    (items ++ [item]).getD a (TreeItem.placeholder []) =
      if a = items.length then item else items.getD a (TreeItem.placeholder []) := by
  rw [List.getD_eq_getElem?_getD, List.getD_eq_getElem?_getD, List.getElem?_append]
  split_ifs with hlt heq heq
  · omega
  · rfl
  · rw [heq, Nat.sub_self]
    rfl
  · rw [List.getElem?_eq_none (by simp; omega), List.getElem?_eq_none (by omega)]

theorem Numbered.item_lt (hn : f.Numbered calls) {j a : ℕ} (ha : (f.sets j).owned = some a) :
    a < f.items.length := hn.heap _ a (hn.sets j a (item_of_owned ha))

section Created

variable {i : ℕ} {rev : ℤ} {item : TreeItem}

theorem deref_concat (hitems : f'.items = f.items ++ [item]) (a : ℕ) :
    f'.deref a = if a = f.items.length then item else f.deref a := by
  unfold deref
  rw [hitems]
  exact getD_concat f.items item a

/-- Nobody has the new item yet. -/
theorem Framed.created (hn : f.Numbered calls)
    (hsets : f'.sets = Function.update f.sets i (.created rev f.items.length))
    (hreads : f'.reads = f.reads) (hitems : f'.items = f.items ++ [item])
    (hvalues : f'.values = f.values) : Framed f f' i (.created rev f.items.length) where
  sets := hsets
  reads := hreads
  startOffset := by rw [hvalues]
  owned j _ a ha := by rw [deref_concat hitems, if_neg (hn.item_lt ha).ne]
  held j a ha := by
    obtain ⟨key, hkey⟩ := hn.reads j a ha
    rw [deref_concat hitems, if_neg (hn.heap key a hkey).ne]
  slots _ _ _ _ _ hv := by rw [hvalues, hv]

theorem Ahead.created {s s' : Store} (h : Ahead calls f s) (hn : f.Numbered calls)
    (hlen : s.items.length = f.items.length) (hi : f.sets i = .started rev)
    (hsets : f'.sets = Function.update f.sets i (.created rev f.items.length))
    (hitems : f'.items = f.items ++ [item]) (hvalues : f'.values = f.values)
    (hsitems : s'.items = s.items ++ [item])
    (hsvalues : s'.valuesByRevision = s.valuesByRevision) : Ahead calls f' s' := by
  have hderef := deref_concat hitems
  have hsderef (a : ℕ) : s'.deref a = if a = f.items.length then item else s.deref a := by
    unfold Store.deref
    rw [hsitems, ← hlen]
    exact getD_concat s.items item a
  have heffect (j : ℕ) : (f'.sets j).effect = (f.sets j).effect := by
    rw [hsets, Function.update_apply]
    split_ifs with hj
    · rw [hj, hi]
      rfl
    · rfl
  refine ⟨?_, ?_, ?_⟩
  · intro a ha
    rw [hderef, hsderef]
    split_ifs
    · rfl
    · exact h.items a (fun j e he => ha j e (by rw [heffect, he]))
  · intro k hk hfree
    rw [hvalues] at hk ⊢
    rw [hsvalues]
    exact h.slots k hk (fun j e he => hfree j e (by rw [heffect, he]))
  · intro j e he
    rw [heffect] at he
    have hne := (hn.item_lt (owned_of_effect he)).ne
    rw [hderef, hsderef, if_neg hne, if_neg hne, hvalues, hsvalues]
    exact h.effects j e he

end Created

/-- Both put a placeholder at the same address. -/
theorem Matches.created (h : f.Matches calls c) (hn : f.Numbered calls) {i : ℕ} {rev : ℤ}
    (hi : f.sets i = .started rev)
    (hsets : f'.sets = Function.update f.sets i (.created rev f.items.length))
    (hreads : f'.reads = f.reads)
    (hitems : f'.items = f.items ++ [TreeItem.placeholder (calls i).key])
    (htree : f'.treeMap = f.treeMap.insert (calls i).key f.items.length)
    (hpfx : f'.prefixMap = f.prefixMap) (hvalues : f'.values = f.values) :
    f'.Matches calls
      ⟨{ c.store with
          items := c.store.items ++ [TreeItem.placeholder (calls i).key]
          treeMap := c.store.treeMap.insert (calls i).key c.store.items.length },
        Function.update c.phases i (.created rev c.store.items.length)⟩ := by
  have hf := Framed.created hn hsets hreads hitems hvalues
  have hwait (e : Effect) : f.sets i ≠ .waiting e := by
    rw [hi]
    exact SetStage.noConfusion
  constructor
  case toAhead => exact h.toAhead.created hn h.length hi hsets hitems hvalues rfl rfl
  case treeMap => rw [htree, ← h.treeMap, ← h.length]
  case prefixMap => rw [hpfx, ← h.prefixMap]
  case length => rw [hitems, List.length_append, List.length_append, h.length]
  case earliest => rw [hvalues, ← h.earliest]
  case latest => rw [hvalues, ← h.latest]
  case phases => exact hf.phases h (by rw [h.length]; rfl)
  case allocated => exact hf.allocated h.allocated hvalues hwait
  case earned => exact hf.earned h trivial
  case reads => exact hf.reading h

/-! ### A call that gets its index -/

/-- The section of the atomic model when the push takes its index. -/
theorem Matches.locked_eq (h : f.Matches calls c) (hg : f.Guarded) {i : ℕ} {hold : Hold}
    {r : List ℤ} (hi : f.sets i = .drained hold r) :
    c.store.locked hold.item hold.isNewItem (calls i).value (calls i).required =
      (c.store.writeItem hold.item
          (Effect.newItem ⟨hold, r, f.values.latest⟩ (f.deref hold.item) (calls i).value)
          (commitValue c.store.valuesByRevision
            (Effect.newValue ⟨hold, r, f.values.latest⟩ (f.deref hold.item) (calls i).value)),
        .ok (Effect.committed ⟨hold, r, f.values.latest⟩ (f.deref hold.item) (calls i).value)) := by
  have hderef := h.deref_eq hg (i := i) (a := hold.item) (by rw [hi]; rfl) (by rw [hi]; rfl)
  have hearned := h.earned i
  rw [hi] at hearned
  obtain ⟨hcheck, hdrained⟩ := hearned
  rcases Store.locked_cases c.store hold.item hold.isNewItem (calls i).value (calls i).required with
    ⟨kv, hc, _⟩ | ⟨_, he⟩
  · rw [hderef, hcheck] at hc
    contradiction
  · rw [he, hderef, updateItem_eq, h.earliest, h.latest, ← hdrained]
    unfold Effect.committed Effect.newItem Effect.newValue Effect.newRev
    rw [newValue_eq_next]

section Reserved

variable {i : ℕ} {e : Effect} {stage : SetStage}

theorem latest_of_longer (hvalues : f'.values = { f.values with length := f.values.length + 1 }) :
    f'.values.latest = f.values.latest + 1 := by
  rw [hvalues]
  unfold RawDeque.latest
  dsimp only
  omega

/-- An index of the longer array is the new one or one of before. -/
theorem inBounds_of_longer
    (hvalues : f'.values = { f.values with length := f.values.length + 1 }) {k : ℕ}
    (hk : f'.values.InBounds k) (hne : k ≠ f.values.latest) : f.values.InBounds k := by
  obtain ⟨hfirst, hlast⟩ := hk
  rw [latest_of_longer hvalues] at hlast
  rw [hvalues] at hfirst
  exact ⟨hfirst, by omega⟩

/-- The store that has run the section is ahead by one call more. -/
theorem Ahead.reserved (h : f.Matches calls c) (hn : f.Numbered calls) (hg : f.Guarded)
    (hi : (f.sets i).owned = some e.hold.item) (hno : (f.sets i).effect = none)
    (hindex : e.index = f.values.latest) (hsets : f'.sets = Function.update f.sets i stage)
    (heffect : stage.effect = some e) (hitems : f'.items = f.items)
    (hvalues : f'.values = { f.values with length := f.values.length + 1 }) :
    Ahead calls f' (c.store.writeItem e.hold.item (e.newItem (f.deref e.hold.item) (calls i).value)
      (commitValue c.store.valuesByRevision
        (e.newValue (f.deref e.hold.item) (calls i).value))) := by
  have hderef := deref_of_items hitems
  have hself : (f'.sets i).effect = some e := by rw [hsets, Function.update_self, heffect]
  -- the calls that were under way still are
  have hkeep {j : ℕ} {e' : Effect} (hj : (f.sets j).effect = some e') :
      j ≠ i ∧ (f'.sets j).effect = some e' := by
    have hne : j ≠ i := by
      rintro rfl
      rw [hno] at hj
      contradiction
    rw [hsets, Function.update_of_ne hne]
    exact ⟨hne, hj⟩
  have hlt : e.hold.item < c.store.items.length := by
    rw [h.length]
    exact hn.item_lt hi
  refine ⟨?_, ?_, ?_⟩
  · intro a ha
    rw [Store.deref_writeItem _ _ a _ _ hlt, if_neg (ha i e hself), hderef]
    exact h.items a (fun j e' hj => ha j e' (hkeep hj).2)
  · intro k hk hfree
    have hne : k ≠ f.values.latest := fun heq => hfree i e hself (hindex.trans heq.symm)
    have hold := h.slots k (inBounds_of_longer hvalues hk hne)
      (fun j e' hj => hfree j e' (hkeep hj).2)
    have hnew : (commitValue c.store.valuesByRevision
        (e.newValue (f.deref e.hold.item) (calls i).value)).at? k =
        c.store.valuesByRevision.at? k := by
      rw [at?_commitValue, h.latest, if_neg hne]
    rw [hvalues]
    exact hold.trans hnew.symm
  · intro j e' hj
    have hat : (c.store.writeItem e.hold.item (e.newItem (f.deref e.hold.item) (calls i).value)
        (commitValue c.store.valuesByRevision
          (e.newValue (f.deref e.hold.item) (calls i).value))).valuesByRevision.at? e'.index =
        if e'.index = f.values.latest then some (e.newValue (f.deref e.hold.item) (calls i).value)
        else c.store.valuesByRevision.at? e'.index := by
      rw [← h.latest]
      exact at?_commitValue ..
    rw [Store.deref_writeItem _ _ _ _ _ hlt, hat, hderef,
      show f'.values.startOffset = f.values.startOffset by rw [hvalues]]
    rw [hsets, Function.update_apply] at hj
    split_ifs at hj with hji
    · rw [heffect] at hj
      cases hj
      rw [hji]
      refine ⟨if_pos rfl, if_pos hindex, ?_⟩
      rw [hindex]
      unfold RawDeque.latest
      omega
    · have hne : e.hold.item ≠ e'.hold.item :=
        fun heq => hji (hg.same hi (by rw [heq]; exact owned_of_effect hj))
      rw [if_neg hne, if_neg (hn.below j e' hj).ne]
      exact h.effects j e' hj

theorem Allocated.reserved (h : f.Allocated) (hindex : e.index = f.values.latest)
    (hno : (f.sets i).effect = none) (hsets : f'.sets = Function.update f.sets i stage)
    (hvalues : f'.values = { f.values with length := f.values.length + 1 })
    (hstage : f.values.blockIndex e.index < f.values.blocks.length ∨ stage = .waiting e) :
    f'.Allocated := by
  intro k hk hfree
  rw [show f'.values.blockIndex k = f.values.blockIndex k by rw [hvalues]; rfl,
    show f'.values.blocks = f.values.blocks by rw [hvalues]]
  by_cases hkl : k = e.index
  · rcases hstage with hb | hw
    · rw [hkl]
      exact hb
    · exact absurd hkl.symm (hfree i e (by rw [hsets, Function.update_self, hw]))
  · rw [hindex] at hkl
    apply h k (inBounds_of_longer hvalues hk hkl)
    intro j e' hj
    have hji : j ≠ i := by
      rintro rfl
      rw [hj] at hno
      contradiction
    exact hfree j e' (by rw [hsets, Function.update_of_ne hji, hj])

end Reserved

/-- The push takes its index: the atomic model runs the whole section. -/
theorem Matches.reserved (h : f.Matches calls c) (hn : f.Numbered calls) (hg : f.Guarded) {i : ℕ}
    {hold : Hold} {r : List ℤ} {stage : SetStage} (hi : f.sets i = .drained hold r)
    (hsets : f'.sets = Function.update f.sets i stage) (hreads : f'.reads = f.reads)
    (htree : f'.treeMap = f.treeMap) (hpfx : f'.prefixMap = f.prefixMap)
    (hitems : f'.items = f.items)
    (hvalues : f'.values = { f.values with length := f.values.length + 1 })
    (hstage : stage = .filling ⟨hold, r, f.values.latest⟩ ∧
        f.values.blockIndex f.values.latest < f.values.blocks.length ∨
      stage = .waiting ⟨hold, r, f.values.latest⟩) :
    f'.Matches calls
      ⟨(c.store.locked hold.item hold.isNewItem (calls i).value (calls i).required).1,
        Function.update c.phases i (.unlocked hold.latestRev
          (c.store.locked hold.item hold.isNewItem (calls i).value (calls i).required).2)⟩ := by
  rw [h.locked_eq hg hi]
  have hown : (f.sets i).owned = some hold.item := by rw [hi]; rfl
  have hno : (f.sets i).effect = none := by rw [hi]; rfl
  have hnew : stage.effect = some ⟨hold, r, f.values.latest⟩ ∧ f'.Earned (calls i) stage ∧
      stage.phase (calls i) f'.deref = .unlocked hold.latestRev
        (.ok (Effect.committed ⟨hold, r, f.values.latest⟩ (f.deref hold.item)
          (calls i).value)) := by
    rw [deref_of_items hitems]
    rcases hstage with ⟨rfl, _⟩ | rfl <;> exact ⟨rfl, trivial, rfl⟩
  have hf : Framed f f' i stage :=
    ⟨hsets, hreads, by rw [hvalues], fun _ _ a _ => congrFun (deref_of_items hitems) a,
      fun _ a _ => congrFun (deref_of_items hitems) a,
      fun _ _ _ _ _ hv => by rw [hvalues]; exact hv⟩
  constructor
  case toAhead => exact Ahead.reserved h hn hg hown hno rfl hsets hnew.1 hitems hvalues
  case treeMap => rw [htree]; exact h.treeMap
  case prefixMap => rw [hpfx]; exact h.prefixMap
  case length =>
    rw [hitems, ← h.length]
    exact List.length_set
  case earliest =>
    rw [hvalues, ← h.earliest]
    exact earliestRevision_commitValue _ _
  case latest =>
    rw [latest_of_longer hvalues, ← h.latest]
    exact latestRevision_commitValue _ _
  case phases => exact hf.phases h (by rw [hnew.2.2])
  case allocated =>
    refine Allocated.reserved (e := ⟨hold, r, f.values.latest⟩) h.allocated rfl hno hsets hvalues ?_
    exact hstage.imp_left And.right
  case earned => exact hf.earned h hnew.2.1
  case reads => exact hf.reading h

/-! ### A call that writes its item -/

theorem getD_set (items : List TreeItem) (item : TreeItem) {a : ℕ} (ha : a < items.length)
    (b : ℕ) : (items.set a item).getD b (TreeItem.placeholder []) =
      if b = a then item else items.getD b (TreeItem.placeholder []) := by
  rw [List.getD_eq_getElem?_getD, List.getD_eq_getElem?_getD, List.getElem?_set]
  by_cases hb : b = a
  · rw [if_pos hb.symm, if_pos hb, if_pos ha]
    rfl
  · rw [if_neg (Ne.symm hb), if_neg hb]

section Committed

variable {i : ℕ} {e : Effect} {stage : SetStage} {item : TreeItem}

theorem deref_set (hitems : f'.items = f.items.set e.hold.item item)
    (hlt : e.hold.item < f.items.length) (a : ℕ) :
    f'.deref a = if a = e.hold.item then item else f.deref a := by
  unfold deref
  rw [hitems]
  exact getD_set f.items item hlt a

/-- The other threads that have a lock have that of another item. -/
theorem Framed.committed (hn : f.Numbered calls) (hg : f.Guarded)
    (hi : (f.sets i).owned = some e.hold.item)
    (hsets : f'.sets = Function.update f.sets i stage) (hreads : f'.reads = f.reads)
    (hitems : f'.items = f.items.set e.hold.item item) (hvalues : f'.values = f.values) :
    Framed f f' i stage where
  sets := hsets
  reads := hreads
  startOffset := by rw [hvalues]
  owned j hj a ha := by
    rw [deref_set hitems (hn.item_lt hi), if_neg]
    rintro rfl
    exact hj (hg.same hi ha)
  held j a ha := by
    rw [deref_set hitems (hn.item_lt hi), if_neg]
    rintro rfl
    exact (hg.items _).exclusive (.inl i) (.inr j) hi ha
  slots _ _ _ _ _ hv := by rw [hvalues, hv]

/-- The memory has caught up with one call. -/
theorem Ahead.committed {s : Store} (h : Ahead calls f s) (hf : Framed f f' i stage)
    (hlt : e.hold.item < f.items.length) (hi : (f.sets i).effect = some e)
    (hslot : f.values.slot e.index = some (e.newValue (f.deref e.hold.item) (calls i).value))
    (hstage : stage.effect = none) (hitems : f'.items = f.items.set e.hold.item
      (e.newItem (f.deref e.hold.item) (calls i).value)) (hvalues : f'.values = f.values) :
    Ahead calls f' s := by
  have hother {j : ℕ} (hj : j ≠ i) : f'.sets j = f.sets j := by
    rw [hf.sets, Function.update_of_ne hj]
  -- what is under way in another call is so in the new state
  have hstill {P : Effect → Prop} (hself : ¬P e)
      (hfree : ∀ j e', (f'.sets j).effect = some e' → ¬P e') :
      ∀ j e', (f.sets j).effect = some e' → ¬P e' := by
    intro j e' hj
    by_cases hji : j = i
    · rw [hji, hi] at hj
      cases hj
      exact hself
    · exact hfree j e' (by rw [hother hji, hj])
  refine ⟨?_, ?_, ?_⟩
  · intro a ha
    rw [deref_set hitems hlt]
    split_ifs with hae
    · rw [hae]
      exact (h.effects i e hi).1
    · exact h.items a (hstill (P := fun e' => e'.hold.item = a) (Ne.symm hae) ha)
  · intro k hk hfree
    rw [hvalues] at hk ⊢
    by_cases hke : k = e.index
    · rw [hke, hslot, (h.effects i e hi).2.1]
    · exact h.slots k hk (hstill (P := fun e' => e'.index = k) (Ne.symm hke) hfree)
  · intro j e' hj
    have hji : j ≠ i := by
      rintro rfl
      rw [hf.sets, Function.update_self, hstage] at hj
      contradiction
    rw [hother hji] at hj
    rw [hf.owned j hji _ (owned_of_effect hj), hvalues]
    exact h.effects j e' hj

end Committed

/-- The item is written and its lock released: the memory has caught up. -/
theorem Matches.committed (h : f.Matches calls c) (hn : f.Numbered calls) (hg : f.Guarded) {i : ℕ}
    {e : Effect} (hi : f.sets i = .stored e)
    (hsets : f'.sets = Function.update f.sets i
      (.unlocked e.hold.latestRev (.ok (e.committed (f.deref e.hold.item) (calls i).value))))
    (hreads : f'.reads = f.reads) (htree : f'.treeMap = f.treeMap)
    (hpfx : f'.prefixMap = f.prefixMap)
    (hitems : f'.items = f.items.set e.hold.item
      (e.newItem (f.deref e.hold.item) (calls i).value))
    (hvalues : f'.values = f.values) : f'.Matches calls c := by
  have hown : (f.sets i).owned = some e.hold.item := by rw [hi]; rfl
  have heff : (f.sets i).effect = some e := by rw [hi]; rfl
  have hwait (e' : Effect) : f.sets i ≠ .waiting e' := by
    rw [hi]
    exact SetStage.noConfusion
  have hstored := h.earned i
  rw [hi] at hstored
  have hphase : c.phases i = .unlocked e.hold.latestRev
      (.ok (e.committed (f.deref e.hold.item) (calls i).value)) := by
    rw [h.phases, hi]
    rfl
  have hf := Framed.committed hn hg hown hsets hreads hitems hvalues
  constructor
  case toAhead =>
    exact h.toAhead.committed hf (hn.item_lt hown) heff hstored rfl hitems hvalues
  case treeMap => rw [htree]; exact h.treeMap
  case prefixMap => rw [hpfx]; exact h.prefixMap
  case length =>
    rw [hitems, List.length_set]
    exact h.length
  case earliest => rw [hvalues]; exact h.earliest
  case latest => rw [hvalues]; exact h.latest
  case phases =>
    apply hf.phases h
    rw [SetStage.phase, ← hphase, Function.update_eq_self]
  case allocated => exact hf.allocated h.allocated hvalues hwait
  case earned => exact hf.earned h trivial
  case reads => exact hf.reading h

/-! ### The simulation -/

def events (trace : List Access) : List (Event ℕ) :=
  trace.filterMap (fun a => match a with
    | .invoke i => some (.invoke i)
    | .ret i => some (.ret i)
    | _ => none)

/-- A step of the memory is matched by at most one step of the atomic model. -/
def MatchedBy (calls : ℕ → Call) (f' : Interleaved) (c : Concurrent) (a : Access) : Prop :=
  ∃ acts c', c.run calls acts = some c' ∧ f'.Matches calls c' ∧ history acts = events [a]

theorem MatchedBy.none {a : Access} (h : f'.Matches calls c) (ha : events [a] = []) :
    MatchedBy calls f' c a := ⟨[], c, rfl, h, ha.symm⟩

theorem MatchedBy.one {a : Access} (act : SetAction) (hstep : c.step calls act = some c')
    (h : f'.Matches calls c') (ha : history [act] = events [a]) : MatchedBy calls f' c a := by
  refine ⟨[act], c', ?_, h, ha⟩
  show (c.step calls act).bind _ = _
  rw [hstep]
  rfl

/-- A step that the atomic model does not see. -/
theorem Matches.unseen (h : f.Matches calls c) (hn : f.Numbered calls) {i : ℕ} {stage : SetStage}
    (hl : Local calls f f' i stage) (htree : f'.treeMap = f.treeMap)
    (hpfx : f'.prefixMap = f.prefixMap)
    (hphase : stage.phase (calls i) f.deref = (f.sets i).phase (calls i) f.deref) :
    f'.Matches calls c := by
  apply h.stays hn hl (by rw [htree, h.treeMap]) (by rw [hpfx, h.prefixMap]) rfl rfl
  rw [hphase, ← h.phases i, Function.update_eq_self]

theorem overwrite_eq_written (d : RawDeque Value storeBlock) (index : ℕ) (v : Value) :
    d.overwrite index v = d.written 0 d.length index v := by
  unfold RawDeque.overwrite RawDeque.written
  rw [List.replicate_zero, List.append_nil]

/-- Where a call writes, there is a block. -/
theorem Matches.block_there (h : f.Matches calls c) (hn : f.Numbered calls) {i : ℕ} {e : Effect}
    (hi : (f.sets i).effect = some e) (hwait : ∀ e', f.sets i ≠ .waiting e') :
    f.values.blockIndex e.index < f.values.blocks.length := by
  apply h.allocated _ ⟨(h.effects i e hi).2.2, hn.below i e hi⟩
  intro j e' hj heq
  have hej : (f.sets j).effect = some e' := by rw [hj]; rfl
  rw [hn.apart j i e' e hej hi heq] at hj
  exact hwait e' hj

/-- A slot that a reader is at has its block: its revision is of the past. -/
theorem Matches.block_read (h : f.Matches calls c) (hn : f.Numbered calls) {j b index : ℕ}
    {rev : ℤ} (hj : f.reads j = .getting b rev index) :
    f.values.blockIndex index < f.values.blocks.length := by
  obtain ⟨_, hlast, hfree⟩ := hn.reading j index (by rw [hj]; rfl)
  apply h.allocated index ⟨(h.reads j b rev index hj).1, by omega⟩
  intro i e hi heq
  apply hfree i e (by rw [hi]; rfl)
  unfold Effect.newRev
  rw [heq]

section Steps

variable {i : ℕ} {rev : ℤ}

theorem Matches.step_invoked (h : f.Matches calls c) (hn : f.Numbered calls)
    (hi : f.sets i = .idle) :
    MatchedBy calls (f.toStage i (.started f.values.latest)) c (.invoke i) := by
  have hc : c.phases i = .idle := by rw [h.phases, hi]; rfl
  refine .one (.invoke i) (by simp only [Concurrent.step, hc]; rfl) ?_ rfl
  refine h.stays hn (.quiet rfl rfl rfl rfl (by rw [hi]; rfl) (by simp [hi]) trivial) h.treeMap
    h.prefixMap rfl rfl ?_
  rw [SetStage.phase, ← h.latest]
  rfl

theorem Matches.step_found (h : f.Matches calls c) (hn : f.Numbered calls)
    (hi : f.sets i = .started rev) {b : ℕ} (hk : f.treeMap[(calls i).key]? = some b) :
    MatchedBy calls (f.toStage i (.ready ⟨rev, b, false⟩)) c (.entry i) := by
  have hc : c.phases i = .started rev := by rw [h.phases, hi]; rfl
  have hentry : c.store.entry (calls i).key = (c.store, b, false) := by
    rcases Store.entry_cases c.store (calls i).key with ⟨b', hb', he⟩ | ⟨hnone, _⟩
    · rw [h.treeMap, hk] at hb'
      cases hb'
      exact he
    · rw [h.treeMap, hk] at hnone
      contradiction
  refine .one (.entry i) (by simp only [Concurrent.step, hc]; rfl) ?_ rfl
  rw [hentry]
  exact h.stays hn (.quiet rfl rfl rfl rfl (by rw [hi]; rfl) (by simp [hi]) trivial) h.treeMap
    h.prefixMap rfl rfl rfl

theorem Matches.step_created (h : f.Matches calls c) (hn : f.Numbered calls)
    (hi : f.sets i = .started rev) (hk : f.treeMap[(calls i).key]? = none) :
    MatchedBy calls ({ f with
        items := f.items ++ [TreeItem.placeholder (calls i).key]
        treeMap := f.treeMap.insert (calls i).key f.items.length }.toStage i
          (.created rev f.items.length)) c (.entry i) := by
  have hc : c.phases i = .started rev := by rw [h.phases, hi]; rfl
  refine .one (.entry i) (by simp only [Concurrent.step, hc]; rfl) ?_ rfl
  rcases Store.entry_cases c.store (calls i).key with ⟨b', hb', _⟩ | ⟨_, he⟩
  · rw [h.treeMap, hk] at hb'
    contradiction
  · rw [he]
    exact h.created hn hi rfl rfl rfl rfl rfl rfl

theorem Matches.step_indexed (h : f.Matches calls c) (hn : f.Numbered calls) {b : ℕ}
    (hi : f.sets i = .created rev b) :
    MatchedBy calls ((f.index (calls i).key b).toStage i (.ready ⟨rev, b, true⟩)) c
      (.index i) := by
  have hc : c.phases i = .created rev b := by rw [h.phases, hi]; rfl
  refine .one (.index i) (by simp only [Concurrent.step, hc]; rfl) ?_ rfl
  refine h.stays hn (.quiet rfl rfl rfl rfl (by rw [hi]; rfl) (by simp [hi]) trivial) h.treeMap
    ?_ rfl rfl rfl
  show c.store.prefixMap.insert _ _ = f.prefixMap.insert _ _
  rw [h.prefixMap]

/-- The check that fails is the whole section. -/
theorem Matches.step_refused (h : f.Matches calls c) (hn : f.Numbered calls) (hg : f.Guarded)
    {hold : Hold} {kv : Option KeyValue} (hi : f.sets i = .locked hold)
    (hcheck : checkItem (f.deref hold.item) (calls i).value (calls i).required = .error kv) :
    MatchedBy calls ((f.withItemLock hold.item (f.itemLocks hold.item).unwrite).toStage i
      (.unlocked hold.latestRev (.error kv))) c (.check i) := by
  have hc : c.phases i = .ready hold.latestRev hold.item hold.isNewItem := by
    rw [h.phases, hi]; rfl
  have hderef := h.deref_eq hg (i := i) (a := hold.item) (by rw [hi]; rfl) (by rw [hi]; rfl)
  have hlocked : c.store.locked hold.item hold.isNewItem (calls i).value (calls i).required =
      (c.store, .error kv) := Store.locked_error (by rw [hderef, hcheck])
  refine .one (.lock i) (by simp only [Concurrent.step, hc, hlocked]; rfl) ?_ rfl
  exact h.stays hn (.quiet rfl rfl rfl rfl (by rw [hi]; rfl) (by simp [hi]) trivial) h.treeMap
    h.prefixMap rfl rfl rfl

/-- The step at which a push takes its index is the whole section. -/
theorem Matches.step_reserved (h : f.Matches calls c) (hn : f.Numbered calls) (hg : f.Guarded)
    {hold : Hold} {r : List ℤ} (hi : f.sets i = .drained hold r) {stage : SetStage}
    {l : Lock Thread} (hstage : stage = .filling ⟨hold, r, f.values.latest⟩ ∧
        f.values.blockIndex f.values.latest < f.values.blocks.length ∨
      stage = .waiting ⟨hold, r, f.values.latest⟩) :
    MatchedBy calls ({ f with
        values := { f.values with length := f.values.length + 1 }
        blocksLock := l }.toStage i stage) c (.reserve i) := by
  have hc : c.phases i = .ready hold.latestRev hold.item hold.isNewItem := by
    rw [h.phases, hi]; rfl
  exact .one (.lock i) (by simp only [Concurrent.step, hc])
    (h.reserved hn hg hi rfl rfl rfl rfl rfl rfl hstage) rfl

theorem Matches.step_returned (h : f.Matches calls c) (hn : f.Numbered calls)
    {res : Except (Option KeyValue) Committed} (hi : f.sets i = .unlocked rev res) :
    MatchedBy calls (f.toStage i (.returned (answer rev res))) c (.ret i) := by
  have hc : c.phases i = .unlocked rev res := by rw [h.phases, hi]; rfl
  refine .one (.ret i) (by simp only [Concurrent.step, hc]; rfl) ?_ rfl
  have hlocal : Local calls f (f.toStage i (.returned (answer rev res))) i
      (.returned (answer rev res)) :=
    .quiet rfl rfl rfl rfl (by rw [hi]; rfl) (by simp [hi]) trivial
  cases res with
  | error kv => exact h.stays hn hlocal h.treeMap h.prefixMap rfl rfl rfl
  | ok d => exact h.stays hn hlocal h.treeMap h.prefixMap rfl rfl rfl

end Steps

theorem Matches.step (h : f.Matches calls c) (hn : f.Numbered calls) (hg : f.Guarded)
    (hp : f.panicked = none) {a : Access} (hstep : f.step calls a = some f')
    (ha : ∀ idx, a ≠ .remove idx) : f'.panicked = none ∧ MatchedBy calls f' c a := by
  cases step_moves hstep with
  | invoked hi => exact ⟨hp, h.step_invoked hn hi⟩
  | found hi hk => exact ⟨hp, h.step_found hn hi hk⟩
  | created hi hk => exact ⟨hp, h.step_created hn hi hk⟩
  | indexed hi => exact ⟨hp, h.step_indexed hn hi⟩
  | acquired hi _ =>
    exact ⟨hp, .none (h.unseen hn (.quiet rfl rfl rfl rfl (by rw [hi]; rfl) (by simp [hi]) trivial)
      rfl rfl (by rw [hi]; rfl)) rfl⟩
  | refused hi hcheck => exact ⟨hp, h.step_refused hn hg hi hcheck⟩
  | checked hi hcheck =>
    exact ⟨hp, .none (h.unseen hn (.quiet rfl rfl rfl rfl (by rw [hi]; rfl) (by simp [hi]) hcheck)
      rfl rfl (by rw [hi]; rfl)) rfl⟩
  | @drained i hold hi =>
    have hcheck := h.earned i
    rw [hi] at hcheck
    exact ⟨hp, .none (h.unseen hn (.quiet rfl rfl rfl rfl (by rw [hi]; rfl) (by simp [hi])
      ⟨hcheck, rfl⟩) rfl rfl (by rw [hi]; rfl)) rfl⟩
  | reserved hi _ hb => exact ⟨hp, h.step_reserved hn hg hi (Or.inl ⟨rfl, hb⟩)⟩
  | awaited hi => exact ⟨hp, h.step_reserved hn hg hi (Or.inr rfl)⟩
  | @filled i e hi =>
    have he : (f.sets i).effect = some e := by rw [hi]; rfl
    exact ⟨hp, .none (h.unseen hn (.writes h he rfl rfl rfl (overwrite_eq_written _ _ _)
      (h.block_there hn he (by simp [hi])) (Or.inl rfl)) rfl rfl (by rw [hi]; rfl)) rfl⟩
  | @placed i e _ values hi _ hv =>
    have he : (f.sets i).effect = some e := by rw [hi]; rfl
    rw [RawDeque.place_eq] at hv
    split_ifs at hv
    cases hv
    exact ⟨hp, .none (h.unseen hn (.writes h he rfl rfl rfl rfl (by omega) (Or.inl rfl)) rfl rfl
      (by rw [hi]; rfl)) rfl⟩
  | storing hi _ _ =>
    exact ⟨hp, .none (h.unseen hn (.quiet rfl rfl rfl rfl (by rw [hi]; rfl) (by simp [hi]) trivial)
      rfl rfl (by rw [hi]; rfl)) rfl⟩
  | @skipped i e hi hout =>
    have he : (f.sets i).effect = some e := by rw [hi]; rfl
    exact absurd ⟨(h.effects i e he).2.2, hn.below i e he⟩ hout
  | @stored i e hi hb =>
    have he : (f.sets i).effect = some e := by rw [hi]; rfl
    exact ⟨hp, .none (h.unseen hn (.writes h he rfl rfl rfl (overwrite_eq_written _ _ _) hb
      (Or.inr ⟨rfl, rfl⟩)) rfl rfl (by rw [hi]; rfl)) rfl⟩
  | committed hi => exact ⟨hp, .none (h.committed hn hg hi rfl rfl rfl rfl rfl rfl) rfl⟩
  | returned hi => exact ⟨hp, h.step_returned hn hi⟩
  | holding _ _ _ _ => exact ⟨hp, .none (h.reader rfl rfl rfl rfl rfl rfl (by simp)) rfl⟩
  | known _ _ => exact ⟨hp, .none (h.reader rfl rfl rfl rfl rfl rfl (by simp)) rfl⟩
  | getting _ hl _ hin =>
    refine ⟨hp, .none (h.reader rfl rfl rfl rfl rfl rfl ?_) rfl⟩
    rintro a' rev' k ⟨⟩
    exact ⟨hin.1, hl⟩
  | outside _ _ _ => exact ⟨hp, .none (h.reader rfl rfl rfl rfl rfl rfl (by simp)) rfl⟩
  | got _ _ => exact ⟨hp, .none (h.reader rfl rfl rfl rfl rfl rfl (by simp)) rfl⟩
  | removed _ _ _ => exact absurd rfl (ha _)
  | @lost i e hi hv =>
    have he : (f.sets i).effect = some e := by rw [hi]; rfl
    rw [RawDeque.place_eq, if_pos (Nat.div_le_div_right (h.effects i e he).2.2)] at hv
    contradiction
  | @unstored i e hi hb =>
    exact absurd (h.block_there hn (by rw [hi]; rfl) (by simp [hi])) hb
  | ungot hj hb => exact absurd (h.block_read hn hj) hb
  | unremoved _ => exact absurd rfl (ha _)

theorem at?_eq_slot {d : BlockDeque Value storeBlock} {k : ℕ} (hk : d.InBounds k) :
    d.at? k = d.slot k := by
  obtain ⟨hfirst, hlast⟩ := hk
  unfold RawDeque.latest at hlast
  unfold BlockDeque.at?
  rw [if_pos ⟨hfirst, by omega⟩]

theorem start_matches (s : Store) : (start s).Matches calls (Concurrent.start s) := by
  constructor
  case treeMap => rfl
  case prefixMap => rfl
  case length => rfl
  case earliest => rfl
  case latest => rfl
  case phases => exact fun _ => rfl
  case toAhead =>
    refine ⟨fun _ _ => rfl, fun k hk _ => (at?_eq_slot hk).symm, ?_⟩
    intro i e he
    contradiction
  case allocated =>
    rintro k ⟨hfirst, hlast⟩ _
    unfold RawDeque.latest at hlast
    exact s.valuesByRevision.wf.blockIndex_lt hfirst (by rw [Nat.add_comm]; exact hlast)
  case earned => exact fun _ => trivial
  case reads =>
    intro j a rev k hj
    contradiction

/-- A run without removals, and the run of the atomic model that matches it. -/
structure Simulated (calls : ℕ → Call) (s : Store) (trace : List Access) (f : Interleaved) :
    Prop where
  numbered : f.Numbered calls
  guarded : f.Guarded
  calm : f.panicked = none
  simulated : ∃ acts c, (Concurrent.start s).run calls acts = some c ∧ f.Matches calls c ∧
    history acts = events trace

theorem run_simulated {s : Store} (hs : s.WF)
    (hrevs : ∀ k, ∀ r ∈ (s.view k).revisions, 1 ≤ r ∧ r ≤ s.currentRevision)
    {trace : List Access} (hrem : ∀ idx, .remove idx ∉ trace)
    (hrun : (start s).run calls trace = some f) : Simulated calls s trace f := by
  refine @PartialRun.run_trace_induct _ _ (step calls)
    (fun past f => (∀ idx, .remove idx ∉ past) → Simulated calls s past f) ?_ [] trace _ _ ?_ hrun
    hrem
  · intro past f f' a ih hstep hpast
    obtain ⟨hn, hg, hp, acts, c, hacts, hm, hhist⟩ :=
      ih (fun idx hmem => hpast idx (List.mem_append_left _ hmem))
    have ha (idx : ℕ) : a ≠ .remove idx := by
      rintro rfl
      exact hpast idx (List.mem_append_right _ (List.mem_singleton_self _))
    obtain ⟨hp', acts', c', hacts', hm', hhist'⟩ := hm.step hn hg hp hstep ha
    refine ⟨step_numbered hn hstep, step_guarded hg hstep, hp', acts ++ acts', c', ?_, hm', ?_⟩
    · unfold Concurrent.run at hacts hacts' ⊢
      rw [PartialRun.run_append, hacts]
      exact hacts'
    · calc history (acts ++ acts')
          = history acts ++ history acts' := List.filterMap_append
        _ = events past ++ events [a] := by rw [hhist, hhist']
        _ = events (past ++ [a]) := List.filterMap_append.symm
  · intro _
    exact ⟨start_numbered hs.toHeapOk hrevs, start_guarded s, rfl, [], _, rfl, start_matches s, rfl⟩

/-- Calls of `set` whose accesses interleave in any way, with reads at past revisions in
between and without compactions: nothing panics, and the calls take effect one after the
other, in an order that respects real time. Whenever no call is between its index and the
release of its item, the memory is that of the sequential execution. -/
theorem sections_atomic {s : Store} (hs : s.WF)
    (hrevs : ∀ k, ∀ r ∈ (s.view k).revisions, 1 ≤ r ∧ r ≤ s.currentRevision)
    {trace : List Access} (hrem : ∀ idx, .remove idx ∉ trace)
    (hrun : (start s).run calls trace = some f) :
    f.panicked = none ∧ ∃ order : List ℕ, Timely (events trace) order ∧ order.Nodup ∧
      (∀ i res, f.sets i = .returned res → i ∈ order) ∧
      order.map (fun i => ((f.sets i).phase (calls i) f.deref).outcome) =
        (s.results (order.map calls)).map some ∧
      ((∀ i, (f.sets i).effect = none) →
        f.values.latest = (s.run (order.map calls)).valuesByRevision.latestRevision ∧
        (∀ (k : Bytes) (a : ℕ), f.treeMap[k]? = some a →
          f.deref a = (s.run (order.map calls)).view k) ∧
        ∀ k, f.values.InBounds k →
          f.values.slot k = (s.run (order.map calls)).valuesByRevision.at? k) := by
  obtain ⟨-, -, hp, acts, c, hacts, hm, hhist⟩ := run_simulated hs hrevs hrem hrun
  have hcons := Concurrent.run_consistent hs (Concurrent.start_consistent hs) hacts
  rw [List.nil_append] at hcons
  have hl := hcons.linearized
  refine ⟨hp, sections acts, ?_, hl.nodup, ?_, ?_, ?_⟩
  · rw [← hhist]
    exact hcons.timely
  · intro i res hi
    rw [hl.committed i, hm.phases i, hi]
    rfl
  · rw [← hl.outcomes]
    exact List.map_congr_left (fun i _ => by rw [hm.phases i])
  · intro hrest
    have hfree {P : ℕ → Effect → Prop} : ∀ i e, (f.sets i).effect = some e → P i e := by
      intro i e he
      rw [hrest i] at he
      contradiction
    refine ⟨?_, ?_, ?_⟩
    · rw [← hl.values, hm.latest]
    · intro k a hk
      rw [← hm.treeMap] at hk
      rw [← hl.view, ← hm.items a hfree]
      unfold Store.view Store.item?
      rw [hk]
      rfl
    · intro k hk
      rw [← hl.values]
      exact hm.slots k hk hfree

/-- Two writes of `a` whose accesses are mixed: the second call has waited for the lock. -/
def mixedTrace : List Access :=
  [.invoke 0, .entry 0, .invoke 1, .entry 1, .index 0] ++ wholeSet 0 [.place 0] ++ [.acquire 1] ++
    [.ret 0, .check 1, .drain 1, .reserve 1]

theorem sections_atomic_mixedTrace :
    ∃ (f : Interleaved) (order : List ℕ),
      (start (Store.new none)).run busyCalls mixedTrace = some f ∧
      f.sets 0 = .returned (.ok 1) ∧ f.panicked = none ∧ 0 ∈ order ∧
      Timely (events mixedTrace) order := by
  have hstate : ((start (Store.new none)).run busyCalls mixedTrace).map (fun f => f.sets 0) =
      some (.returned (.ok 1)) := by decide
  obtain ⟨f, hrun, hzero⟩ := Option.map_eq_some_iff.mp hstate
  obtain ⟨hp, order, htimely, -, hret, -⟩ := sections_atomic (Store.new_wf none)
    new_revisions (by simp [mixedTrace, wholeSet]) hrun
  exact ⟨f, order, hrun, hzero, hp, hret 0 _ hzero, htimely⟩

/-! ### Reads at past revisions -/

theorem foundValue_eq_lookup (s : Store) (item : TreeItem) (rev : ℤ) :
    s.foundValue item rev = match item.lookup rev with
      | .inl found => found
      | .inr index => s.valuesByRevision.at? index := by
  unfold Store.foundValue TreeItem.lookup
  split_ifs
  · rfl
  · cases binarySearch item.revisions rev with
    | ok i => rfl
    | error i =>
      dsimp only
      split_ifs <;> rfl

/-- The value at an index of an item, as the atomic model has it. -/
theorem Matches.slot_of_lookup (h : f.Matches calls c) (hn : f.Numbered calls) {key : Bytes}
    {b k : ℕ} {rev : ℤ} (hkey : f.treeMap[key]? = some b)
    (hlook : (f.deref b).lookup rev = .inr k) (hk : f.values.InBounds k) :
    f.values.slot k = c.store.valuesByRevision.at? k := by
  apply h.slots k hk
  intro i e he heq
  apply (Settled.of_lookup (hn.past key b hkey) hlook).2.2 i e he
  unfold Effect.newRev
  rw [heq]

theorem Matches.absent (h : f.Matches calls c) {k : ℕ} (hk : ¬f.values.InBounds k) :
    c.store.valuesByRevision.at? k = none := by
  have hfirst := h.earliest
  have hlast := h.latest
  unfold BlockDeque.earliestRevision at hfirst
  unfold BlockDeque.latestRevision at hlast
  unfold BlockDeque.at?
  rw [if_neg]
  rintro ⟨hle, hlt⟩
  exact hk ⟨by omega, by omega⟩

/-- Only a step of reader `j` itself finishes it. -/
theorem stage_of_update {j j' : ℕ} {stage : LookupStage} {found : Option Value}
    (hj : f.reads j ≠ .done found) (h : Function.update f.reads j' stage j = .done found) :
    j' = j ∧ stage = .done found := by
  rw [Function.update_apply] at h
  split_ifs at h with hjj
  · exact ⟨hjj.symm, h⟩
  · exact absurd h hj

/-- What a reader has found when it is done is what the atomic model has at its item. -/
theorem Matches.found_eq (h : f.Matches calls c) (hn : f.Numbered calls) {j b : ℕ} {rev : ℤ}
    {found : Option Value} {access : Access}
    (hj : f.reads j = .holding b rev ∨ ∃ k, f.reads j = .getting b rev k) {key : Bytes}
    (hkey : f.treeMap[key]? = some b) (hstep : f.step calls access = some f')
    (hdone : f'.reads j = .done found) : found = c.store.foundValue (f.deref b) rev := by
  have hopen : f.reads j ≠ .done found := by
    rcases hj with hj | ⟨k, hj⟩ <;> rw [hj] <;> exact LookupStage.noConfusion
  rw [foundValue_eq_lookup]
  cases step_moves hstep with
  | holding _ _ _ _ =>
    obtain ⟨_, hstage⟩ := stage_of_update hopen hdone
    contradiction
  | @known j' b' rev' found' hj' hlook =>
    obtain ⟨rfl, hstage⟩ := stage_of_update hopen hdone
    rcases hj with hj | ⟨k, hj⟩
    · rw [hj] at hj'
      cases hj'
      cases hstage
      rw [hlook]
    · rw [hj] at hj'
      contradiction
  | getting _ _ _ _ =>
    obtain ⟨_, hstage⟩ := stage_of_update hopen hdone
    contradiction
  | @outside j' b' index rev' hj' hlook hbounds =>
    obtain ⟨rfl, hstage⟩ := stage_of_update hopen hdone
    rcases hj with hj | ⟨k, hj⟩
    · rw [hj] at hj'
      cases hj'
      cases hstage
      rw [hlook]
      exact (h.absent hbounds).symm
    · rw [hj] at hj'
      contradiction
  | @got j' b' index rev' hj' _ =>
    obtain ⟨rfl, hstage⟩ := stage_of_update hopen hdone
    rcases hj with hj | ⟨k, hj⟩
    · rw [hj] at hj'
      contradiction
    · rw [hj] at hj'
      cases hj'
      cases hstage
      obtain ⟨hfirst, hlook⟩ := h.reads j' b rev index hj
      have hlast := (hn.reading j' index (by rw [hj]; rfl)).2.1
      rw [hlook]
      exact h.slot_of_lookup hn hkey hlook ⟨hfirst, by omega⟩
  | _ => exact absurd hdone hopen

/-- A read among the accesses of other calls finds what `find_value_for_revision` finds in
the store of a sequential execution, that of exactly the calls which have got their index or
were refused, with the outcomes they have. -/
theorem lookups_atomic {s : Store} (hs : s.WF)
    (hrevs : ∀ k, ∀ r ∈ (s.view k).revisions, 1 ≤ r ∧ r ≤ s.currentRevision)
    {trace : List Access} (hrem : ∀ idx, .remove idx ∉ trace)
    (hrun : (start s).run calls trace = some f) {j b : ℕ} {rev : ℤ} {found : Option Value}
    {access : Access} (hj : f.reads j = .holding b rev ∨ ∃ k, f.reads j = .getting b rev k)
    (hstep : f.step calls access = some f') (hdone : f'.reads j = .done found) :
    ∃ (order : List ℕ) (key : Bytes), Timely (events trace) order ∧ order.Nodup ∧
      (∀ i, i ∈ order ↔ ((f.sets i).phase (calls i) f.deref).outcome.isSome) ∧
      order.map (fun i => ((f.sets i).phase (calls i) f.deref).outcome) =
        (s.results (order.map calls)).map some ∧
      f.treeMap[key]? = some b ∧
      found = (s.run (order.map calls)).foundValue ((s.run (order.map calls)).view key) rev := by
  obtain ⟨hn, hg, hp, acts, c, hacts, hm, hhist⟩ := run_simulated hs hrevs hrem hrun
  have hcons := Concurrent.run_consistent hs (Concurrent.start_consistent hs) hacts
  rw [List.nil_append] at hcons
  have hl := hcons.linearized
  have hown : (f.reads j).owned = some b := by
    rcases hj with hj | ⟨k, hj⟩ <;> rw [hj] <;> rfl
  obtain ⟨key, hkey⟩ := hn.reads j b hown
  refine ⟨sections acts, key, by rw [← hhist]; exact hcons.timely, hl.nodup, ?_, ?_, hkey, ?_⟩
  · intro i
    rw [hl.committed i, hm.phases i]
  · rw [← hl.outcomes]
    exact List.map_congr_left (fun i _ => by rw [hm.phases i])
  have hitem : (s.run ((sections acts).map calls)).view key = f.deref b := by
    rw [← hl.view, ← hm.deref_read hg hown]
    unfold Store.view Store.item?
    rw [hm.treeMap, hkey]
    rfl
  rw [hitem, hm.found_eq hn hj hkey hstep hdone, foundValue_eq_lookup, foundValue_eq_lookup,
    hl.values]

/-- A read of `a` at revision 1, after its second write, while `b` is being written. -/
def readTrace : List Access :=
  [.invoke 0, .entry 0, .index 0, .invoke 1, .entry 1] ++ wholeSet 0 [.place 0] ++
    wholeSet 1 [.fill 1] ++ [.invoke 2, .entry 2, .index 2, .acquire 2, .check 2, .drain 2,
      .readItem 0 [97] 1, .reserve 2, .lookup 0]

theorem lookups_atomic_readTrace :
    ∃ order : List ℕ, Timely (events readTrace) order ∧ order.Nodup ∧
      (∀ i < 4, i ∈ order ↔ i < 3) ∧
      ∃ key, some ⟨1, 1, 1, some [1]⟩ = ((Store.new none).run (order.map busyCalls)).foundValue
        (((Store.new none).run (order.map busyCalls)).view key) 1 := by
  have hstate : ((start (Store.new none)).run busyCalls readTrace).map (fun f =>
      (f.reads 0, (f.step busyCalls (.readSlot 0)).map (fun f' => f'.reads 0),
        (List.range 4).map (fun i => ((f.sets i).phase (busyCalls i) f.deref).outcome.isSome))) =
        some (.getting 0 1 0, some (.done (some ⟨1, 1, 1, some [1]⟩)),
          (List.range 4).map (fun i => decide (i < 3))) := by
    decide
  obtain ⟨f, hrun, hf⟩ := Option.map_eq_some_iff.mp hstate
  obtain ⟨hreads, hf⟩ := Prod.mk.inj hf
  obtain ⟨hnext, hsets⟩ := Prod.mk.inj hf
  obtain ⟨f', hstep, hdone⟩ := Option.map_eq_some_iff.mp hnext
  obtain ⟨order, key, htimely, hnodup, hcalls, -, -, hfound⟩ := lookups_atomic (Store.new_wf none)
    new_revisions (by simp [readTrace, wholeSet]) hrun (Or.inr ⟨0, hreads⟩) hstep hdone
  refine ⟨order, htimely, hnodup, ?_, key, hfound⟩
  intro i hi
  rw [hcalls i, List.map_inj_left.mp hsets i (List.mem_range.mpr hi), decide_eq_true_iff]

end Interleaved
end MemEtcd
