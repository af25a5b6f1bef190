import MemEtcd.Raft

/-! The log store of the Raft node: what it holds after any run of `append`, `truncate`
and `purge`. Each of these, and each read, has the lock of the store from its beginning to
its end. The vote and the committed log id are left out: no operation on the log reads
or writes them. -/
namespace MemEtcd

open Std (ExtTreeMap)

/-! ### The map -/

/-- `RangeBounds::contains`. -/
def Bound.admits (lo hi : Bound ℕ) (i : ℕ) : Bool :=
  (match lo with
    | .included a => decide (a ≤ i)
    | .excluded a => decide (a < i)
    | .unbounded => true) &&
  (match hi with
    | .included b => decide (i ≤ b)
    | .excluded b => decide (i < b)
    | .unbounded => true)

/-- The bounds on which `BTreeMap::range` panics. -/
def Bound.reversed (lo hi : Bound ℕ) : Bool :=
  match lo, hi with
  | .excluded a, .excluded b => decide (b ≤ a)
  | .included a, .included b => decide (b < a)
  | .included a, .excluded b => decide (b < a)
  | .excluded a, .included b => decide (b < a)
  | _, _ => false

/-- `BTreeMap<u64, _>`. The first insertion makes its root node, removals keep it. -/
structure IndexMap (β : Type) where
  root : Option (ExtTreeMap ℕ β compare)

namespace IndexMap

variable {β : Type}

def empty : IndexMap β := ⟨none⟩

def entries (m : IndexMap β) : ExtTreeMap ℕ β compare := m.root.getD ∅

def insert (m : IndexMap β) (k : ℕ) (v : β) : IndexMap β := ⟨some (m.entries.insert k v)⟩

def remove (m : IndexMap β) (k : ℕ) : IndexMap β := ⟨m.root.map (·.erase k)⟩

/-- `range`. A map without a root does not look at the bounds. -/
def range (m : IndexMap β) (lo hi : Bound ℕ) : Except Fault (List (ℕ × β)) :=
  match m.root with
  | none => .ok []
  | some tree =>
    if Bound.reversed lo hi then .error (.panic .rangeBounds)
    else .ok (tree.toList.filter (fun e => Bound.admits lo hi e.1))

/-- `iter().next_back()`. -/
def last (m : IndexMap β) : Option (ℕ × β) := m.entries.toList.getLast?

theorem entries_insert (m : IndexMap β) (k : ℕ) (v : β) (i : ℕ) :
    (m.insert k v).entries[i]? = if k = i then some v else m.entries[i]? := by
  change (m.entries.insert k v)[i]? = _
  rw [ExtTreeMap.getElem?_insert]
  simp only [compare_eq_iff_eq]

theorem entries_remove (m : IndexMap β) (k : ℕ) (i : ℕ) :
    (m.remove k).entries[i]? = if k = i then none else m.entries[i]? := by
  unfold remove entries
  cases m.root with
  | none => simp
  | some tree =>
    simp only [Option.map_some, Option.getD_some]
    rw [ExtTreeMap.getElem?_erase]
    simp only [compare_eq_iff_eq]

theorem entries_removes (keys : List ℕ) (m : IndexMap β) (i : ℕ) :
    (keys.foldl remove m).entries[i]? = if i ∈ keys then none else m.entries[i]? := by
  induction keys generalizing m with
  | nil => simp
  | cons k keys ih =>
    rw [List.foldl_cons, ih, entries_remove]
    by_cases hk : k = i
    · simp [hk]
    · have hk' : ¬i = k := fun h => hk h.symm
      simp [hk, hk']

theorem rooted_removes (keys : List ℕ) (m : IndexMap β) :
    (keys.foldl remove m).root.isSome = m.root.isSome := by
  induction keys generalizing m with
  | nil => rfl
  | cons k keys ih =>
    rw [List.foldl_cons, ih]
    exact Option.isSome_map

/-- The outcome of `range`. -/
theorem range_eq (m : IndexMap β) (lo hi : Bound ℕ) :
    m.range lo hi = if Bound.reversed lo hi ∧ m.root.isSome then .error (.panic .rangeBounds)
      else .ok (m.entries.toList.filter (fun e => Bound.admits lo hi e.1)) := by
  unfold range entries
  cases m.root with
  | none => simp
  | some tree => simp

theorem mem_toList (m : IndexMap β) (k : ℕ) (v : β) :
    (k, v) ∈ m.entries.toList ↔ m.entries[k]? = some v :=
  ExtTreeMap.mem_toList_iff_getElem?_eq_some

theorem toList_sorted (m : IndexMap β) : m.entries.toList.Pairwise (fun a b => a.1 < b.1) := by
  apply ExtTreeMap.ordered_keys_toList.imp
  intro a b h
  exact compare_lt_iff_lt.mp h

/-- Removing the keys of a range. -/
theorem range_removes (m : IndexMap β) {lo hi : Bound ℕ} (h : Bound.reversed lo hi = false) :
    ∃ es, m.range lo hi = .ok es ∧ ∀ i v, ((es.map Prod.fst).foldl remove m).entries[i]? = some v ↔
      m.entries[i]? = some v ∧ ¬Bound.admits lo hi i := by
  refine ⟨_, by rw [range_eq, if_neg (by simp [h])], ?_⟩
  intro i v
  rw [entries_removes]
  split_ifs with hmem
  · obtain ⟨e, he, rfl⟩ := List.mem_map.mp hmem
    have hadmits := (List.mem_filter.mp he).2
    simp [hadmits]
  · refine ⟨fun hget => ⟨hget, ?_⟩, fun hget => hget.1⟩
    -- an entry within the bounds would be among those removed
    intro hadmits
    apply hmem
    exact List.mem_map.mpr ⟨(i, v), List.mem_filter.mpr ⟨(m.mem_toList i v).mpr hget, hadmits⟩, rfl⟩

theorem last_none (m : IndexMap β) (h : m.last = none) (i : ℕ) : m.entries[i]? = none := by
  have hnil : m.entries.toList = [] := List.getLast?_eq_none_iff.mp h
  apply Option.eq_none_iff_forall_not_mem.mpr
  intro v hv
  have hmem := (m.mem_toList i v).mpr hv
  rw [hnil] at hmem
  contradiction

theorem last_some (m : IndexMap β) {k : ℕ} {v : β} (h : m.last = some (k, v)) :
    m.entries[k]? = some v ∧ ∀ i w, m.entries[i]? = some w → i ≤ k := by
  obtain ⟨before, hlist⟩ := List.getLast?_eq_some_iff.mp h
  have hsorted := m.toList_sorted
  rw [hlist, List.pairwise_append] at hsorted
  refine ⟨(m.mem_toList k v).mp (by rw [hlist]; simp), ?_⟩
  intro i w hw
  have hmem := (m.mem_toList i w).mpr hw
  rw [hlist, List.mem_append, List.mem_singleton] at hmem
  rcases hmem with hmem | heq
  · exact (hsorted.2.2 (i, w) hmem (k, v) (List.mem_singleton.mpr rfl)).le
  · cases heq
    exact le_refl _

end IndexMap

/-! ### The store -/

structure LogStoreInner where
  lastPurgedLogId : Option LogId
  log : IndexMap Entry

structure LogState where
  lastPurgedLogId : Option LogId
  lastLogId : Option LogId
  deriving DecidableEq, Repr

inductive LogOp where
  | append (entries : List Entry)
  | truncate (logId : LogId)
  | purge (logId : LogId)
  deriving DecidableEq, Repr

namespace LogStoreInner

def default : LogStoreInner := ⟨none, .empty⟩

def tryGetLogEntries (s : LogStoreInner) (lo hi : Bound ℕ) : Except Fault (List Entry) := do
  let entries ← s.log.range lo hi
  return entries.map Prod.snd

def getLogState (s : LogStoreInner) : LogState :=
  let last := s.log.last.map (fun e => e.2.logId)
  let lastPurged := s.lastPurgedLogId
  let last := match last with
    | none => lastPurged
    | some x => some x
  ⟨lastPurged, last⟩

def append (s : LogStoreInner) (entries : List Entry) : LogStoreInner :=
  { s with log := entries.foldl (fun log entry => log.insert entry.logId.index entry) s.log }

def truncate (s : LogStoreInner) (logId : LogId) : Except Fault LogStoreInner := do
  let keys := (← s.log.range (.included logId.index) .unbounded).map Prod.fst
  return { s with log := keys.foldl IndexMap.remove s.log }

def purge (s : LogStoreInner) (logId : LogId) : Except Fault LogStoreInner := do
  let s := { s with lastPurgedLogId := some logId }
  let keys := (← s.log.range .unbounded (.included logId.index)).map Prod.fst
  return { s with log := keys.foldl IndexMap.remove s.log }

def apply (s : LogStoreInner) : LogOp → Except Fault LogStoreInner
  | .append entries => .ok (s.append entries)
  | .truncate logId => s.truncate logId
  | .purge logId => s.purge logId

def run (s : LogStoreInner) (ops : List LogOp) : Except Fault LogStoreInner := ops.foldlM apply s

end LogStoreInner

/-! ### The caller -/

def nextIndex : Option LogId → ℕ
  | none => 0
  | some logId => logId.index + 1

/-- The operations that the consensus library makes on a store: a batch has consecutive
indexes right behind the last log id, nothing purged is truncated, and no purge goes
back. -/
def LogStoreInner.Allowed (s : LogStoreInner) : LogOp → Prop
  | .append entries => entries.map (·.logId.index) =
      List.range' (nextIndex s.getLogState.lastLogId) entries.length
  | .truncate logId => ∀ p ∈ s.lastPurgedLogId, p.index < logId.index
  | .purge logId => ∀ p ∈ s.lastPurgedLogId, p.index ≤ logId.index

def LogStoreInner.Disciplined : LogStoreInner → List LogOp → Prop
  | _, [] => True
  | s, op :: ops => s.Allowed op ∧
      match s.apply op with
      | .ok s' => Disciplined s' ops
      | .error _ => True

instance LogStoreInner.decidableAllowed (s : LogStoreInner) : (op : LogOp) → Decidable (s.Allowed op)
  | .append _ => inferInstanceAs (Decidable (_ = _))
  | .truncate logId => inferInstanceAs (Decidable (∀ p ∈ s.lastPurgedLogId, p.index < logId.index))
  | .purge logId => inferInstanceAs (Decidable (∀ p ∈ s.lastPurgedLogId, p.index ≤ logId.index))

instance LogStoreInner.decidableDisciplined :
    (s : LogStoreInner) → (ops : List LogOp) → Decidable (s.Disciplined ops)
  | _, [] => inferInstanceAs (Decidable True)
  | s, op :: ops =>
    have : Decidable (match s.apply op with
        | .ok s' => s'.Disciplined ops
        | .error _ => True) :=
      match s.apply op with
      | .ok s' => decidableDisciplined s' ops
      | .error _ => inferInstanceAs (Decidable True)
    inferInstanceAs (Decidable (_ ∧ _))

/-! ### The abstract log -/

/-- The operation leaves an entry with this index alone. -/
def LogOp.Keeps (i : ℕ) : LogOp → Prop
  | .append entries => ∀ e ∈ entries, e.logId.index ≠ i
  | .truncate logId => i < logId.index
  | .purge logId => logId.index < i

/-- The entry was appended, and since then neither replaced nor truncated nor purged. -/
def Survives (ops : List LogOp) (e : Entry) : Prop :=
  ∃ before entries after, ops = before ++ .append entries :: after ∧ e ∈ entries ∧
    ∀ op ∈ after, op.Keeps e.logId.index

def lastPurge (ops : List LogOp) : Option LogId :=
  (ops.filterMap (fun op => match op with
    | .purge logId => some logId
    | _ => none)).getLast?

def Inserted (ops : List LogOp) : Prop := ∃ entries, .append entries ∈ ops ∧ entries ≠ []

theorem survives_snoc (ops : List LogOp) (op : LogOp) (e : Entry) :
    Survives (ops ++ [op]) e ↔
      (∃ entries, op = .append entries ∧ e ∈ entries) ∨
        Survives ops e ∧ op.Keeps e.logId.index := by
  constructor
  · rintro ⟨before, entries, after, hops, he, hkeeps⟩
    rcases List.eq_nil_or_concat after with rfl | ⟨after, last, rfl⟩
    · obtain ⟨_, hop⟩ := List.append_inj' hops rfl
      exact Or.inl ⟨entries, List.singleton_inj.mp hop, he⟩
    · rw [List.concat_eq_append, ← List.cons_append, ← List.append_assoc] at hops
      obtain ⟨hops, hop⟩ := List.append_inj' hops rfl
      have hlast : op = last := List.singleton_inj.mp hop
      refine Or.inr ⟨⟨before, entries, after, hops, he, ?_⟩, ?_⟩
      · intro op' hop'
        exact hkeeps op' (by simp [hop'])
      · rw [hlast]
        exact hkeeps last (by simp)
  · rintro (⟨entries, rfl, he⟩ | ⟨⟨before, entries, after, rfl, he, hkeeps⟩, hop⟩)
    · exact ⟨ops, entries, [], rfl, he, by simp⟩
    · refine ⟨before, entries, after ++ [op], by simp, he, ?_⟩
      intro op' hop'
      rcases List.mem_append.mp hop' with hop' | hop'
      · exact hkeeps op' hop'
      · rw [List.mem_singleton.mp hop']
        exact hop

theorem survives_append (ops : List LogOp) (entries : List Entry) (e : Entry) :
    Survives (ops ++ [.append entries]) e ↔
      e ∈ entries ∨ Survives ops e ∧ ∀ e' ∈ entries, e'.logId.index ≠ e.logId.index := by
  rw [survives_snoc]
  simp [LogOp.Keeps]

theorem survives_removed {op : LogOp} (hop : ∀ entries, op ≠ .append entries) (ops : List LogOp)
    (e : Entry) : Survives (ops ++ [op]) e ↔ Survives ops e ∧ op.Keeps e.logId.index := by
  rw [survives_snoc, or_iff_right]
  rintro ⟨entries, he, _⟩
  exact hop entries he

theorem lastPurge_snoc (ops : List LogOp) (op : LogOp) :
    lastPurge (ops ++ [op]) = match op with
      | .purge logId => some logId
      | _ => lastPurge ops := by
  unfold lastPurge
  rw [List.filterMap_append]
  cases op <;> simp

theorem inserted_snoc (ops : List LogOp) (op : LogOp) :
    Inserted (ops ++ [op]) ↔ Inserted ops ∨ ∃ entries, op = .append entries ∧ entries ≠ [] := by
  unfold Inserted
  constructor
  · rintro ⟨entries, hmem, hne⟩
    rcases List.mem_append.mp hmem with hmem | hmem
    · exact Or.inl ⟨entries, hmem, hne⟩
    · exact Or.inr ⟨entries, (List.mem_singleton.mp hmem).symm, hne⟩
  · rintro (⟨entries, hmem, hne⟩ | ⟨entries, rfl, hne⟩)
    · exact ⟨entries, List.mem_append_left _ hmem, hne⟩
    · exact ⟨entries, by simp, hne⟩

/-! ### One operation -/

namespace LogStoreInner

theorem entries_append (s : LogStoreInner) {entries : List Entry}
    (hn : (entries.map (·.logId.index)).Nodup) (i : ℕ) (e : Entry) :
    (s.append entries).log.entries[i]? = some e ↔
      e ∈ entries ∧ e.logId.index = i ∨
        s.log.entries[i]? = some e ∧ ∀ e' ∈ entries, e'.logId.index ≠ i := by
  unfold append
  generalize s.log = log
  dsimp only
  induction entries generalizing log with
  | nil => simp
  | cons first rest ih =>
    obtain ⟨hfirst, hrest⟩ := List.nodup_cons.mp hn
    rw [List.foldl_cons, ih hrest, IndexMap.entries_insert]
    by_cases hidx : first.logId.index = i
    · -- the entry is the first of the batch, whose index does not come again
      have hother : ∀ e' ∈ rest, e'.logId.index ≠ i := by
        intro e' he' heq
        exact hfirst (List.mem_map.mpr ⟨e', he', heq.trans hidx.symm⟩)
      rw [if_pos hidx, Option.some_inj]
      constructor
      · rintro (⟨he, heq⟩ | ⟨rfl, _⟩)
        · exact absurd heq (hother e he)
        · exact Or.inl ⟨List.mem_cons_self, hidx⟩
      · rintro (⟨he, heq⟩ | ⟨_, hnone⟩)
        · rcases List.mem_cons.mp he with rfl | he
          · exact Or.inr ⟨rfl, hother⟩
          · exact absurd heq (hother e he)
        · exact absurd hidx (hnone first List.mem_cons_self)
    · rw [if_neg hidx]
      constructor
      · rintro (⟨he, heq⟩ | ⟨hget, hnone⟩)
        · exact Or.inl ⟨List.mem_cons_of_mem _ he, heq⟩
        · refine Or.inr ⟨hget, ?_⟩
          intro e' he'
          rcases List.mem_cons.mp he' with rfl | he'
          · exact hidx
          · exact hnone e' he'
      · rintro (⟨he, heq⟩ | ⟨hget, hnone⟩)
        · rcases List.mem_cons.mp he with rfl | he
          · exact absurd heq hidx
          · exact Or.inl ⟨he, heq⟩
        · exact Or.inr ⟨hget, fun e' he' => hnone e' (List.mem_cons_of_mem _ he')⟩

theorem rooted_append (s : LogStoreInner) (entries : List Entry) :
    (s.append entries).log.root.isSome ↔ s.log.root.isSome ∨ entries ≠ [] := by
  unfold append
  generalize s.log = log
  dsimp only
  induction entries generalizing log with
  | nil => simp
  | cons first rest ih =>
    rw [List.foldl_cons, ih]
    simp [IndexMap.insert]

theorem truncate_spec (s : LogStoreInner) (logId : LogId) :
    ∃ log, s.truncate logId = .ok { s with log := log } ∧ log.root.isSome = s.log.root.isSome ∧
      ∀ i e, log.entries[i]? = some e ↔ s.log.entries[i]? = some e ∧ i < logId.index := by
  obtain ⟨es, hrange, hget⟩ :=
    @IndexMap.range_removes _ s.log (.included logId.index) .unbounded rfl
  refine ⟨(es.map Prod.fst).foldl IndexMap.remove s.log, ?_, IndexMap.rooted_removes _ _, ?_⟩
  · unfold truncate
    rw [hrange]
    rfl
  · intro i e
    rw [hget]
    simp [Bound.admits]

theorem purge_spec (s : LogStoreInner) (logId : LogId) :
    ∃ log, s.purge logId = .ok ⟨some logId, log⟩ ∧ log.root.isSome = s.log.root.isSome ∧
      ∀ i e, log.entries[i]? = some e ↔ s.log.entries[i]? = some e ∧ logId.index < i := by
  obtain ⟨es, hrange, hget⟩ :=
    @IndexMap.range_removes _ s.log .unbounded (.included logId.index) rfl
  refine ⟨(es.map Prod.fst).foldl IndexMap.remove s.log, ?_, IndexMap.rooted_removes _ _, ?_⟩
  · unfold purge
    dsimp only
    rw [hrange]
    rfl
  · intro i e
    rw [hget]
    simp [Bound.admits]

/-! ### The whole run -/

/-- The stored indexes are those from right behind the last purge up to `next`. -/
def Spans (s : LogStoreInner) (next : ℕ) : Prop :=
  nextIndex s.lastPurgedLogId ≤ next ∧
    ∀ i, s.log.entries[i]?.isSome ↔ nextIndex s.lastPurgedLogId ≤ i ∧ i < next

structure Reflects (ops : List LogOp) (s : LogStoreInner) : Prop where
  stored : ∀ i e, s.log.entries[i]? = some e ↔ Survives ops e ∧ e.logId.index = i
  purged : s.lastPurgedLogId = lastPurge ops
  rooted : s.log.root.isSome ↔ Inserted ops
  spans : ∃ next, s.Spans next

section Step

variable {ops : List LogOp} {s : LogStoreInner}

theorem reflects_default : Reflects [] default := by
  have hnone (i : ℕ) : default.log.entries[i]? = none := ExtTreeMap.getElem?_empty
  refine ⟨?_, rfl, ?_, 0, le_refl _, ?_⟩
  · intro i e
    rw [hnone]
    simp [Survives]
  · simp [Inserted, default, IndexMap.empty]
  · intro i
    rw [hnone]
    simp

/-- The log goes on where `get_log_state` says. -/
theorem Reflects.nextIndex_eq (h : Reflects ops s) {next : ℕ} (hs : s.Spans next) :
    nextIndex s.getLogState.lastLogId = next := by
  obtain ⟨hle, hspan⟩ := hs
  unfold getLogState
  cases hlast : s.log.last with
  | none =>
    have hnone := s.log.last_none hlast
    change nextIndex s.lastPurgedLogId = next
    by_contra hne
    have hsome := (hspan (nextIndex s.lastPurgedLogId)).mpr ⟨le_refl _, by omega⟩
    rw [hnone] at hsome
    contradiction
  | some entry =>
    obtain ⟨k, e⟩ := entry
    obtain ⟨hget, hmax⟩ := s.log.last_some hlast
    have hk := (hspan k).mp (by rw [hget]; rfl)
    have hidx : e.logId.index = k := ((h.stored k e).mp hget).2
    change e.logId.index + 1 = next
    rw [hidx]
    by_contra hne
    have hsome := (hspan (k + 1)).mpr (by omega)
    obtain ⟨e', he'⟩ := Option.isSome_iff_exists.mp hsome
    have := hmax (k + 1) e' he'
    omega

/-- A batch fills the indexes right behind the log. -/
theorem isSome_append {entries : List Entry} {next : ℕ} (hs : s.Spans next)
    (hidx : entries.map (·.logId.index) = List.range' next entries.length) (i : ℕ) :
    (s.append entries).log.entries[i]?.isSome ↔
      s.log.entries[i]?.isSome ∨ next ≤ i ∧ i < next + entries.length := by
  have hn : (entries.map (·.logId.index)).Nodup := by
    rw [hidx]
    exact List.nodup_range'
  have hbatch : (∃ e ∈ entries, e.logId.index = i) ↔ next ≤ i ∧ i < next + entries.length := by
    rw [← List.mem_range'_1, ← hidx, List.mem_map]
  rw [← hbatch, Option.isSome_iff_exists]
  constructor
  · rintro ⟨e, he⟩
    rcases (s.entries_append hn i e).mp he with hnew | ⟨hold, _⟩
    · exact Or.inr ⟨e, hnew⟩
    · rw [hold]
      exact Or.inl rfl
  · rintro (hold | ⟨e, hnew⟩)
    · obtain ⟨e, he⟩ := Option.isSome_iff_exists.mp hold
      refine ⟨e, (s.entries_append hn i e).mpr (Or.inr ⟨he, ?_⟩)⟩
      intro e' hmem heq
      have hbelow := ((hs.2 i).mp hold).2
      have habove := (hbatch.mp ⟨e', hmem, heq⟩).1
      omega
    · exact ⟨e, (s.entries_append hn i e).mpr (Or.inl hnew)⟩

theorem Reflects.append (h : Reflects ops s) {entries : List Entry}
    (ha : s.Allowed (.append entries)) : Reflects (ops ++ [.append entries]) (s.append entries) := by
  obtain ⟨next, hs⟩ := h.spans
  have hidx : entries.map (·.logId.index) = List.range' next entries.length := by
    rw [← h.nextIndex_eq hs]
    exact ha
  have hnodup : (entries.map (·.logId.index)).Nodup := by
    rw [hidx]
    exact List.nodup_range'
  refine ⟨?_, ?_, ?_, next + entries.length, ?_, ?_⟩
  · intro i e
    rw [s.entries_append hnodup, h.stored, survives_append]
    constructor
    · rintro (⟨he, rfl⟩ | ⟨⟨hsurv, rfl⟩, hother⟩)
      · exact ⟨Or.inl he, rfl⟩
      · exact ⟨Or.inr ⟨hsurv, hother⟩, rfl⟩
    · rintro ⟨he | ⟨hsurv, hother⟩, rfl⟩
      · exact Or.inl ⟨he, rfl⟩
      · exact Or.inr ⟨⟨hsurv, rfl⟩, hother⟩
  · rw [lastPurge_snoc]
    exact h.purged
  · rw [rooted_append, h.rooted, inserted_snoc]
    simp
  · exact hs.1.trans (Nat.le_add_right _ _)
  · intro i
    have hle : nextIndex s.lastPurgedLogId ≤ next := hs.1
    rw [isSome_append hs hidx, hs.2]
    change _ ↔ nextIndex s.lastPurgedLogId ≤ i ∧ i < next + entries.length
    omega

/-- An operation that only removes entries; what it does to the bounds of the log is
left to be shown. -/
theorem Reflects.removed (h : Reflects ops s) {op : LogOp} {s' : LogStoreInner}
    (hop : ∀ entries, op ≠ .append entries) (hroot : s'.log.root.isSome = s.log.root.isSome)
    (hget : ∀ i e, s'.log.entries[i]? = some e ↔ s.log.entries[i]? = some e ∧ op.Keeps i)
    (hpurged : s'.lastPurgedLogId = lastPurge (ops ++ [op]))
    (hbounds : ∀ next, nextIndex s.lastPurgedLogId ≤ next →
      ∃ next', nextIndex s'.lastPurgedLogId ≤ next' ∧
        ∀ i, (nextIndex s.lastPurgedLogId ≤ i ∧ i < next) ∧ op.Keeps i ↔
          nextIndex s'.lastPurgedLogId ≤ i ∧ i < next') :
    Reflects (ops ++ [op]) s' := by
  obtain ⟨next, hle, hspan⟩ := h.spans
  obtain ⟨next', hle', hspan'⟩ := hbounds next hle
  refine ⟨?_, hpurged, ?_, next', hle', ?_⟩
  · intro i e
    rw [hget, h.stored, survives_removed hop]
    constructor
    · rintro ⟨⟨hsurv, rfl⟩, hkeeps⟩
      exact ⟨⟨hsurv, hkeeps⟩, rfl⟩
    · rintro ⟨⟨hsurv, hkeeps⟩, rfl⟩
      exact ⟨⟨hsurv, rfl⟩, hkeeps⟩
  · rw [hroot, h.rooted, inserted_snoc, or_iff_left]
    rintro ⟨entries, he, _⟩
    exact hop entries he
  · intro i
    rw [← hspan', ← hspan, Option.isSome_iff_exists, Option.isSome_iff_exists, ← exists_and_right]
    exact exists_congr (hget i)

theorem Reflects.truncate (h : Reflects ops s) {logId : LogId} (ha : s.Allowed (.truncate logId)) :
    ∃ s', s.truncate logId = .ok s' ∧ Reflects (ops ++ [.truncate logId]) s' := by
  obtain ⟨log, htrunc, hroot, hget⟩ := s.truncate_spec logId
  have hpurged : nextIndex s.lastPurgedLogId ≤ logId.index := by
    cases hp : s.lastPurgedLogId with
    | none => exact Nat.zero_le _
    | some p => exact ha p hp
  refine ⟨_, htrunc, h.removed (by simp) hroot hget ?_ ?_⟩
  · rw [lastPurge_snoc]
    exact h.purged
  · intro next hle
    refine ⟨min next logId.index, le_min hle hpurged, ?_⟩
    intro i
    simp only [LogOp.Keeps]
    omega

theorem Reflects.purge (h : Reflects ops s) {logId : LogId} (ha : s.Allowed (.purge logId)) :
    ∃ s', s.purge logId = .ok s' ∧ Reflects (ops ++ [.purge logId]) s' := by
  obtain ⟨log, hpurge, hroot, hget⟩ := s.purge_spec logId
  have hpurged : nextIndex s.lastPurgedLogId ≤ logId.index + 1 := by
    cases hp : s.lastPurgedLogId with
    | none => exact Nat.zero_le _
    | some p => exact Nat.succ_le_succ (ha p hp)
  refine ⟨_, hpurge, h.removed (by simp) hroot hget ?_ ?_⟩
  · rw [lastPurge_snoc]
  · -- a purge behind the end leaves an empty log that goes on right behind it
    intro next hle
    refine ⟨max next (logId.index + 1), le_max_right _ _, ?_⟩
    intro i
    change _ ↔ logId.index + 1 ≤ i ∧ _
    simp only [LogOp.Keeps]
    omega

theorem Reflects.apply (h : Reflects ops s) {op : LogOp} (ha : s.Allowed op) :
    ∃ s', s.apply op = .ok s' ∧ Reflects (ops ++ [op]) s' := by
  cases op with
  | append entries => exact ⟨_, rfl, h.append ha⟩
  | truncate logId => exact h.truncate ha
  | purge logId => exact h.purge ha

theorem Reflects.run {before : List LogOp} (h : Reflects before s) (hd : s.Disciplined ops) :
    ∃ s', s.run ops = .ok s' ∧ Reflects (before ++ ops) s' := by
  induction ops generalizing before s with
  | nil => exact ⟨s, rfl, by rwa [List.append_nil]⟩
  | cons op ops ih =>
    obtain ⟨ha, hrest⟩ := hd
    obtain ⟨s₁, happly, h₁⟩ := h.apply ha
    rw [happly] at hrest
    obtain ⟨s₂, hrun, h₂⟩ := ih h₁ hrest
    refine ⟨s₂, ?_, ?_⟩
    · unfold LogStoreInner.run
      rw [List.foldlM_cons, happly]
      exact hrun
    · rw [List.append_cons]
      exact h₂

end Step

end LogStoreInner

/-! ### What is read -/

/-- The entries that survive with indexes in the range, by ascending index. -/
structure ReadsExactly (ops : List LogOp) (lo hi : Bound ℕ) (out : List Entry) : Prop where
  sorted : out.Pairwise (fun a b => a.logId.index < b.logId.index)
  mem_iff : ∀ e, e ∈ out ↔ Survives ops e ∧ Bound.admits lo hi e.logId.index

/-- The id of the last entry that survives, without one that of the last purge. -/
def IsLastLogId (ops : List LogOp) (last : Option LogId) : Prop :=
  (∃ e, Survives ops e ∧ (∀ e', Survives ops e' → e'.logId.index ≤ e.logId.index) ∧
    last = some e.logId) ∨
  (∀ e, ¬Survives ops e) ∧ last = lastPurge ops

namespace LogStoreInner

variable {ops : List LogOp} {s : LogStoreInner}

theorem Reflects.isLastLogId (h : Reflects ops s) : IsLastLogId ops s.getLogState.lastLogId := by
  unfold getLogState
  cases hlast : s.log.last with
  | none =>
    refine Or.inr ⟨?_, h.purged⟩
    intro e he
    have hget := (h.stored e.logId.index e).mpr ⟨he, rfl⟩
    rw [s.log.last_none hlast] at hget
    contradiction
  | some entry =>
    obtain ⟨k, e⟩ := entry
    obtain ⟨hget, hmax⟩ := s.log.last_some hlast
    obtain ⟨hsurv, hidx⟩ := (h.stored k e).mp hget
    refine Or.inl ⟨e, hsurv, ?_, rfl⟩
    intro e' he'
    rw [hidx]
    exact hmax _ e' ((h.stored _ e').mpr ⟨he', rfl⟩)

theorem Reflects.readsExactly (h : Reflects ops s) (lo hi : Bound ℕ) :
    ReadsExactly ops lo hi
      ((s.log.entries.toList.filter (fun e => Bound.admits lo hi e.1)).map Prod.snd) := by
  have hkey : ∀ x ∈ s.log.entries.toList, x.2.logId.index = x.1 := by
    intro x hx
    exact ((h.stored x.1 x.2).mp ((s.log.mem_toList x.1 x.2).mp hx)).2
  refine ⟨?_, ?_⟩
  · apply List.pairwise_map.mpr
    apply (s.log.toList_sorted.filter _).imp_of_mem
    intro a b ha hb hab
    rw [hkey a (List.mem_filter.mp ha).1, hkey b (List.mem_filter.mp hb).1]
    exact hab
  · intro e
    rw [List.mem_map]
    constructor
    · rintro ⟨x, hx, rfl⟩
      obtain ⟨hmem, hadmits⟩ := List.mem_filter.mp hx
      rw [hkey x hmem]
      exact ⟨((h.stored x.1 x.2).mp ((s.log.mem_toList x.1 x.2).mp hmem)).1, hadmits⟩
    · rintro ⟨hsurv, hadmits⟩
      refine ⟨(e.logId.index, e), List.mem_filter.mpr ⟨?_, hadmits⟩, rfl⟩
      exact (s.log.mem_toList _ e).mpr ((h.stored _ e).mpr ⟨hsurv, rfl⟩)

/-- A read gives the surviving entries of its range, unless the bounds are reversed and
the map has a root that lets it look at them. -/
theorem Reflects.tryGetLogEntries (h : Reflects ops s) (lo hi : Bound ℕ) :
    (Bound.reversed lo hi ∧ Inserted ops →
      s.tryGetLogEntries lo hi = .error (.panic .rangeBounds)) ∧
    (¬(Bound.reversed lo hi ∧ Inserted ops) →
      ∃ out, s.tryGetLogEntries lo hi = .ok out ∧ ReadsExactly ops lo hi out) := by
  rw [← h.rooted]
  unfold LogStoreInner.tryGetLogEntries
  rw [IndexMap.range_eq]
  constructor
  · intro hpanics
    rw [if_pos hpanics]
    rfl
  · intro hok
    rw [if_neg hok]
    exact ⟨_, rfl, h.readsExactly lo hi⟩

/-- After every run of operations as the consensus library makes them the stored indexes
are those from right behind the last purge up to some end, `get_log_state` reports the last
entry or else the last purge, and a read returns the entries that were appended last and
neither truncated nor purged, exactly if its bounds are not reversed or nothing was ever
appended. -/
theorem log_reads_exact_iff (ops : List LogOp) (h : default.Disciplined ops) :
    ∃ s, default.run ops = .ok s ∧
      (∃ next, nextIndex (lastPurge ops) ≤ next ∧
        ∀ i, s.log.entries[i]?.isSome ↔ nextIndex (lastPurge ops) ≤ i ∧ i < next) ∧
      s.getLogState.lastPurgedLogId = lastPurge ops ∧
      IsLastLogId ops s.getLogState.lastLogId ∧
      ∀ lo hi,
        ((∃ out, s.tryGetLogEntries lo hi = .ok out ∧ ReadsExactly ops lo hi out) ↔
          ¬(Bound.reversed lo hi ∧ Inserted ops)) ∧
        (Bound.reversed lo hi ∧ Inserted ops →
          s.tryGetLogEntries lo hi = .error (.panic .rangeBounds)) := by
  obtain ⟨s, hrun, hr⟩ := reflects_default.run h
  rw [List.nil_append] at hr
  have hspans := hr.spans
  unfold Spans at hspans
  rw [hr.purged] at hspans
  refine ⟨s, hrun, hspans, hr.purged, hr.isLastLogId, ?_⟩
  intro lo hi
  obtain ⟨hpanics, hok⟩ := hr.tryGetLogEntries lo hi
  refine ⟨⟨?_, hok⟩, hpanics⟩
  rintro ⟨out, hout, _⟩ hbad
  rw [hpanics hbad] at hout
  cases hout

end LogStoreInner

def blankEntry (term index : ℕ) : Entry := ⟨⟨⟨term, 1⟩, index⟩, .blank⟩

/-- A conflicting suffix is replaced, then a purge goes behind the end. -/
def conflictRun : List LogOp :=
  [.append [blankEntry 1 0, blankEntry 1 1], .truncate ⟨⟨1, 1⟩, 1⟩, .append [blankEntry 2 1],
    .purge ⟨⟨2, 1⟩, 5⟩, .append [blankEntry 2 6]]

theorem LogStoreInner.log_reads_exact_of_conflict :
    LogStoreInner.default.Disciplined conflictRun ∧
      ∃ s, LogStoreInner.default.run conflictRun = .ok s ∧
        s.tryGetLogEntries .unbounded .unbounded = .ok [blankEntry 2 6] ∧
        ReadsExactly conflictRun .unbounded .unbounded [blankEntry 2 6] := by
  have hd : LogStoreInner.default.Disciplined conflictRun := by decide +kernel
  obtain ⟨s, hrun, _, _, _, hread⟩ := log_reads_exact_iff conflictRun hd
  obtain ⟨out, hout, hexact⟩ := (hread .unbounded .unbounded).1.mpr (by simp [Bound.reversed])
  have hrest : (LogStoreInner.default.run conflictRun).bind
      (fun s => s.tryGetLogEntries .unbounded .unbounded) = .ok [blankEntry 2 6] := by
    decide +kernel
  rw [hrun] at hrest
  have hsame : out = [blankEntry 2 6] := Except.ok.inj (hout.symm.trans hrest)
  rw [hsame] at hexact
  exact ⟨hd, s, hrun, hrest, hexact⟩

/-- One entry is stored, and the range 2..1 is asked for: no entry is in it. -/
theorem LogStoreInner.read_panics_on_reversed_range :
    let ops : List LogOp := [.append [blankEntry 1 0]]
    LogStoreInner.default.Disciplined ops ∧
      ReadsExactly ops (.included 2) (.excluded 1) [] ∧
      (LogStoreInner.default.run ops).bind
          (fun s => s.tryGetLogEntries (.included 2) (.excluded 1)) =
        .error (.panic .rangeBounds) := by
  refine ⟨by decide +kernel, ⟨List.Pairwise.nil, ?_⟩, by decide +kernel⟩
  intro e
  refine iff_of_false List.not_mem_nil ?_
  rintro ⟨_, hadmits⟩
  simp [Bound.admits] at hadmits
  omega

end MemEtcd
