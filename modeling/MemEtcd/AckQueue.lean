import Mathlib.Tactic

/-! Queues whose items are acknowledged. An item enters the queue of its label or
is acknowledged at once; later a batch leaves the front of a queue and is
acknowledged. Items are known by their keys. -/
namespace AckQueue

variable {ι ρ κ : Type*} (key : ρ → κ) (waits : ρ → Bool)

/-- What has become of the given items. One that is waited for is in its queue
until it is acknowledged, and none is acknowledged twice. -/
structure Inv (queue : ι → List ρ) (acked : List κ) (given : List (ι × ρ)) : Prop where
  keys : (given.map (fun a => key a.2)).Nodup
  nodup : acked.Nodup
  known : ∀ k ∈ acked, ∃ a ∈ given, key a.2 = k
  queued : ∀ i, ∀ x ∈ queue i, (i, x) ∈ given ∧ key x ∉ acked
  distinct : ∀ i, ((queue i).map key).Nodup
  answered : ∀ a ∈ given, waits a.2 = true → key a.2 ∈ acked ∨ a.2 ∈ queue a.1

variable {key waits} {queue : ι → List ρ} {acked : List κ} {given : List (ι × ρ)}

theorem inv_nil : Inv key waits (fun _ : ι => []) [] [] :=
  ⟨List.nodup_nil, List.nodup_nil, fun _ h => absurd h List.not_mem_nil,
    fun _ _ h => absurd h List.not_mem_nil, fun _ => List.nodup_nil,
    fun _ h => absurd h List.not_mem_nil⟩

namespace Inv

/-- The key of a new item is new to the queues and to the acknowledgements. -/
theorem unknown (h : Inv key waits queue acked given) {i : ι} {x : ρ}
    (hnew : ((given ++ [(i, x)]).map (fun a => key a.2)).Nodup) :
    (∀ a ∈ given, key a.2 ≠ key x) ∧ key x ∉ acked := by
  have hfresh : ∀ a ∈ given, key a.2 ≠ key x := by
    intro a ha he
    rw [List.map_append, List.nodup_append] at hnew
    exact hnew.2.2 _ (List.mem_map_of_mem ha) _ (List.mem_singleton_self _) he
  refine ⟨hfresh, ?_⟩
  intro hk
  obtain ⟨a, ha, he⟩ := h.known _ hk
  exact hfresh a ha he

/-- An item that is acknowledged at once, if it is waited for. -/
theorem pass (h : Inv key waits queue acked given) {i : ι} {x : ρ}
    (hnew : ((given ++ [(i, x)]).map (fun a => key a.2)).Nodup) :
    Inv key waits queue (acked ++ if waits x then [key x] else []) (given ++ [(i, x)]) := by
  obtain ⟨hfresh, hunknown⟩ := h.unknown hnew
  have hmem : (i, x) ∈ given ++ [(i, x)] := List.mem_append_right _ (List.mem_singleton_self _)
  -- nothing is acknowledged but the item
  have hself {k : κ} (hk : k ∈ if waits x then [key x] else []) : k = key x := by
    split_ifs at hk
    · exact List.mem_singleton.mp hk
    · contradiction
  refine ⟨hnew, ?_, ?_, ?_, h.distinct, ?_⟩
  · rw [List.nodup_append]
    refine ⟨h.nodup, ?_, ?_⟩
    · split_ifs
      · exact List.nodup_singleton _
      · exact List.nodup_nil
    · intro k hk k' hk' he
      apply hunknown
      rw [← hself hk', ← he]
      exact hk
  · intro k hk
    rcases List.mem_append.mp hk with hk | hk
    · obtain ⟨a, ha, he⟩ := h.known k hk
      exact ⟨a, List.mem_append_left _ ha, he⟩
    · exact ⟨(i, x), hmem, (hself hk).symm⟩
  · intro j y hy
    obtain ⟨hg, hn⟩ := h.queued j y hy
    refine ⟨List.mem_append_left _ hg, ?_⟩
    rw [List.mem_append, not_or]
    exact ⟨hn, fun hk => hfresh _ hg (hself hk)⟩
  · intro a ha hw
    rcases List.mem_append.mp ha with ha | ha
    · exact (h.answered a ha hw).imp_left (List.mem_append_left _)
    · rw [List.mem_singleton.mp ha] at hw ⊢
      rw [if_pos hw]
      exact Or.inl (List.mem_append_right _ (List.mem_singleton_self _))

variable [DecidableEq ι]

/-- An item that enters its queue. -/
theorem enqueue (h : Inv key waits queue acked given) {i : ι} {x : ρ}
    (hnew : ((given ++ [(i, x)]).map (fun a => key a.2)).Nodup) :
    Inv key waits (Function.update queue i (queue i ++ [x])) acked (given ++ [(i, x)]) := by
  obtain ⟨hfresh, hunknown⟩ := h.unknown hnew
  refine ⟨hnew, h.nodup, ?_, ?_, ?_, ?_⟩
  · intro k hk
    obtain ⟨a, ha, he⟩ := h.known k hk
    exact ⟨a, List.mem_append_left _ ha, he⟩
  · intro j y hy
    by_cases hj : j = i
    · subst hj
      rw [Function.update_self, List.mem_append] at hy
      rcases hy with hy | hy
      · obtain ⟨hg, hn⟩ := h.queued j y hy
        exact ⟨List.mem_append_left _ hg, hn⟩
      · rw [List.mem_singleton.mp hy]
        exact ⟨List.mem_append_right _ (List.mem_singleton_self _), hunknown⟩
    · rw [Function.update_of_ne hj] at hy
      obtain ⟨hg, hn⟩ := h.queued j y hy
      exact ⟨List.mem_append_left _ hg, hn⟩
  · intro j
    by_cases hj : j = i
    · subst hj
      rw [Function.update_self, List.map_append, List.nodup_append]
      refine ⟨h.distinct j, List.nodup_singleton _, ?_⟩
      intro k hk k' hk' he
      obtain ⟨y, hy, rfl⟩ := List.mem_map.mp hk
      apply hfresh _ (h.queued j y hy).1
      rw [he, List.mem_singleton.mp hk']
    · rw [Function.update_of_ne hj]
      exact h.distinct j
  · intro a ha hw
    rcases List.mem_append.mp ha with ha | ha
    · refine (h.answered a ha hw).imp_right ?_
      intro hx
      by_cases hj : a.1 = i
      · rw [hj] at hx ⊢
        rw [Function.update_self]
        exact List.mem_append_left _ hx
      · rwa [Function.update_of_ne hj]
    · rw [List.mem_singleton.mp ha, Function.update_self]
      exact Or.inr (List.mem_append_right _ (List.mem_singleton_self _))

/-- A batch that leaves its queue. -/
theorem dequeue (h : Inv key waits queue acked given) {i : ι} {batch rest : List ρ}
    (hsplit : batch ++ rest = queue i) :
    Inv key waits (Function.update queue i rest) (acked ++ (batch.filter waits).map key) given := by
  have hdistinct := h.distinct i
  rw [← hsplit, List.map_append, List.nodup_append] at hdistinct
  obtain ⟨hbatch, hrest, hapart⟩ := hdistinct
  have hin : ∀ x ∈ batch, (i, x) ∈ given ∧ key x ∉ acked := fun x hx =>
    h.queued i x (hsplit ▸ List.mem_append_left _ hx)
  have hwoken {k : κ} (hk : k ∈ (batch.filter waits).map key) : ∃ x ∈ batch, key x = k := by
    obtain ⟨x, hx, he⟩ := List.mem_map.mp hk
    exact ⟨x, List.mem_of_mem_filter hx, he⟩
  refine ⟨h.keys, ?_, ?_, ?_, ?_, ?_⟩
  · rw [List.nodup_append]
    refine ⟨h.nodup, hbatch.sublist (List.filter_sublist.map _), ?_⟩
    intro k hk k' hk' he
    obtain ⟨x, hx, hkey⟩ := hwoken hk'
    apply (hin x hx).2
    rw [hkey, ← he]
    exact hk
  · intro k hk
    rcases List.mem_append.mp hk with hk | hk
    · exact h.known k hk
    · obtain ⟨x, hx, hkey⟩ := hwoken hk
      exact ⟨(i, x), (hin x hx).1, hkey⟩
  · intro j y hy
    rw [List.mem_append, not_or]
    by_cases hj : j = i
    · subst hj
      rw [Function.update_self] at hy
      obtain ⟨hg, hn⟩ := h.queued j y (hsplit ▸ List.mem_append_right _ hy)
      refine ⟨hg, hn, ?_⟩
      intro hk
      obtain ⟨x, hx, hkey⟩ := hwoken hk
      exact hapart _ (List.mem_map_of_mem hx) _ (List.mem_map_of_mem hy) hkey
    · -- items of different queues have different keys
      rw [Function.update_of_ne hj] at hy
      obtain ⟨hg, hn⟩ := h.queued j y hy
      refine ⟨hg, hn, ?_⟩
      intro hk
      obtain ⟨x, hx, hkey⟩ := hwoken hk
      have hsame := List.inj_on_of_nodup_map h.keys (hin x hx).1 hg hkey
      exact hj (congrArg Prod.fst hsame).symm
  · intro j
    by_cases hj : j = i
    · rw [hj, Function.update_self]
      exact hrest
    · rw [Function.update_of_ne hj]
      exact h.distinct j
  · intro a ha hw
    rw [List.mem_append]
    rcases h.answered a ha hw with hk | hx
    · exact Or.inl (Or.inl hk)
    · by_cases hj : a.1 = i
      · rw [hj, ← hsplit, List.mem_append] at hx
        rw [hj, Function.update_self]
        rcases hx with hx | hx
        · exact Or.inl (Or.inr (List.mem_map_of_mem (List.mem_filter.mpr ⟨hx, hw⟩)))
        · exact Or.inr hx
      · rw [Function.update_of_ne hj]
        exact Or.inr hx

omit [DecidableEq ι] in
/-- Once the queues are empty, everything that is waited for has been
acknowledged, once. -/
theorem perm_of_empty (h : Inv key waits queue acked given) (hempty : ∀ i, queue i = [])
    (hwait : ∀ a ∈ given, waits a.2 = true) : acked.Perm (given.map (fun a => key a.2)) := by
  apply (List.perm_ext_iff_of_nodup h.nodup h.keys).mpr
  intro k
  constructor
  · intro hk
    obtain ⟨a, ha, he⟩ := h.known k hk
    exact List.mem_map.mpr ⟨a, ha, he⟩
  · intro hk
    obtain ⟨a, ha, rfl⟩ := List.mem_map.mp hk
    rcases h.answered a ha (hwait a ha) with hn | hq
    · exact hn
    · rw [hempty] at hq
      contradiction

end Inv
end AckQueue
