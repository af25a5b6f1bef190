import MemEtcd.Server
import MemEtcd.StoreReach

/-! The steps of the calls in a server. Several calls may be under way; an item that
`prefix_map` does not list yet has a call that will list it. -/
namespace MemEtcd

theorem PendingCall.locked_sameNotify (p : PendingCall) (s : Store) :
    Store.SameNotify s (p.locked s).1 := Store.locked_sameNotify ..

/-- A call that succeeds takes the next revision, in any store. -/
theorem PendingCall.locked_done {p : PendingCall} {s : Store} {done : Committed}
    (h : (p.locked s).2 = .ok done) :
    done.newRev = s.valuesByRevision.latestRevision + 1 ∧ done.key = (s.deref p.item).key ∧
      done.value.modRevision = done.newRev ∧
      (p.locked s).1.valuesByRevision = commitValue s.valuesByRevision done.value := by
  rcases s.locked_revision p.item p.isNewItem p.call.value p.call.required with
    ⟨kv, he⟩ | ⟨c, hc, hspec⟩
  · cases (congrArg Prod.snd he).symm.trans h
  · cases hc.symm.trans h
    exact hspec

/-- A call that succeeds was accepted, and changes its key. -/
theorem PendingCall.locked_accepted {p : PendingCall} {s : Store} (hs : s.HeapOk)
    (ha : s.treeMap[p.call.key]? = some p.item) {done : Committed}
    (h : (p.locked s).2 = .ok done) :
    checkItem (s.view p.call.key) p.call.value p.call.required = .ok () ∧
      done.key = p.call.key ∧
      done.value = (s.view p.call.key).latestValue.next
        (s.valuesByRevision.latestRevision + 1) p.call.value := by
  cases hc : checkItem (s.view p.call.key) p.call.value p.call.required with
  | error kv =>
    rw [Store.view_of_owned ha] at hc
    have he : p.locked s = (s, .error kv) := Store.locked_error hc
    cases (congrArg Prod.snd he).symm.trans h
  | ok u =>
    cases (Store.locked_ok hs ha p.isNewItem hc).1.symm.trans h
    exact ⟨rfl, rfl, rfl⟩

namespace Server

/-! ### What the steps do -/

theorem enter_pending (s : Server) (c : Call) :
    (s.enter c).pending = s.pending ++ [⟨c, (s.store.entry c.key).2.1, (s.store.entry c.key).2.2,
      !(s.store.entry c.key).2.2⟩] := rfl

theorem index_cases (s : Server) (i : ℕ) :
    s.index i = s ∨ ∃ p, s.pending[i]? = some p ∧ p.listed = false ∧
      s.index i = { s with
        store := s.store.index p.call.key p.item
        pending := s.pending.set i { p with listed := true } } := by
  unfold index
  cases hi : s.pending[i]? with
  | none => exact Or.inl rfl
  | some p =>
    dsimp only
    cases hp : p.listed with
    | true => exact Or.inl (if_pos rfl)
    | false => exact Or.inr ⟨p, rfl, hp, if_neg Bool.false_ne_true⟩

/-- The section of a call, once its item is listed. -/
theorem lock_listed {s : Server} {i : ℕ} {p : PendingCall} (hi : s.pending[i]? = some p)
    (hp : p.listed = true) :
    (∃ kv, p.locked s.store = (s.store, .error kv) ∧
      s.lock i = { s with pending := s.pending.eraseIdx i }) ∨
    ∃ done, (p.locked s.store).2 = .ok done ∧
      s.lock i = { s with
        store := (p.locked s.store).1
        pending := s.pending.eraseIdx i
        committed := s.committed ++ [(done, (prefixSplit p.call.key).1)]
        successes := s.successes ++ [done] } := by
  have hres : (∃ kv, p.locked s.store = (s.store, .error kv)) ∨
      ∃ done, (p.locked s.store).2 = .ok done :=
    (s.store.locked_revision p.item p.isNewItem p.call.value p.call.required).imp_right
      (fun ⟨done, hdone, _⟩ => ⟨done, hdone⟩)
  unfold lock
  rw [hi]
  dsimp only
  rw [if_pos hp]
  generalize p.locked s.store = res at hres
  rcases hres with ⟨kv, rfl⟩ | ⟨done, hdone⟩
  · exact Or.inl ⟨kv, rfl, rfl⟩
  · obtain ⟨store, res⟩ := res
    cases hdone
    exact Or.inr ⟨done, rfl, rfl⟩

theorem lock_cases (s : Server) (i : ℕ) :
    s.lock i = s ∨ ∃ p, s.pending[i]? = some p ∧ p.listed = true ∧
      ((∃ kv, p.locked s.store = (s.store, .error kv) ∧
          s.lock i = { s with pending := s.pending.eraseIdx i }) ∨
        ∃ done, (p.locked s.store).2 = .ok done ∧
          s.lock i = { s with
            store := (p.locked s.store).1
            pending := s.pending.eraseIdx i
            committed := s.committed ++ [(done, (prefixSplit p.call.key).1)]
            successes := s.successes ++ [done] }) := by
  cases hi : s.pending[i]? with
  | none => exact Or.inl (by simp only [lock, hi])
  | some p =>
    cases hp : p.listed with
    | false => exact Or.inl (by simp only [lock, hi, hp, Bool.false_eq_true, if_false])
    | true => exact Or.inr ⟨p, rfl, hp, lock_listed hi hp⟩

/-- The steps of one call on its own are `update`. -/
theorem run_actions {s : Server} (h : s.pending = []) (c : Call) :
    (∃ kv, (s.store.update c.key c.value c.required).2 = .error kv ∧
      s.run c.actions = { s with store := (s.store.update c.key c.value c.required).1 }) ∨
    ∃ done, (s.store.update c.key c.value c.required).2 = .ok done ∧
      s.run c.actions = { s with
        store := (s.store.update c.key c.value c.required).1
        committed := s.committed ++ [(done, (prefixSplit c.key).1)]
        successes := s.successes ++ [done] } := by
  -- the item is listed when the section starts
  have hindexed : (s.enter c).index 0 = { s with
      store := s.store.touch c.key
      pending := [⟨c, (s.store.entry c.key).2.1, (s.store.entry c.key).2.2, true⟩] } := by
    unfold index enter Store.touch
    dsimp only
    rw [h]
    cases (s.store.entry c.key).2.2 <;> rfl
  have hrun : s.run c.actions = ((s.enter c).index 0).lock 0 := rfl
  have hempty : { s with pending := [] } = s := by rw [← h]
  rw [hrun, hindexed, Store.update_eq_locked]
  rcases lock_listed (s := { s with
      store := s.store.touch c.key
      pending := [⟨c, (s.store.entry c.key).2.1, (s.store.entry c.key).2.2, true⟩] }) (i := 0)
      rfl rfl with ⟨kv, hkv, he⟩ | ⟨done, hdone, he⟩
  · have hkv : (s.store.touch c.key).locked (s.store.entry c.key).2.1 (s.store.entry c.key).2.2
        c.value c.required = (s.store.touch c.key, .error kv) := hkv
    rw [he, hkv]
    exact Or.inl ⟨kv, rfl, congrArg (fun t => { t with store := s.store.touch c.key }) hempty⟩
  · rw [he]
    exact Or.inr ⟨done, hdone, congrArg (fun t => { t with
      store := ((s.store.touch c.key).locked (s.store.entry c.key).2.1
        (s.store.entry c.key).2.2 c.value c.required).1
      committed := s.committed ++ [(done, (prefixSplit c.key).1)]
      successes := s.successes ++ [done] }) hempty⟩

structure SameDispatch (s t : Server) : Prop where
  notify : Store.SameNotify s.store t.store
  collected : t.collected = s.collected
  thread : t.thread = s.thread
  sinks : t.sinks = s.sinks
  dispatched : t.dispatched = s.dispatched

theorem SameDispatch.refl (s : Server) : SameDispatch s s :=
  ⟨⟨rfl, rfl, rfl, rfl⟩, rfl, rfl, rfl, rfl⟩

theorem enter_sameDispatch (s : Server) (c : Call) : SameDispatch s (s.enter c) :=
  ⟨s.store.entry_sameNotify c.key, rfl, rfl, rfl, rfl⟩

theorem index_sameDispatch (s : Server) (i : ℕ) : SameDispatch s (s.index i) := by
  rcases s.index_cases i with he | ⟨p, _, _, he⟩
  · rw [he]
    exact SameDispatch.refl s
  · rw [he]
    exact ⟨s.store.index_sameNotify _ _, rfl, rfl, rfl, rfl⟩

theorem lock_sameDispatch (s : Server) (i : ℕ) : SameDispatch s (s.lock i) := by
  rcases s.lock_cases i with he | ⟨p, _, _, ⟨kv, _, he⟩ | ⟨done, _, he⟩⟩
  · rw [he]
    exact SameDispatch.refl s
  · rw [he]
    exact ⟨⟨rfl, rfl, rfl, rfl⟩, rfl, rfl, rfl, rfl⟩
  · rw [he]
    exact ⟨s.store.locked_sameNotify _ _ _ _, rfl, rfl, rfl, rfl⟩

/-- Only the dispatcher and the workers touch the WAL. -/
theorem step_wal (s : Server) {a : Action} (hr : a ≠ .receive)
    (hw : ∀ p ticks fails, a ≠ .writeWal p ticks fails) :
    (s.step a).sinks.wal = s.sinks.wal := by
  cases a with
  | enter c => rfl
  | index i => exact congrArg Sinks.wal (s.index_sameDispatch i).sinks
  | lock i => exact congrArg Sinks.wal (s.lock_sameDispatch i).sinks
  | collect i =>
    change (s.collect i).sinks.wal = _
    unfold collect
    split <;> rfl
  | send i =>
    change (s.send i).sinks.wal = _
    unfold send
    split <;> rfl
  | receive => exact absurd rfl hr
  | writeWal p ticks fails => exact absurd rfl (hw p ticks fails)
  | _ => rfl

/-- The notification thread belongs to itself. -/
theorem step_thread (s : Server) {a : Action} (ha : a ≠ .receive) :
    (s.step a).thread = s.thread ∧ (s.step a).dispatched = s.dispatched := by
  cases a with
  | index i => exact ⟨(s.index_sameDispatch i).thread, (s.index_sameDispatch i).dispatched⟩
  | lock i => exact ⟨(s.lock_sameDispatch i).thread, (s.lock_sameDispatch i).dispatched⟩
  | collect i =>
    simp only [step, collect]
    cases s.committed[i]? <;> exact ⟨rfl, rfl⟩
  | send i =>
    simp only [step, send]
    cases s.collected[i]? <;> exact ⟨rfl, rfl⟩
  | receive => exact absurd rfl ha
  | _ => exact ⟨rfl, rfl⟩

/-- `t` has the data and the calls of `s`. -/
structure SameCalls (s t : Server) : Prop where
  data : Store.SameData s.store t.store
  pending : t.pending = s.pending
  successes : t.successes = s.successes

theorem SameCalls.refl (s : Server) : SameCalls s s := ⟨⟨rfl, rfl, rfl, rfl⟩, rfl, rfl⟩

/-- The steps that change the data: those of the calls, compactions and imports. -/
theorem step_cases (s : Server) (a : Action) :
    SameCalls s (s.step a) ∨ (∃ c, a = .enter c) ∨
    (∃ i p, a = .index i ∧ s.pending[i]? = some p ∧ p.listed = false ∧
      s.step a = { s with
        store := s.store.index p.call.key p.item
        pending := s.pending.set i { p with listed := true } }) ∨
    (∃ i p kv, a = .lock i ∧ s.pending[i]? = some p ∧ p.listed = true ∧
      p.locked s.store = (s.store, .error kv) ∧
      s.step a = { s with pending := s.pending.eraseIdx i }) ∨
    (∃ i p done, a = .lock i ∧ s.pending[i]? = some p ∧ p.listed = true ∧
      (p.locked s.store).2 = .ok done ∧
      s.step a = { s with
        store := (p.locked s.store).1
        pending := s.pending.eraseIdx i
        committed := s.committed ++ [(done, (prefixSplit p.call.key).1)]
        successes := s.successes ++ [done] }) ∨
    (∃ rev, a = .compact rev) ∨ ∃ entries, a = .importSnapshot entries := by
  cases a with
  | enter c => exact Or.inr (Or.inl ⟨c, rfl⟩)
  | index i =>
    rcases s.index_cases i with he | ⟨p, hp, hl, he⟩
    · left
      change SameCalls s (s.index i)
      rw [he]
      exact SameCalls.refl s
    · exact Or.inr (Or.inr (Or.inl ⟨i, p, rfl, hp, hl, he⟩))
  | lock i =>
    rcases s.lock_cases i with he | ⟨p, hp, hl, ⟨kv, hkv, he⟩ | ⟨done, hdone, he⟩⟩
    · left
      change SameCalls s (s.lock i)
      rw [he]
      exact SameCalls.refl s
    · exact Or.inr (Or.inr (Or.inr (Or.inl ⟨i, p, kv, rfl, hp, hl, hkv, he⟩)))
    · exact Or.inr (Or.inr (Or.inr (Or.inr (Or.inl ⟨i, p, done, rfl, hp, hl, hdone, he⟩))))
  | collect i =>
    left
    change SameCalls s (s.collect i)
    unfold collect
    split <;> exact ⟨⟨rfl, rfl, rfl, rfl⟩, rfl, rfl⟩
  | send i =>
    left
    change SameCalls s (s.send i)
    unfold send
    split <;> exact ⟨⟨rfl, rfl, rfl, rfl⟩, rfl, rfl⟩
  | receive =>
    left
    change SameCalls s s.receive
    unfold receive
    split <;> exact ⟨⟨rfl, rfl, rfl, rfl⟩, rfl, rfl⟩
  | watch startKey endKey rev wantPrevKv =>
    refine Or.inl ⟨?_, rfl, rfl⟩
    change Store.SameData s.store (s.store.watch startKey endKey rev wantPrevKv).1
    rcases s.store.watch_store startKey endKey rev wantPrevKv with he | ⟨startRev, he⟩
    · rw [he]
      exact ⟨rfl, rfl, rfl, rfl⟩
    · rw [he]
      exact ⟨rfl, rfl, rfl, rfl⟩
  | compact rev => exact Or.inr (Or.inr (Or.inr (Or.inr (Or.inr (Or.inl ⟨rev, rfl⟩)))))
  | importSnapshot entries =>
    exact Or.inr (Or.inr (Or.inr (Or.inr (Or.inr (Or.inr ⟨entries, rfl⟩)))))
  | _ => exact Or.inl ⟨⟨rfl, rfl, rfl, rfl⟩, rfl, rfl⟩

/-- What holds of the calls that are made holds of those under way. -/
theorem step_pending {P : Call → Prop} {s : Server} (h : ∀ p ∈ s.pending, P p.call) {a : Action}
    (ha : ∀ c, a = .enter c → P c) : ∀ p ∈ (s.step a).pending, P p.call := by
  intro q hq
  rcases s.step_cases a with he | ⟨c, rfl⟩ | ⟨i, p, _, hp, _, he⟩ | ⟨i, p, kv, _, _, _, _, he⟩ |
    ⟨i, p, done, _, _, _, _, he⟩ | ⟨rev, rfl⟩ | ⟨entries, rfl⟩
  · rw [he.pending] at hq
    exact h q hq
  · rcases List.mem_append.mp hq with hq | hq
    · exact h q hq
    · rw [List.mem_singleton.mp hq]
      exact ha c rfl
  · rw [he] at hq
    rcases List.mem_or_eq_of_mem_set hq with hq | rfl
    · exact h q hq
    · exact h p (List.mem_of_getElem? hp)
  · rw [he] at hq
    exact h q (List.mem_of_mem_eraseIdx hq)
  · rw [he] at hq
    exact h q (List.mem_of_mem_eraseIdx hq)
  · exact h q hq
  · exact h q hq

/-- A step adds at most one successful call. -/
theorem step_grows (s : Server) (a : Action) : s.successes <+: (s.step a).successes := by
  rcases s.step_cases a with he | ⟨c, rfl⟩ | ⟨i, p, _, _, _, he⟩ | ⟨i, p, kv, _, _, _, _, he⟩ |
    ⟨i, p, done, _, _, _, _, he⟩ | ⟨rev, rfl⟩ | ⟨entries, rfl⟩
  · rw [he.successes]
  · exact List.prefix_refl _
  · rw [he]
  · rw [he]
  · rw [he]
    exact List.prefix_append _ _
  · exact List.prefix_refl _
  · exact List.prefix_refl _

theorem perm_eraseIdx {α : Type} {l : List α} {i : ℕ} {x : α} (h : l[i]? = some x) :
    l.Perm (x :: l.eraseIdx i) := by
  obtain ⟨hlt, hget⟩ := List.getElem?_eq_some_iff.mp h
  rw [← hget]
  exact (List.getElem_cons_eraseIdx_perm hlt).symm

theorem mem_set_of_ne {α : Type} {l : List α} {i : ℕ} {x y : α} (h : l[i]? = some x) (x' : α)
    (hy : y ∈ l) (hne : y ≠ x) : y ∈ l.set i x' := by
  have hlt := (List.getElem?_eq_some_iff.mp h).1
  apply (List.set_perm_cons_eraseIdx hlt x').mem_iff.mpr
  have hmem := (perm_eraseIdx h).mem_iff.mp hy
  exact List.mem_cons_of_mem x' ((List.mem_cons.mp hmem).resolve_left hne)

/-! ### The indexes -/

/-- Calls under way hold the items of their keys, and an item that `prefix_map` does
not list has a call that will list it. -/
structure Tidy (s : Server) : Prop where
  heap : s.store.HeapOk
  owned : ∀ p ∈ s.pending, s.store.treeMap[p.call.key]? = some p.item
  indexed : ∀ k a, s.store.treeMap[k]? = some a →
    s.store.bucket? (prefixSplit k).1 (prefixSplit k).2 = some a ∨
      ∃ p ∈ s.pending, p.call.key = k ∧ p.listed = false

theorem tidy_of_wf {s : Server} (hs : s.store.WF) (hp : s.pending = []) : s.Tidy := by
  refine ⟨hs.toHeapOk, ?_, fun k a ha => Or.inl (hs.indexed k a ha)⟩
  intro p hmem
  rw [hp] at hmem
  contradiction

/-- Without a call that has still to list its item, the store is complete. -/
theorem Tidy.wf {s : Server} (h : s.Tidy) (hl : ∀ p ∈ s.pending, p.listed = true) :
    s.store.WF := by
  refine ⟨h.heap, fun k a ha => (h.indexed k a ha).resolve_right ?_⟩
  rintro ⟨p, hp, _, hfalse⟩
  rw [hl p hp] at hfalse
  contradiction

theorem Tidy.keyed {s : Server} (h : s.Tidy) :
    ∀ p ∈ s.pending, (s.store.deref p.item).key = p.call.key :=
  fun p hp => (h.heap.owned _ _ (h.owned p hp)).2

theorem Tidy.congr {s t : Server} (h : s.Tidy) (ht : t.store.HeapOk)
    (htree : t.store.treeMap = s.store.treeMap) (hbucket : t.store.bucket? = s.store.bucket?)
    (hp : t.pending = s.pending) : t.Tidy := by
  refine ⟨ht, ?_, ?_⟩
  · rw [hp, htree]
    exact h.owned
  · rw [hp, htree, hbucket]
    exact h.indexed

theorem Tidy.enter {s : Server} (h : s.Tidy) (c : Call) : (s.enter c).Tidy := by
  refine ⟨Store.entry_heapOk h.heap _, ?_, ?_⟩
  · intro p hp
    rcases List.mem_append.mp hp with hp | hp
    · exact Store.entry_treeMap_mono _ _ (h.owned p hp)
    · rw [List.mem_singleton.mp hp]
      exact Store.entry_owned s.store c.key
  · intro k a ha
    have hkeep : (∃ p ∈ s.pending, p.call.key = k ∧ p.listed = false) →
        ∃ p ∈ (s.enter c).pending, p.call.key = k ∧ p.listed = false :=
      fun ⟨p, hp, hlisted⟩ => ⟨p, List.mem_append_left _ hp, hlisted⟩
    change (s.store.entry c.key).1.treeMap[k]? = some a at ha
    change (s.store.entry c.key).1.bucket? _ _ = _ ∨ _
    rcases Store.entry_cases s.store c.key with ⟨b, _, he⟩ | ⟨_, he⟩
    · rw [he] at ha ⊢
      exact (h.indexed k a ha).imp_right hkeep
    · rw [he] at ha ⊢
      rw [getElem?_insert_bytes] at ha
      split_ifs at ha with hk
      · -- the new item is listed by the call itself
        refine Or.inr ⟨_, List.mem_append_right _ List.mem_cons_self, hk, ?_⟩
        change (!(s.store.entry c.key).2.2) = false
        rw [he]
        rfl
      · exact (h.indexed k a ha).imp_right hkeep

theorem Tidy.index {s : Server} (h : s.Tidy) {i : ℕ} {p : PendingCall}
    (hp : s.pending[i]? = some p) :
    Tidy { s with
      store := s.store.index p.call.key p.item
      pending := s.pending.set i { p with listed := true } } := by
  have hown := h.owned p (List.mem_of_getElem? hp)
  refine ⟨Store.index_heapOk h.heap hown, ?_, ?_⟩
  · intro q hq
    rcases List.mem_or_eq_of_mem_set hq with hq | rfl
    · exact h.owned q hq
    · exact hown
  · intro k a ha
    dsimp only
    rw [Store.bucket?_index]
    by_cases hk : p.call.key = k
    · rw [hk, if_pos rfl]
      rw [hk] at hown
      exact Or.inl (hown.symm.trans ha)
    · rw [if_neg (fun he => hk (prefixSplit_injective he))]
      refine (h.indexed k a ha).imp_right ?_
      rintro ⟨q, hq, hkq, hlisted⟩
      have hne : q ≠ p := fun e => hk (e ▸ hkq)
      exact ⟨q, mem_set_of_ne hp _ hq hne, hkq, hlisted⟩

/-- A call that has listed its item is done, and its section keeps the indexes. -/
theorem Tidy.unlock {s t : Server} (h : s.Tidy) {i : ℕ} {p : PendingCall}
    (hp : s.pending[i]? = some p) (hl : p.listed = true) (ht : t.store.HeapOk)
    (htree : t.store.treeMap = s.store.treeMap) (hbucket : t.store.bucket? = s.store.bucket?)
    (hpending : t.pending = s.pending.eraseIdx i) : t.Tidy := by
  refine ⟨ht, ?_, ?_⟩
  · intro q hq
    rw [hpending] at hq
    rw [htree]
    exact h.owned q (List.mem_of_mem_eraseIdx hq)
  · intro k a ha
    rw [htree] at ha
    rw [hbucket, hpending]
    refine (h.indexed k a ha).imp_right ?_
    rintro ⟨q, hq, hkq, hlisted⟩
    have hmem := (perm_eraseIdx hp).mem_iff.mp hq
    refine ⟨q, (List.mem_cons.mp hmem).resolve_left ?_, hkq, hlisted⟩
    rintro rfl
    rw [hl] at hlisted
    contradiction

theorem Tidy.step {s : Server} (h : s.Tidy) {a : Action}
    (ha : ∀ entries, a ≠ .importSnapshot entries) : (s.step a).Tidy := by
  rcases s.step_cases a with he | ⟨c, rfl⟩ | ⟨i, p, _, hp, _, he⟩ | ⟨i, p, kv, _, hp, hl, _, he⟩ |
    ⟨i, p, done, _, hp, hl, _, he⟩ | ⟨rev, rfl⟩ | ⟨entries, rfl⟩
  · exact h.congr (he.data.heapOk h.heap) he.data.treeMap he.data.bucket? he.pending
  · exact h.enter c
  · rw [he]
    exact h.index hp
  · rw [he]
    exact h.unlock hp hl h.heap rfl rfl rfl
  · have hown := h.owned p (List.mem_of_getElem? hp)
    rw [he]
    exact h.unlock hp hl (Store.locked_heapOk h.heap hown _ _ _) (Store.locked_treeMap ..)
      (Store.locked_bucket? ..) rfl
  · refine h.congr (Store.compact_heapOk h.heap rev) (Store.compact_treeMap s.store rev) ?_ rfl
    funext p t
    exact Store.compact_bucket? s.store rev p t
  · exact absurd rfl (ha entries)

end Server
end MemEtcd
