import MemEtcd.ConcurrentRange
import MemEtcd.WatchExactly

/-! A list beside a watch session. It reads the revision, takes its bucket and reads one
item after the other, while other threads go on. What it reports of a key is the value at
the revision it has read, whatever is written in the meantime. It can miss a key only if
that key is written during the list, and its older value is compacted. -/
namespace MemEtcd

open VersionLog (cells revisionsOf)

/-! ### What a list says -/

def listed (kvs : List KeyValue) (k : Bytes) : Option KeyValue :=
  kvs.find? (fun kv => kv.key = k)

theorem listed_of_mem {kvs : List KeyValue} (h : kvs.Pairwise (fun a b => a.key < b.key))
    {kv : KeyValue} (hkv : kv ∈ kvs) : listed kvs kv.key = some kv := by
  unfold listed
  induction kvs with
  | nil => exact absurd hkv List.not_mem_nil
  | cons x kvs ih =>
    obtain ⟨hx, h⟩ := List.pairwise_cons.mp h
    rcases List.mem_cons.mp hkv with rfl | hkv
    · exact List.find?_cons_of_pos (decide_eq_true rfl)
    · rw [List.find?_cons_of_neg]
      · exact ih h hkv
      · intro hkey
        have hlt := hx kv hkv
        rw [of_decide_eq_true hkey] at hlt
        exact List.lt_irrefl _ hlt

theorem listed_eq_none {kvs : List KeyValue} {k : Bytes} (h : ∀ kv ∈ kvs, kv.key ≠ k) :
    listed kvs k = none := by
  apply List.find?_eq_none.mpr
  intro kv hkv
  simpa using h kv hkv

/-- The part of the history that a range shows of the first `n` changes. -/
def WatchCreateRequest.shownAt (req : WatchCreateRequest) (log : History) (n : ℕ) (k : Bytes) :
    Option KeyValue :=
  if req.names k then (cells (log.take n) k).live.map (fun v => asMvccKeyValue v k) else none

theorem key_of_shownAt {req : WatchCreateRequest} {log : History} {n : ℕ} {k : Bytes}
    {kv : KeyValue} (h : req.shownAt log n k = some kv) : kv.key = k := by
  unfold WatchCreateRequest.shownAt at h
  split_ifs at h
  obtain ⟨v, _, rfl⟩ := Option.map_eq_some_iff.mp h
  rfl

theorem names_of_shownAt {req : WatchCreateRequest} {log : History} {n : ℕ} {k : Bytes}
    {kv : KeyValue} (h : req.shownAt log n k = some kv) : req.names k := by
  unfold WatchCreateRequest.shownAt at h
  split_ifs at h with hname
  exact hname

/-- Later changes do not matter. -/
theorem shownAt_of_grown {s t : Server} (h : s.successes <+: t.successes) {n : ℕ}
    (hn : n ≤ s.successes.length) (req : WatchCreateRequest) :
    req.shownAt (t.writes.map Write.change) n = req.shownAt (s.writes.map Write.change) n := by
  obtain ⟨more, hmore⟩ := h
  have hlen : (s.writes.map Write.change).length = s.successes.length := by
    rw [List.length_map, Server.writes, List.length_map]
  have hwrites : t.writes.map Write.change =
      s.writes.map Write.change ++ (more.map Committed.write).map Write.change := by
    unfold Server.writes
    rw [← hmore, List.map_append, List.map_append]
  funext k
  unfold WatchCreateRequest.shownAt
  rw [hwrites, List.take_append_of_le_length (hlen ▸ hn)]

theorem success_of_revision {s : Server} (h : s.Chronicled) {k : Bytes} {r : ℤ}
    (hr : r ∈ revisionsOf (s.writes.map Write.change) k) :
    ∃ c ∈ s.successes, c.key = k ∧ c.newRev = r := by
  obtain ⟨w, hw, hrev, hkey⟩ := h.tracked.write_of_revision hr
  obtain ⟨c, hc, rfl⟩ := List.mem_map.mp hw
  exact ⟨c, hc, hkey, hrev⟩

/-- What a read of a key at a past revision finds. The value may be gone if the key has
changed since. -/
theorem liveAt_past {s : Server} (h : s.Chronicled) (k : Bytes) (n : ℕ) :
    s.store.liveAt (s.store.view k) n = (cells ((s.writes.map Write.change).take n) k).live ∨
      s.store.liveAt (s.store.view k) n = none ∧ ∃ c ∈ s.successes, c.key = k ∧ n < c.newRev := by
  rw [h.tracked.represents.liveAt_eq]
  split_ifs with hkept
  · exact Or.inl rfl
  · right
    have hlater : (n : ℤ) < (cells (s.writes.map Write.change) k).modRevision :=
      not_le.mp (fun hle => hkept (Or.inl hle))
    have hmem := (VersionLog.modRevision_take_mem (s.writes.map Write.change) k
      (s.writes.map Write.change).length (by rw [List.take_length]; omega)).1
    rw [List.take_length] at hmem
    obtain ⟨c, hc, hkey, hrev⟩ := success_of_revision h hmem
    exact ⟨rfl, c, hc, hkey, hrev ▸ hlater⟩

/-! ### The list and the other threads -/

/-- A list at revision `n` has collected `kvs` and has the keys `left` ahead of it. A key
that it has missed has changed since. -/
structure Collects (s : Server) (req : WatchCreateRequest) (n : ℕ) (left : List Bytes)
    (kvs : List KeyValue) : Prop where
  past : n ≤ s.successes.length
  sorted : (kvs.map KeyValue.key ++ left).Pairwise (· < ·)
  sound : ∀ kv ∈ kvs, req.shownAt (s.writes.map Write.change) n kv.key = some kv
  complete : ∀ k kv, req.shownAt (s.writes.map Write.change) n k = some kv →
    kv ∈ kvs ∨ k ∈ left ∨ ∃ c ∈ s.successes, c.key = k ∧ n < c.newRev

def Listing (s : Server) (req : WatchCreateRequest) : RangePhase → Prop
  | .idle => True
  | .started rev => ∃ n : ℕ, rev = n ∧ n ≤ s.successes.length
  | .scanning rev pfx rest results _ => ∃ n : ℕ, rev = n ∧
      (∀ e ∈ rest, s.store.treeMap[pfx ++ e.1]? = some e.2 ∧ req.names (pfx ++ e.1)) ∧
      Collects s req n (rest.map (fun e => pfx ++ e.1)) results
  | .returned res => ∀ r, res = .ok r → ∃ n : ℕ, r.latestRev = n ∧ Collects s req n [] r.kvs

theorem Collects.later {s t : Server} {req : WatchCreateRequest} {n : ℕ} {left : List Bytes}
    {kvs : List KeyValue} (h : Collects s req n left kvs) (hgrows : s.successes <+: t.successes) :
    Collects t req n left kvs := by
  refine ⟨h.past.trans hgrows.length_le, h.sorted, ?_, ?_⟩
  · rw [shownAt_of_grown hgrows h.past]
    exact h.sound
  · rw [shownAt_of_grown hgrows h.past]
    intro k kv hkv
    rcases h.complete k kv hkv with hin | hleft | ⟨c, hc, hchanged⟩
    · exact Or.inl hin
    · exact Or.inr (Or.inl hleft)
    · exact Or.inr (Or.inr ⟨c, hgrows.subset hc, hchanged⟩)

theorem Listing.later {s t : Server} {req : WatchCreateRequest} {phase : RangePhase}
    (h : Listing s req phase) (hgrows : s.successes <+: t.successes)
    (htree : ∀ (k : Bytes) (a : ℕ), s.store.treeMap[k]? = some a →
      t.store.treeMap[k]? = some a) : Listing t req phase := by
  cases phase with
  | idle => trivial
  | started rev =>
    obtain ⟨n, hrev, hn⟩ := h
    exact ⟨n, hrev, hn.trans hgrows.length_le⟩
  | scanning rev pfx rest results count =>
    obtain ⟨n, hrev, hentry, hcollects⟩ := h
    refine ⟨n, hrev, ?_, hcollects.later hgrows⟩
    intro e he
    exact (hentry e he).imp_left (htree _ _)
  | returned res =>
    intro r hr
    obtain ⟨n, hrev, hcollects⟩ := h r hr
    exact ⟨n, hrev, hcollects.later hgrows⟩

/-- The list takes its bucket, where the keys of all changes up to its revision are
listed. -/
theorem Listing.bucket {s : Server} (h : s.Chronicled) {req : WatchCreateRequest}
    (hreg : req.Regular) {n : ℕ} (hn : n ≤ s.successes.length)
    (hlisted : ∀ c ∈ s.unlisted, req.names c.key → n < c.newRev) :
    Listing s req (s.store.rangeBucket req.key req.rangeEnd n) := by
  unfold Store.rangeBucket
  cases ha : prefixAndRangeOfKey req.key req.rangeEnd with
  | error e => rintro r ⟨⟩
  | ok acc =>
    obtain ⟨pfx, lo, hi⟩ := acc
    have hselects (k : Bytes) : selects pfx lo hi k ↔ req.names k := by
      rw [← hreg.requests_iff ha, requests_of_accepted ha]
    have hcollects : Collects s req n ((s.store.selected pfx lo hi).map (fun e => pfx ++ e.1))
        [] := by
      refine ⟨hn, ?_, fun kv hkv => absurd hkv List.not_mem_nil, ?_⟩
      · rw [List.map_nil, List.nil_append, List.pairwise_map]
        apply (s.store.selected_sorted pfx lo hi).imp
        intro e e' hlt
        exact (LexInterval.append_lt_append_iff pfx e.1 e'.1).mpr hlt
      · intro k kv hkv
        -- the change that has left this value is listed
        unfold WatchCreateRequest.shownAt at hkv
        split_ifs at hkv with hname
        obtain ⟨v, hv, _⟩ := Option.map_eq_some_iff.mp hkv
        have hmod : (cells ((s.writes.map Write.change).take n) k).modRevision ≠ 0 := by
          intro hzero
          rw [VersionLog.cells_of_modRevision_zero _ k hzero] at hv
          contradiction
        obtain ⟨hmem, hle⟩ := VersionLog.modRevision_take_mem (s.writes.map Write.change) k n hmod
        obtain ⟨c, hc, rfl, hrev⟩ := success_of_revision h hmem
        have hsel := (hselects c.key).mpr hname
        obtain ⟨a, _, hbucket⟩ := h.listed hc (fun hun => by
          have hlt := hlisted c hun hname
          omega)
        refine Or.inr (Or.inl (List.mem_map.mpr ⟨_, Store.selected_of_listed hsel hbucket, ?_⟩))
        rw [← hsel.1]
        exact prefixSplit_append c.key
    dsimp only
    cases hb : s.store.prefixMap[pfx]? with
    | none =>
      rw [Store.selected_of_no_bucket hb] at hcollects
      rintro r ⟨⟩
      exact ⟨n, rfl, hcollects⟩
    | some btree =>
      dsimp only
      unfold btreeRange
      split_ifs with hinv
      · rintro r ⟨⟩
      · rw [← Store.selected_of_bucket hb]
        refine ⟨n, rfl, ?_, hcollects⟩
        intro e he
        obtain ⟨howned, hsel⟩ := Store.deref_selected h.tidy.heap he
        exact ⟨howned, (hselects _).mp hsel⟩

/-- The next key is read. -/
theorem Collects.read {s : Server} {req : WatchCreateRequest} {n : ℕ} {k : Bytes}
    {left : List Bytes} {kvs : List KeyValue} (h : Collects s req n (k :: left) kvs)
    {found : Option KeyValue}
    (hfound : found = req.shownAt (s.writes.map Write.change) n k ∨
      found = none ∧ ∃ c ∈ s.successes, c.key = k ∧ n < c.newRev) :
    Collects s req n left (kvs ++ found.toList) := by
  have hsorted := h.sorted
  refine ⟨h.past, ?_, ?_, ?_⟩
  · cases found with
    | none =>
      rw [Option.toList_none, List.append_nil]
      exact hsorted.sublist ((List.sublist_cons_self _ _).append_left _)
    | some kv =>
      have hkey : kv.key = k :=
        key_of_shownAt (hfound.resolve_right (fun hno => nomatch hno.1)).symm
      rw [Option.toList_some, List.map_append, List.map_singleton, hkey, List.append_assoc]
      exact hsorted
  · intro kv hkv
    rcases List.mem_append.mp hkv with hkv | hkv
    · exact h.sound kv hkv
    · rw [Option.mem_toList] at hkv
      rw [hkv] at hfound
      have hshown := (hfound.resolve_right (fun hno => nomatch hno.1)).symm
      rw [key_of_shownAt hshown]
      exact hshown
  · intro k' kv hkv
    rcases h.complete k' kv hkv with hin | hleft | hchanged
    · exact Or.inl (List.mem_append_left _ hin)
    · rcases List.mem_cons.mp hleft with rfl | hleft
      · rcases hfound with hfound | ⟨_, hchanged⟩
        · rw [hfound, hkv]
          exact Or.inl (List.mem_append_right _ (List.mem_singleton_self _))
        · exact Or.inr (Or.inr hchanged)
      · exact Or.inr (Or.inl hleft)
    · exact Or.inr (Or.inr hchanged)

/-- The list reads the next item, or is done. -/
theorem Listing.item {s : Server} (h : s.Chronicled) {req : WatchCreateRequest} {rev : ℤ}
    {pfx : Bytes} {rest : List (Bytes × ℕ)} {results : List KeyValue} {count : ℕ}
    (hl : Listing s req (.scanning rev pfx rest results count)) :
    Listing s req (s.store.rangeItem rev pfx results count rest) := by
  obtain ⟨n, rfl, hentry, hcollects⟩ := hl
  cases rest with
  | nil =>
    rintro r ⟨⟩
    exact ⟨n, rfl, hcollects⟩
  | cons e rest =>
    unfold Store.rangeItem
    dsimp only
    by_cases hpos : (0 : ℤ) < n
    · obtain ⟨howned, hname⟩ := hentry e List.mem_cons_self
      have hone : s.store.scanned n pfx [e] = ((s.store.liveAt (s.store.view (pfx ++ e.1)) n).map
          (fun v => asMvccKeyValue v (pfx ++ e.1))).toList := by
        rw [Store.view_of_owned howned]
        exact (s.store.scanned_cons n pfx e.1 e.2 []).trans (List.append_nil _)
      rw [Store.scan_unlimited _ hpos, hone]
      refine ⟨n, rfl, fun e' he' => hentry e' (List.mem_cons_of_mem e he'), hcollects.read ?_⟩
      unfold WatchCreateRequest.shownAt
      rw [if_pos hname]
      rcases liveAt_past h (pfx ++ e.1) n with hlive | ⟨hlive, hchanged⟩
      · rw [hlive]
        exact Or.inl rfl
      · rw [hlive]
        exact Or.inr ⟨rfl, hchanged⟩
    · -- at revision 0 the assertion of the store fails
      rw [Store.scan_nonpos _ (not_lt.mp hpos), if_neg (List.cons_ne_nil _ _)]
      rintro r ⟨⟩

/-- What a finished list says of a key is the history up to its revision, or the key has
changed since. -/
theorem Collects.listed_eq {s : Server} {req : WatchCreateRequest} {n : ℕ} {kvs : List KeyValue}
    (h : Collects s req n [] kvs) (k : Bytes) :
    listed kvs k = req.shownAt (s.writes.map Write.change) n k ∨
      req.names k ∧ ∃ c ∈ s.successes, c.key = k ∧ n < c.newRev := by
  have hsorted := h.sorted
  rw [List.append_nil, List.pairwise_map] at hsorted
  cases hshown : req.shownAt (s.writes.map Write.change) n k with
  | none =>
    left
    apply listed_eq_none
    intro kv hkv hkey
    have hsound := h.sound kv hkv
    rw [hkey, hshown] at hsound
    contradiction
  | some kv =>
    rcases h.complete k kv hshown with hin | hleft | hchanged
    · left
      rw [← key_of_shownAt hshown]
      exact listed_of_mem hsorted hin
    · exact absurd hleft List.not_mem_nil
    · exact Or.inr ⟨names_of_shownAt hshown, hchanged⟩

end MemEtcd
