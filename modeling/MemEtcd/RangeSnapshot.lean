import MemEtcd.ConcurrentRange
import MemEtcd.Linearizable

/-! When a current `range` among concurrent calls returns a consistent snapshot. The
values it finds are those at the revision it has read, whatever is written during the
scan; the keys it finds are those that `prefix_map` lists when it takes its bucket. -/
namespace MemEtcd

/-! ### Items and values that a `range` finds -/

namespace Concurrent

variable {calls : ℕ → Call}

theorem step_treeMap_mono {c c' : Concurrent} {a : SetAction} (h : c.step calls a = some c')
    {k : Bytes} {b : ℕ} (hb : c.store.treeMap[k]? = some b) : c'.store.treeMap[k]? = some b := by
  rcases step_cases h with ⟨i, _, _, rfl⟩ | ⟨i, rev, _, _, rfl⟩ | ⟨i, rev, b', _, _, rfl⟩ |
    ⟨i, rev, b', isNew, _, _, rfl⟩ | ⟨i, rev, res, _, _, rfl⟩
  · exact hb
  · exact Store.entry_treeMap_mono _ _ hb
  · exact hb
  · dsimp only
    rw [Store.locked_treeMap]
    exact hb
  · dsimp only
    rw [Store.finish_treeMap]
    exact hb

variable {s₀ : Store} {log₀ : History} {trace : List SetAction} {c : Concurrent}

theorem Consistent.represents (h : c.Consistent calls s₀ trace) (hs : s₀.WF)
    (hrep : s₀.Represents log₀) :
    c.store.Represents (logCalls log₀ ((sections trace).map calls)) ∧
      c.store.valuesByRevision.earliestRevision = s₀.valuesByRevision.earliestRevision := by
  obtain ⟨_, hr, he⟩ := Store.run_represents hs hrep ((sections trace).map calls)
  refine ⟨hr.congr h.linearized.view h.linearized.values, ?_⟩
  rw [h.linearized.values]
  exact he

/-- A later read at an earlier current revision finds the values of that time. -/
theorem Consistent.liveAt_eq (h : c.Consistent calls s₀ trace) (hs : s₀.WF)
    (hrep : s₀.Represents log₀) (h0 : s₀.valuesByRevision.earliestRevision = 0)
    {later : List SetAction} {c' : Concurrent} (h' : c'.Consistent calls s₀ (trace ++ later))
    (k : Bytes) : c'.store.liveAt (c'.store.view k) c.store.currentRevision = c.store.live k := by
  obtain ⟨hlog, _⟩ := h.represents hs hrep
  obtain ⟨hlog', he'⟩ := h'.represents hs hrep
  have hsections : sections (trace ++ later) = sections trace ++ sections later :=
    List.filterMap_append
  have hextends : logCalls log₀ ((sections trace).map calls) <+:
      logCalls log₀ ((sections (trace ++ later)).map calls) := by
    rw [hsections, List.map_append]
    unfold logCalls
    rw [List.foldl_append]
    exact logCalls_extends _ _
  rw [hlog.currentRevision_eq, hlog'.liveAt_uncompacted (he'.trans h0), hlog.live_eq,
    ← List.prefix_iff_eq_take.mp hextends]

/-- A call that has returned is in force or superseded. -/
theorem Consistent.superseded (h : c.Consistent calls s₀ trace) (hs : s₀.Coherent) {i : ℕ}
    {rev : ℤ} (hi : (c.phases i).outcome = some (.ok rev)) :
    rev ≤ (c.store.view (calls i).key).latestValue.modRevision := by
  have hmem : i ∈ sections trace := (h.linearized.committed i).mpr (by rw [hi]; rfl)
  have hpair := List.mem_map_of_mem (f := fun i => (calls i, (c.phases i).outcome)) hmem
  rw [h.linearized.zip_eq, List.mem_map] at hpair
  obtain ⟨⟨call, res⟩, hp, he⟩ := hpair
  have hcall : call = calls i := congrArg Prod.fst he
  have hres : some res = some (.ok rev) := (congrArg Prod.snd he).trans hi
  have hle := Store.results_superseded hs _ _ hp rev (Option.some.inj hres)
  rw [h.linearized.view, ← hcall]
  exact hle

end Concurrent

/-! ### Snapshots -/

def kvOf (past : Bytes → Option Value) (pfx : Bytes) (e : Bytes × ℕ) : Option KeyValue :=
  (past (pfx ++ e.1)).map (fun v => asMvccKeyValue v (pfx ++ e.1))

/-- The key-values of exactly the selected keys that have a value, by ascending
key. -/
structure IsSnapshot (past : Bytes → Option Value) (pfx : Bytes) (lo hi : Bound Bytes)
    (kvs : List KeyValue) : Prop where
  sorted : kvs.Pairwise (fun a b => a.key < b.key)
  mem : ∀ kv, kv ∈ kvs ↔ ∃ k v, selects pfx lo hi k ∧ past k = some v ∧ kv = asMvccKeyValue v k

/-- The entries of a bucket give a snapshot exactly if every selected key that
has a value is listed. -/
theorem isSnapshot_selected_iff {s : Store} (hs : s.HeapOk) (past : Bytes → Option Value)
    (pfx : Bytes) (lo hi : Bound Bytes) :
    IsSnapshot past pfx lo hi ((s.selected pfx lo hi).filterMap (kvOf past pfx)) ↔
      ∀ k, selects pfx lo hi k → (past k).isSome →
        (s.bucket? (prefixSplit k).1 (prefixSplit k).2).isSome := by
  constructor
  · intro h k hk hv
    obtain ⟨v, hv⟩ := Option.isSome_iff_exists.mp hv
    obtain ⟨⟨t, a⟩, he, hkv⟩ := List.mem_filterMap.mp ((h.mem _).mpr ⟨k, v, hk, hv, rfl⟩)
    obtain ⟨w, _, hw⟩ := Option.map_eq_some_iff.mp hkv
    have hkey : pfx ++ t = (prefixSplit k).1 ++ (prefixSplit k).2 := by
      rw [prefixSplit_append]
      exact congrArg KeyValue.key hw
    rw [hk.1] at hkey ⊢
    rw [← List.append_cancel_left hkey, ((Store.mem_selected s pfx lo hi t a).mp he).1]
    rfl
  · intro h
    refine ⟨?_, ?_⟩
    · exact Store.keyValues_sorted (fun e => past (pfx ++ e.1)) pfx (s.selected_sorted pfx lo hi)
    · intro kv
      rw [List.mem_filterMap]
      constructor
      · rintro ⟨⟨t, a⟩, he, hkv⟩
        obtain ⟨v, hv, rfl⟩ := Option.map_eq_some_iff.mp hkv
        obtain ⟨hb, hlo, hhi⟩ := (Store.mem_selected s pfx lo hi t a).mp he
        obtain ⟨k, hk, _⟩ := hs.listed pfx t a hb
        have hkey : pfx ++ t = k := by rw [← prefixSplit_append k, hk]
        refine ⟨k, v, ⟨by rw [hk], by rw [hk]; exact hlo, by rw [hk]; exact hhi⟩, ?_, by rw [hkey]⟩
        rw [← hkey]
        exact hv
      · rintro ⟨k, v, hk, hv, rfl⟩
        obtain ⟨a, ha⟩ := Option.isSome_iff_exists.mp (h k hk (by rw [hv]; rfl))
        have hkey := prefixSplit_append k
        rw [hk.1] at ha hkey
        refine ⟨((prefixSplit k).2, a), ?_, ?_⟩
        · exact (Store.mem_selected s pfx lo hi _ a).mpr ⟨ha, hk.2⟩
        · unfold kvOf
          rw [hkey, hv]
          rfl

/-! ### The scan -/

/-- A scan of `entries` that finds the values of the keys at `latestRev`. -/
def Progress (past : Bytes → Option Value) (latestRev : ℤ) (pfx : Bytes)
    (entries : List (Bytes × ℕ)) : RangePhase → Prop
  | .scanning rev p rest results count => rev = latestRev ∧ p = pfx ∧ rest ⊆ entries ∧
    results ++ rest.filterMap (kvOf past pfx) = entries.filterMap (kvOf past pfx) ∧
    count = results.length
  | .returned res => res = .ok ⟨entries.filterMap (kvOf past pfx), latestRev,
    (entries.filterMap (kvOf past pfx)).length⟩
  | _ => False

/-- The `range` has read the revision `rev`. -/
def Begun (rev : ℤ) : RangePhase → Prop
  | .idle => False
  | .started latestRev => latestRev = rev
  | _ => True

namespace Store

variable {start endKey pfx : Bytes} {lo hi : Bound Bytes} {past : Bytes → Option Value}

theorem rangeBucket_eq (s : Store) (latestRev : ℤ)
    (ha : prefixAndRangeOfKey start endKey = .ok (pfx, lo, hi))
    (hinv : Bound.inverted lo hi = false) :
    s.rangeBucket start endKey latestRev =
      if (s.prefixMap[pfx]?).isSome then .scanning latestRev pfx (s.selected pfx lo hi) [] 0
      else .returned (.ok ⟨[], latestRev, 0⟩) := by
  unfold rangeBucket
  simp only [ha]
  cases hb : s.prefixMap[pfx]? with
  | none => rfl
  | some btree =>
    rw [selected_of_bucket hb]
    simp only [btreeRange, hinv]
    rfl

theorem rangeBucket_progress (s : Store) (latestRev : ℤ)
    (ha : prefixAndRangeOfKey start endKey = .ok (pfx, lo, hi))
    (hinv : Bound.inverted lo hi = false) :
    Progress past latestRev pfx (s.selected pfx lo hi) (s.rangeBucket start endKey latestRev) := by
  rw [s.rangeBucket_eq latestRev ha hinv]
  cases hb : s.prefixMap[pfx]? with
  | none =>
    rw [selected_of_no_bucket hb]
    rfl
  | some btree => exact ⟨rfl, rfl, List.Subset.refl _, rfl, rfl⟩

/-- A round of the loop reads its item at `latestRev`. -/
theorem rangeItem_progress {s : Store} {latestRev : ℤ} {entries : List (Bytes × ℕ)}
    (hpos : 0 < latestRev ∨ entries = [])
    (hfind : ∀ e ∈ entries, s.liveAt (s.deref e.2) latestRev = past (pfx ++ e.1))
    {rev : ℤ} {p : Bytes} {rest : List (Bytes × ℕ)} {results : List KeyValue} {count : ℕ}
    (h : Progress past latestRev pfx entries (.scanning rev p rest results count)) :
    Progress past latestRev pfx entries (s.rangeItem rev p results count rest) := by
  obtain ⟨rfl, rfl, hsub, hres, hcount⟩ := h
  cases rest with
  | nil =>
    rw [List.filterMap_nil, List.append_nil] at hres
    unfold rangeItem
    rw [hcount, hres]
    rfl
  | cons e rest =>
    have he : e ∈ entries := hsub List.mem_cons_self
    have hrev : 0 < rev := hpos.resolve_right (List.ne_nil_of_mem he)
    have hone : s.scanned rev p [e] = [e].filterMap (kvOf past p) := by
      unfold scanned kvOf
      rw [List.filterMap_cons, List.filterMap_cons, hfind e he]
      rfl
    simp only [rangeItem, scan_unlimited s hrev, hone]
    refine ⟨rfl, rfl, fun x hx => hsub (List.mem_cons_of_mem e hx), ?_, ?_⟩
    · rw [List.append_assoc, ← List.filterMap_append]
      exact hres
    · rw [hcount, List.length_append]

theorem rangeItem_zero (s : Store) (pfx : Bytes) (e : Bytes × ℕ) (rest : List (Bytes × ℕ))
    (results : List KeyValue) (count : ℕ) :
    s.rangeItem 0 pfx results count (e :: rest) =
      .returned (.error (.panic .revisionAssertion)) := by
  simp only [rangeItem, scan_nonpos s (le_refl 0)]
  rfl

theorem rangeBucket_begun (s : Store) (start endKey : Bytes) (latestRev rev : ℤ) :
    Begun rev (s.rangeBucket start endKey latestRev) := by
  unfold rangeBucket
  split
  · trivial
  · split
    · trivial
    · split <;> trivial

theorem rangeItem_begun (s : Store) (latestRev : ℤ) (pfx : Bytes) (results : List KeyValue)
    (count : ℕ) (rest : List (Bytes × ℕ)) (rev : ℤ) :
    Begun rev (s.rangeItem latestRev pfx results count rest) := by
  cases rest with
  | nil => trivial
  | cons e rest =>
    unfold rangeItem
    dsimp only
    split <;> trivial

end Store

namespace Reading

variable {calls : ℕ → Call} {start endKey pfx : Bytes} {lo hi : Bound Bytes} {s₀ : Store}
  {log₀ : History} {trace : List SetAction} {c : Concurrent}

/-- A `range` that has read the revision of `c` and scans `entries`, among the later
steps of the calls. -/
structure Scanning (calls : ℕ → Call) (s₀ : Store) (trace : List SetAction) (c : Concurrent)
    (pfx : Bytes) (entries : List (Bytes × ℕ)) (r : Reading) : Prop where
  consistent : ∃ later, r.writers.Consistent calls s₀ (trace ++ later)
  owned : ∀ e ∈ entries, r.store.treeMap[pfx ++ e.1]? = some e.2
  progress : Progress c.store.live c.store.currentRevision pfx entries r.range

theorem step_scanning (hs : s₀.WF) (hrep : s₀.Represents log₀)
    (h0 : s₀.valuesByRevision.earliestRevision = 0) (hc : c.Consistent calls s₀ trace)
    {entries : List (Bytes × ℕ)} (hpos : 0 < c.store.currentRevision ∨ entries = [])
    {r r' : Reading} {a : RangeAction} (h : r.Scanning calls s₀ trace c pfx entries)
    (hstep : r.step calls start endKey a = some r') :
    r'.Scanning calls s₀ trace c pfx entries := by
  obtain ⟨⟨later, hcons⟩, howned, hprogress⟩ := h
  cases a with
  | write a =>
    obtain ⟨w, hw, rfl⟩ := step_write hstep
    refine ⟨⟨later ++ [a], ?_⟩, ?_, hprogress⟩
    · rw [← List.append_assoc]
      apply Concurrent.run_consistent hs hcons
      exact step_writers hstep
    · intro e he
      exact Concurrent.step_treeMap_mono hw (howned e he)
  | revision =>
    obtain ⟨hidle, _⟩ := step_revision hstep
    rw [hidle] at hprogress
    exact hprogress.elim
  | bucket =>
    obtain ⟨rev, hstarted, _⟩ := step_bucket hstep
    rw [hstarted] at hprogress
    exact hprogress.elim
  | item =>
    obtain ⟨rev, p, rest, results, count, hphase, rfl⟩ := step_item hstep
    rw [hphase] at hprogress
    -- whatever has been written since, the item still shows its value at the revision read
    refine ⟨⟨later, hcons⟩, howned, Store.rangeItem_progress hpos ?_ hprogress⟩
    intro e he
    rw [← hc.liveAt_eq hs hrep h0 hcons, ← Store.view_of_owned (howned e he)]
    rfl

theorem step_returned {res : Except Fault RangeResult} {r r' : Reading} {a : RangeAction}
    (h : r.range = .returned res) (hstep : r.step calls start endKey a = some r') :
    r'.range = .returned res := by
  cases a with
  | write a =>
    obtain ⟨w, _, rfl⟩ := step_write hstep
    exact h
  | revision =>
    rw [(step_revision hstep).1] at h
    contradiction
  | bucket =>
    obtain ⟨_, hstarted, _⟩ := step_bucket hstep
    rw [hstarted] at h
    contradiction
  | item =>
    obtain ⟨_, _, _, _, _, hphase, _⟩ := step_item hstep
    rw [hphase] at h
    contradiction

/-- At revision zero a scan with an item to read ends in the assertion. -/
def Failing (pfx : Bytes) (e : Bytes × ℕ) (rest : List (Bytes × ℕ)) (r : Reading) : Prop :=
  r.range = .scanning 0 pfx (e :: rest) [] 0 ∨
    r.range = .returned (.error (.panic .revisionAssertion))

theorem step_failing {e : Bytes × ℕ} {rest : List (Bytes × ℕ)} {r r' : Reading} {a : RangeAction}
    (h : r.Failing pfx e rest) (hstep : r.step calls start endKey a = some r') :
    r'.Failing pfx e rest := by
  rcases h with h | h
  · cases a with
    | write a =>
      obtain ⟨w, _, rfl⟩ := step_write hstep
      exact Or.inl h
    | revision =>
      rw [(step_revision hstep).1] at h
      contradiction
    | bucket =>
      obtain ⟨_, hstarted, _⟩ := step_bucket hstep
      rw [hstarted] at h
      contradiction
    | item =>
      -- the first round reads an item, at revision zero
      obtain ⟨rev, p, left, results, count, hphase, rfl⟩ := step_item hstep
      rw [hphase] at h
      cases h
      exact Or.inr (Store.rangeItem_zero r.store pfx e rest [] 0)
  · exact Or.inr (step_returned h hstep)

theorem step_begun {rev : ℤ} {r r' : Reading} {a : RangeAction} (h : Begun rev r.range)
    (hstep : r.step calls start endKey a = some r') : Begun rev r'.range := by
  cases a with
  | write a =>
    obtain ⟨w, _, rfl⟩ := step_write hstep
    exact h
  | revision =>
    rw [(step_revision hstep).1] at h
    exact h.elim
  | bucket =>
    obtain ⟨_, _, rfl⟩ := step_bucket hstep
    exact Store.rangeBucket_begun ..
  | item =>
    obtain ⟨_, _, _, _, _, _, rfl⟩ := step_item hstep
    exact Store.rangeItem_begun ..

theorem step_owned {k : Bytes} {b : ℕ} {r r' : Reading} {a : RangeAction}
    (h : r.store.treeMap[k]? = some b) (hstep : r.step calls start endKey a = some r') :
    r'.store.treeMap[k]? = some b := by
  cases a with
  | write a =>
    obtain ⟨w, hw, rfl⟩ := step_write hstep
    exact Concurrent.step_treeMap_mono hw h
  | revision =>
    obtain ⟨_, rfl⟩ := step_revision hstep
    exact h
  | bucket =>
    obtain ⟨_, _, rfl⟩ := step_bucket hstep
    exact h
  | item =>
    obtain ⟨_, _, _, _, _, _, rfl⟩ := step_item hstep
    exact h

/-! ### The returned key-values -/

theorem run_consistent (hs : s₀.WF) {t : List RangeAction} {r : Reading}
    (h : (init s₀).run calls start endKey t = some r) :
    r.writers.Consistent calls s₀ (writes t) :=
  Concurrent.run_consistent hs (Concurrent.start_consistent hs) (run_writers h)

theorem scan_outcome (hs : s₀.WF) (hrep : s₀.Represents log₀)
    (h0 : s₀.valuesByRevision.earliestRevision = 0) (hc : c.Consistent calls s₀ trace)
    {r r' : Reading} {later : List SetAction} {t : List RangeAction}
    {res : Except Fault RangeResult} (hr : r.writers.Consistent calls s₀ (trace ++ later))
    (ha : prefixAndRangeOfKey start endKey = .ok (pfx, lo, hi))
    (hinv : Bound.inverted lo hi = false)
    (hbucket : r.range = r.store.rangeBucket start endKey c.store.currentRevision)
    (hrun : r.run calls start endKey t = some r') (hres : r'.range = .returned res) :
    res = if 0 < c.store.currentRevision ∨ r.store.selected pfx lo hi = [] then
        .ok ⟨(r.store.selected pfx lo hi).filterMap (kvOf c.store.live pfx), c.store.currentRevision,
          ((r.store.selected pfx lo hi).filterMap (kvOf c.store.live pfx)).length⟩
      else .error (.panic .revisionAssertion) := by
  split_ifs with hpos
  -- the guard of the bucket fixes the entries, and keys keep their items
  · have howned : ∀ e ∈ r.store.selected pfx lo hi,
        r.store.treeMap[pfx ++ e.1]? = some e.2 := by
      intro e he
      obtain ⟨hb, _⟩ := (Store.mem_selected r.store pfx lo hi e.1 e.2).mp he
      obtain ⟨k, hk, hown⟩ := hr.tidy.heapOk.listed pfx e.1 e.2 hb
      have hkey : pfx ++ e.1 = k := by rw [← prefixSplit_append k, hk]
      rw [hkey]
      exact hown
    have hstart : r.Scanning calls s₀ trace c pfx (r.store.selected pfx lo hi) :=
      ⟨⟨later, hr⟩, howned, hbucket ▸ Store.rangeBucket_progress _ _ ha hinv⟩
    have hend := PartialRun.run_induct (step_scanning hs hrep h0 hc hpos) hstart hrun
    have hp := hend.progress
    rw [hres] at hp
    exact hp
  · rw [not_or] at hpos
    have hzero : c.store.currentRevision = 0 := by
      have := c.store.currentRevision_nonneg
      omega
    obtain ⟨e, rest, hentries⟩ := List.exists_cons_of_ne_nil hpos.2
    have hsome : (r.store.prefixMap[pfx]?).isSome := by
      by_contra hnone
      exact hpos.2 (Store.selected_of_no_bucket (by simpa using hnone) lo hi)
    have hfail : r.Failing pfx e rest := by
      left
      rw [hbucket, Store.rangeBucket_eq _ _ ha hinv, if_pos hsome, hentries, hzero]
    rcases PartialRun.run_induct step_failing hfail hrun with hp | hp
    · rw [hres] at hp
      contradiction
    · rw [hres] at hp
      cases hp
      rfl

/-- The scan gives a snapshot exactly if the bucket lists what it has to. -/
theorem scan_snapshot_iff (hs : s₀.WF) (hrep : s₀.Represents log₀)
    (h0 : s₀.valuesByRevision.earliestRevision = 0) (hc : c.Consistent calls s₀ trace)
    {r r' : Reading} {later : List SetAction} {t : List RangeAction}
    {res : Except Fault RangeResult} (hr : r.writers.Consistent calls s₀ (trace ++ later))
    (ha : prefixAndRangeOfKey start endKey = .ok (pfx, lo, hi))
    (hinv : Bound.inverted lo hi = false)
    (hbucket : r.range = r.store.rangeBucket start endKey c.store.currentRevision)
    (hrun : r.run calls start endKey t = some r') (hres : r'.range = .returned res) :
    (∃ kvs, res = .ok ⟨kvs, c.store.currentRevision, kvs.length⟩ ∧
        IsSnapshot c.store.live pfx lo hi kvs) ↔
      (0 < c.store.currentRevision ∨ r.store.selected pfx lo hi = []) ∧
        ∀ k, selects pfx lo hi k → (c.store.live k).isSome →
          (r.store.bucket? (prefixSplit k).1 (prefixSplit k).2).isSome := by
  have hout := scan_outcome hs hrep h0 hc hr ha hinv hbucket hrun hres
  have hsnap := isSnapshot_selected_iff hr.tidy.heapOk c.store.live pfx lo hi
  constructor
  · rintro ⟨kvs, rfl, hkvs⟩
    by_cases hpos : 0 < c.store.currentRevision ∨ r.store.selected pfx lo hi = []
    · rw [if_pos hpos] at hout
      obtain rfl := congrArg RangeResult.kvs (Except.ok.inj hout)
      exact ⟨hpos, hsnap.mp hkvs⟩
    · rw [if_neg hpos] at hout
      contradiction
  · rintro ⟨hpos, hlisted⟩
    rw [if_pos hpos] at hout
    exact ⟨_, hout, hsnap.mpr hlisted⟩

/-- A key that has a value is listed, unless its creator has still to list it. -/
theorem listed_of_settled (hs : s₀.WF) {t₀ t₁ : List RangeAction} {r₀ r₁ : Reading}
    (h₀ : (init s₀).run calls start endKey t₀ = some r₀)
    (h₁ : r₀.run calls start endKey t₁ = some r₁) {k : Bytes}
    (hsettled : ∀ i rev a, (calls i).key = k → r₁.writers.phases i ≠ .created rev a)
    (hk : (r₀.store.live k).isSome) :
    (r₁.store.bucket? (prefixSplit k).1 (prefixSplit k).2).isSome := by
  have hc₁ := Concurrent.run_consistent hs (run_consistent hs h₀) (run_writers h₁)
  cases ha : r₀.store.treeMap[k]? with
  | none =>
    unfold Store.live at hk
    rw [Store.view_of_vacant ha] at hk
    contradiction
  | some a =>
    have hown := PartialRun.run_induct step_owned ha h₁
    rcases hc₁.tidy.indexed k a hown with hlisted | ⟨i, rev, hkey, hi⟩
    · rw [show r₁.store.bucket? _ _ = some a from hlisted]
      rfl
    · exact absurd hi (hsettled i rev a hkey)

theorem rangeBucket_unscanned (s : Store) (latestRev : ℤ) :
    (∀ e, prefixAndRangeOfKey start endKey = .error e →
      s.rangeBucket start endKey latestRev = .returned (.error (.status e))) ∧
    ∀ pfx lo hi, prefixAndRangeOfKey start endKey = .ok (pfx, lo, hi) →
      Bound.inverted lo hi = true → s.rangeBucket start endKey latestRev =
        .returned (if (s.prefixMap[pfx]?).isSome then .error (.panic .rangeBounds)
          else .ok ⟨[], latestRev, 0⟩) := by
  refine ⟨?_, ?_⟩
  · intro e ha
    unfold Store.rangeBucket
    simp only [ha]
  · intro pfx lo hi ha hinv
    unfold Store.rangeBucket
    simp only [ha]
    cases s.prefixMap[pfx]? with
    | none => rfl
    | some btree =>
      simp only [btreeRange, hinv]
      rfl

/-- What a `range` returns that reads the current revision in `r₀` and takes its
bucket in `r₁`. It is the state of the selected keys after that revision exactly if
every selected key that has a value is listed in `prefix_map` by then (and, at
revision zero, no selected item is). Every call that has returned before is in force
in that state or superseded. -/
theorem range_snapshot_iff (hs : s₀.WF) (hrep : s₀.Represents log₀)
    (h0 : s₀.valuesByRevision.earliestRevision = 0) {t₀ t₁ t₂ : List RangeAction}
    {r₀ r₁ r₂ : Reading} {res : Except Fault RangeResult}
    (h₀ : (init s₀).run calls start endKey t₀ = some r₀)
    (h₁ : r₀.run calls start endKey (.revision :: t₁) = some r₁)
    (h₂ : r₁.run calls start endKey (.bucket :: t₂) = some r₂)
    (hres : r₂.range = .returned res) :
    (∀ i rev, r₀.writers.phases i = .returned (.ok rev) →
      rev ≤ (r₀.store.view (calls i).key).latestValue.modRevision) ∧
    match prefixAndRangeOfKey start endKey with
    | .error e => res = .error (.status e)
    | .ok (pfx, lo, hi) =>
      if Bound.inverted lo hi then
        res = if (r₁.store.prefixMap[pfx]?).isSome then .error (.panic .rangeBounds)
          else .ok ⟨[], r₀.store.currentRevision, 0⟩
      else
        (∃ kvs, res = .ok ⟨kvs, r₀.store.currentRevision, kvs.length⟩ ∧
          IsSnapshot r₀.store.live pfx lo hi kvs) ↔
        (0 < r₀.store.currentRevision ∨ r₁.store.selected pfx lo hi = []) ∧
        ∀ k, selects pfx lo hi k → (r₀.store.live k).isSome →
          (r₁.store.bucket? (prefixSplit k).1 (prefixSplit k).2).isSome := by
  have hc₀ := run_consistent hs h₀
  have hc₁ := Concurrent.run_consistent hs hc₀ (run_writers h₁)
  -- the revision that the bucket step uses is the one read in `r₀`
  obtain ⟨mid, hrev, hrest⟩ := Option.bind_eq_some_iff.mp h₁
  obtain ⟨r, hbucket, hscan⟩ := Option.bind_eq_some_iff.mp h₂
  obtain ⟨_, rfl⟩ := step_revision hrev
  obtain ⟨rev, hstarted, rfl⟩ := step_bucket hbucket
  have hbegun : Begun r₀.store.currentRevision r₁.range := by
    apply PartialRun.run_induct (P := fun r => Begun r₀.store.currentRevision r.range) step_begun _ hrest
    rfl
  rw [hstarted] at hbegun
  obtain rfl : rev = r₀.store.currentRevision := hbegun
  refine ⟨?_, ?_⟩
  · intro i rev hi
    apply hc₀.superseded (hrep.coherent hs)
    rw [hi]
    rfl
  · cases ha : prefixAndRangeOfKey start endKey with
    | error e =>
      have hend := PartialRun.run_induct step_returned ((rangeBucket_unscanned _ _).1 e ha) hscan
      rw [hres] at hend
      cases hend
      rfl
    | ok acc =>
      obtain ⟨pfx, lo, hi⟩ := acc
      dsimp only
      by_cases hinv : Bound.inverted lo hi = true
      · rw [if_pos hinv]
        have hend := PartialRun.run_induct step_returned
          ((rangeBucket_unscanned _ _).2 pfx lo hi ha hinv) hscan
        rw [hres] at hend
        exact RangePhase.returned.inj hend
      · rw [if_neg hinv]
        apply scan_snapshot_iff hs hrep h0 hc₀
          (r := ⟨r₁.writers, r₁.store.rangeBucket start endKey r₀.store.currentRevision⟩) hc₁ ha
          (by simpa using hinv) rfl hscan hres

/-- Create `b`, change `a`. -/
def editors : ℕ → Call
  | 0 => ⟨[98], some [2], none⟩
  | _ => ⟨[97], some [3], none⟩

/-- `b` is created before the `range`, `a` is changed during its scan. -/
theorem range_snapshot_of_editors :
    ∃ r₀ r₁ r₂ res,
      (init ((Store.new none).run [⟨[97], some [1], none⟩])).run editors [97] [99]
        [.write (.invoke 0), .write (.entry 0), .write (.index 0), .write (.invoke 1),
          .write (.lock 0)] = some r₀ ∧
      r₀.run editors [97] [99] [.revision, .write (.ret 0), .write (.entry 1)] = some r₁ ∧
      r₁.run editors [97] [99] [.bucket, .write (.lock 1), .item, .item, .item] = some r₂ ∧
      r₂.range = .returned res ∧
      ∃ kvs, res = .ok ⟨kvs, r₀.store.currentRevision, kvs.length⟩ ∧
        IsSnapshot r₀.store.live [] (.included [97]) (.excluded [99]) kvs := by
  obtain ⟨hwf, hrep, _⟩ := Store.run_represents (Store.new_wf none) (Store.new_represents none)
    [⟨[97], some [1], none⟩]
  obtain ⟨r₀, r₁, r₂, res, h₀, h₁, h₂, hres, hrev, hzero, hone, hidle⟩ : ∃ r₀ r₁ r₂ res,
      (init ((Store.new none).run [⟨[97], some [1], none⟩])).run editors [97] [99]
        [.write (.invoke 0), .write (.entry 0), .write (.index 0), .write (.invoke 1),
          .write (.lock 0)] = some r₀ ∧
      r₀.run editors [97] [99] [.revision, .write (.ret 0), .write (.entry 1)] = some r₁ ∧
      r₁.run editors [97] [99] [.bucket, .write (.lock 1), .item, .item, .item] = some r₂ ∧
      r₂.range = .returned res ∧ r₀.store.currentRevision = 2 ∧
      r₁.writers.phases 0 = .returned (.ok 2) ∧ r₁.writers.phases 1 = .ready 1 0 false ∧
      ∀ i, r₁.writers.phases (i + 2) = .idle :=
    ⟨_, _, _, _, rfl, rfl, rfl, rfl, rfl, rfl, rfl, fun _ => rfl⟩
  refine ⟨r₀, r₁, r₂, res, h₀, h₁, h₂, hres, ?_⟩
  refine (range_snapshot_iff hwf hrep rfl h₀ h₁ h₂ hres).2.mpr ⟨Or.inl (by rw [hrev]; decide), ?_⟩
  intro k _ hk
  apply listed_of_settled hwf h₀ h₁ _ hk
  -- at the bucket step no call is about to list a key
  intro i rev a _ hi
  match i with
  | 0 => exact SetPhase.noConfusion (hzero.symm.trans hi)
  | 1 => exact SetPhase.noConfusion (hone.symm.trans hi)
  | i + 2 => exact SetPhase.noConfusion ((hidle i).symm.trans hi)

def creators : ℕ → Call
  | 0 => ⟨[97], some [1], none⟩
  | _ => ⟨[97], some [2], none⟩

/-- Call 0 has put the new key into `tree_map` only, when call 1 finds it there, sets
it at revision 1 and returns. The `range` that follows finds no bucket. -/
theorem range_misses_returned_set :
    ∃ r₀ r₁ r₂,
      (init (Store.new none)).run creators [97] [] [.write (.invoke 0), .write (.entry 0),
        .write (.invoke 1), .write (.entry 1), .write (.lock 1), .write (.ret 1)] = some r₀ ∧
      r₀.writers.phases 1 = .returned (.ok 1) ∧
      r₀.store.live [97] = some ⟨1, 1, 1, some [2]⟩ ∧
      r₀.run creators [97] [] [.revision] = some r₁ ∧
      r₁.run creators [97] [] [.bucket] = some r₂ ∧
      r₂.range = .returned (.ok ⟨[], 1, 0⟩) ∧
      ¬IsSnapshot r₀.store.live [] (.included [97]) (.included [97]) [] := by
  refine ⟨_, _, _, rfl, rfl, rfl, rfl, rfl, rfl, ?_⟩
  intro h
  have hmem := (h.mem _).mpr ⟨[97], ⟨1, 1, 1, some [2]⟩, ⟨rfl, rfl, rfl⟩, rfl, rfl⟩
  contradiction

end Reading
end MemEtcd
