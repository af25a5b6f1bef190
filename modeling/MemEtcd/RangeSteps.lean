import MemEtcd.ConcurrentRange
import MemEtcd.RangeService

/-! A current `range` in steps, with a limit: the revision, the bucket of its prefix,
one item after the other. -/
namespace MemEtcd
namespace Store

/-- `range` with a limit goes to the next item of its bucket, or returns. -/
def rangeRound (s : Store) (limit : Option ℕ) (latestRev : ℤ) (pfx : Bytes)
    (results : List KeyValue) (count : ℕ) : List (Bytes × ℕ) → RangePhase
  | [] => .returned (.ok ⟨results, latestRev, count⟩)
  | e :: rest =>
    match s.scan latestRev limit pfx [e] results count with
    | .error fault => .returned (.error fault)
    | .ok (results, count) => .scanning latestRev pfx rest results count

/-- What a `range` that has read the revision returns if the store stays as it is. -/
def rangeAfter (s : Store) (start endKey : Bytes) (limit : Option ℕ) (latestRev : ℤ) :
    Except Fault RangeResult :=
  match prefixAndRangeOfKey start endKey with
  | .error e => .error (.status e)
  | .ok (pfx, lo, hi) =>
    match s.prefixMap[pfx]? with
    | none => .ok ⟨[], latestRev, 0⟩
    | some btree => do
      let entries ← btreeRange btree lo hi
      let (results, count) ← s.scan latestRev limit pfx entries [] 0
      return ⟨results, latestRev, count⟩

theorem range_eq_rangeAfter (s : Store) (start endKey : Bytes) (limit : Option ℕ) :
    s.range start endKey 0 limit = s.rangeAfter start endKey limit s.currentRevision := by
  have hnn := s.currentRevision_nonneg
  have hg : ¬(0 : ℤ) > s.currentRevision := by omega
  have hcc : ¬((0 : ℤ) > 0 ∧ (0 : ℤ) ≤ s.compactedRevision) := by omega
  unfold range
  simp only [if_neg hg, if_neg hcc, if_true]
  rfl

/-- The bucket decides whether a `range` returns at once or scans. -/
theorem rangeBucket_cases (s : Store) (start endKey : Bytes) (limit : Option ℕ) (rev : ℤ) :
    s.rangeBucket start endKey rev = .returned (s.rangeAfter start endKey limit rev) ∨
    ∃ pfx lo hi, s.rangeBucket start endKey rev =
        .scanning rev pfx (s.selected pfx lo hi) [] 0 ∧
      s.rangeAfter start endKey limit rev =
        (s.scan rev limit pfx (s.selected pfx lo hi) [] 0).map (fun p => ⟨p.1, rev, p.2⟩) := by
  unfold rangeBucket rangeAfter
  cases prefixAndRangeOfKey start endKey with
  | error e => exact Or.inl rfl
  | ok acc =>
    obtain ⟨pfx, lo, hi⟩ := acc
    dsimp only
    cases hb : s.prefixMap[pfx]? with
    | none => exact Or.inl rfl
    | some btree =>
      dsimp only
      unfold btreeRange
      by_cases hinv : Bound.inverted lo hi
      · rw [if_pos hinv]
        exact Or.inl rfl
      · rw [if_neg hinv]
        refine Or.inr ⟨pfx, lo, hi, by rw [selected_of_bucket hb], ?_⟩
        rw [selected_of_bucket hb]
        simp only [bind, Except.bind]
        cases s.scan rev limit pfx _ [] 0 <;> rfl

/-- An accepted request with its bounds in order scans what it selects. -/
theorem rangeAfter_eq_scan (s : Store) {start endKey pfx : Bytes} {lo hi : Bound Bytes}
    (ha : prefixAndRangeOfKey start endKey = .ok (pfx, lo, hi))
    (hi' : Bound.inverted lo hi = false) (limit : Option ℕ) (rev : ℤ) :
    s.rangeAfter start endKey limit rev =
      (s.scan rev limit pfx (s.selected pfx lo hi) [] 0).map (fun p => ⟨p.1, rev, p.2⟩) := by
  unfold rangeAfter
  rw [ha]
  dsimp only
  cases hb : s.prefixMap[pfx]? with
  | none =>
    rw [selected_of_no_bucket hb]
    rfl
  | some btree =>
    rw [selected_of_bucket hb]
    simp only [btreeRange, hi', Bool.false_eq_true, if_false, bind, Except.bind]
    cases s.scan rev limit pfx _ [] 0 <;> rfl

theorem rangeAfter_eq (s : Store) {start endKey pfx : Bytes} {lo hi : Bound Bytes}
    (ha : prefixAndRangeOfKey start endKey = .ok (pfx, lo, hi))
    (hi' : Bound.inverted lo hi = false) (limit : Option ℕ) {rev : ℤ} (hr : 0 < rev) :
    s.rangeAfter start endKey limit rev =
      .ok ⟨upToLimit limit (s.kvsAt pfx lo hi rev), rev, (s.kvsAt pfx lo hi rev).length⟩ := by
  rw [rangeAfter_eq_scan s ha hi', scan_eq s hr]
  rfl

/-- The revision in an answer is the one that was read. -/
theorem latestRev_rangeAfter {s : Store} {start endKey pfx : Bytes} {lo hi : Bound Bytes}
    (ha : prefixAndRangeOfKey start endKey = .ok (pfx, lo, hi))
    (hi' : Bound.inverted lo hi = false) {limit : Option ℕ} {rev : ℤ} {r : RangeResult}
    (h : s.rangeAfter start endKey limit rev = .ok r) : r.latestRev = rev := by
  rw [rangeAfter_eq_scan s ha hi'] at h
  cases hscan : s.scan rev limit pfx (s.selected pfx lo hi) [] 0 with
  | error fault =>
    rw [hscan] at h
    contradiction
  | ok p =>
    rw [hscan] at h
    cases h
    rfl

theorem scan_append (s : Store) (rev : ℤ) (limit : Option ℕ) (pfx : Bytes)
    (entries rest : List (Bytes × ℕ)) (results : List KeyValue) (count : ℕ) :
    s.scan rev limit pfx (entries ++ rest) results count =
      (s.scan rev limit pfx entries results count).bind
        (fun p => s.scan rev limit pfx rest p.1 p.2) := by
  induction entries generalizing results count with
  | nil => rfl
  | cons e entries ih =>
    rw [List.cons_append, scan_cons, scan_cons s rev limit pfx e entries]
    cases s.scan rev limit pfx [e] results count with
    | error fault => rfl
    | ok p => exact ih p.1 p.2

end Store
end MemEtcd
