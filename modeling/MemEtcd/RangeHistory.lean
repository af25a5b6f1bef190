import MemEtcd.RangeSnapshot
import MemEtcd.RangeSteps

/-! A current `range` in steps, between which whole calls are made on the store. It
reports the keys as they were when it read the revision: what is written later has a
greater revision, and keys keep their items. -/
namespace MemEtcd

open VersionLog (cells)

def liveIn (log : History) (k : Bytes) : Option Value := (cells log k).live

def RangeQuery.respond (req : RangeQuery) (result : RangeResult) : RangeResponse :=
  let more := match req.storeLimit with
    | none => false
    | some l => if req.countOnly then false else decide ((result.count : ℤ) > Int.bmod l (2 ^ 64))
  ⟨responseHeader result.latestRev, result.kvs, more, result.count⟩

theorem Store.serveRange_eq (s : Store) (req : RangeQuery) :
    s.serveRange req =
      (s.range req.key req.rangeEnd req.revision req.storeLimit).map req.respond := by
  unfold serveRange
  dsimp only
  cases s.range req.key req.rangeEnd req.revision req.storeLimit <;> rfl

/-- What a `range` at the end of a history returns. -/
def IsResult (log : History) (req : RangeQuery) (result : RangeResult) : Prop :=
  ∃ pfx lo hi all, prefixAndRangeOfKey req.key req.rangeEnd = .ok (pfx, lo, hi) ∧
    IsSnapshot (liveIn log) pfx lo hi all ∧
    result = ⟨Store.upToLimit req.storeLimit all, log.length, all.length⟩

/-- A `range` that has read the revision at the end of the history `log`. It has
collected a part of the list, and the items of the others are known to it. -/
def ReadsPast (log : History) (s : Store) (req : RangeQuery) : RangePhase → Prop
  | .idle => False
  | .started latestRev => latestRev = log.length
  | .scanning latestRev pfx rest results count =>
    latestRev = log.length ∧ (∀ e ∈ rest, s.treeMap[pfx ++ e.1]? = some e.2) ∧
      ∃ lo hi collected, prefixAndRangeOfKey req.key req.rangeEnd = .ok (pfx, lo, hi) ∧
        results = Store.upToLimit req.storeLimit collected ∧ count = collected.length ∧
        IsSnapshot (liveIn log) pfx lo hi (collected ++ rest.filterMap (kvOf (liveIn log) pfx))
  | .returned res => ∀ result, res = .ok result → IsResult log req result

/-- The next step of a `range`, after it has read the revision. -/
def Store.rangeNext (s : Store) (req : RangeQuery) : RangePhase → Option RangePhase
  | .started latestRev => some (s.rangeBucket req.key req.rangeEnd latestRev)
  | .scanning latestRev pfx rest results count =>
    some (s.rangeRound req.storeLimit latestRev pfx results count rest)
  | _ => none

section
variable {log log' : History} {s : Store} {req : RangeQuery} {phase phase' : RangePhase}

/-- A later store still has the values of the history. -/
theorem Store.Uncompacted.liveAt_past (hs : s.Uncompacted log') (hext : log <+: log') (k : Bytes) :
    s.liveAt (s.view k) log.length = liveIn log k := by
  rw [hs.represents.liveAt_uncompacted hs.earliest, ← List.prefix_iff_eq_take.mp hext]
  rfl

/-- A later store lists every key of the history. -/
theorem Store.Uncompacted.isSnapshot_past (hs : s.Uncompacted log') (hext : log <+: log')
    (pfx : Bytes) (lo hi : Bound Bytes) :
    IsSnapshot (liveIn log) pfx lo hi
      ((s.selected pfx lo hi).filterMap (kvOf (liveIn log) pfx)) := by
  apply (isSnapshot_selected_iff hs.wf.toHeapOk _ pfx lo hi).mpr
  intro k _ hk
  rw [← hs.liveAt_past hext] at hk
  cases htree : s.treeMap[k]? with
  | none =>
    rw [Store.view_of_vacant htree, Store.liveAt_placeholder _ _ (Int.natCast_nonneg _)] at hk
    contradiction
  | some a =>
    rw [hs.wf.indexed k a htree]
    rfl

/-- A call changes nothing for a `range` that has begun. -/
theorem ReadsPast.call (h : ReadsPast log s req phase) (c : Call) :
    ReadsPast log (s.call c).1 req phase := by
  cases phase with
  | scanning latestRev pfx rest results count =>
    obtain ⟨hrev, howned, hcollected⟩ := h
    exact ⟨hrev, fun e he => s.call_treeMap_mono c (howned e he), hcollected⟩
  | _ => exact h

theorem ReadsPast.calls (h : ReadsPast log s req phase) (calls : List Call) :
    ReadsPast log (s.run calls) req phase := by
  induction calls generalizing s with
  | nil => exact h
  | cons c calls ih => exact ih (h.call c)

theorem ReadsPast.bucket (hs : s.Uncompacted log') (hext : log <+: log') :
    ReadsPast log s req (s.rangeBucket req.key req.rangeEnd log.length) := by
  unfold Store.rangeBucket
  cases ha : prefixAndRangeOfKey req.key req.rangeEnd with
  | error e => exact fun result hres => nomatch hres
  | ok acc =>
    obtain ⟨pfx, lo, hi⟩ := acc
    have hsnapshot := hs.isSnapshot_past hext pfx lo hi
    dsimp only
    cases hb : s.prefixMap[pfx]? with
    | none =>
      rw [Store.selected_of_no_bucket hb] at hsnapshot
      rintro result ⟨⟩
      exact ⟨pfx, lo, hi, [], ha, hsnapshot, by rw [Store.upToLimit_nil]; rfl⟩
    | some btree =>
      rw [Store.selected_of_bucket hb] at hsnapshot
      dsimp only
      unfold btreeRange
      split_ifs with hinv
      · exact fun result hres => nomatch hres
      · refine ⟨rfl, ?_, lo, hi, [], ha, (Store.upToLimit_nil _).symm, rfl, hsnapshot⟩
        intro e he
        rw [← Store.selected_of_bucket hb] at he
        obtain ⟨hbucket, -⟩ := (Store.mem_selected s pfx lo hi e.1 e.2).mp he
        obtain ⟨k, hk, hown⟩ := hs.wf.listed pfx e.1 e.2 hbucket
        have hkey : pfx ++ e.1 = k := by rw [← prefixSplit_append k, hk]
        rw [hkey]
        exact hown

theorem ReadsPast.round (hs : s.Uncompacted log') (hext : log <+: log') (hpos : 0 < log.length)
    {rev : ℤ} {pfx : Bytes} {rest : List (Bytes × ℕ)} {results : List KeyValue} {count : ℕ}
    (h : ReadsPast log s req (.scanning rev pfx rest results count)) :
    ReadsPast log s req (s.rangeRound req.storeLimit rev pfx results count rest) := by
  obtain ⟨rfl, howned, lo, hi, collected, ha, rfl, rfl, hsnapshot⟩ := h
  cases rest with
  | nil =>
    rw [List.filterMap_nil, List.append_nil] at hsnapshot
    rintro result ⟨⟩
    exact ⟨pfx, lo, hi, collected, ha, hsnapshot, rfl⟩
  | cons e rest =>
    have hrev : (0 : ℤ) < log.length := by exact_mod_cast hpos
    -- whatever has been written since, the item still shows its value at the revision
    have hone : s.scanned log.length pfx [e] = [e].filterMap (kvOf (liveIn log) pfx) := by
      have hview := Store.view_of_owned (howned e List.mem_cons_self)
      unfold Store.scanned kvOf
      rw [List.filterMap_cons, List.filterMap_cons, ← hview, hs.liveAt_past hext]
      rfl
    unfold Store.rangeRound
    dsimp only
    rw [s.scan_collected hrev, hone]
    refine ⟨rfl, fun e' he' => howned e' (List.mem_cons_of_mem e he'), lo, hi, _, ha, rfl, rfl, ?_⟩
    rw [List.append_assoc, ← List.filterMap_append]
    exact hsnapshot

theorem ReadsPast.next (h : ReadsPast log s req phase) (hs : s.Uncompacted log')
    (hext : log <+: log') (hpos : 0 < log.length) (hnext : s.rangeNext req phase = some phase') :
    ReadsPast log s req phase' := by
  cases phase with
  | idle => exact h.elim
  | started latestRev =>
    cases hnext
    have hrev : latestRev = log.length := h
    rw [hrev]
    exact ReadsPast.bucket hs hext
  | scanning latestRev pfx rest results count =>
    cases hnext
    exact ReadsPast.round hs hext hpos h
  | returned res => contradiction

end
end MemEtcd
