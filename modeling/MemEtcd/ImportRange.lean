import MemEtcd.ImportSteps
import MemEtcd.RangeSteps

/-! A current `range` while a snapshot is imported. It reads the revision and takes
the bucket of its prefix at two different moments, and the import does not wait for
it unless it wants the same bucket. -/
namespace MemEtcd

/-- While a `range` scans a bucket, the bucket is neither removed nor written to. -/
def RangePhase.blocks : RangePhase → ImportStep → Bool
  | .scanning .., .clearPrefixMap => true
  | .scanning _ pfx _ _ _, .insert e => (prefixSplit e.key).1 == pfx
  | _, _ => false

namespace Store

/-- Of an imported item a reader learns the same in every store. -/
theorem scan_imported {s t : Store} {a : ℕ} {e : SnapshotEntry} (hs : s.deref a = e.item)
    (ht : t.deref a = e.item) (rev : ℤ) (limit : Option ℕ) (pfx suffix : Bytes)
    (results : List KeyValue) (count : ℕ) :
    t.scan rev limit pfx [(suffix, a)] results count =
      s.scan rev limit pfx [(suffix, a)] results count := by
  have hfind : t.findValueForRevision e.item rev = s.findValueForRevision e.item rev := by
    rw [findValueForRevision_eq, findValueForRevision_eq, foundValue_item, foundValue_item]
  have hhas : t.hasValueForRevision e.item rev = s.hasValueForRevision e.item rev := by
    by_cases hr : 0 < rev
    · rw [hasValueForRevision_eq t _ hr, hasValueForRevision_eq s _ hr, liveAt_item, liveAt_item]
    · unfold hasValueForRevision
      rw [if_pos (by omega), if_pos (by omega)]
  simp only [scan, hs, ht, hfind, hhas]

end Store

/-- A store, what is left of an import into it, and a `range`. -/
structure Importing where
  store : Store
  todo : List ImportStep
  range : RangePhase

/-- The next step of the import, or of the `range`. -/
inductive ImportAction where
  | install
  | revision
  | bucket
  | item
  deriving DecidableEq, Repr

def importsBefore (a : ImportAction) (trace : List ImportAction) : ℕ :=
  (trace.take (trace.idxOf a)).count .install

namespace Importing

def init (s : Store) (entries : List SnapshotEntry) : Importing :=
  ⟨s, Store.importSteps entries, .idle⟩

section
variable (start endKey : Bytes) (limit : Option ℕ)

def step (r : Importing) : ImportAction → Option Importing
  | .install =>
    match r.todo with
    | [] => none
    | step :: todo =>
      if r.range.blocks step then none else some ⟨r.store.importStep step, todo, r.range⟩
  | .revision =>
    match r.range with
    | .idle => some ⟨r.store, r.todo, .started r.store.currentRevision⟩
    | _ => none
  | .bucket =>
    match r.range with
    | .started latestRev => some ⟨r.store, r.todo, r.store.rangeBucket start endKey latestRev⟩
    | _ => none
  | .item =>
    match r.range with
    | .scanning latestRev pfx rest results count =>
      some ⟨r.store, r.todo, r.store.rangeRound limit latestRev pfx results count rest⟩
    | _ => none

def run (r : Importing) (trace : List ImportAction) : Option Importing :=
  PartialRun.run (step start endKey limit) r trace

end

variable {start endKey : Bytes} {limit : Option ℕ}

/-! ### The steps -/

theorem step_install {r r' : Importing} (h : r.step start endKey limit .install = some r') :
    ∃ step todo, r.todo = step :: todo ∧ r.range.blocks step = false ∧
      r' = ⟨r.store.importStep step, todo, r.range⟩ := by
  simp only [step] at h
  split at h
  · contradiction
  · rename_i step todo htodo
    split_ifs at h with hblock
    exact ⟨step, todo, htodo, by simpa using hblock, (Option.some.inj h).symm⟩

theorem step_revision {r r' : Importing} (h : r.step start endKey limit .revision = some r') :
    r.range = .idle ∧ r' = ⟨r.store, r.todo, .started r.store.currentRevision⟩ := by
  simp only [step] at h
  split at h
  · exact ⟨‹_›, (Option.some.inj h).symm⟩
  · contradiction

theorem step_bucket {r r' : Importing} (h : r.step start endKey limit .bucket = some r') :
    ∃ rev, r.range = .started rev ∧
      r' = ⟨r.store, r.todo, r.store.rangeBucket start endKey rev⟩ := by
  simp only [step] at h
  split at h
  · exact ⟨_, ‹_›, (Option.some.inj h).symm⟩
  · contradiction

theorem step_item {r r' : Importing} (h : r.step start endKey limit .item = some r') :
    ∃ rev pfx rest results count, r.range = .scanning rev pfx rest results count ∧
      r' = ⟨r.store, r.todo, r.store.rangeRound limit rev pfx results count rest⟩ := by
  simp only [step] at h
  split at h
  · exact ⟨_, _, _, _, _, ‹_›, (Option.some.inj h).symm⟩
  · contradiction

/-! ### The two moments at which a `range` looks at the store -/

section
variable (s : Store) (entries : List SnapshotEntry) (start endKey : Bytes) (limit : Option ℕ)
  (past : List ImportAction)

/-- The revision that the `range` of a trace reads. -/
def revisionRead : ℤ := (s.importing entries (importsBefore .revision past)).currentRevision

/-- The store whose bucket the `range` of a trace takes. -/
def bucketRead : Store := s.importing entries (importsBefore .bucket past)

/-- The `range` of a trace has looked at the store twice. -/
structure Looked : Prop where
  revision : ImportAction.revision ∈ past
  bucket : ImportAction.bucket ∈ past
  order : importsBefore .revision past ≤ importsBefore .bucket past

/-- What a `range` has done so far, told by the two moments. -/
def Traced : RangePhase → Prop
  | .idle => ImportAction.revision ∉ past ∧ ImportAction.bucket ∉ past
  | .started rev => ImportAction.revision ∈ past ∧ ImportAction.bucket ∉ past ∧
      rev = revisionRead s entries past
  | .scanning rev pfx rest results count => Looked past ∧
      -- the guard of an old bucket keeps the import from its first step
      (importsBefore .bucket past = 0 → past.count .install = 0) ∧
      ∃ lo hi scanned, (bucketRead s entries past).selected pfx lo hi = scanned ++ rest ∧
        (bucketRead s entries past).scan rev limit pfx scanned [] 0 = .ok (results, count) ∧
        (bucketRead s entries past).rangeAfter start endKey limit (revisionRead s entries past) =
          ((bucketRead s entries past).scan rev limit pfx (scanned ++ rest) [] 0).map
            (fun p => ⟨p.1, rev, p.2⟩)
  | .returned res => Looked past ∧
      res = (bucketRead s entries past).rangeAfter start endKey limit (revisionRead s entries past)

/-- The import and the `range` of a trace. -/
structure Follows (r : Importing) : Prop where
  store : r.store = s.importing entries (past.count .install)
  todo : r.todo = (Store.importSteps entries).drop (past.count .install)
  range : Traced s entries start endKey limit past r.range

end

theorem importsBefore_of_mem {a : ImportAction} {past : List ImportAction} (h : a ∈ past)
    (rest : List ImportAction) : importsBefore a (past ++ rest) = importsBefore a past := by
  unfold importsBefore
  rw [List.idxOf_append_of_mem h, List.take_append_of_le_length List.idxOf_le_length]

theorem importsBefore_concat {a : ImportAction} {past : List ImportAction} (h : a ∉ past) :
    importsBefore a (past ++ [a]) = past.count .install := by
  unfold importsBefore
  rw [List.idxOf_append_of_notMem h, List.idxOf_cons_self, Nat.add_zero, List.take_left]

theorem count_install_concat (past : List ImportAction) {a : ImportAction} (h : a ≠ .install) :
    (past ++ [a]).count .install = past.count .install := by
  rw [List.count_append, List.count_singleton, if_neg (by simpa using h), Nat.add_zero]

theorem importsBefore_le (a : ImportAction) (past : List ImportAction) :
    importsBefore a past ≤ past.count .install :=
  (List.take_sublist _ _).count_le _

theorem revisionRead_append {s : Store} {entries : List SnapshotEntry} {past : List ImportAction}
    (h : ImportAction.revision ∈ past) (rest : List ImportAction) :
    revisionRead s entries (past ++ rest) = revisionRead s entries past := by
  unfold revisionRead
  rw [importsBefore_of_mem h]

theorem bucketRead_append {s : Store} {entries : List SnapshotEntry} {past : List ImportAction}
    (h : ImportAction.bucket ∈ past) (rest : List ImportAction) :
    bucketRead s entries (past ++ rest) = bucketRead s entries past := by
  unfold bucketRead
  rw [importsBefore_of_mem h]

theorem Looked.append {past : List ImportAction} (h : Looked past) (rest : List ImportAction) :
    Looked (past ++ rest) := by
  refine ⟨List.mem_append_left _ h.revision, List.mem_append_left _ h.bucket, ?_⟩
  rw [importsBefore_of_mem h.revision, importsBefore_of_mem h.bucket]
  exact h.order

namespace Follows

variable {s : Store} {entries : List SnapshotEntry} {past : List ImportAction} {r r' : Importing}

theorem install (h : Follows s entries start endKey limit past r)
    (hstep : r.step start endKey limit .install = some r') :
    Follows s entries start endKey limit (past ++ [.install]) r' := by
  obtain ⟨step, todo, htodo, hfree, rfl⟩ := step_install hstep
  have hcount : (past ++ [ImportAction.install]).count .install = past.count .install + 1 := by
    rw [List.count_append]
    rfl
  have hnext : (Store.importSteps entries)[past.count .install]? = some step := by
    rw [← List.head?_drop, ← h.todo, htodo]
    rfl
  have hrange := h.range
  refine ⟨?_, ?_, ?_⟩
  · rw [hcount, Store.importing_succ s hnext, ← h.store]
  · rw [hcount, ← List.tail_drop, ← h.todo, htodo]
    rfl
  · dsimp only
    cases hr : r.range with
    | idle =>
      rw [hr] at hrange
      obtain ⟨hrev, hbuck⟩ := hrange
      exact ⟨by simpa using hrev, by simpa using hbuck⟩
    | started rev =>
      rw [hr] at hrange
      obtain ⟨hrev, hbuck, heq⟩ := hrange
      refine ⟨List.mem_append_left _ hrev, by simpa using hbuck, ?_⟩
      rw [revisionRead_append hrev]
      exact heq
    | scanning rev pfx rest results count =>
      rw [hr] at hrange hfree
      obtain ⟨hlook, hguard, hscan⟩ := hrange
      refine ⟨hlook.append _, ?_, ?_⟩
      · -- the first step of the import would have had to wait
        intro hzero
        rw [importsBefore_of_mem hlook.bucket] at hzero
        rw [hguard hzero] at hnext
        cases hnext
        contradiction
      · rw [revisionRead_append hlook.revision, bucketRead_append hlook.bucket]
        exact hscan
    | returned res =>
      rw [hr] at hrange
      obtain ⟨hlook, heq⟩ := hrange
      refine ⟨hlook.append _, ?_⟩
      rw [revisionRead_append hlook.revision, bucketRead_append hlook.bucket]
      exact heq

/-- A step of the `range` leaves the import where it is. -/
theorem look (h : Follows s entries start endKey limit past r) {a : ImportAction}
    (ha : a ≠ .install) {phase : RangePhase}
    (hphase : Traced s entries start endKey limit (past ++ [a]) phase) :
    Follows s entries start endKey limit (past ++ [a]) ⟨r.store, r.todo, phase⟩ := by
  have hcount := count_install_concat past ha
  refine ⟨?_, ?_, hphase⟩
  · rw [hcount]
    exact h.store
  · rw [hcount]
    exact h.todo

theorem revision (h : Follows s entries start endKey limit past r)
    (hstep : r.step start endKey limit .revision = some r') :
    Follows s entries start endKey limit (past ++ [.revision]) r' := by
  obtain ⟨hidle, rfl⟩ := step_revision hstep
  have hrange := h.range
  rw [hidle] at hrange
  obtain ⟨hrev, hbuck⟩ := hrange
  refine h.look (by nofun) ?_
  refine ⟨List.mem_append_right _ List.mem_cons_self, by simpa using hbuck, ?_⟩
  unfold revisionRead
  rw [importsBefore_concat hrev, ← h.store]

theorem bucket (h : Follows s entries start endKey limit past r)
    (hstep : r.step start endKey limit .bucket = some r') :
    Follows s entries start endKey limit (past ++ [.bucket]) r' := by
  obtain ⟨rev, hstarted, rfl⟩ := step_bucket hstep
  have hrange := h.range
  rw [hstarted] at hrange
  obtain ⟨hrev, hbuck, rfl⟩ := hrange
  have hstore : bucketRead s entries (past ++ [.bucket]) = r.store := by
    unfold bucketRead
    rw [importsBefore_concat hbuck, ← h.store]
  have hlook : Looked (past ++ [ImportAction.bucket]) := by
    refine ⟨List.mem_append_left _ hrev, List.mem_append_right _ List.mem_cons_self, ?_⟩
    rw [importsBefore_of_mem hrev, importsBefore_concat hbuck]
    exact importsBefore_le _ _
  refine h.look (by nofun) ?_
  rcases r.store.rangeBucket_cases start endKey limit (revisionRead s entries past) with
    hb | ⟨pfx, lo, hi, hb, hafter⟩
  · rw [hb]
    refine ⟨hlook, ?_⟩
    rw [hstore, revisionRead_append hrev]
  · rw [hb]
    refine ⟨hlook, ?_, lo, hi, [], ?_, rfl, ?_⟩
    · rw [importsBefore_concat hbuck, count_install_concat past (a := .bucket) nofun]
      exact id
    · rw [hstore]
      rfl
    · rw [hstore, revisionRead_append hrev]
      exact hafter

/-- The items of the bucket say the same now as when the bucket was taken. -/
theorem scan_now (h : Follows s entries start endKey limit past r)
    (hn : (entries.map (·.key)).Nodup)
    (hguard : importsBefore .bucket past = 0 → past.count .install = 0) {pfx : Bytes}
    {lo hi : Bound Bytes} {e : Bytes × ℕ}
    (he : e ∈ (bucketRead s entries past).selected pfx lo hi) (rev : ℤ)
    (results : List KeyValue) (count : ℕ) :
    r.store.scan rev limit pfx [e] results count =
      (bucketRead s entries past).scan rev limit pfx [e] results count := by
  obtain ⟨t, a⟩ := e
  rw [h.store]
  unfold bucketRead at he ⊢
  by_cases hzero : importsBefore .bucket past = 0
  · rw [hguard hzero, hzero]
  · obtain ⟨hb, -, -⟩ := (Store.mem_selected _ pfx lo hi t a).mp he
    obtain ⟨hlt, x, -, -, hitem⟩ := Store.bucket?_importing hn (by omega) hb
    have hnow : (s.importing entries (past.count .install)).deref a = x.item := by
      obtain ⟨more, hmore⟩ := s.importing_items entries (importsBefore_le .bucket past)
      rw [← hitem]
      unfold Store.deref
      rw [← hmore, List.getD_eq_getElem?_getD, List.getElem?_append_left hlt,
        List.getD_eq_getElem?_getD]
    exact Store.scan_imported hitem hnow _ _ _ _ _ _

theorem item (h : Follows s entries start endKey limit past r)
    (hn : (entries.map (·.key)).Nodup)
    (hstep : r.step start endKey limit .item = some r') :
    Follows s entries start endKey limit (past ++ [.item]) r' := by
  obtain ⟨rev, pfx, rest, results, count, hscanning, rfl⟩ := step_item hstep
  have hrange := h.range
  rw [hscanning] at hrange
  obtain ⟨hlook, hguard, lo, hi, scanned, hsel, hscan, hafter⟩ := hrange
  refine h.look (by nofun) ?_
  have hlook' := hlook.append [.item]
  have hrevision : revisionRead s entries (past ++ [.item]) = revisionRead s entries past :=
    revisionRead_append hlook.revision _
  have hbucket : bucketRead s entries (past ++ [.item]) = bucketRead s entries past :=
    bucketRead_append hlook.bucket _
  cases rest with
  | nil =>
    refine ⟨hlook', ?_⟩
    rw [hrevision, hbucket, hafter, List.append_nil, hscan]
    rfl
  | cons e rest =>
    have hmem : e ∈ (bucketRead s entries past).selected pfx lo hi := by
      rw [hsel]
      exact List.mem_append_right _ List.mem_cons_self
    have hnow := h.scan_now hn hguard hmem rev results count
    have hround : (bucketRead s entries past).scan rev limit pfx (scanned ++ [e]) [] 0 =
        (bucketRead s entries past).scan rev limit pfx [e] results count := by
      rw [Store.scan_append, hscan]
      rfl
    rw [Store.rangeRound, hnow]
    cases hone : (bucketRead s entries past).scan rev limit pfx [e] results count with
    | error fault =>
      refine ⟨hlook', ?_⟩
      rw [hrevision, hbucket, hafter, List.append_cons,
        Store.scan_append, hround, hone]
      rfl
    | ok p =>
      refine ⟨hlook', ?_, lo, hi, scanned ++ [e], ?_, ?_, ?_⟩
      · rw [importsBefore_of_mem hlook.bucket, count_install_concat past (a := .item) nofun]
        exact hguard
      · rw [hbucket, hsel, ← List.append_cons]
      · rw [hbucket, hround, hone]
      · rw [hbucket, hrevision, ← List.append_cons]
        exact hafter

theorem step (h : Follows s entries start endKey limit past r)
    (hn : (entries.map (·.key)).Nodup) {a : ImportAction}
    (hstep : r.step start endKey limit a = some r') :
    Follows s entries start endKey limit (past ++ [a]) r' := by
  cases a with
  | install => exact h.install hstep
  | revision => exact h.revision hstep
  | bucket => exact h.bucket hstep
  | item => exact h.item hn hstep

end Follows

theorem init_follows (s : Store) (entries : List SnapshotEntry) :
    Follows s entries start endKey limit [] (init s entries) :=
  ⟨rfl, rfl, List.not_mem_nil, List.not_mem_nil⟩

/-- The answer of a `range` is that of the store whose bucket it took, at the revision
that it had read before. -/
theorem run_returned {s : Store} {entries : List SnapshotEntry}
    (hn : (entries.map (·.key)).Nodup) {trace : List ImportAction} {r : Importing}
    {res : Except Fault RangeResult}
    (hrun : (init s entries).run start endKey limit trace = some r)
    (hres : r.range = .returned res) :
    Looked trace ∧ res = (bucketRead s entries trace).rangeAfter start endKey limit
      (revisionRead s entries trace) := by
  have hfollows : Follows s entries start endKey limit ([] ++ trace) r :=
    PartialRun.run_trace_induct (fun h hstep => h.step hn hstep) (init_follows s entries) hrun
  have hrange := hfollows.range
  rw [hres] at hrange
  exact hrange

/-! ### What a `range` learns -/

end Importing

/-- What a `range` may learn about the keys of a store: the buckets there are, the keys that
have an item, and the live values. -/
structure Contents where
  bucket : Bytes → Prop
  item : Bytes → Prop
  live : Bytes → Value → Prop

namespace Contents

def ofStore (s : Store) : Contents where
  bucket p := (s.prefixMap[p]?).isSome
  item k := (s.treeMap[k]?).isSome
  live k v := s.live k = some v

/-- The entries of a snapshot in an empty store, as far as they are known at a revision. -/
def ofEntries (entries : List SnapshotEntry) (rev : ℤ) : Contents where
  bucket p := ∃ e ∈ entries, (prefixSplit e.key).1 = p
  item k := ∃ e ∈ entries, e.key = k
  live k v := ∃ e ∈ entries, e.key = k ∧ e.cell = v ∧ e.modRevision ≤ rev

/-- A `range` at the revision `rev` answers from the contents `c` as one at `rev'` does from
`c'`. Inverted bounds make it panic if there is a bucket, and revision 0 if there is an item
that it asks for. -/
def AnswersAs (start endKey : Bytes) (rev : ℤ) (c : Contents) (rev' : ℤ) (c' : Contents) : Prop :=
  match prefixAndRangeOfKey start endKey with
  | .error _ => True
  | .ok (pfx, lo, hi) =>
    if Bound.inverted lo hi then
      (c.bucket pfx ↔ c'.bucket pfx) ∧ (c.bucket pfx ∨ rev = rev')
    else if rev = 0 then
      rev' = 0 ∧ ((∃ k, selects pfx lo hi k ∧ c.item k) ↔ ∃ k, selects pfx lo hi k ∧ c'.item k)
    else
      rev = rev' ∧ ∀ k v, selects pfx lo hi k → (c.live k v ↔ c'.live k v)

end Contents

namespace Store

/-- The contents of a store for a reader at the revision `rev`. -/
structure Shows (t : Store) (rev : ℤ) (c : Contents) : Prop where
  nonneg : 0 ≤ rev
  bucket : ∀ p, (t.prefixMap[p]?).isSome ↔ c.bucket p
  item : ∀ p lo hi, (∃ e, e ∈ t.selected p lo hi) ↔ ∃ k, selects p lo hi k ∧ c.item k
  live : 0 < rev → ∀ p lo hi kv, kv ∈ t.kvsAt p lo hi rev ↔
    ∃ k v, selects p lo hi k ∧ c.live k v ∧ kv = asMvccKeyValue v k
  value : ∀ k v, c.live k v → v.value.isSome

section Answers
variable {t t' : Store} {rev rev' : ℤ} {c c' : Contents} {start endKey pfx : Bytes}
  {lo hi : Bound Bytes} {limit : Option ℕ}

theorem rangeAfter_unaccepted {e : Status} (ha : prefixAndRangeOfKey start endKey = .error e) :
    t.rangeAfter start endKey limit rev = .error (.status e) := by
  unfold rangeAfter
  rw [ha]

theorem rangeAfter_inverted (ha : prefixAndRangeOfKey start endKey = .ok (pfx, lo, hi))
    (hinv : Bound.inverted lo hi = true) :
    t.rangeAfter start endKey limit rev =
      if (t.prefixMap[pfx]?).isSome then .error (.panic .rangeBounds) else .ok ⟨[], rev, 0⟩ := by
  unfold rangeAfter
  rw [ha]
  dsimp only
  cases t.prefixMap[pfx]? with
  | none => rfl
  | some btree =>
    simp only [btreeRange, hinv, if_true]
    rfl

theorem scan_zero (e : Bytes × ℕ) (rest : List (Bytes × ℕ)) :
    t.scan 0 limit pfx (e :: rest) [] 0 = .error (.panic .revisionAssertion) := by
  obtain ⟨suffix, a⟩ := e
  simp only [scan, hasValueForRevision, findValueForRevision, le_refl, if_true]
  split_ifs <;> rfl

theorem rangeAfter_zero (ha : prefixAndRangeOfKey start endKey = .ok (pfx, lo, hi))
    (hinv : Bound.inverted lo hi = false) :
    t.rangeAfter start endKey limit 0 =
      if t.selected pfx lo hi = [] then .ok ⟨[], 0, 0⟩
      else .error (.panic .revisionAssertion) := by
  rw [rangeAfter_eq_scan t ha hinv]
  cases t.selected pfx lo hi with
  | nil => rfl
  | cons e rest =>
    rw [scan_zero, if_neg (List.cons_ne_nil e rest)]
    rfl

/-- The live values of the selected keys make up the key-values of an answer. -/
theorem Shows.kvsAt_eq_iff (h : t.Shows rev c) (h' : t'.Shows rev c') (hpos : 0 < rev) :
    t.kvsAt pfx lo hi rev = t'.kvsAt pfx lo hi rev ↔
      ∀ k v, selects pfx lo hi k → (c.live k v ↔ c'.live k v) := by
  have himp {u u' : Store} {d d' : Contents} (hu : u.Shows rev d) (hu' : u'.Shows rev d')
      (heq : u.kvsAt pfx lo hi rev = u'.kvsAt pfx lo hi rev) {k : Bytes} {v : Value}
      (hk : selects pfx lo hi k) (hv : d.live k v) : d'.live k v := by
    have hmem := (hu.live hpos pfx lo hi _).mpr ⟨k, v, hk, hv, rfl⟩
    rw [heq] at hmem
    obtain ⟨k', v', -, hv', hkv⟩ := (hu'.live hpos pfx lo hi _).mp hmem
    obtain ⟨rfl, rfl⟩ := asMvccKeyValue_injective (hu.value k v hv) (hu'.value k' v' hv') hkv
    exact hv'
  constructor
  · intro heq k v hk
    exact ⟨himp h h' heq hk, himp h' h heq.symm hk⟩
  · intro hsame
    apply kvs_ext (kvsAt_sorted _ _ _ _ _) (kvsAt_sorted _ _ _ _ _)
    intro kv
    rw [h.live hpos, h'.live hpos]
    constructor
    · intro hkv
      obtain ⟨k, v, hk, hv, heq⟩ := hkv
      exact ⟨k, v, hk, (hsame k v hk).mp hv, heq⟩
    · intro hkv
      obtain ⟨k, v, hk, hv, heq⟩ := hkv
      exact ⟨k, v, hk, (hsame k v hk).mpr hv, heq⟩

/-- Inverted bounds: only the bucket and the revision count. -/
theorem Shows.inverted_iff (h : t.Shows rev c) (h' : t'.Shows rev' c')
    (ha : prefixAndRangeOfKey start endKey = .ok (pfx, lo, hi))
    (hinv : Bound.inverted lo hi = true) :
    t.rangeAfter start endKey limit rev = t'.rangeAfter start endKey limit rev' ↔
      (c.bucket pfx ↔ c'.bucket pfx) ∧ (c.bucket pfx ∨ rev = rev') := by
  rw [rangeAfter_inverted ha hinv, rangeAfter_inverted ha hinv, ← h.bucket, ← h'.bucket]
  cases (t.prefixMap[pfx]?).isSome <;> cases (t'.prefixMap[pfx]?).isSome <;> simp

theorem Shows.selected_ne_nil_iff (h : t.Shows rev c) :
    t.selected pfx lo hi ≠ [] ↔ ∃ k, selects pfx lo hi k ∧ c.item k := by
  rw [← h.item, ne_eq, List.eq_nil_iff_forall_not_mem, not_forall_not]

/-- Revision 0: the answer is empty or a panic. -/
theorem Shows.zero_iff (h : t.Shows 0 c) (h' : t'.Shows rev' c')
    (ha : prefixAndRangeOfKey start endKey = .ok (pfx, lo, hi))
    (hinv : Bound.inverted lo hi = false) :
    t.rangeAfter start endKey limit 0 = t'.rangeAfter start endKey limit rev' ↔
      rev' = 0 ∧ ((∃ k, selects pfx lo hi k ∧ c.item k) ↔
        ∃ k, selects pfx lo hi k ∧ c'.item k) := by
  rw [rangeAfter_zero ha hinv]
  rcases h'.nonneg.eq_or_lt with hz | hpos
  · subst hz
    rw [rangeAfter_zero ha hinv, ← h.selected_ne_nil_iff, ← h'.selected_ne_nil_iff]
    by_cases hs : t.selected pfx lo hi = [] <;> by_cases hs' : t'.selected pfx lo hi = [] <;>
      simp [hs, hs']
  · rw [rangeAfter_eq t' ha hinv limit hpos]
    constructor
    · intro heq
      split_ifs at heq
      have hrev : (0 : ℤ) = rev' := congrArg RangeResult.latestRev (Except.ok.inj heq)
      omega
    · intro heq
      omega

/-- A reader of contents that answer alike gets the same answer; without a limit the answer
tells whether they do. -/
theorem Shows.answers (h : t.Shows rev c) (h' : t'.Shows rev' c') :
    (c.AnswersAs start endKey rev rev' c' →
      t.rangeAfter start endKey limit rev = t'.rangeAfter start endKey limit rev') ∧
    (limit = none →
      t.rangeAfter start endKey limit rev = t'.rangeAfter start endKey limit rev' →
      c.AnswersAs start endKey rev rev' c') := by
  unfold Contents.AnswersAs
  cases ha : prefixAndRangeOfKey start endKey with
  | error e =>
    rw [rangeAfter_unaccepted ha, rangeAfter_unaccepted ha]
    exact ⟨fun _ => rfl, fun _ _ => trivial⟩
  | ok acc =>
    obtain ⟨pfx, lo, hi⟩ := acc
    dsimp only
    cases hinv : Bound.inverted lo hi with
    | true =>
      rw [if_pos rfl, h.inverted_iff h' ha hinv]
      exact ⟨id, fun _ => id⟩
    | false =>
      rw [if_neg Bool.false_ne_true]
      rcases h.nonneg.eq_or_lt with hz | hpos
      · subst hz
        rw [if_pos rfl, h.zero_iff h' ha hinv]
        exact ⟨id, fun _ => id⟩
      · rw [if_neg hpos.ne', rangeAfter_eq t ha hinv limit hpos]
        constructor
        · rintro ⟨rfl, hsame⟩
          rw [rangeAfter_eq t' ha hinv limit hpos, (h.kvsAt_eq_iff h' hpos).mpr hsame]
        · intro hlimit heq
          subst hlimit
          have hrev := latestRev_rangeAfter ha hinv heq.symm
          dsimp only at hrev
          subst hrev
          rw [rangeAfter_eq t' ha hinv none hpos] at heq
          exact ⟨rfl, (h.kvsAt_eq_iff h' hpos).mp (congrArg RangeResult.kvs (Except.ok.inj heq))⟩

end Answers

/-- A store at its current revision. -/
theorem Coherent.shows {s : Store} (hs : s.Coherent) :
    s.Shows s.currentRevision (.ofStore s) := by
  refine ⟨s.currentRevision_nonneg, fun p => Iff.rfl, ?_, ?_, ?_⟩
  · intro p lo hi
    constructor
    · intro hmem
      obtain ⟨⟨suffix, a⟩, he⟩ := hmem
      obtain ⟨hb, hlo, hhi⟩ := (mem_selected s p lo hi suffix a).mp he
      obtain ⟨k, hk, ha⟩ := hs.toWF.listed p suffix a hb
      refine ⟨k, ?_, Option.isSome_iff_exists.mpr ⟨a, ha⟩⟩
      unfold selects
      rw [hk]
      exact ⟨rfl, hlo, hhi⟩
    · intro hitem
      obtain ⟨k, ⟨hp, hlo, hhi⟩, hk⟩ := hitem
      obtain ⟨a, ha⟩ := Option.isSome_iff_exists.mp hk
      refine ⟨((prefixSplit k).2, a), ?_⟩
      rw [mem_selected, ← hp]
      exact ⟨hs.toWF.indexed k a ha, hlo, hhi⟩
  · intro hpos p lo hi kv
    exact mem_kvsAt_current hs hpos p lo hi kv
  · intro k v hv
    obtain ⟨rfl, hvalue⟩ := VersionLog.Cell.live_eq_some_iff.mp hv
    exact hvalue

theorem bucket_importEntry (t : Store) (e : SnapshotEntry) (p : Bytes) :
    ((t.importEntry e).prefixMap[p]?).isSome ↔ (prefixSplit e.key).1 = p ∨ (t.prefixMap[p]?).isSome := by
  have hmap : (t.importEntry e).prefixMap[p]? =
      if (prefixSplit e.key).1 = p then
        some (((t.prefixMap[(prefixSplit e.key).1]?).getD ∅).insert (prefixSplit e.key).2 t.items.length)
      else t.prefixMap[p]? :=
    getElem?_insert_bytes _ _ _ _
  rw [hmap]
  split_ifs with h
  · simp [h]
  · simp [h]

theorem bucket_foldl_importEntry (entries : List SnapshotEntry) (t : Store) (p : Bytes) :
    ((entries.foldl importEntry t).prefixMap[p]?).isSome ↔
      (∃ e ∈ entries, (prefixSplit e.key).1 = p) ∨ (t.prefixMap[p]?).isSome := by
  induction entries generalizing t with
  | nil => simp
  | cons e entries ih =>
    rw [List.foldl_cons, ih, bucket_importEntry, List.exists_mem_cons_iff]
    exact or_left_comm.trans or_assoc.symm

/-- A store in the middle of an import, from the first step on. -/
theorem importing_shows {s : Store} {entries : List SnapshotEntry}
    (hn : (entries.map (·.key)).Nodup) {n : ℕ} (h0 : 0 < n) {rev : ℤ} (hrev : 0 ≤ rev) :
    (s.importing entries n).Shows rev (.ofEntries (inserted entries n) rev) := by
  refine ⟨hrev, ?_, ?_, ?_, ?_⟩
  · intro p
    by_cases hclear : n ≤ (clearSteps entries).length
    · have hnone : inserted entries n = [] := by
        unfold inserted
        rw [Nat.sub_eq_zero_of_le hclear, List.take_zero]
      rw [importing_prefixMap s h0 hclear, Std.ExtTreeMap.getElem?_empty, hnone]
      simp [Contents.ofEntries]
    · rw [importing_of_cleared s (by omega), bucket_foldl_importEntry, cleared_eq,
        Std.ExtTreeMap.getElem?_empty]
      simp [Contents.ofEntries]
  · intro p lo hi
    constructor
    · intro hmem
      obtain ⟨⟨suffix, a⟩, hsel⟩ := hmem
      obtain ⟨hb, hlo, hhi⟩ := (mem_selected _ p lo hi suffix a).mp hsel
      obtain ⟨-, e, he, hsplit, -⟩ := bucket?_importing hn h0 hb
      refine ⟨e.key, ?_, e, he, rfl⟩
      unfold selects
      rw [hsplit]
      exact ⟨rfl, hlo, hhi⟩
    · intro hitem
      obtain ⟨k, ⟨hp, hlo, hhi⟩, e, he, rfl⟩ := hitem
      obtain ⟨a, hb, -⟩ := exists_bucket?_importing (s := s) hn he
      refine ⟨((prefixSplit e.key).2, a), ?_⟩
      rw [mem_selected, ← hp]
      exact ⟨hb, hlo, hhi⟩
  · intro _ p lo hi kv
    rw [mem_kvsAt_importing hn h0]
    constructor
    · intro hkv
      obtain ⟨e, he, hk, hle, rfl⟩ := hkv
      exact ⟨e.key, e.cell, hk, ⟨e, he, rfl, rfl, hle⟩, rfl⟩
    · intro hkv
      obtain ⟨k, v, hk, ⟨e, he, rfl, rfl, hle⟩, rfl⟩ := hkv
      exact ⟨e, he, hk, hle, rfl⟩
  · intro k v hv
    obtain ⟨e, -, -, rfl, -⟩ := hv
    rfl

end Store

namespace Importing

/-- In this trace a `range` takes its bucket before the import begins, or what it finds there,
at the revision that it has read, answers as the store before the import does or as all that
the import brings. -/
def SeesOneState (s : Store) (entries : List SnapshotEntry) (start endKey : Bytes)
    (trace : List ImportAction) : Prop :=
  let rev := revisionRead s entries trace
  let seen := Contents.ofEntries (Store.inserted entries (importsBefore .bucket trace)) rev
  let last := Store.maxModRev entries
  importsBefore .bucket trace = 0 ∨
    seen.AnswersAs start endKey rev s.currentRevision (.ofStore s) ∨
    seen.AnswersAs start endKey rev last (.ofEntries entries last)

/-- A `range` in any interleaving with an import: if it sees one state, it answers as before
the import or as after it, and without a limit these are all the cases in which it does. -/
theorem import_atomic_iff {s u : Store} (hs : s.Reached) (hu : u.Reached)
    {entries : List SnapshotEntry} (he : u.IsExport entries) {start endKey : Bytes}
    {limit : Option ℕ} {trace : List ImportAction} {r : Importing} {res : Except Fault RangeResult}
    (hrun : (init s entries).run start endKey limit trace = some r)
    (hres : r.range = .returned res) :
    (SeesOneState s entries start endKey trace →
      res = s.range start endKey 0 limit ∨
        res = (s.importSnapshotData entries).range start endKey 0 limit) ∧
    (limit = none → res = s.range start endKey 0 limit ∨
        res = (s.importSnapshotData entries).range start endKey 0 limit →
      SeesOneState s entries start endKey trace) := by
  have hn := he.keys_nodup
  have hp := he.positive hu.coherent
  obtain ⟨hlook, hread⟩ := run_returned hn hrun hres
  have hlast := (s.importSnapshotData_spec hu.coherent he).2.1
  rw [Store.range_eq_rangeAfter, Store.range_eq_rangeAfter, hlast]
  have hafter : (s.importSnapshotData entries).Shows (Store.maxModRev entries)
      (.ofEntries entries (Store.maxModRev entries)) := by
    have hshows := Store.importing_shows (s := s) hn (Store.importSteps_length_pos entries)
      (Store.maxModRev_spec entries hp).1
    rwa [Store.importing_done _ (le_refl _), Store.inserted_all (le_refl _)] at hshows
  unfold SeesOneState
  have horder := hlook.order
  unfold bucketRead at hread
  -- a bucket from before the import goes with a revision from before it
  have hold (h0 : importsBefore .bucket trace = 0) :
      res = s.rangeAfter start endKey limit s.currentRevision := by
    have hrev : importsBefore .revision trace = 0 := by omega
    rw [hread, h0]
    unfold revisionRead
    rw [hrev]
    rfl
  have hnonneg : 0 ≤ revisionRead s entries trace := Store.currentRevision_nonneg _
  generalize revisionRead s entries trace = rev at hread hnonneg
  generalize importsBefore .bucket trace = n at hread hold
  rcases Nat.eq_zero_or_pos n with h0 | h0
  · exact ⟨fun _ => Or.inl (hold h0), fun _ _ => Or.inl h0⟩
  have hseen := Store.importing_shows (s := s) hn h0 hnonneg
  have hfirst := @Store.Shows.answers _ _ _ _ _ _ start endKey limit hseen hs.coherent.shows
  have hsecond := @Store.Shows.answers _ _ _ _ _ _ start endKey limit hseen hafter
  subst hread
  constructor
  · rintro (h | h | h)
    · exact Or.inl (hold h)
    · exact Or.inl (hfirst.1 h)
    · exact Or.inr (hsecond.1 h)
  · rintro hlimit (heq | heq)
    · exact Or.inr (Or.inl (hfirst.2 hlimit heq))
    · exact Or.inr (Or.inr (hsecond.2 hlimit heq))

def twoKeyStore : Store :=
  (Store.new none).run [⟨[97], some [1], none⟩, ⟨[98], some [2], none⟩]

theorem twoKeyStore_reached : twoKeyStore.Reached :=
  .call ⟨[98], some [2], none⟩ (.call ⟨[97], some [1], none⟩ (.new none))

/-- A `range` that has read the revision before the import and takes its bucket when both keys
are in again. -/
theorem import_atomic_of_late_bucket :
    let trace := .revision :: List.replicate 7 .install ++ [.bucket, .item, .item, .item]
    ∃ r res, (init twoKeyStore twoKeyStore.exportSnapshotData).run [97] [99] none trace = some r ∧
      r.range = .returned res ∧ importsBefore .bucket trace = 7 ∧
      (res = twoKeyStore.range [97] [99] 0 none ∨
        res = (twoKeyStore.importSnapshotData twoKeyStore.exportSnapshotData).range [97] [99] 0
          none) := by
  intro trace
  have hphase : ((init twoKeyStore twoKeyStore.exportSnapshotData).run [97] [99] none trace).map
      Importing.range =
      some (.returned (.ok ⟨[⟨[97], [1], 1, 1, 1, 0⟩, ⟨[98], [2], 2, 2, 1, 0⟩], 2, 2⟩)) := rfl
  obtain ⟨r, hrun, hres⟩ := Option.map_eq_some_iff.mp hphase
  refine ⟨r, _, hrun, hres, rfl, ?_⟩
  have hatomic := import_atomic_iff twoKeyStore_reached twoKeyStore_reached (List.Perm.refl _)
    hrun hres
  apply hatomic.1
  -- the revision is the same as after the import, and all entries are in
  exact Or.inr (Or.inr ⟨rfl, fun k v _ => Iff.rfl⟩)

/-- The store is replaced by its own snapshot. A `range` that has read the revision
before and takes the bucket after the first step finds no key at revision 2, although
there are two before the import and after it. -/
theorem import_shows_no_keys :
    ∃ r, (init twoKeyStore twoKeyStore.exportSnapshotData).run [97] [99] none
        [.revision, .install, .bucket] = some r ∧
      r.range = .returned (.ok ⟨[], 2, 0⟩) ∧
      twoKeyStore.range [97] [99] 0 none =
        .ok ⟨[⟨[97], [1], 1, 1, 1, 0⟩, ⟨[98], [2], 2, 2, 1, 0⟩], 2, 2⟩ ∧
      (twoKeyStore.importSnapshotData twoKeyStore.exportSnapshotData).range [97] [99] 0 none =
        .ok ⟨[⟨[97], [1], 1, 1, 1, 0⟩, ⟨[98], [2], 2, 2, 1, 0⟩], 2, 2⟩ := by
  have hphase : ((init twoKeyStore twoKeyStore.exportSnapshotData).run [97] [99] none
      [.revision, .install, .bucket]).map Importing.range =
      some (.returned (.ok ⟨[], 2, 0⟩)) := rfl
  obtain ⟨r, hrun, hres⟩ := Option.map_eq_some_iff.mp hphase
  exact ⟨r, hrun, hres, rfl, rfl⟩

end Importing
end MemEtcd
