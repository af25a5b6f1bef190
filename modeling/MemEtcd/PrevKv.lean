import MemEtcd.PastChanges

/-! The previous key-value of an event. `set` takes it from the item it finds, the scan
for past changes from the revision before in the item. Neither looks whether that was a
live value. -/
namespace MemEtcd

open VersionLog (cells revisionsOf)

/-- The cell of a key right before revision `n` of a history. -/
def cellBefore (writes : List Write) (n : ℤ) (k : Bytes) : Value :=
  cells ((writes.map Write.change).take (n.toNat - 1)) k

/-- The key-value of a key right before revision `n`, if the key was live then. -/
def keyValueBefore (writes : List Write) (n : ℤ) (k : Bytes) : Option KeyValue :=
  (cellBefore writes n k).live.map (fun v => asMvccKeyValue v k)

/-- The key-value of a cell is the truth about a live cell only. -/
theorem some_eq_live_map_iff (v : Value) (k : Bytes) :
    some (asMvccKeyValue v k) = v.live.map (fun v => asMvccKeyValue v k) ↔ v.value.isSome := by
  by_cases h : v.value.isSome
  · rw [VersionLog.Cell.live_of_isSome h, Option.map_some]
    exact iff_of_true rfl h
  · rw [VersionLog.Cell.live_of_isNone (by simpa using h), Option.map_none]
    exact iff_of_false (Option.some_ne_none _) h

/-- What comes before an item of a sorted list are the smaller ones. -/
theorem before_eq_filter {before after : List ℤ} {r : ℤ}
    (h : (before ++ r :: after).Pairwise (· < ·)) :
    before = (before ++ r :: after).filter (· < r) := by
  obtain ⟨_, hra, hbr⟩ := List.pairwise_append.mp h
  have hafter := (List.pairwise_cons.mp hra).1
  have hkeep : before.filter (· < r) = before :=
    List.filter_eq_self.mpr (fun x hx => decide_eq_true (hbr x hx r List.mem_cons_self))
  have hdrop : (r :: after).filter (· < r) = [] := by
    apply List.filter_eq_nil_iff.mpr
    intro x hx
    rcases List.mem_cons.mp hx with rfl | hx
    · simp
    · simpa using (hafter x hx).le
  rw [List.filter_append, hkeep, hdrop, List.append_nil]

namespace Store

/-! ### The live path -/

/-- A successful call sends one job, with the cell that it has found as the previous one
whenever the key has an item. -/
theorem call_job {s : Store} (hs : s.WF) {c : Call} {n : ℤ} (h : (s.call c).2 = .ok n) :
    n = s.currentRevision + 1 ∧ ∃ job, (s.call c).1.notifyTx = s.notifyTx ++ [job] ∧ job.rev = n ∧
      job.msg.kv = asMvccKeyValue ((s.call c).1.view c.key).latestValue c.key ∧
      job.msg.prevKv = (if (s.treeMap[c.key]?).isNone then none
        else some (asMvccKeyValue (s.view c.key).latestValue c.key)) := by
  cases hc : checkItem (s.view c.key) c.value c.required with
  | error kv =>
    have hres := (set_refused hs hc).1
    rw [call, hres] at h
    contradiction
  | ok u =>
    obtain ⟨hres, hview, _⟩ := set_accepted hs hc
    obtain ⟨hu, _, _⟩ := update_ok hs hc
    rw [call, hres] at h
    cases h
    unfold call
    rw [hview, Function.update_self]
    rcases set_cases s c.key c.value c.required with ⟨kv, hkv, _⟩ | ⟨d, hd, he⟩
    · rw [hu] at hkv
      contradiction
    · rw [hu] at hd
      cases hd
      rw [he]
      refine ⟨rfl, _, congrArg (· ++ [_]) (update_sameNotify s c.key c.value c.required).notifyTx,
        ?_, rfl, ?_⟩
      · exact VersionLog.Cell.next_modRevision _ _ _
      · change Option.map _ (if (s.treeMap[c.key]?).isNone then none else _) = _
        split_ifs <;> rfl

/-! ### The past changes -/

/-- The key-value that the array stores at a revision of `key`. -/
def storedKv (s : Store) (key : Bytes) (r : ℤ) : Option KeyValue :=
  (s.valuesByRevision.at? (r.toNat - 1)).map (fun v => asMvccKeyValue v key)

/-- The loop over the revisions takes the previous key-value from the revision before. -/
theorem changesFrom_prev (s : Store) (item : TreeItem) (startRev : ℤ) {p : KeyValueWithPrev}
    (revisions : List ℤ) (prevKv : Option KeyValue)
    (h : p ∈ s.changesFrom item startRev true revisions prevKv) :
    ∃ before r after, revisions = before ++ r :: after ∧ startRev ≤ r ∧
      s.storedKv item.key r = some p.kv ∧
      p.prevKv = before.getLast?.elim prevKv (s.storedKv item.key) := by
  induction revisions generalizing prevKv with
  | nil => cases h
  | cons r revisions ih =>
    have hget := s.valuesByRevision.get_eq_at? (r.toNat - 1)
    -- what a later round finds, it finds behind this revision
    have hlater (hp : p ∈ s.changesFrom item startRev true revisions (s.storedKv item.key r)) :
        ∃ before r' after, r :: revisions = before ++ r' :: after ∧ startRev ≤ r' ∧
          s.storedKv item.key r' = some p.kv ∧
          p.prevKv = before.getLast?.elim prevKv (s.storedKv item.key) := by
      obtain ⟨before, r', after, hsplit, hle, hkv, hprev⟩ := ih _ hp
      refine ⟨r :: before, r', after, congrArg (List.cons r) hsplit, hle, hkv, ?_⟩
      rw [hprev, List.getLast?_cons]
      cases before.getLast? <;> rfl
    unfold changesFrom at h
    unfold storedKv at hlater
    cases hv : s.valuesByRevision.at? (r.toNat - 1) with
    | none =>
      rw [hv] at hget hlater
      rw [hget] at h
      exact hlater h
    | some v =>
      rw [hv] at hget hlater
      rw [hget] at h
      rcases List.mem_append.mp h with hnow | hrest
      · split_ifs at hnow with hle
        · cases List.mem_singleton.mp hnow
          refine ⟨[], r, revisions, rfl, hle, ?_, rfl⟩
          rw [storedKv, hv]
          rfl
        · cases hnow
      · exact hlater hrest

/-- The scan of an item goes one revision back, so that every change that it finds has the
revision before of the item as its previous one. -/
theorem itemChanges_prev (s : Store) {item : TreeItem} (h : item.revisions.Pairwise (· < ·))
    {startRev : ℤ} {p : KeyValueWithPrev} (hp : p ∈ s.itemChanges startRev true item) :
    ∃ before r after, item.revisions = before ++ r :: after ∧ startRev ≤ r ∧
      s.storedKv item.key r = some p.kv ∧
      p.prevKv = before.getLast?.bind (s.storedKv item.key) := by
  -- the loop begins at `pos`, and what lies before `pos + 1` is below the start revision
  obtain ⟨pos, hloop, hbelow⟩ : ∃ pos,
      p ∈ s.changesFrom item startRev true (item.revisions.drop pos) none ∧
      (pos = 0 ∨ ∀ y ∈ item.revisions.take (pos + 1), y < startRev) := by
    have hback (i : ℕ) (hi : binarySearch item.revisions startRev = .ok i ∨
        binarySearch item.revisions startRev = .error i) :
        (if i > 0 ∧ true then i - 1 else i) = 0 ∨
          ∀ y ∈ item.revisions.take ((if i > 0 ∧ true then i - 1 else i) + 1), y < startRev := by
      rcases Nat.eq_zero_or_pos i with rfl | hpos
      · exact Or.inl rfl
      · rw [if_pos ⟨hpos, rfl⟩, Nat.sub_add_cancel hpos]
        exact Or.inr (binarySearch_below h startRev hi)
    unfold itemChanges at hp
    dsimp only at hp
    cases hb : binarySearch item.revisions startRev with
    | ok i =>
      rw [hb] at hp
      exact ⟨_, hp, hback i (Or.inl hb)⟩
    | error i =>
      rw [hb] at hp
      exact ⟨_, hp, hback i (Or.inr hb)⟩
  obtain ⟨before, r, after, hsplit, hle, hkv, hprev⟩ := changesFrom_prev s item startRev _ _ hloop
  have hall : item.revisions = (item.revisions.take pos ++ before) ++ r :: after := by
    rw [List.append_assoc, ← hsplit, List.take_append_drop]
  refine ⟨_, r, after, hall, hle, hkv, ?_⟩
  rw [hprev]
  cases hl : before.getLast? with
  | some r' =>
    rw [List.getLast?_append, hl]
    rfl
  | none =>
    -- the first round: it is the first revision of the item, or it is not collected
    rw [List.getLast?_eq_none_iff.mp hl] at hsplit ⊢
    rcases hbelow with rfl | hbelow
    · rfl
    · have hr : r ∈ item.revisions.take (pos + 1) := by
        rw [List.take_add, hsplit]
        simp
      exact absurd (hbelow r hr) (by omega)

theorem Represents.mem_revisions {s : Store} {log : History} (h : s.Represents log) {k : Bytes}
    {r : ℤ} (hr : r ∈ (s.view k).revisions) : r ∈ revisionsOf log k := by
  obtain ⟨d, _, hrevs⟩ := h.revisions k
  rw [hrevs] at hr
  exact List.mem_of_mem_filter hr

/-- The array holds the cells of the revisions that are not compacted. -/
theorem Represents.storedKv_eq {s : Store} {log : History} (h : s.Represents log) {k : Bytes}
    {r : ℤ} (hr : r ∈ revisionsOf log k) (hc : s.compactedRevision < r) :
    s.storedKv k r = some (asMvccKeyValue (cells (log.take r.toNat) k) k) := by
  have hpos := (VersionLog.revisionsOf_bounds hr).1
  have hcast : (r.toNat : ℤ) = r := Int.toNat_of_nonneg (by omega)
  unfold compactedRevision at hc
  rw [storedKv, h.stored k r.toNat (by omega) (hcast.symm ▸ hr)]
  rfl

/-- The revision before `r` in an item, if it is not compacted, is that of the key's cell
before `r`. -/
theorem Represents.getLast?_before {s : Store} {log : History} (h : s.Represents log)
    {k : Bytes} {before after : List ℤ} {r : ℤ}
    (hsplit : (s.view k).revisions = before ++ r :: after) :
    let old := cells (log.take (r.toNat - 1)) k
    (old.modRevision = 0 → before.getLast? = none) ∧
      (s.compactedRevision < old.modRevision → before.getLast? = some old.modRevision) := by
  obtain ⟨d, hd, hr⟩ := h.revisions k
  have hmem : r ∈ revisionsOf log k := h.mem_revisions (by simp [hsplit])
  have hpos := (VersionLog.revisionsOf_bounds hmem).1
  have hbefore : before = (revisionsOf (log.take (r.toNat - 1)) k).filter (d ≤ ·) := by
    have hsorted := h.revisions_sorted k
    rw [hsplit] at hsorted
    rw [before_eq_filter hsorted, ← hsplit, hr, VersionLog.revisionsOf_take, List.filter_filter,
      List.filter_filter]
    apply List.filter_congr
    intro x _
    rw [← Bool.decide_and, ← Bool.decide_and, decide_eq_decide]
    omega
  have hlast := VersionLog.getLast?_revisionsOf (log.take (r.toNat - 1)) k
  refine ⟨fun hz => ?_, fun hc => ?_⟩
  · rw [if_pos hz] at hlast
    rw [hbefore, List.getLast?_eq_none_iff.mp hlast]
    rfl
  · -- the last revision is kept when the item drops the compacted ones
    have hnn : (0 : ℤ) ≤ s.compactedRevision := Int.natCast_nonneg _
    have hkeep : d ≤ (cells (log.take (r.toNat - 1)) k).modRevision := by
      unfold compactedRevision at hc
      omega
    rw [if_neg (by omega)] at hlast
    obtain ⟨init, hinit⟩ := List.getLast?_eq_some_iff.mp hlast
    rw [hbefore, hinit, List.filter_append, List.filter_singleton, decide_eq_true hkeep]
    exact List.getLast?_concat

/-- A change of a key that the scan finds has the key's cell before it as its previous
key-value, live or not, unless it is the first change of the key. -/
theorem Represents.itemChanges_prevKv {s : Store} {log : History} (hs : s.WF)
    (h : s.Represents log) {startRev : ℤ} (hc : s.compactedRevision < startRev) {k : Bytes}
    {p : KeyValueWithPrev} (hp : p ∈ s.itemChanges startRev true (s.view k)) :
    p.kv.key = k ∧
      let old := cells (log.take (p.kv.modRevision.toNat - 1)) k
      (old.modRevision = 0 → p.prevKv = none) ∧
      (s.compactedRevision < old.modRevision → p.prevKv = some (asMvccKeyValue old k)) := by
  obtain ⟨before, r, after, hsplit, hle, hkv, hprev⟩ :=
    itemChanges_prev s (h.revisions_sorted k) hp
  rw [view_key hs.toHeapOk] at hkv hprev
  have hmem : r ∈ revisionsOf log k := h.mem_revisions (by simp [hsplit])
  rw [h.storedKv_eq hmem (by omega)] at hkv
  have hkv := (Option.some.inj hkv).symm
  have hrev : p.kv.modRevision = r := by
    rw [hkv]
    exact VersionLog.modRevision_cells_take hmem
  obtain ⟨hfirst, hlater⟩ := h.getLast?_before hsplit
  refine ⟨by rw [hkv]; rfl, ?_, ?_⟩
  · intro hz
    rw [hrev] at hz
    rw [hprev, hfirst hz]
    rfl
  · intro hold
    rw [hrev] at hold ⊢
    have hnn : (0 : ℤ) ≤ s.compactedRevision := Int.natCast_nonneg _
    have hne : (cells (log.take (r.toNat - 1)) k).modRevision ≠ 0 := by omega
    obtain ⟨hin, hbound⟩ := VersionLog.modRevision_take_mem log k (r.toNat - 1) hne
    -- the key has kept that cell until `r`
    have hsame : cells (log.take (cells (log.take (r.toNat - 1)) k).modRevision.toNat) k =
        cells (log.take (r.toNat - 1)) k := by
      have h' := VersionLog.cells_take_modRevision _ k hne
      rw [List.take_take, min_eq_left (by omega)] at h'
      exact h'
    rw [hprev, hlater hold, Option.bind_some, h.storedKv_eq hin hold, hsame]

/-- A watch that finds past changes has read the items of its keys. -/
theorem mem_past {s s' : Store} (hs : s.WF) {start endKey : Bytes} {rev id : ℤ}
    {wantPrevKv : Bool} {past : List KeyValueWithPrev}
    (hw : s.watch start endKey rev wantPrevKv = (s', .ok (.ok (past, id))))
    {p : KeyValueWithPrev} (hp : p ∈ past) :
    s.compactedRevision < rev ∧ ∃ k, p ∈ s.itemChanges rev wantPrevKv (s.view k) := by
  by_cases hrev : 0 < rev
  · obtain ⟨_, _, hc, pfx, lo, hi, _, _, rfl⟩ := watch_ok hrev hw
    obtain ⟨e, he, hpe⟩ := List.mem_flatMap.mp hp
    rw [← view_of_owned (deref_selected hs.toHeapOk he).1] at hpe
    exact ⟨hc, _, hpe⟩
  · -- a watch of future changes scans nothing
    unfold watch at hw
    dsimp only at hw
    rw [if_neg (fun h => hrev h.1), if_neg hrev] at hw
    cases hw
    cases hp

theorem isSome_keyValueBefore (writes : List Write) (n : ℤ) (k : Bytes) :
    (keyValueBefore writes n k).isSome = (cellBefore writes n k).value.isSome := by
  rw [keyValueBefore, Option.isSome_map, VersionLog.Cell.live_isSome]

/-- On the live path the item is all that counts, and a key without a value may have one:
a tombstone, or what a failed call has left. -/
theorem Bookkept.call_prevKv_iff {s : Store} {writes : List Write} (h : s.Bookkept writes)
    {c : Call} {n : ℤ} (hn : (s.call c).2 = .ok n) :
    ∃ job, (s.call c).1.notifyTx = s.notifyTx ++ [job] ∧ job.rev = n ∧ job.msg.kv.key = c.key ∧
      (job.msg.prevKv = keyValueBefore writes n c.key ↔
        (keyValueBefore writes n c.key).isSome ∨ s.treeMap[c.key]? = none) := by
  obtain ⟨hnew, job, hjob, hrev, hkv, hprev⟩ := call_job h.wf hn
  refine ⟨job, hjob, hrev, by rw [hkv]; rfl, ?_⟩
  -- the cell before the new revision is the one that the call has found
  have hold : cellBefore writes n c.key = (s.view c.key).latestValue := by
    rw [h.represents.currentRevision_eq] at hnew
    rw [h.represents.latest, cellBefore, List.take_of_length_le (by omega)]
  rw [isSome_keyValueBefore, keyValueBefore, hold, hprev]
  cases hitem : s.treeMap[c.key]? with
  | none =>
    rw [view_of_vacant hitem]
    exact iff_of_true rfl (Or.inr rfl)
  | some a =>
    change some _ = _ ↔ _ ∨ some a = none
    rw [some_eq_live_map_iff, or_iff_left (Option.some_ne_none a)]

theorem Bookkept.past_prevKv_iff {s s' : Store} {writes : List Write} (h : s.Bookkept writes)
    {start endKey : Bytes} {rev id : ℤ} {past : List KeyValueWithPrev}
    (hw : s.watch start endKey rev true = (s', .ok (.ok (past, id)))) {p : KeyValueWithPrev}
    (hp : p ∈ past) :
    let old := cellBefore writes p.kv.modRevision p.kv.key
    old.modRevision = 0 ∨ s.compactedRevision < old.modRevision →
    (p.prevKv = keyValueBefore writes p.kv.modRevision p.kv.key ↔
      (keyValueBefore writes p.kv.modRevision p.kv.key).isSome ∨ old.modRevision = 0) := by
  obtain ⟨hc, k, hpk⟩ := mem_past h.wf hw hp
  obtain ⟨rfl, hfirst, hlater⟩ := h.represents.itemChanges_prevKv h.wf hc hpk
  dsimp only
  rw [isSome_keyValueBefore, keyValueBefore]
  rintro (hz | hlt)
  · have hblank : cellBefore writes p.kv.modRevision p.kv.key = VersionLog.Cell.blank :=
      VersionLog.cells_of_modRevision_zero _ _ hz
    rw [hfirst hz, hblank]
    exact iff_of_true rfl (Or.inr rfl)
  · have hnn : (0 : ℤ) ≤ s.compactedRevision := Int.natCast_nonneg _
    rw [hlater hlt, or_iff_left (by omega)]
    exact some_eq_live_map_iff _ _

/-- The previous key-value of an event after any history. On the live path it is the
truth exactly if the key was live before or has no item yet; in the past changes, with the
key's revision before not compacted, exactly if the key was live before or this is its
first revision. -/
theorem prevKv_truthful_iff (wal : Option WalMode) (ops : List Operation) :
    let s := ((new wal).performAll ops).1
    let writes := ((new wal).performAll ops).2
    (∀ c n, (s.call c).2 = .ok n → ∃ job, (s.call c).1.notifyTx = s.notifyTx ++ [job] ∧
      job.rev = n ∧ job.msg.kv.key = c.key ∧
      (job.msg.prevKv = keyValueBefore writes n c.key ↔
        (keyValueBefore writes n c.key).isSome ∨ s.treeMap[c.key]? = none)) ∧
    ∀ start endKey rev s' past id, s.watch start endKey rev true = (s', .ok (.ok (past, id))) →
      ∀ p ∈ past, let old := cellBefore writes p.kv.modRevision p.kv.key
        old.modRevision = 0 ∨ s.compactedRevision < old.modRevision →
        (p.prevKv = keyValueBefore writes p.kv.modRevision p.kv.key ↔
          (keyValueBefore writes p.kv.modRevision p.kv.key).isSome ∨ old.modRevision = 0) := by
  have h := performAll_bookkept (new_bookkept wal) ops
  exact ⟨fun c n hn => h.call_prevKv_iff hn,
    fun start endKey rev s' past id hw p hp => h.past_prevKv_iff hw hp⟩

/-- The second write of `a`, when it is made and when it is looked up. -/
theorem prevKv_truthful_of_second_write :
    let first := ((new none).performAll [.call ⟨[97], some [1], none⟩])
    let both := ((new none).performAll
      [.call ⟨[97], some [1], none⟩, .call ⟨[97], some [2], none⟩])
    (∃ job, (first.1.call ⟨[97], some [2], none⟩).1.notifyTx = first.1.notifyTx ++ [job] ∧
      job.msg.prevKv = some ⟨[97], [1], 1, 1, 1, 0⟩) ∧
    ∃ p, (both.1.watch [97] [] 2 true).2 = .ok (.ok ([p], 1)) ∧
      p.prevKv = some ⟨[97], [1], 1, 1, 1, 0⟩ := by
  refine ⟨?_, ?_⟩
  · obtain ⟨job, hjob, _, _, hiff⟩ :=
      (prevKv_truthful_iff none [.call ⟨[97], some [1], none⟩]).1 ⟨[97], some [2], none⟩ 2
        (by decide)
    exact ⟨job, hjob, hiff.mpr (Or.inl (by decide))⟩
  · have h := (prevKv_truthful_iff none
      [.call ⟨[97], some [1], none⟩, .call ⟨[97], some [2], none⟩]).2 [97] [] 2 _
        [⟨⟨[97], [2], 1, 2, 2, 0⟩, some ⟨[97], [1], 1, 1, 1, 0⟩⟩] 1 rfl _
        (List.mem_singleton_self _) (Or.inr (by decide))
    exact ⟨_, rfl, h.mpr (Or.inl (by decide))⟩

/-- A key that is written again after its deletion, and a key whose deletion has failed:
both are announced with a previous key-value and neither was live. The scan for past
changes says the same of the first. -/
theorem prevKv_of_dead_key :
    let deleted := ((new none).performAll [.call ⟨[97], some [1], none⟩, .call ⟨[97], none, none⟩])
    let failed := ((new none).performAll [.call ⟨[97], none, none⟩])
    let again := (deleted.1.call ⟨[97], some [2], none⟩).1
    keyValueBefore deleted.2 3 [97] = none ∧
      again.notifyTx.getLast?.map (·.msg.prevKv) = some (some ⟨[97], [], 0, 2, 0, 0⟩) ∧
      (again.watch [97] [] 3 true).2 = .ok (.ok
        ([⟨⟨[97], [2], 3, 3, 1, 0⟩, some ⟨[97], [], 0, 2, 0, 0⟩⟩], 1)) ∧
    keyValueBefore failed.2 1 [97] = none ∧
      (failed.1.call ⟨[97], some [1], none⟩).1.notifyTx.map (·.msg.prevKv) =
        [some ⟨[97], [], 0, 0, 0, 0⟩] := by
  dsimp only
  refine ⟨?_, ?_, ?_, ?_, ?_⟩ <;> decide

end Store
end MemEtcd
