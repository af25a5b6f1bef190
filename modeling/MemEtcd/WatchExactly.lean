import MemEtcd.WatchScan

/-! A watch stream loses nothing and repeats nothing, as long as the keys of a watched
range are left alone while the stream is set up: then no change is both a past
one and one for the channel, and what comes on the channel is newer than all past
changes. A stream of a single key needs no such care, since the last change of one
key is its newest. In both cases the items of the changes have to be in `prefix_map` when
the scan takes its bucket: two calls may create a key together, and the second one commits
while the first has still to list the item. -/
namespace MemEtcd

open Handover (threshold delivered)

namespace WatchCreateRequest

/-- The start revision is given, the end does not look like that of an open range, and
the named keys lie in one bucket. -/
structure Regular (req : WatchCreateRequest) : Prop where
  start : 0 < req.startRevision
  last : req.rangeEnd.getLast? ≠ some 0
  bucket : ∀ k, req.names k → bucketOf k = bucketOf req.key

/-- The scan goes over the named keys. -/
theorem Regular.requests_iff {req : WatchCreateRequest} (h : req.Regular) {pfx : Bytes}
    {lo hi : Bound Bytes} (ha : prefixAndRangeOfKey req.key req.rangeEnd = .ok (pfx, lo, hi))
    (k : Bytes) : requests req.key req.rangeEnd k ↔ req.names k :=
  (requests_iff_etcdRange ha).mpr ⟨Or.inr (fun hz => h.last hz.1), h.bucket⟩ k

/-- The live path covers the named keys. -/
theorem Regular.covers_iff {req : WatchCreateRequest} (h : req.Regular) {id : ℤ}
    (hid : id < 9223372036854775807) (k : Bytes) :
    Store.Covers req.key req.rangeEnd id k ↔ req.names k := by
  by_cases hne : req.rangeEnd = []
  · rw [names_single hne, hne, Store.covers_single]
    exact and_iff_left hid
  · have hzero : req.rangeEnd ≠ [0] := by
      intro he
      apply h.last
      rw [he]
      rfl
    rw [Store.covers_range hne]
    unfold names etcdRange
    rw [if_neg hne, if_neg hzero]
    constructor
    · intro hc
      exact ⟨hc.1, hc.2.1⟩
    · intro hc
      exact ⟨hc.1, hc.2, fun _ => hid⟩

end WatchCreateRequest

namespace WatchSession

/-! ### An open stream -/

/-- The watcher of the stream is registered, its channel is open, and nothing that was
sent there is lost. -/
structure Live (s : Server) (st : WatchStream) : Prop where
  regular : st.request.Regular
  id : st.watcherId < 9223372036854775807
  watcher : s.store.watchers[(st.request.key, st.watcherId)]? =
    some ⟨st.request.startRevision, st.request.key, st.request.rangeEnd, st.channel⟩
  isOpen : (s.sinks.channels st.channel).closed = false
  carries : st.Carries s (s.feed st.channel)

/-- The calls that collect their watchers find the stream. -/
theorem Live.notifies {s : Server} {st : WatchStream} (h : Live s st) (he : s.store.Enrolled)
    (k : Bytes) (n : ℤ) (hk : st.request.names k) (hn : st.request.startRevision ≤ n) :
    st.channel ∈ s.store.watchersToNotify k n := by
  rw [he.mem_watchersToNotify h.watcher k n]
  exact ⟨hn, (h.regular.covers_iff h.id k).mpr hk⟩

/-- The other threads leave the watcher of the stream alone. -/
theorem foreign_watcher {s : WatchSession} {st : WatchStream} (hst : s.stream = some st)
    (hid : st.watcherId ≤ s.server.store.watchCounter) {a : Action} (ha : s.foreign a)
    (k : Bytes) :
    (s.server.step a).store.watchers[(k, st.watcherId)]? =
      s.server.store.watchers[(k, st.watcherId)]? := by
  cases a with
  | enter c => exact congrArg (·[(k, st.watcherId)]?) (s.server.enter_sameDispatch c).notify.watchers
  | index i => exact congrArg (·[(k, st.watcherId)]?) (s.server.index_sameDispatch i).notify.watchers
  | lock i => exact congrArg (·[(k, st.watcherId)]?) (s.server.lock_sameDispatch i).notify.watchers
  | collect i =>
    simp only [Server.step, Server.collect]
    cases s.server.committed[i]? <;> rfl
  | send i =>
    simp only [Server.step, Server.send]
    cases s.server.collected[i]? <;> rfl
  | receive => contradiction
  | watch startKey endKey rev wantPrevKv =>
    simp only [Server.step]
    rcases s.server.watch_cases startKey endKey rev wantPrevKv with he | ⟨startRev, he⟩
    · rw [he]
    · -- the new watcher has an id of its own
      rw [he, Store.getElem?_register, if_neg]
      intro heq
      have hnew : s.server.store.watchCounter + 1 = st.watcherId := congrArg Prod.snd heq
      omega
  | unwatch startKey watcherId =>
    -- watchers are removed by their id, and this id is of another stream
    have hne : st.watcherId ≠ watcherId := by simpa [foreign, hst] using ha
    simp only [Server.step, Store.unwatch]
    rw [Std.ExtTreeMap.getElem?_erase, if_neg]
    rw [Std.LawfulEqCmp.compare_eq_iff_eq]
    intro heq
    exact hne (congrArg Prod.snd heq).symm
  | compact rev =>
    simp only [Server.step]
    rw [(s.server.store.compact_sameNotify rev).watchers]
  | importSnapshot entries =>
    simp only [Server.step]
    rw [(s.server.store.importSnapshotData_sameNotify entries).watchers]
  | _ => rfl

theorem Live.foreign {s : WatchSession} {st : WatchStream} (hst : s.stream = some st)
    (h : Live s.server st) (hid : st.watcherId ≤ s.server.store.watchCounter)
    (he : s.server.store.Enrolled) {a : Action} (ha : s.foreign a) :
    Live (s.server.step a) st := by
  have hchannel := foreign_channel hst hid he.counter ha
  refine ⟨h.regular, h.id, ?_, ?_, ?_⟩
  · rw [foreign_watcher hst hid ha]
    exact h.watcher
  · rw [hchannel]
    exact h.isOpen
  · rw [Server.feed_of_same (s.server.step_thread (foreign_ne_receive ha)).2]
    exact h.carries.congr hchannel

theorem Live.works {s : Server} {st : WatchStream} (h : Live s st) {draining : Bool}
    (ho : s.Orderly draining)
    (hroom : (s.sinks.channels st.channel).buffer.length < watchChannelSize) :
    Live (s.work draining).1 st := by
  have hw := ho.works
  have hn (job : NotifyJob) (hj : job ∈ s.jobs) := (ho.posted job hj).1
  obtain ⟨rest, hstore⟩ := hw.store
  obtain ⟨new, sent, hfeed, hcarries, _, hall⟩ := h.carries.works hw hn
  refine ⟨h.regular, h.id, ?_, ?_, ?_⟩
  · rw [hstore]
    exact h.watcher
  · rcases hw.sends with ⟨_, hsinks, _, _⟩ | ⟨job, hjob, _, hsinks, _, _⟩
    · rw [hsinks]
      exact h.isOpen
    · rw [hsinks, closed_doSend _ (hn job hjob)]
      exact h.isOpen
  · rw [hfeed, ← hall h.isOpen hroom]
    exact hcarries

/-- A stream that is open after a step was open before, and the step has taken at most
something out of its channel. -/
theorem open_of_moves {s t : Server} {st st' : WatchStream} (hm : WatchStream.Moves s st t st')
    (hopen : st'.stage ≠ .ended) :
    st.stage ≠ .ended ∧ (t = s ∨ ∃ rest, t = s.setChannel st.channel
      ⟨rest, (s.sinks.channels st.channel).closed⟩) := by
  cases hm with
  | opens left hst => exact ⟨by simp [hst], Or.inl rfl⟩
  | refuses => exact absurd rfl hopen
  | panics => exact absurd rfl hopen
  | reads e left hst => exact ⟨by simp [hst], Or.inl rfl⟩
  | confirms hst => exact ⟨by simp [hst], Or.inl rfl⟩
  | sendsPast hst => exact ⟨by simp [hst], Or.inl rfl⟩
  | forwards batch rest hst => exact ⟨by simp [hst], Or.inr ⟨rest, rfl⟩⟩
  | answers hst => exact ⟨by simp [hst], Or.inl rfl⟩
  | goes stage _ hst => exact ⟨hst, Or.inl rfl⟩
  | stops => exact absurd rfl hopen
  | stays => exact ⟨hopen, Or.inl rfl⟩

theorem Live.moves {s t : Server} {st st' : WatchStream} (h : Live s st)
    (hm : WatchStream.Moves s st t st') (hopen : st'.stage ≠ .ended) {draining : Bool}
    (ho : s.Orderly draining) : Live t st' := by
  obtain ⟨hid, hreq⟩ := hm.same
  have hch : st'.channel = st.channel := congrArg Int.toNat hid
  have ht := (open_of_moves hm hopen).2
  refine ⟨hreq ▸ h.regular, hid ▸ h.id, ?_, ?_, ?_⟩
  · rw [hid, hreq, hch]
    rcases ht with rfl | ⟨rest, rfl⟩
    · exact h.watcher
    · exact h.watcher
  · rw [hch]
    rcases ht with rfl | ⟨rest, rfl⟩
    · exact h.isOpen
    · rw [Server.channels_setChannel_self]
      exact h.isOpen
  · rw [hch, hm.touches.feed]
    exact h.carries.moves hm (ho.feed_sorted st.channel)

/-- The scan is ahead, or under way, or over; a stream that has ended has repeated
nothing. -/
def Phase (s : Server) (st : WatchStream) : Prop :=
  match st.stage with
  | .registered => Still s st.request st.channel
  | .scanning (e :: left) => Scans s st.request st.channel (e :: left) st.pastChanges
  | .ended => (st.events.map (·.kv.modRevision)).Nodup
  | _ => Handed s st.request st.channel st.pastChanges

theorem phase_scanning {s : Server} {st : WatchStream} {left : List (Bytes × ℕ)}
    (hst : st.stage = .scanning left) {draining : Bool} (ho : s.Orderly draining)
    (h : Scans s st.request st.channel left st.pastChanges) : Phase s st := by
  unfold Phase
  rw [hst]
  cases left with
  | nil => exact h.handed ho
  | cons e left => exact h

/-- From the end of the scan on. -/
theorem phase_iff_handed {s : Server} {st : WatchStream} (hr : st.returned = true)
    (hopen : st.stage ≠ .ended) :
    Phase s st ↔ Handed s st.request st.channel st.pastChanges := by
  unfold Phase
  unfold WatchStream.returned at hr
  split
  · rename_i hst
    rw [hst] at hr
    contradiction
  · rename_i hst
    rw [hst] at hr
    contradiction
  · rename_i hst
    exact absurd hst hopen
  · rfl

/-- What is sent to a channel is for the channel. -/
theorem owes_of_feed {s : Server} {draining : Bool} (ho : s.Orderly draining) {ch : ℕ}
    {c : KeyValueWithPrev} (hc : c ∈ s.feed ch) : s.Owes ch c.rev := by
  obtain ⟨job, hjob, rfl⟩ := List.mem_map.mp hc
  obtain ⟨hjob, hch⟩ := List.mem_filter.mp hjob
  have hmem := Server.mem_jobs_of_dispatched hjob
  exact Or.inr ⟨job, hmem, (ho.job_rev hmem).symm, of_decide_eq_true hch⟩

/-- No revision comes twice. -/
theorem Phase.events_nodup {s : Server} {st : WatchStream} (h : Phase s st) {draining : Bool}
    (ho : s.Orderly draining) (hlive : st.stage ≠ .ended → Live s st) :
    (st.events.map (·.kv.modRevision)).Nodup := by
  by_cases hopen : st.stage = .ended
  · unfold Phase at h
    rw [hopen] at h
    exact h
  obtain ⟨taken, hshows, _, heq⟩ := (hlive hopen).carries
  cases hb : st.begun with
  | false =>
    rw [(hshows.before hb).2]
    exact List.nodup_nil
  | true =>
    have hhanded := (phase_iff_handed (WatchStream.returned_of_begun hb) hopen).mp h
    have hfeed := heq hopen
    have hsorted := ho.feed_sorted st.channel
    rw [← hfeed] at hsorted
    have hnodup : ((delivered KeyValueWithPrev.rev st.pastChanges taken).map
        KeyValueWithPrev.rev).Nodup := by
      apply Handover.delivered_nodup hhanded.nodup (List.pairwise_append.mp hsorted).1
      -- a past change that was taken is held back
      intro p hp c hc hrev
      have howes : s.Owes st.channel c.rev := by
        apply owes_of_feed ho
        rw [← hfeed]
        exact List.mem_append_left _ hc
      rw [← hrev] at howes ⊢
      exact hhanded.once p hp howes
    rw [(hshows.loop hb).1, List.map_map]
    exact hnodup

/-! ### One step -/

/-- `Store::watch` goes over the items of an accepted request. -/
theorem openBucket_open {s : Server} {st : WatchStream} (hpos : 0 < st.request.startRevision)
    (hopen : (st.openBucket s).2.stage ≠ .ended) :
    ∃ pfx lo hi, prefixAndRangeOfKey st.request.key st.request.rangeEnd = .ok (pfx, lo, hi) ∧
      st.openBucket s = (s, { st with stage := .scanning (s.store.selected pfx lo hi) }) := by
  cases ha : prefixAndRangeOfKey st.request.key st.request.rangeEnd with
  | error e =>
    unfold WatchStream.openBucket at hopen
    rw [if_pos (show st.request.startRevision > 0 from hpos), ha] at hopen
    exact absurd rfl hopen
  | ok acc =>
    obtain ⟨pfx, lo, hi⟩ := acc
    refine ⟨pfx, lo, hi, rfl, openBucket_accepted hpos ha ?_⟩
    -- inverted bounds on a bucket that exists make `BTreeMap::range` panic, and the
    -- stream would have ended
    by_contra hb
    obtain ⟨hsome, hinv⟩ := not_or.mp hb
    obtain ⟨btree, hb⟩ := Option.ne_none_iff_exists'.mp hsome
    have hrange : btreeRange btree lo hi = .error (.panic .rangeBounds) := by
      unfold btreeRange
      rw [if_pos (by simpa using hinv)]
    unfold WatchStream.openBucket at hopen
    rw [if_pos (show st.request.startRevision > 0 from hpos), ha] at hopen
    dsimp only at hopen
    rw [hb] at hopen
    dsimp only at hopen
    rw [hrange] at hopen
    exact absurd rfl hopen

/-- A stream that ends says nothing more. -/
theorem events_of_ended {s t : Server} {st st' : WatchStream} (hm : WatchStream.Moves s st t st')
    (hended : st'.stage = .ended) : st'.events = st.events := by
  cases hm with
  | refuses =>
    unfold WatchStream.refuse
    rw [WatchStream.events_respond, List.append_nil]
  | confirms => contradiction
  | sendsPast =>
    rw [(st.sendPast_cases s).1] at hended
    contradiction
  | forwards batch =>
    rw [(st.forward_cases batch).1] at hended
    contradiction
  | answers => contradiction
  | _ => rfl

theorem not_returned {st : WatchStream} (h : st.returned = false) :
    st.stage = .registered ∨ ∃ e left, st.stage = .scanning (e :: left) := by
  unfold WatchStream.returned at h
  split at h
  · exact Or.inl (by assumption)
  · exact Or.inr ⟨_, _, by assumption⟩
  · contradiction

theorem Phase.congr {s t : Server} {st : WatchStream} (h : Phase s st)
    (hd : Store.SameData s.store t.store) (hs : t.successes = s.successes)
    (hc : t.committed = s.committed) (hj : t.jobs.Perm s.jobs) : Phase t st := by
  have hv : t.store.compactedRevision = s.store.compactedRevision := by
    unfold Store.compactedRevision
    rw [hd.valuesByRevision]
  cases hr : st.returned with
  | true =>
    by_cases hopen : st.stage = .ended
    · unfold Phase at h ⊢
      rw [hopen] at h ⊢
      exact h
    · rw [phase_iff_handed hr hopen] at h ⊢
      exact h.congr hs hc hj
  | false =>
    unfold Phase at h ⊢
    rcases not_returned hr with hst | ⟨e, left, hst⟩
    · rw [hst] at h ⊢
      exact h.congr hv hs hc hj
    · rw [hst] at h ⊢
      exact h.congr hd hs hc hj

theorem Phase.foreign {s : Server} {st : WatchStream} (h : Phase s st)
    (hlive : st.stage ≠ .ended → Live s st) {a : Action} (ha : a ≠ .receive)
    (hk : a.keepsNumbering) (hcompact : st.returned = false → ∀ rev, a ≠ .compact rev)
    (hlock : st.returned = false → ∀ i p c, a = .lock i → s.pending[i]? = some p →
      (p.locked s.store).2 = .ok c → st.request.rangeEnd ≠ [] → ¬st.request.names p.call.key)
    {draining : Bool} (ho : s.Orderly draining) (ho' : (s.step a).Orderly draining)
    (hch : s.Chronicled) : Phase (s.step a) st := by
  cases hr : st.returned with
  | true =>
    by_cases hopen : st.stage = .ended
    · unfold Phase at h ⊢
      rw [hopen] at h ⊢
      exact h
    · rw [phase_iff_handed hr hopen] at h ⊢
      exact h.step ha ho ho' ((hlive hopen).notifies ho.enrolled)
  | false =>
    unfold Phase at h ⊢
    rcases not_returned hr with hst | ⟨e, left, hst⟩
    · rw [hst] at h ⊢
      exact h.step ha hk (hcompact hr) (hlock hr) ho ho' hch
    · rw [hst] at h ⊢
      exact h.step ha hk (hcompact hr) (hlock hr) ho ho' hch

/-- The stream goes on behind its scan, or ends. -/
theorem Phase.moves {s t : Server} {st st' : WatchStream} (h : Phase s st)
    (hlive : st.stage ≠ .ended → Live s st) {draining : Bool} (ho : s.Orderly draining)
    (hm : WatchStream.Moves s st t st') (hcase : st.returned = true ∨ st'.stage = .ended) :
    Phase t st' := by
  by_cases hended : st'.stage = .ended
  · -- what a stream had sent when it ended was sent once
    have hnodup := h.events_nodup ho hlive
    rw [← events_of_ended hm hended] at hnodup
    unfold Phase
    rw [hended]
    exact hnodup
  · -- behind the scan `Handed` speaks about the past changes, which stay, and about
    have hr := hcase.resolve_right hended
    obtain ⟨hopen, ht⟩ := open_of_moves hm hended
    obtain ⟨hr', hpast⟩ := hm.returned hr
    obtain ⟨hid, hreq⟩ := hm.same
    have hch : st'.channel = st.channel := congrArg Int.toNat hid
    rw [phase_iff_handed hr hopen] at h
    rw [phase_iff_handed hr' hended, hreq, hch, hpast]
    rcases ht with rfl | ⟨rest, rfl⟩
    · exact h
    · exact h.congr rfl rfl (List.Perm.refl _)

theorem Phase.advance {s : Server} {st : WatchStream} (h : Phase s st)
    (hlive : st.stage ≠ .ended → Live s st) {draining : Bool} (ho : s.Orderly draining)
    (hch : s.Chronicled) (hlisted : st.stage = .registered → ∀ c ∈ s.unlisted,
      st.request.names c.key → c.newRev < st.request.startRevision) :
    Phase (st.advance s).1 (st.advance s).2 := by
  have hm := st.advance_moves s
  by_cases hcase : st.returned = true ∨ (st.advance s).2.stage = .ended
  · exact h.moves hlive ho hm hcase
  obtain ⟨hr, hended⟩ := not_or.mp hcase
  have hl := hlive (open_of_moves hm hended).1
  unfold Phase at h
  rcases not_returned (by simpa using hr) with hst | ⟨e, left, hst⟩
  · -- the bucket is opened
    have hadvance : st.advance s = st.openBucket s := by
      unfold WatchStream.advance
      rw [hst]
    rw [hst] at h
    rw [hadvance] at hended ⊢
    obtain ⟨pfx, lo, hi, ha, he⟩ := openBucket_open hl.regular.start hended
    obtain ⟨taken, hshows, _⟩ := hl.carries
    have hscans := Still.scans h hch (hlisted hst) ha (hl.regular.requests_iff ha)
    rw [← (hshows.fresh hst).1] at hscans
    rw [he]
    exact phase_scanning rfl ho hscans
  · have hadvance : st.advance s = (s, st.scanItem s e.2 left) := by
      unfold WatchStream.advance
      rw [hst]
    rw [hst] at h
    rw [hadvance]
    exact phase_scanning rfl ho (h.read_item ho hch)

theorem Phase.receive {s : Server} {st : WatchStream} (h : Phase s st)
    (hlive : st.stage ≠ .ended → Live s st) {draining : Bool} (ho : s.Orderly draining)
    (m : ClientMessage) : Phase (st.receive s m).1 (st.receive s m).2 := by
  by_cases hst : st.stage = .waiting
  · have hr : st.returned = true := by simp [WatchStream.returned, hst]
    exact h.moves hlive ho (st.receive_moves s m) (Or.inl hr)
  · unfold WatchStream.receive
    rw [if_neg hst]
    exact h

/-! ### Whole runs -/

/-- The steps that are looked at: sets, deletes and the steps of the notification thread
and of the stream, where the channel of the stream has room for one more event, the
create request gives a start revision and an end without a last zero byte, and ids have
not run out. Compactions may come once the scan is over. -/
def inScope (s : WatchSession) : WatchAction → Bool
  | .server (.importSnapshot _) => false
  | .server (.compact _) => s.stream.all (·.returned)
  | .server _ => true
  | .thread => s.stream.all (fun st =>
      (s.server.sinks.channels st.channel).buffer.length < watchChannelSize)
  | .watch req => s.stream.isSome || (0 < req.startRevision && req.rangeEnd.getLast? != some 0 &&
      s.server.store.watchCounter + 1 < 9223372036854775807)
  | _ => true

/-- The keys of a watched range are left alone while the stream is set up: no call for one
of them is about to collect its watchers when the stream is registered, and none commits
until the scan is over. When the scan takes its bucket, the named changes from the start
revision on are of keys that the bucket lists. -/
def keepsStill (s : WatchSession) : WatchAction → Bool
  | .server (.lock i) => s.stream.all (fun st =>
      st.returned || st.request.rangeEnd.isEmpty || (s.server.pending[i]?).all (fun p =>
        !(decide (st.request.names p.call.key) && (p.locked s.server.store).2.isOk)))
  | .watch req => s.stream.isSome || req.rangeEnd.isEmpty ||
      s.server.committed.all (fun d => !decide (req.names d.1.key))
  | .advance => s.stream.all (fun st => st.stage ≠ .registered || s.server.unlisted.all (fun c =>
      !decide (st.request.names c.key) || c.newRev < st.request.startRevision))
  | _ => true

/-- A session whose stream loses and repeats nothing. -/
structure Exact (s : WatchSession) : Prop extends Sound s where
  live : ∀ st, s.stream = some st → st.stage ≠ .ended → Live s.server st
  phase : ∀ st, s.stream = some st → Phase s.server st

theorem start_exact (wal : Option WalManager) (records : List WalRecord)
    (h : (Server.start wal records).store.currentRevision = 0) : (start wal records).Exact := by
  refine ⟨start_sound wal records h, ?_, ?_⟩
  · intro st hst
    contradiction
  · intro st hst
    contradiction

theorem keepsNumbering_of_inScope {s : WatchSession} {act : WatchAction} (h : s.inScope act) :
    act.keepsNumbering := by
  cases act with
  | server a =>
    cases a with
    | importSnapshot entries => contradiction
    | _ => rfl
  | _ => rfl

theorem Exact.of_stream {s : WatchSession} {st : WatchStream} {t : Server}
    (hsound : Sound { s with server := t, stream := some st })
    (hlive : st.stage ≠ .ended → Live t st) (hphase : Phase t st) :
    Exact { s with server := t, stream := some st } := by
  refine ⟨hsound, ?_, ?_⟩
  · intro st' hst hopen
    cases hst
    exact hlive hopen
  · intro st' hst
    cases hst
    exact hphase

/-- The stream takes a step of its own. -/
theorem Exact.moves {s : WatchSession} (h : s.Exact) {st st' : WatchStream} {t : Server}
    (hst : s.stream = some st) (hm : WatchStream.Moves s.server st t st')
    (hsound : Sound { s with server := t, stream := some st' }) (hphase : Phase t st') :
    Exact { s with server := t, stream := some st' } := by
  apply Exact.of_stream hsound _ hphase
  intro hopen
  exact (h.live st hst (open_of_moves hm hopen).1).moves hm hopen h.orderly

/-- Nothing is on its way to a channel that is not registered yet. -/
theorem new_channel {s : Server} {draining : Bool} (ho : s.Orderly draining) :
    ∀ job ∈ s.jobs, (s.store.watchCounter + 1).toNat ∉ job.watchers := by
  intro job hj hch
  have hle := (ho.posted job hj).2 _ hch
  have hpos := ho.enrolled.counter
  omega

/-- A new stream is registered with an empty channel. -/
theorem Exact.create {s : WatchSession} (h : s.Exact) {req : WatchCreateRequest}
    (hregular : req.Regular) (hid : s.server.store.watchCounter + 1 < 9223372036854775807)
    (hstill : req.rangeEnd ≠ [] → ∀ d ∈ s.server.committed, ¬req.names d.1.key)
    (hsound : (s.create req).Sound) : (s.create req).Exact := by
  have hnew := new_channel h.orderly
  rcases s.create_cases req with ⟨_, he⟩ | ⟨hkept, startRev, hstart, he⟩
  · -- refused: the start revision is compacted
    rw [he] at hsound ⊢
    exact Exact.of_stream hsound (fun hopen => absurd rfl hopen) List.nodup_nil
  · rw [hstart hregular.start] at he
    rw [he] at hsound ⊢
    apply Exact.of_stream hsound
    · intro _
      refine ⟨hregular, hid, ?_, ?_, ?_⟩
      · change (s.server.store.register req.key req.rangeEnd req.startRevision).watchers[_]? = _
        rw [Store.getElem?_register, if_pos rfl]
        rfl
      · exact congrArg WatchChannel.closed (Server.channels_setChannel_self _ _ _)
      · obtain ⟨_, items, hsub, hcarries⟩ := hsound.stream _ rfl
        -- no job names a channel that is only now registered
        have hempty : s.server.feed (s.server.store.watchCounter + 1).toNat = [] := by
          unfold Server.feed
          rw [List.map_eq_nil_iff, List.filter_eq_nil_iff]
          intro job hj
          simpa using hnew job (Server.mem_jobs_of_dispatched hj)
        have hitems : items = [] := List.sublist_nil.mp (hempty ▸ hsub)
        rw [hitems] at hcarries
        change WatchStream.Carries _ _ (s.server.feed (s.server.store.watchCounter + 1).toNat)
        rw [hempty]
        exact hcarries
    · refine ⟨?_, ?_⟩
      · have hpos := hregular.start
        change s.server.store.compactedRevision < req.startRevision
        omega
      · -- a change is for the new channel only if its call has still to collect the
        -- watchers, and no such call is about the range
        intro hne c hc hname howes
        rcases howes with ⟨d, hd, hrev⟩ | ⟨job, hj, _, hch⟩
        · have hevent := h.orderly.event_of_rev (Or.inr ⟨d, hd, rfl⟩) hc hrev
          have hkey : c.key = d.1.key := congrArg (fun e => e.2.kv.key) hevent
          rw [hkey] at hname
          exact hstill hne d hd hname
        · exact hnew job hj hch

/-- A step of another thread, which keeps off a watched range during the scan. -/
theorem Exact.foreign {s : WatchSession} (h : s.Exact) {a : Action} (ha : s.foreign a)
    (hscope : s.inScope (.server a)) (hstill : s.keepsStill (.server a))
    (hsound : Sound { s with server := s.server.step a }) :
    Exact { s with server := s.server.step a } := by
  refine ⟨hsound, ?_, ?_⟩
  · intro st hst hopen
    have hst' : s.stream = some st := hst
    exact (h.live st hst' hopen).foreign hst' (h.stream st hst').1 h.orderly.enrolled ha
  · intro st hst
    have hst' : s.stream = some st := hst
    apply (h.phase st hst').foreign (h.live st hst') (foreign_ne_receive ha)
      (keepsNumbering_of_inScope hscope) _ _ h.orderly hsound.orderly h.chronicled
    · intro hr rev he
      rw [he] at hscope
      simp [inScope, hst', hr] at hscope
    · intro hr i p c he hi hlocked hne hname
      rw [he] at hstill
      simp [keepsStill, hst', hr, hne, hi, hname, hlocked, Except.isOk, Except.toBool] at hstill

/-- A step of the notification thread, which finds room in the channel. -/
theorem Exact.thread {s : WatchSession} (h : s.Exact) (hscope : s.inScope .thread)
    (hsound : (s.step .thread).Sound) : (s.step .thread).Exact := by
  refine ⟨hsound, ?_, ?_⟩
  · intro st hst hopen
    have hst' : s.stream = some st := hst
    have hroom : (s.server.sinks.channels st.channel).buffer.length < watchChannelSize := by
      simpa [inScope, hst'] using hscope
    exact (h.live st hst' hopen).works h.orderly hroom
  · intro st hst
    have hw := h.orderly.works
    exact (h.phase st hst).congr hw.sameCalls.data hw.successes hw.committed hw.jobs

theorem Exact.step {s : WatchSession} (h : s.Exact) {act : WatchAction} (hscope : s.inScope act)
    (hstill : s.keepsStill act)
    (hbucket : ∀ req, act = .watch req → ∀ k, req.names k → bucketOf k = bucketOf req.key) :
    (s.step act).Exact := by
  -- the dispatcher and the history are as in any run; what is left is the watcher and
  -- the phase of the stream
  have hsound := h.toSound.step (keepsNumbering_of_inScope hscope)
  cases act with
  | server a =>
    simp only [WatchSession.step] at hsound ⊢
    split_ifs at hsound ⊢ with ha
    · exact h.foreign ha hscope hstill hsound
    · exact h
  | thread => exact h.thread hscope hsound
  | watch req =>
    simp only [WatchSession.step] at hsound ⊢
    cases hst : s.stream with
    | some st => exact h
    | none =>
      rw [hst] at hsound
      simp only [inScope, hst, Option.isSome_none, Bool.false_or, Bool.and_eq_true,
        decide_eq_true_eq, bne_iff_ne] at hscope
      obtain ⟨⟨hpos, hlast⟩, hid⟩ := hscope
      refine h.create ⟨hpos, hlast, hbucket req rfl⟩ hid ?_ hsound
      intro hne d hd hname
      simp only [keepsStill, hst, Option.isSome_none, Bool.false_or, Bool.or_eq_true,
        List.isEmpty_iff, hne, false_or, List.all_eq_true] at hstill
      have hd' := hstill d hd
      simp [hname] at hd'
  | advance =>
    simp only [WatchSession.step] at hsound ⊢
    cases hst : s.stream with
    | none => exact h
    | some st =>
      rw [hst] at hsound
      apply h.moves hst (st.advance_moves s.server) hsound
      apply (h.phase st hst).advance (h.live st hst) h.orderly h.chronicled
      intro hopens c hc hname
      have hlisted : ∀ c ∈ s.server.unlisted, ¬st.request.names c.key ∨
          c.newRev < st.request.startRevision := by
        simpa [keepsStill, hst, hopens] using hstill
      exact (hlisted c hc).resolve_left (not_not_intro hname)
  | message m =>
    simp only [WatchSession.step] at hsound ⊢
    cases hst : s.stream with
    | none => exact h
    | some st =>
      rw [hst] at hsound
      apply h.moves hst (st.receive_moves s.server m) hsound
      exact (h.phase st hst).receive (h.live st hst) h.orderly m

theorem Exact.run {s : WatchSession} (h : s.Exact) {acts : List WatchAction}
    (hscope : along WatchSession.step inScope s acts)
    (hstill : along WatchSession.step keepsStill s acts)
    (hbucket : ∀ req, .watch req ∈ acts → ∀ k, req.names k → bucketOf k = bucketOf req.key) :
    (s.run acts).Exact := by
  induction acts generalizing s with
  | nil => exact h
  | cons act acts ih =>
    obtain ⟨hact, hscope⟩ := (Bool.and_eq_true _ _).mp hscope
    obtain ⟨hact', hstill⟩ := (Bool.and_eq_true _ _).mp hstill
    have hstep : (s.step act).Exact := by
      apply h.step hact hact'
      intro req he
      exact hbucket req (he ▸ List.mem_cons_self)
    apply ih hstep hscope hstill
    intro req hreq
    exact hbucket req (List.mem_cons_of_mem _ hreq)

/-- A named change that the notification thread has passed is among the events, once the
stream has emptied its channel. -/
theorem Exact.delivers {s : WatchSession} (h : s.Exact) {st : WatchStream}
    (hst : s.stream = some st) (hb : st.begun = true) (hopen : st.stage ≠ .ended)
    (hempty : (s.server.sinks.channels st.channel).buffer = []) {c : Committed}
    (hc : c ∈ s.server.successes) (hname : st.request.names c.key)
    (hrev : st.request.startRevision ≤ c.newRev) (hsent : c.newRev < s.server.thread.nextRev) :
    ∃ e ∈ st.events, e.kv = c.kv := by
  have hhanded := (phase_iff_handed (WatchStream.returned_of_begun hb) hopen).mp (h.phase st hst)
  obtain ⟨taken, hshows, _, heq⟩ := (h.live st hst hopen).carries
  -- with an empty channel the stream has taken all that was sent there
  have htaken : taken = s.server.feed st.channel := by
    have hfeed := heq hopen
    rwa [WatchStream.pending_of_open hopen, hempty, List.append_nil] at hfeed
  -- it is enough to find the change among those delivered
  have hshow {p : KeyValueWithPrev} (hkv : p.kv = c.kv)
      (hp : p ∈ delivered KeyValueWithPrev.rev st.pastChanges taken) :
      ∃ e ∈ st.events, e.kv = c.kv := by
    refine ⟨p.toEvent st.request.prevKv, ?_, hkv⟩
    rw [(hshows.loop hb).1]
    exact List.mem_map_of_mem hp
  rcases hhanded.all c hc hname hrev with ⟨p, hp, hkv⟩ | ⟨hlt, howes⟩
  · exact hshow hkv (List.mem_append_left _ hp)
  · -- it is for the channel, and its job was dispatched
    obtain ⟨hjobs, hcommitted⟩ := h.orderly.dispatched_of_lt (h.orderly.newRev_bounds hc).1 hsent
    rcases howes with ⟨d, hd, hdrev⟩ | ⟨job, hj, hjrev, hch⟩
    · exact absurd hdrev (hcommitted d hd)
    · have hevent := h.orderly.event_of_rev (Or.inl ⟨job, hj, rfl⟩) hc hjrev
      have hkv : job.msg.kv = c.kv := congrArg (fun e => e.2.kv) hevent.symm
      apply hshow hkv
      refine List.mem_append_right _ (List.mem_filter.mpr ⟨?_, decide_eq_true ?_⟩)
      · rw [htaken]
        refine List.mem_map.mpr ⟨job, List.mem_filter.mpr ⟨hjobs job hj hjrev, ?_⟩, rfl⟩
        exact decide_eq_true hch
      · rw [rev_of_known h.orderly hc hkv]
        exact hlt

/-- Once every call has enqueued its job and the thread has gone through all jobs, it has
passed every change. -/
theorem passed_of_quiescent {s : WatchSession} (h : s.Following) (hq : s.server.Quiescent)
    (hd : s.draining = false) {c : Committed} (hc : c ∈ s.server.successes) :
    c.newRev < s.server.thread.nextRev := by
  have haligned := h.orderly.aligned
  rw [hd] at haligned
  have hkept := haligned.keptUp hq
  have hlen := congrArg List.length (hkept.announced)
  rw [List.length_map, List.length_map] at hlen
  have hnext := h.orderly.next_eq
  have hle := (h.orderly.newRev_bounds hc).2
  change s.server.dispatched.length = s.server.successes.length at hlen
  omega

/-- The bucket `/registry/p/`. -/
def pods : Bytes := registryRoot ++ [112] ++ [47]

def putPod (name value : UInt8) : List WatchAction :=
  (Call.actions ⟨pods ++ [name], some [value], none⟩).map .server

theorem bucketOf_pods (t : Bytes) : bucketOf (pods ++ t) = pods := by
  have hd : FullDepth pods := FullDepth.resource (by decide) (by decide)
  unfold bucketOf
  rw [hd.prefixSplit_append]

end WatchSession
end MemEtcd
