import MemEtcd.EventReplay
import MemEtcd.ListSteps
import MemEtcd.RangeExact

/-! A client that lists a range and then watches it from the next revision on. It keeps a
copy of the range: the list, brought up to date by the events of the stream. The past changes
come by key and not by revision, but those of one key come in order and before the live
events of that key, which is all that the copy needs. -/
namespace MemEtcd

open EventReplay (replay replay_of_absent replay_of_present)
open Handover (threshold delivered)
open VersionLog (cells)

/-! ### The copy -/

def Event.held (e : Event) : Option KeyValue :=
  match e.type with
  | .put => some e.kv
  | .delete => none

def WatchStream.copy (st : WatchStream) (kvs : List KeyValue) : Bytes → Option KeyValue :=
  replay (fun e => e.kv.key) Event.held (listed kvs) st.events

namespace Store

/-- A list shows the history of its store. -/
theorem Represents.listed_range {s : Store} {log : History} (hs : s.WF) (h : s.Represents log)
    {req : WatchCreateRequest} (hreg : req.Regular) {r : RangeResult}
    (hr : s.range req.key req.rangeEnd 0 none = .ok r) :
    listed r.kvs = req.shownAt log log.length := by
  obtain ⟨hsorted, hmem⟩ := mem_range_current (h.coherent hs) hr
  obtain ⟨pfx, lo, hi, ha⟩ := accepted_of_range hr
  funext k
  unfold WatchCreateRequest.shownAt
  rw [List.take_length, ← h.live_eq]
  by_cases hshown : req.names k ∧ (s.live k).isSome
  · obtain ⟨v, hv⟩ := Option.isSome_iff_exists.mp hshown.2
    rw [if_pos hshown.1, hv]
    have hin : asMvccKeyValue v k ∈ r.kvs :=
      (hmem _).mpr ⟨k, v, (hreg.requests_iff ha k).mpr hshown.1, hv, rfl⟩
    exact listed_of_mem hsorted hin
  · -- a key of the list is named and live
    rw [listed_eq_none]
    · split_ifs with hname
      · rw [Option.not_isSome_iff_eq_none.mp (fun hlive => hshown ⟨hname, hlive⟩)]
        rfl
      · rfl
    · intro kv hkv hkey
      obtain ⟨k', v, hk', hv, rfl⟩ := (hmem kv).mp hkv
      have hsame : k' = k := hkey
      subst hsame
      exact hshown ⟨(hreg.requests_iff ha k').mp hk', Option.isSome_iff_exists.mpr ⟨v, hv⟩⟩

end Store

/-! ### The order of the events of a key -/

namespace WatchSession

/-- The jobs for the channel are about the range, and the past changes of a key are the first
ones of that key, in order. -/
structure Lined (s : Server) (st : WatchStream) : Prop where
  addressed : ∀ job ∈ s.jobs, st.channel ∈ job.watchers →
    st.request.startRevision ≤ job.rev ∧ st.request.names job.msg.kv.key
  past : ∀ p ∈ st.pastChanges, ∃ c ∈ s.successes, p.kv = c.kv ∧ st.request.names c.key ∧
    st.request.startRevision ≤ c.newRev
  ordered : st.pastChanges.Pairwise (fun p q => p.kv.key = q.kv.key → p.rev < q.rev)
  complete : ∀ p ∈ st.pastChanges, ∀ c ∈ s.successes, c.key = p.kv.key →
    st.request.startRevision ≤ c.newRev → c.newRev ≤ p.rev → ∃ q ∈ st.pastChanges, q.kv = c.kv

theorem Lined.congr {s t : Server} {st st' : WatchStream} (h : Lined s st)
    (hs : t.successes = s.successes) (hj : t.jobs.Perm s.jobs)
    (hid : st'.watcherId = st.watcherId) (hreq : st'.request = st.request)
    (hpast : st'.pastChanges = st.pastChanges) : Lined t st' := by
  have hch : st'.channel = st.channel := congrArg Int.toNat hid
  refine ⟨?_, ?_, ?_, ?_⟩
  · intro job hjob
    rw [hch, hreq]
    exact h.addressed job (hj.mem_iff.mp hjob)
  · rw [hpast, hs, hreq]
    exact h.past
  · rw [hpast]
    exact h.ordered
  · rw [hpast, hs, hreq]
    exact h.complete

/-- A step of another thread. The jobs it adds are for those who watch the key; the changes
it adds are newer than all past changes. -/
theorem Lined.foreign {s : Server} {st : WatchStream} (h : Lined s st) (hlive : Live s st)
    {a : Action} (ha : a ≠ .receive) {draining : Bool} (ho : s.Orderly draining)
    (ho' : (s.step a).Orderly draining) : Lined (s.step a) st := by
  obtain ⟨hold, hnew⟩ := Server.step_successes ha ho'
  refine ⟨?_, ?_, h.ordered, ?_⟩
  · intro job hjob hch
    rcases s.step_jobs ha hjob with hjob | ⟨done, pfx, rfl⟩
    · exact h.addressed job hjob hch
    · obtain ⟨hrev, hcovers⟩ :=
        (ho.enrolled.mem_watchersToNotify hlive.watcher done.key done.value.modRevision).mp hch
      exact ⟨hrev, (hlive.regular.covers_iff hlive.id done.key).mp hcovers⟩
  · intro p hp
    obtain ⟨c, hc, hrest⟩ := h.past p hp
    exact ⟨c, hold c hc, hrest⟩
  · intro p hp c hc hkey hstart hle
    rcases hnew c hc with hc | ⟨hrev, -⟩
    · exact h.complete p hp c hc hkey hstart hle
    · obtain ⟨d, hd, hkv, -⟩ := h.past p hp
      have hbound := (ho.newRev_bounds hd).2
      rw [← rev_of_known ho hd hkv] at hbound
      omega

/-- The item that is read next has a key of its own, and all its changes are read. -/
theorem Lined.reads {s : Server} {st : WatchStream} (h : Lined s st) {e : Bytes × ℕ}
    {left : List (Bytes × ℕ)}
    (hscan : Scans s st.request st.channel (e :: left) st.pastChanges)
    (hch : s.Chronicled) : Lined s (st.scanItem s e.2 left) := by
  obtain ⟨hentry, hname⟩ := hscan.entry e List.mem_cons_self
  obtain ⟨hsound, hcomplete, hsorted⟩ := hch.itemChanges hscan.kept st.request.prevKv hentry
  have hpastkey (p : KeyValueWithPrev) (hp : p ∈ st.pastChanges) :
      p.kv.key ≠ st.request.itemKey e := by
    intro hkey
    obtain ⟨c, -, hkv, -, hnot⟩ := hscan.read p hp
    apply hnot
    rw [List.map_cons, ← hkey, hkv]
    exact List.mem_cons_self
  have hitemkey (p : KeyValueWithPrev)
      (hp : p ∈ s.store.itemChanges st.request.startRevision st.request.prevKv
        (s.store.deref e.2)) : p.kv.key = st.request.itemKey e := by
    obtain ⟨c, -, hkey, -, hkv⟩ := hsound p hp
    exact (congrArg KeyValue.key hkv).trans hkey
  refine ⟨h.addressed, ?_, ?_, ?_⟩
  · intro p hp
    rcases List.mem_append.mp hp with hp | hp
    · exact h.past p hp
    · obtain ⟨c, hc, hkey, hstart, hkv⟩ := hsound p hp
      exact ⟨c, hc, hkv, hkey ▸ hname, hstart⟩
  · apply List.pairwise_append.mpr
    refine ⟨h.ordered, ?_, ?_⟩
    · apply hsorted.imp
      intro p q hlt _
      exact hlt
    intro p hp q hq hkey
    exact absurd (hkey.trans (hitemkey q hq)) (hpastkey p hp)
  · intro p hp c hc hkey hstart hle
    rcases List.mem_append.mp hp with hp | hp
    · obtain ⟨q, hq, hkv⟩ := h.complete p hp c hc hkey hstart hle
      exact ⟨q, List.mem_append_left _ hq, hkv⟩
    · obtain ⟨q, hq, hkv⟩ := hcomplete c hc (hkey.trans (hitemkey p hp)) hstart
      exact ⟨q, List.mem_append_right _ hq, hkv⟩

/-- The past changes grow only with the item that is read. -/
theorem past_of_moves {s t : Server} {st st' : WatchStream} (hm : WatchStream.Moves s st t st') :
    st'.pastChanges = st.pastChanges ∨
      ∃ e left, st.stage = .scanning (e :: left) ∧ t = s ∧ st' = st.scanItem s e.2 left := by
  cases hm with
  | reads e left hst => exact Or.inr ⟨e, left, hst, rfl, rfl⟩
  | sendsPast => exact Or.inl (st.sendPast_cases s).2.2.1
  | forwards batch => exact Or.inl (st.forward_cases batch).2.2.1
  | _ => exact Or.inl rfl

theorem accounts_of_touches {s t : Server} {st : WatchStream} (h : st.Touches s t) :
    t.successes = s.successes ∧ t.jobs = s.jobs := by
  rcases h with rfl | ⟨c, rfl⟩ | rfl
  · exact ⟨rfl, rfl⟩
  · exact ⟨rfl, rfl⟩
  · exact ⟨rfl, rfl⟩

/-- The stream takes a step of its own. -/
theorem Lined.moves {s t : Server} {st st' : WatchStream} (h : Lined s st)
    (hphase : Phase s st) (hch : s.Chronicled) (hm : WatchStream.Moves s st t st') :
    Lined t st' := by
  rcases past_of_moves hm with hpast | ⟨e, left, hst, rfl, rfl⟩
  · obtain ⟨hsuccesses, hjobs⟩ := accounts_of_touches hm.touches
    exact h.congr hsuccesses (List.Perm.of_eq hjobs) hm.same.1 hm.same.2 hpast
  · unfold Phase at hphase
    rw [hst] at hphase
    exact h.reads hphase hch

def InLine (s : WatchSession) : Prop :=
  ∀ st, s.stream = some st → st.stage ≠ .ended → Lined s.server st

theorem InLine.moves {s : WatchSession} (h : s.InLine) (hexact : s.Exact) {st st' : WatchStream}
    {t : Server} (hst : s.stream = some st) (hm : WatchStream.Moves s.server st t st') :
    InLine { s with server := t, stream := some st' } := by
  intro st'' hst'' hopen
  cases hst''
  exact (h st hst (open_of_moves hm hopen).1).moves (hexact.phase st hst) hexact.chronicled hm

theorem InLine.create {s : WatchSession} (hexact : s.Exact) (req : WatchCreateRequest) :
    (s.create req).InLine := by
  rcases s.create_cases req with ⟨-, he⟩ | ⟨-, startRev, -, he⟩
  · rw [he]
    intro st hst hopen
    cases hst
    exact absurd rfl hopen
  · rw [he]
    intro st hst hopen
    cases hst
    -- nothing is on its way to the new channel, and nothing is read yet
    refine ⟨?_, fun p hp => absurd hp List.not_mem_nil, List.Pairwise.nil,
      fun p hp => absurd hp List.not_mem_nil⟩
    intro job hjob hch
    exact absurd hch (new_channel hexact.orderly job hjob)

theorem InLine.step {s : WatchSession} (h : s.InLine) (hexact : s.Exact) {act : WatchAction}
    (hexact' : (s.step act).Exact) : (s.step act).InLine := by
  cases act with
  | server a =>
    simp only [WatchSession.step] at hexact' ⊢
    split_ifs at hexact' ⊢ with ha
    · intro st hst hopen
      have hst' : s.stream = some st := hst
      exact (h st hst' hopen).foreign (hexact.live st hst' hopen) (foreign_ne_receive ha)
        hexact.orderly hexact'.orderly
    · exact h
  | thread =>
    intro st hst hopen
    have hw := hexact.orderly.works
    exact (h st hst hopen).congr hw.successes hw.jobs rfl rfl rfl
  | watch req =>
    simp only [WatchSession.step]
    cases hst : s.stream with
    | some st => exact h
    | none => exact InLine.create hexact req
  | advance =>
    simp only [WatchSession.step]
    cases hst : s.stream with
    | none => exact h
    | some st => exact h.moves hexact hst (st.advance_moves s.server)
  | message m =>
    simp only [WatchSession.step]
    cases hst : s.stream with
    | none => exact h
    | some st => exact h.moves hexact hst (st.receive_moves s.server m)

/-! ### What the events add up to -/

theorem version_ne_zero {log : History} {k : Bytes} (h : (cells log k).value.isSome) :
    (cells log k).version ≠ 0 := by
  have hspec := VersionLog.livePuts_spec log k
  rw [if_pos h] at hspec
  intro hzero
  rw [hzero, Int.natCast_eq_zero, List.length_eq_zero_iff] at hspec
  rw [hspec.2] at hspec
  exact nomatch hspec.1

/-- An event makes its key hold what the history says up to its change. -/
theorem held_toEvent {s : Server} (h : s.Chronicled) {c : Committed} (hc : c ∈ s.successes)
    {p : KeyValueWithPrev} (hp : p.kv = c.kv) {req : WatchCreateRequest} (hname : req.names c.key)
    (wantPrevKv : Bool) :
    (p.toEvent wantPrevKv).held = req.shownAt (s.writes.map Write.change) c.newRev.toNat c.key := by
  have hvalue := h.values c hc
  unfold WatchCreateRequest.shownAt
  rw [if_pos hname, ← hvalue]
  unfold Event.held KeyValueWithPrev.toEvent
  simp only [hp]
  by_cases hlive : c.value.value.isSome
  · have hversion : c.kv.version = c.value.version := by
      show (if c.value.value.isNone then 0 else c.value.version) = _
      obtain ⟨v, hv⟩ := Option.isSome_iff_exists.mp hlive
      rw [hv]
      rfl
    have hne : c.value.version ≠ 0 := by
      rw [hvalue] at hlive ⊢
      exact version_ne_zero hlive
    rw [hversion, if_neg hne, VersionLog.Cell.live_of_isSome hlive]
    rfl
  · have hnone : c.value.value = none := by simpa using hlive
    have hversion : c.kv.version = 0 := by
      show (if c.value.value.isNone then 0 else c.value.version) = _
      rw [hnone]
      rfl
    rw [hversion, if_pos rfl, VersionLog.Cell.live_of_isNone hnone]
    rfl

/-- The delivered changes are of the range, and those of one key come in order. -/
theorem Lined.delivered_ordered {s : Server} {st : WatchStream} (h : Lined s st)
    (hhanded : Handed s st.request st.channel st.pastChanges) {draining : Bool}
    (ho : s.Orderly draining) :
    (∀ p ∈ delivered KeyValueWithPrev.rev st.pastChanges (s.feed st.channel),
      ∃ c ∈ s.successes, p.kv = c.kv ∧ st.request.names c.key ∧
        st.request.startRevision ≤ c.newRev) ∧
    (delivered KeyValueWithPrev.rev st.pastChanges (s.feed st.channel)).Pairwise
      (fun p q => p.kv.key = q.kv.key → p.rev < q.rev) := by
  -- what was sent on the channel is the change of some call
  have hfeed (q : KeyValueWithPrev) (hq : q ∈ s.feed st.channel) :
      ∃ c ∈ s.successes, q.kv = c.kv ∧ st.request.names c.key ∧
        st.request.startRevision ≤ c.newRev ∧ s.Owes st.channel c.newRev := by
    obtain ⟨job, hjob, rfl⟩ := List.mem_map.mp hq
    obtain ⟨hdispatched, hch⟩ := List.mem_filter.mp hjob
    have hmem := Server.mem_jobs_of_dispatched hdispatched
    obtain ⟨hstart, hname⟩ := h.addressed job hmem (of_decide_eq_true hch)
    obtain ⟨c, hc, hevent⟩ := ho.announces (Or.inl ⟨job, hmem, rfl⟩)
    have hkv : job.msg.kv = c.kv := congrArg (fun e => e.2.kv) hevent.symm
    have hrev : job.rev = c.newRev := by
      rw [← ho.job_rev hmem]
      exact rev_of_known ho hc hkv
    rw [hkv] at hname
    exact ⟨c, hc, hkv, hname, hrev ▸ hstart,
      Or.inr ⟨job, hmem, hrev, of_decide_eq_true hch⟩⟩
  constructor
  · intro p hp
    rcases List.mem_append.mp hp with hp | hp
    · exact h.past p hp
    · obtain ⟨c, hc, hkv, hname, hstart, -⟩ := hfeed p (List.mem_filter.mp hp).1
      exact ⟨c, hc, hkv, hname, hstart⟩
  · apply List.pairwise_append.mpr
    refine ⟨h.ordered, ?_, ?_⟩
    · apply List.Pairwise.filter
      apply (ho.feed_sorted st.channel).imp
      intro p q hlt _
      exact hlt
    · -- a change from the channel that is older than a past change of its key would be a
      -- past change itself, and the stream would have dropped it
      intro p hp q hq hkey
      obtain ⟨hq, hnewer⟩ := List.mem_filter.mp hq
      obtain ⟨c, hc, hkv, -, hstart, howes⟩ := hfeed q hq
      by_contra hge
      have hqrev := rev_of_known ho hc hkv
      have hle : c.newRev ≤ p.rev := by
        rw [← hqrev]
        exact not_lt.mp hge
      have hckey : c.key = p.kv.key := by
        rw [hkey, hkv]
        rfl
      obtain ⟨x, hx, hxkv⟩ := h.complete p hp c hc hckey hstart hle
      have hxrev := rev_of_known ho hc hxkv
      have hdropped := hhanded.once x hx (by rw [hxrev]; exact howes)
      have hlt : threshold KeyValueWithPrev.rev st.pastChanges < q.rev := of_decide_eq_true hnewer
      omega

theorem dispatched_le {s : Server} {draining : Bool} (ho : s.Orderly draining) :
    s.dispatched.length ≤ s.successes.length := by
  by_contra hlt
  -- the job of the highest number would announce no call
  have hlast : (s.dispatched.length : ℤ) ∈ s.dispatched.map NotifyJob.rev := by
    rw [ho.order, ReorderBuffer.mem_upTo]
    omega
  obtain ⟨job, hjob, hrev⟩ := List.mem_map.mp hlast
  have hmem := Server.mem_jobs_of_dispatched hjob
  obtain ⟨c, hc, hevent⟩ := ho.announces (Or.inl ⟨job, hmem, rfl⟩)
  have hkv : job.msg.kv = c.kv := congrArg (fun e => e.2.kv) hevent.symm
  have hbound := (ho.newRev_bounds hc).2
  rw [← rev_of_known ho hc hkv, KeyValueWithPrev.rev, ho.job_rev hmem, hrev] at hbound
  omega

/-- A named key that has no event behind a moment has not changed since, as far as the
notification thread has come. -/
theorem Exact.shown_stays {s : WatchSession} (h : s.Exact) {st : WatchStream}
    (hst : s.stream = some st) (hb : st.begun = true) (hopen : st.stage ≠ .ended)
    (hempty : (s.server.sinks.channels st.channel).buffer = []) {k : Bytes}
    (hname : st.request.names k) {m : ℕ} (hstart : st.request.startRevision ≤ m + 1)
    (hnone : ∀ e ∈ st.events, e.kv.key = k → e.kv.modRevision ≤ m) :
    st.request.shownAt (s.server.writes.map Write.change) (max m s.server.dispatched.length) k =
      st.request.shownAt (s.server.writes.map Write.change) m k := by
  unfold WatchCreateRequest.shownAt
  rw [VersionLog.cells_take_eq (le_max_left m _)]
  intro r hr hle
  by_contra hlt
  obtain ⟨c, hc, hkey, hrev⟩ := success_of_revision h.chronicled hr
  have hnext := h.orderly.next_eq
  have hmax : ((max m s.server.dispatched.length : ℕ) : ℤ) =
      max (m : ℤ) s.server.dispatched.length := by
    push_cast
    rfl
  obtain ⟨e, he, hkv⟩ := h.delivers hst hb hopen hempty hc (hkey ▸ hname) (by omega) (by omega)
  have hmod : e.kv.modRevision = c.newRev := by
    rw [hkv]
    exact h.orderly.success_rev hc
  have hbound := hnone e he (by rw [hkv]; exact hkey)
  omega

/-- A key of the copy is at a moment of the history that the notification thread has
reached, if the list was right about it or it has an event. -/
theorem Exact.copy_shown {s : WatchSession} (h : s.Exact) (hline : s.InLine) {st : WatchStream}
    (hst : s.stream = some st) (hb : st.begun = true) (hopen : st.stage ≠ .ended)
    (hempty : (s.server.sinks.channels st.channel).buffer = []) {kvs : List KeyValue} {n : ℕ}
    (hn : n ≤ s.server.successes.length) (hstart : st.request.startRevision = n + 1) {k : Bytes}
    (hk : listed kvs k = st.request.shownAt (s.server.writes.map Write.change) n k ∨
      ∃ e ∈ st.events, e.kv.key = k) :
    ∃ m : ℕ, s.server.dispatched.length ≤ m ∧ m ≤ s.server.successes.length ∧
      st.copy kvs k = st.request.shownAt (s.server.writes.map Write.change) m k := by
  have hhanded := (phase_iff_handed (WatchStream.returned_of_begun hb) hopen).mp (h.phase st hst)
  obtain ⟨taken, hshows, -, heq⟩ := (h.live st hst hopen).carries
  have htaken : taken = s.server.feed st.channel := by
    have hfeed := heq hopen
    rwa [WatchStream.pending_of_open hopen, hempty, List.append_nil] at hfeed
  obtain ⟨hknown, hordered⟩ := (hline st hst hopen).delivered_ordered hhanded h.orderly
  have hevents := (hshows.loop hb).1
  rw [htaken] at hevents
  have hsent := dispatched_le h.orderly
  by_cases hex : ∃ e ∈ st.events, e.kv.key = k
  · -- the key holds what its latest event says
    have hsorted : st.events.Pairwise
        (fun a b => a.kv.key = b.kv.key → a.kv.modRevision < b.kv.modRevision) := by
      rw [hevents, List.pairwise_map]
      exact hordered
    obtain ⟨e, he, hkey, hmax, hheld⟩ :=
      @replay_of_present _ _ _ _ (fun e : Event => e.kv.key) Event.held (listed kvs) _
        (fun e => e.kv.modRevision) hsorted k hex
    rw [hevents] at he
    obtain ⟨p, hp, rfl⟩ := List.mem_map.mp he
    obtain ⟨c, hc, hkv, hname, hfrom⟩ := hknown p hp
    have hckey : c.key = k := by
      rw [← hkey]
      exact (congrArg KeyValue.key hkv).symm
    have hrev : (p.toEvent st.request.prevKv).kv.modRevision = c.newRev :=
      rev_of_known h.orderly hc hkv
    obtain ⟨hpos, hbound⟩ := h.orderly.newRev_bounds hc
    have hnat : ((c.newRev.toNat : ℕ) : ℤ) = c.newRev := Int.toNat_of_nonneg (by omega)
    refine ⟨max c.newRev.toNat s.server.dispatched.length, le_max_right _ _,
      max_le (by omega) hsent, ?_⟩
    rw [h.shown_stays hst hb hopen hempty (hckey ▸ hname) (by omega)]
    · rw [← hckey, ← held_toEvent h.chronicled hc hkv hname st.request.prevKv, ← hheld, hckey]
      rfl
    · intro x hx hxkey
      rw [hnat, ← hrev]
      exact hmax x hx hxkey
  · -- the key holds what the list says
    have habsent (e : Event) (he : e ∈ st.events) : e.kv.key ≠ k := fun hkey => hex ⟨e, he, hkey⟩
    have hcopy : st.copy kvs k = st.request.shownAt (s.server.writes.map Write.change) n k := by
      rw [← hk.resolve_right hex]
      exact replay_of_absent habsent
    refine ⟨max n s.server.dispatched.length, le_max_right _ _, max_le hn hsent, ?_⟩
    rw [hcopy]
    by_cases hname : st.request.names k
    · exact (h.shown_stays hst hb hopen hempty hname hstart.le
        (fun e he hkey => absurd hkey (habsent e he))).symm
    · unfold WatchCreateRequest.shownAt
      rw [if_neg hname, if_neg hname]

theorem current_eq_successes {s : Server} (h : s.Chronicled) :
    s.store.currentRevision = s.successes.length := by
  rw [h.tracked.represents.currentRevision_eq, List.length_map, Server.writes, List.length_map]

theorem dispatched_of_quiescent {s : WatchSession} (h : s.Exact) (hq : s.server.Quiescent)
    (hd : s.draining = false) : s.server.successes.length ≤ s.server.dispatched.length := by
  by_contra hlt
  have hlast : (s.server.successes.length : ℤ) ∈ s.server.successes.map (·.newRev) := by
    rw [h.orderly.numbered, ReorderBuffer.mem_upTo]
    omega
  obtain ⟨c, hc, hrev⟩ := List.mem_map.mp hlast
  have hpassed := passed_of_quiescent h.toFollowing hq hd hc
  have hnext := h.orderly.next_eq
  omega

end WatchSession

/-! ### The client -/

structure ListWatch where
  session : WatchSession
  list : RangePhase

inductive ListAction where
  | session (act : WatchAction)
  /-- the next step of the list -/
  | list
  deriving DecidableEq, Repr

namespace ListWatch

abbrev server (c : ListWatch) : Server := c.session.server

def start (wal : Option WalManager) (records : List WalRecord) : ListWatch :=
  ⟨WatchSession.start wal records, .idle⟩

variable (req : WatchCreateRequest)

def step (c : ListWatch) : ListAction → ListWatch
  | .session act => { c with session := c.session.step act }
  | .list =>
    match c.list with
    | .idle => { c with list := .started c.server.store.currentRevision }
    | .started latestRev =>
      { c with list := c.server.store.rangeBucket req.key req.rangeEnd latestRev }
    | .scanning latestRev pfx rest results count =>
      { c with list := c.server.store.rangeItem latestRev pfx results count rest }
    | .returned _ => c

def run (c : ListWatch) (acts : List ListAction) : ListWatch := acts.foldl (step req) c

def inScope (c : ListWatch) : ListAction → Bool
  | .session act => c.session.inScope act
  | .list => true

/-- As for the stream: when the list takes its bucket, the named changes up to its revision
are of keys that the bucket lists. -/
def keepsStill (c : ListWatch) : ListAction → Bool
  | .session act => c.session.keepsStill act
  | .list =>
    match c.list with
    | .started latestRev => c.server.unlisted.all (fun d =>
        !decide (req.names d.key) || decide (latestRev < d.newRev))
    | _ => true

variable {req}

structure Follows (req : WatchCreateRequest) (c : ListWatch) : Prop where
  exact : c.session.Exact
  line : c.session.InLine
  lists : req.Regular → Listing c.server req c.list

theorem start_follows (wal : Option WalManager) (records : List WalRecord)
    (h : (Server.start wal records).store.currentRevision = 0) :
    (start wal records).Follows req :=
  ⟨WatchSession.start_exact wal records h, fun _ hnone => (nomatch hnone), fun _ => trivial⟩

/-- A step of a session only adds changes and items. -/
theorem session_grows {s : WatchSession} (h : s.Following) {act : WatchAction}
    (hk : act.keepsNumbering) :
    s.server.successes <+: (s.step act).server.successes ∧
      ∀ (k : Bytes) (a : ℕ), s.server.store.treeMap[k]? = some a →
        (s.step act).server.store.treeMap[k]? = some a := by
  rcases h.step_server act with hsame | ⟨a, rfl, _, he⟩
  · rw [hsame.successes, hsame.data.treeMap]
    exact ⟨List.prefix_refl _, fun _ _ ha => ha⟩
  · rw [he]
    exact ⟨s.server.step_grows a, (s.server.step_index hk).1⟩

theorem Follows.list {c : ListWatch} (h : c.Follows req) (hstill : c.keepsStill req .list) :
    (c.step req .list).Follows req := by
  have hch := h.exact.chronicled
  unfold step
  cases hlist : c.list with
  | idle =>
    refine ⟨h.exact, h.line, fun _ => ?_⟩
    exact ⟨c.server.successes.length, WatchSession.current_eq_successes hch, le_rfl⟩
  | started latestRev =>
    refine ⟨h.exact, h.line, fun hreg => ?_⟩
    obtain ⟨n, rfl, hn⟩ : ∃ n : ℕ, latestRev = n ∧ n ≤ c.server.successes.length := by
      have hlists := h.lists hreg
      rw [hlist] at hlists
      exact hlists
    apply Listing.bucket hch hreg hn
    intro d hd hname
    have hlisted : ∀ d ∈ c.server.unlisted, ¬req.names d.key ∨ n < d.newRev := by
      simpa [keepsStill, hlist] using hstill
    exact (hlisted d hd).resolve_left (not_not_intro hname)
  | scanning latestRev pfx rest results count =>
    refine ⟨h.exact, h.line, fun hreg => ?_⟩
    have hlists := h.lists hreg
    rw [hlist] at hlists
    exact Listing.item hch hlists
  | returned res => exact h

theorem Follows.step {c : ListWatch} (h : c.Follows req) {act : ListAction}
    (hscope : c.inScope act) (hstill : c.keepsStill req act)
    (hbucket : ∀ req', act = .session (.watch req') → ∀ k, req'.names k →
      bucketOf k = bucketOf req'.key) :
    (c.step req act).Follows req ∧ c.server.successes <+: (c.step req act).server.successes := by
  cases act with
  | session act =>
    have hexact : (c.session.step act).Exact := by
      apply h.exact.step hscope hstill
      rintro req' rfl
      exact hbucket req' rfl
    obtain ⟨hgrows, htree⟩ := session_grows h.exact.toFollowing
      (WatchSession.keepsNumbering_of_inScope hscope)
    exact ⟨⟨hexact, h.line.step h.exact hexact, fun hreg => (h.lists hreg).later hgrows htree⟩,
      hgrows⟩
  | list =>
    refine ⟨h.list hstill, ?_⟩
    unfold ListWatch.step
    cases c.list <;> exact List.prefix_refl _

theorem Follows.run {c : ListWatch} (h : c.Follows req) {acts : List ListAction}
    (hscope : along (ListWatch.step req) inScope c acts)
    (hstill : along (ListWatch.step req) (keepsStill req) c acts)
    (hbucket : ∀ req', .session (.watch req') ∈ acts → ∀ k, req'.names k →
      bucketOf k = bucketOf req'.key) :
    (c.run req acts).Follows req ∧ c.server.successes <+: (c.run req acts).server.successes := by
  induction acts generalizing c with
  | nil => exact ⟨h, List.prefix_refl _⟩
  | cons act acts ih =>
    obtain ⟨hact, hscope⟩ := (Bool.and_eq_true _ _).mp hscope
    obtain ⟨hact', hstill⟩ := (Bool.and_eq_true _ _).mp hstill
    obtain ⟨hstep, hgrows⟩ := h.step hact hact'
      (fun req' he => hbucket req' (he ▸ List.mem_cons_self))
    obtain ⟨hrun, hgrows'⟩ := ih hstep hscope hstill
      (fun req' hreq => hbucket req' (List.mem_cons_of_mem _ hreq))
    exact ⟨hrun, hgrows.trans hgrows'⟩

theorem along_append {p : ListWatch → ListAction → Bool} {c : ListWatch}
    {before later : List ListAction} (h : along (step req) p c (before ++ later)) :
    along (step req) p c before ∧ along (step req) p (c.run req before) later := by
  induction before generalizing c with
  | nil => exact ⟨rfl, h⟩
  | cons act before ih =>
    obtain ⟨hact, hrest⟩ := (Bool.and_eq_true _ _).mp h
    obtain ⟨hbefore, hlater⟩ := ih hrest
    exact ⟨(Bool.and_eq_true _ _).mpr ⟨hact, hbefore⟩, hlater⟩

open WatchSession (announce bucketOf_pods pods putPod)

/-- The range of the names `a` and `b` in the bucket, from revision 2 on. -/
def podsRequest : WatchCreateRequest := ⟨pods ++ [97], pods ++ [99], 2, false⟩

/-- `b` is put, and `a` while the list is made. -/
def podsListed : List ListAction :=
  (putPod 98 1 ++ announce).map .session ++ .list :: (putPod 97 2 ++ announce).map .session ++
    List.replicate 4 .list

/-- The stream begins, and `b` is deleted. -/
def podsStream : List WatchAction :=
  .watch podsRequest :: List.replicate 5 .advance ++
    (Call.actions ⟨pods ++ [98], none, none⟩).map .server ++ announce ++ List.replicate 2 .advance

end ListWatch
end MemEtcd
