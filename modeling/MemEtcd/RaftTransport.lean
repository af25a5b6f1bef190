import MemEtcd.PartialRun
import MemEtcd.Peers
import MemEtcd.Raft
import MemEtcd.Utf8Text

/-! Remote calls between Raft nodes over the in-memory router. A caller looks up the channel
of its target, sends one message and waits for the reply; the loop behind a channel starts a
task for every message. Nodes come and go, channels close, tasks are dropped and callers give
up at any time. Whatever the order, a request is handled at most once, by the node it was meant
for, and an answer that a caller gets is the answer to its own request. -/
namespace MemEtcd.RaftRpc

open Peers (NodeName)

inductive RpcKind where
  | append
  | vote
  | snapshot
  deriving DecidableEq, Repr

def RpcKind.path : RpcKind → String
  | .append => "/raft/append"
  | .vote => "/raft/vote"
  | .snapshot => "/raft/snapshot"

/-- The `match` on the path of a message. -/
def RpcKind.ofPath (path : String) : Option RpcKind :=
  if path = "/raft/append" then some .append
  else if path = "/raft/vote" then some .vote
  else if path = "/raft/snapshot" then some .snapshot
  else none

theorem RpcKind.ofPath_path (k : RpcKind) : RpcKind.ofPath k.path = some k := by
  cases k <;> decide

/-- `serde_json::to_vec` and `serde_json::from_slice` at a type, with the texts of their
errors. What is encoded can be decoded. -/
structure Codec (α : Type) where
  toVec : α → Except String Bytes
  fromSlice : Bytes → Except String α
  fromSlice_toVec : ∀ {a d}, toVec a = .ok d → fromSlice d = .ok a

inductive RaftError (E F : Type) where
  | apiError (e : E)
  | fatal (f : F)
  deriving DecidableEq

/-- The API errors of a call: those of `install_snapshot`, and `Infallible` for the others. -/
abbrev ApiError (snapshotError : Type) : RpcKind → Type
  | .append => Empty
  | .vote => Empty
  | .snapshot => snapshotError

/-- `RPCError`, with the text of the error that made the target unreachable. -/
inductive RpcError (E : Type) where
  | unreachable (message : String)
  | remoteError (target : NodeName) (e : E)
  deriving DecidableEq

structure Protocol where
  Req : RpcKind → Type
  Resp : RpcKind → Type
  SnapshotError : Type
  Fatal : Type
  fatalText : Fatal → String
  request : ∀ k, Codec (Req k)
  reply : ∀ k, Codec (Except (RaftError (ApiError SnapshotError k) Fatal) (Resp k))

variable (P : Protocol)

abbrev Protocol.Outcome (k : RpcKind) : Type :=
  Except (RaftError (ApiError P.SnapshotError k) P.Fatal) (P.Resp k)

abbrev Protocol.Result (k : RpcKind) : Type :=
  Except (RpcError (ApiError P.SnapshotError k)) (P.Resp k)

structure Exchange where
  kind : RpcKind
  req : P.Req kind
  out : P.Outcome kind

/-- The task of `run_raft_rpc_loop` for one message: what it hands to the node, and what it
sends back. `respond` is what the node returns. -/
def dispatch (respond : ∀ k, P.Req k → P.Outcome k) (path : String) (data : Bytes) :
    Option (Exchange P) × Except String Bytes :=
  match RpcKind.ofPath path with
  | none => (none, .error s!"unknown path: {path}")
  | some k =>
    match (P.request k).fromSlice data with
    | .error e => (none, .error s!"deserialize error: {e}")
    | .ok req => (some ⟨k, req, respond k req⟩, (P.reply k).toVec (respond k req))

/-- What `send` and `install_snapshot` make of the outcome of a call. For the calls without
API errors that branch is `unreachable!`; their error type has no value. -/
def ofOutcome {k : RpcKind} (target : NodeName) : P.Outcome k → P.Result k
  | .ok r => .ok r
  | .error (.apiError e) => .error (.remoteError target e)
  | .error (.fatal f) => .error (.unreachable (P.fatalText f))

/-- The end of `send` and of `install_snapshot`, when the reply has come or, without one, its
sender was dropped. -/
def answer (k : RpcKind) (target : NodeName) : Option (Except String Bytes) → P.Result k
  | none => .error (.unreachable s!"node {target} dropped response")
  | some (.error e) => .error (.unreachable e)
  | some (.ok data) =>
    match (P.reply k).fromSlice data with
    | .error e => .error (.unreachable s!"deserialize error: {e}")
    | .ok out => ofOutcome P target out

/-- `RpcMessage`; the other end of `response_tx` belongs to the call with that number. -/
structure RpcMessage where
  path : String
  data : Bytes
  responseTx : ℕ
  deriving DecidableEq, Repr

structure RpcCall where
  target : NodeName
  kind : RpcKind
  req : P.Req kind

inductive CallStage where
  /-- the sender of a channel is in hand, nothing is sent -/
  | holding (channel : ℕ) (data : Bytes)
  | queued (channel : ℕ)
  | running
  | replied (reply : Except String Bytes)
  | dropped
  /-- returned without having sent anything -/
  | unsent (message : String)
  | returned (received : Option (Except String Bytes))
  deriving DecidableEq

structure Handled where
  call : ℕ
  channel : ℕ
  exchange : Exchange P

/-- The router with the channels, tasks and calls around it. Channels and calls are numbered
in the order of their creation; only the stages of calls that were made matter. `handled` is
the history of what the nodes were given. -/
structure Router where
  targets : NodeName → Option ℕ
  owners : List NodeName
  queue : ℕ → List RpcMessage
  closed : ℕ → Bool
  tasks : List (ℕ × RpcMessage)
  calls : List (RpcCall P)
  stage : ℕ → CallStage
  abandoned : ℕ → Bool
  handled : List (Handled P)

inductive RouterAction where
  | register (id : NodeName)
  | unregister (id : NodeName)
  /-- the loop of a channel ends, and with it the receiver -/
  | close (channel : ℕ)
  /-- a call encodes its request and looks up its target -/
  | call (c : RpcCall P)
  | send (i : ℕ)
  | receive (channel : ℕ)
  /-- a task runs to its end -/
  | handle (n : ℕ) (respond : ∀ k, P.Req k → P.Outcome k)
  /-- a task is dropped where it waits for the node, which may have the request already -/
  | abort (n : ℕ) (respond : Option (∀ k, P.Req k → P.Outcome k))
  | finish (i : ℕ)
  /-- a caller gives up, for instance because of its timeout -/
  | abandon (i : ℕ)

variable {P}

namespace Router

def new : Router P :=
  ⟨fun _ => none, [], fun _ => [], fun _ => false, [], [], fun _ => .dropped, fun _ => false, []⟩

/-- The first part of `send`, up to the lookup. -/
def lookupTarget (s : Router P) : RpcCall P → CallStage
  | ⟨target, kind, req⟩ =>
    match (P.request kind).toVec req with
    | .error e => .unsent e
    | .ok data =>
      match s.targets target with
      | none => .unsent s!"node {target} not found"
      | some channel => .holding channel data

def record (m : RpcMessage) (channel : ℕ) (ex : Option (Exchange P)) : List (Handled P) :=
  (ex.map (fun e => ⟨m.responseTx, channel, e⟩)).toList

def step (s : Router P) : RouterAction P → Option (Router P)
  | .register id =>
    some { s with
      owners := s.owners ++ [id]
      targets := Function.update s.targets id (some s.owners.length) }
  | .unregister id => some { s with targets := Function.update s.targets id none }
  | .close ch =>
    if s.closed ch then none
    else some { s with
      closed := Function.update s.closed ch true
      queue := Function.update s.queue ch []
      -- the senders in the messages of the queue are dropped with it
      stage := fun i => if i ∈ (s.queue ch).map (·.responseTx) then .dropped else s.stage i }
  | .call c =>
    some { s with
      calls := s.calls ++ [c]
      stage := Function.update s.stage s.calls.length (s.lookupTarget c) }
  | .send i =>
    match s.calls[i]?, s.stage i with
    | some ⟨target, kind, _⟩, .holding ch data =>
      if s.abandoned i then none
      else if s.closed ch then
        some { s with
          stage := Function.update s.stage i (.unsent s!"node {target} channel closed") }
      else
        some { s with
          queue := Function.update s.queue ch (s.queue ch ++ [⟨kind.path, data, i⟩])
          stage := Function.update s.stage i (.queued ch) }
    | _, _ => none
  | .receive ch =>
    match s.queue ch with
    | [] => none
    | m :: rest =>
      some { s with
        queue := Function.update s.queue ch rest
        tasks := s.tasks ++ [(ch, m)]
        stage := Function.update s.stage m.responseTx .running }
  | .handle n respond =>
    match s.tasks[n]? with
    | none => none
    | some (ch, m) =>
      let (ex, reply) := dispatch P respond m.path m.data
      some { s with
        tasks := s.tasks.eraseIdx n
        handled := s.handled ++ record m ch ex
        stage := Function.update s.stage m.responseTx (.replied reply) }
  | .abort n respond =>
    match s.tasks[n]? with
    | none => none
    | some (ch, m) =>
      some { s with
        tasks := s.tasks.eraseIdx n
        handled := s.handled ++
          record m ch (respond.bind (fun respond => (dispatch P respond m.path m.data).1))
        stage := Function.update s.stage m.responseTx .dropped }
  | .finish i =>
    if s.abandoned i then none
    else match s.stage i with
      | .replied reply =>
        some { s with stage := Function.update s.stage i (.returned (some reply)) }
      | .dropped =>
        if i < s.calls.length then
          some { s with stage := Function.update s.stage i (.returned none) }
        else none
      | _ => none
  | .abandon i => some { s with abandoned := Function.update s.abandoned i true }

theorem step_handle {s : Router P} {n ch : ℕ} {m : RpcMessage} {ex : Option (Exchange P)}
    {reply : Except String Bytes} {respond : ∀ k, P.Req k → P.Outcome k}
    (hn : s.tasks[n]? = some (ch, m)) (hd : dispatch P respond m.path m.data = (ex, reply)) :
    s.step (.handle n respond) = some { s with
      tasks := s.tasks.eraseIdx n
      handled := s.handled ++ record m ch ex
      stage := Function.update s.stage m.responseTx (.replied reply) } := by
  rw [step, hn]
  dsimp only
  rw [hd]

def result (s : Router P) (i : ℕ) (c : RpcCall P) : Option (P.Result c.kind) :=
  match s.stage i with
  | .unsent message => some (.error (.unreachable message))
  | .returned received => some (answer P c.kind c.target received)
  | _ => none

/-! ### What holds in every state -/

/-- A message is the one of its call, on its way to the call's target. -/
def Carries (s : Router P) (channel : ℕ) (m : RpcMessage) : Prop :=
  ∃ c, s.calls[m.responseTx]? = some c ∧ s.owners[channel]? = some c.target ∧
    m.path = c.kind.path ∧ (P.request c.kind).toVec c.req = .ok m.data

def Genuine (s : Router P) (h : Handled P) : Prop :=
  ∃ c, s.calls[h.call]? = some c ∧ s.owners[h.channel]? = some c.target ∧
    ∃ out, h.exchange = ⟨c.kind, c.req, out⟩

end Router

def CallStage.Over : CallStage → Prop
  | .replied _ => True
  | .dropped => True
  | .returned _ => True
  | _ => False

namespace Router

/-- A reply is the node's answer to the request of the call. -/
def RepliedBy (s : Router P) (i : ℕ) (reply : Except String Bytes) : Prop :=
  ∃ h ∈ s.handled, h.call = i ∧ reply = (P.reply h.exchange.kind).toVec h.exchange.out

structure Sound (s : Router P) : Prop where
  routed : ∀ {id ch}, s.targets id = some ch → s.owners[ch]? = some id
  held : ∀ {i ch data}, s.stage i = .holding ch data → ∃ c, s.calls[i]? = some c ∧
    s.owners[ch]? = some c.target ∧ (P.request c.kind).toVec c.req = .ok data
  queued : ∀ {ch m}, m ∈ s.queue ch → s.Carries ch m ∧ s.stage m.responseTx = .queued ch
  running : ∀ {ch m}, (ch, m) ∈ s.tasks → s.Carries ch m ∧ s.stage m.responseTx = .running
  queue_nodup : ∀ ch, ((s.queue ch).map (·.responseTx)).Nodup
  tasks_nodup : (s.tasks.map (·.2.responseTx)).Nodup
  handled_nodup : (s.handled.map (·.call)).Nodup
  genuine : ∀ h ∈ s.handled, s.Genuine h
  behind : ∀ h ∈ s.handled, (s.stage h.call).Over
  replied : ∀ {i reply}, s.stage i = .replied reply → s.RepliedBy i reply
  returned : ∀ {i reply}, s.stage i = .returned (some reply) → s.RepliedBy i reply
  in_queue : ∀ {i ch}, s.stage i = .queued ch → ∃ m ∈ s.queue ch, m.responseTx = i
  in_task : ∀ {i}, s.stage i = .running → ∃ t ∈ s.tasks, t.2.responseTx = i

variable {s s' : Router P}

theorem new_sound : (new : Router P).Sound where
  routed hid := nomatch hid
  held hst := nomatch hst
  queued hm := nomatch hm
  running hm := nomatch hm
  queue_nodup _ := List.nodup_nil
  tasks_nodup := List.nodup_nil
  handled_nodup := List.nodup_nil
  genuine _ hr := nomatch hr
  behind _ hr := nomatch hr
  replied hst := nomatch hst
  returned hst := nomatch hst
  in_queue hst := nomatch hst
  in_task hst := nomatch hst

structure Grows (s s' : Router P) : Prop where
  owners : ∀ {ch : ℕ} {id}, s.owners[ch]? = some id → s'.owners[ch]? = some id
  calls : ∀ {i : ℕ} {c}, s.calls[i]? = some c → s'.calls[i]? = some c

theorem Carries.mono (hg : Grows s s') {ch : ℕ} {m : RpcMessage} (h : s.Carries ch m) :
    s'.Carries ch m := by
  obtain ⟨c, hc, ho, hrest⟩ := h
  exact ⟨c, hg.calls hc, hg.owners ho, hrest⟩

theorem Genuine.mono (hg : Grows s s') {r : Handled P} (h : s.Genuine r) : s'.Genuine r := by
  obtain ⟨c, hc, ho, hrest⟩ := h
  exact ⟨c, hg.calls hc, hg.owners ho, hrest⟩

/-! A step brings some calls to a new stage, often one call only. What it does to the queues,
to the tasks and to the history is said for each of them, and the invariant follows. -/

structure QueueMoves (s s' : Router P) (moved : ℕ → Prop) (st : CallStage) : Prop where
  sub : ∀ {ch m}, m ∈ s'.queue ch → m ∈ s.queue ch ∧ ¬moved m.responseTx ∨
    s.Carries ch m ∧ moved m.responseTx ∧ st = .queued ch
  kept : ∀ {ch m}, m ∈ s.queue ch → ¬moved m.responseTx → m ∈ s'.queue ch
  nodup : ∀ ch, ((s'.queue ch).map (·.responseTx)).Nodup
  enqueued : ∀ {i ch}, moved i → st = .queued ch → ∃ m ∈ s'.queue ch, m.responseTx = i

structure TaskMoves (s s' : Router P) (moved : ℕ → Prop) (st : CallStage) : Prop where
  sub : ∀ {ch m}, (ch, m) ∈ s'.tasks → (ch, m) ∈ s.tasks ∧ ¬moved m.responseTx ∨
    s.Carries ch m ∧ moved m.responseTx ∧ st = .running
  kept : ∀ {task}, task ∈ s.tasks → ¬moved task.2.responseTx → task ∈ s'.tasks
  nodup : (s'.tasks.map (·.2.responseTx)).Nodup
  started : ∀ {i}, moved i → st = .running → ∃ task ∈ s'.tasks, task.2.responseTx = i

structure HistoryMoves (s s' : Router P) (moved : ℕ → Prop) (st : CallStage) : Prop where
  sub : ∀ {r}, r ∈ s'.handled → r ∈ s.handled ∨ s.Genuine r ∧ moved r.call ∧ st.Over
  kept : ∀ {r}, r ∈ s.handled → r ∈ s'.handled
  nodup : (s'.handled.map (·.call)).Nodup
  forward : ∀ {i}, moved i → (s.stage i).Over → st.Over
  answered : ∀ {i reply}, moved i → st = .replied reply ∨ st = .returned (some reply) →
    s'.RepliedBy i reply

structure Moves (s s' : Router P) (moved : ℕ → Prop) (st : CallStage) : Prop where
  targets : s'.targets = s.targets
  owners : s'.owners = s.owners
  calls : s'.calls = s.calls
  stage_moved : ∀ {i}, moved i → s'.stage i = st
  stage_still : ∀ {i}, ¬moved i → s'.stage i = s.stage i
  not_holding : ∀ {ch data}, st ≠ .holding ch data
  queue : QueueMoves s s' moved st
  tasks : TaskMoves s s' moved st
  history : HistoryMoves s s' moved st

variable {moved : ℕ → Prop} {st : CallStage}

theorem Moves.grows (hm : Moves s s' moved st) : Grows s s' := by
  refine ⟨?_, ?_⟩
  · intro ch id h
    rw [hm.owners]
    exact h
  · intro i c h
    rw [hm.calls]
    exact h

theorem Moves.sound (hm : Moves s s' moved st) (h : s.Sound) : s'.Sound where
  -- every clause about a call splits on whether it moves: then `hm` says what holds, else `h`
  routed hid := by
    rw [hm.targets] at hid
    exact hm.grows.owners (h.routed hid)
  held {i ch data} hst := by
    by_cases hi : moved i
    · rw [hm.stage_moved hi] at hst
      exact absurd hst hm.not_holding
    · rw [hm.stage_still hi] at hst
      obtain ⟨c, hc, ho, hd⟩ := h.held hst
      exact ⟨c, hm.grows.calls hc, hm.grows.owners ho, hd⟩
  queued hmem := by
    rcases hm.queue.sub hmem with ⟨hold, hi⟩ | ⟨hcarries, hi, hst⟩
    · rw [hm.stage_still hi]
      exact ⟨(h.queued hold).1.mono hm.grows, (h.queued hold).2⟩
    · rw [hm.stage_moved hi]
      exact ⟨hcarries.mono hm.grows, hst⟩
  running hmem := by
    rcases hm.tasks.sub hmem with ⟨hold, hi⟩ | ⟨hcarries, hi, hst⟩
    · rw [hm.stage_still hi]
      exact ⟨(h.running hold).1.mono hm.grows, (h.running hold).2⟩
    · rw [hm.stage_moved hi]
      exact ⟨hcarries.mono hm.grows, hst⟩
  queue_nodup := hm.queue.nodup
  tasks_nodup := hm.tasks.nodup
  handled_nodup := hm.history.nodup
  genuine r hr := by
    rcases hm.history.sub hr with hold | ⟨hnew, -, -⟩
    · exact (h.genuine r hold).mono hm.grows
    · exact hnew.mono hm.grows
  behind r hr := by
    by_cases hi : moved r.call
    · rw [hm.stage_moved hi]
      rcases hm.history.sub hr with hold | ⟨-, -, hover⟩
      · exact hm.history.forward hi (h.behind r hold)
      · exact hover
    · rw [hm.stage_still hi]
      rcases hm.history.sub hr with hold | ⟨-, hin, -⟩
      · exact h.behind r hold
      · exact absurd hin hi
  replied {i reply} hst := by
    by_cases hi : moved i
    · rw [hm.stage_moved hi] at hst
      exact hm.history.answered hi (Or.inl hst)
    · rw [hm.stage_still hi] at hst
      obtain ⟨r, hr, hrest⟩ := h.replied hst
      exact ⟨r, hm.history.kept hr, hrest⟩
  returned {i reply} hst := by
    by_cases hi : moved i
    · rw [hm.stage_moved hi] at hst
      exact hm.history.answered hi (Or.inr hst)
    · rw [hm.stage_still hi] at hst
      obtain ⟨r, hr, hrest⟩ := h.returned hst
      exact ⟨r, hm.history.kept hr, hrest⟩
  in_queue {i ch} hst := by
    by_cases hi : moved i
    · rw [hm.stage_moved hi] at hst
      exact hm.queue.enqueued hi hst
    · rw [hm.stage_still hi] at hst
      obtain ⟨m, hmem, rfl⟩ := h.in_queue hst
      exact ⟨m, hm.queue.kept hmem hi, rfl⟩
  in_task {i} hst := by
    by_cases hi : moved i
    · rw [hm.stage_moved hi] at hst
      exact hm.tasks.started hi hst
    · rw [hm.stage_still hi] at hst
      obtain ⟨task, hmem, rfl⟩ := h.in_task hst
      exact ⟨task, hm.tasks.kept hmem hi, rfl⟩

/-! ### Parts that a step leaves alone -/

theorem Sound.queueMoves_same (h : s.Sound) (hq : s'.queue = s.queue)
    (hout : ∀ {i ch}, moved i → s.stage i ≠ .queued ch) (hst : ∀ ch, st ≠ .queued ch) :
    QueueMoves s s' moved st where
  sub hm := by
    rw [hq] at hm
    exact Or.inl ⟨hm, fun hi => hout hi (h.queued hm).2⟩
  kept hm _ := by
    rw [hq]
    exact hm
  nodup ch := by
    rw [hq]
    exact h.queue_nodup ch
  enqueued _ hq := absurd hq (hst _)

/-- The queue of one channel is replaced, and the calls that move were not waiting in another. -/
theorem Sound.queueMoves_update (h : s.Sound) {ch : ℕ} {q : List RpcMessage}
    (hq : s'.queue = Function.update s.queue ch q)
    (hout : ∀ {i ch'}, moved i → ch' ≠ ch → s.stage i ≠ .queued ch')
    (hst : ∀ {ch'}, st = .queued ch' → ch' = ch)
    (hsub : ∀ {m}, m ∈ q → m ∈ s.queue ch ∧ ¬moved m.responseTx ∨
      s.Carries ch m ∧ moved m.responseTx ∧ st = .queued ch)
    (hkept : ∀ {m}, m ∈ s.queue ch → ¬moved m.responseTx → m ∈ q)
    (hnodup : (q.map (·.responseTx)).Nodup)
    (henqueued : ∀ {i}, moved i → st = .queued ch → ∃ m ∈ q, m.responseTx = i) :
    QueueMoves s s' moved st := by
  have hself : s'.queue ch = q := by
    rw [hq, Function.update_self]
  have hother {ch' : ℕ} (hch : ch' ≠ ch) : s'.queue ch' = s.queue ch' := by
    rw [hq, Function.update_of_ne hch]
  constructor
  case sub =>
    intro ch' m hm
    by_cases hch : ch' = ch
    · subst hch
      rw [hself] at hm
      exact hsub hm
    · rw [hother hch] at hm
      exact Or.inl ⟨hm, fun hi => hout hi hch (h.queued hm).2⟩
  case kept =>
    intro ch' m hm hi
    by_cases hch : ch' = ch
    · subst hch
      rw [hself]
      exact hkept hm hi
    · rw [hother hch]
      exact hm
  case nodup =>
    intro ch'
    by_cases hch : ch' = ch
    · rw [hch, hself]
      exact hnodup
    · rw [hother hch]
      exact h.queue_nodup ch'
  case enqueued =>
    intro i ch' hi hq'
    have hch := hst hq'
    subst hch
    rw [hself]
    exact henqueued hi hq'

theorem Sound.taskMoves_same (h : s.Sound) (ht : s'.tasks = s.tasks)
    (hout : ∀ {i}, moved i → s.stage i ≠ .running) (hst : st ≠ .running) :
    TaskMoves s s' moved st where
  sub hm := by
    rw [ht] at hm
    exact Or.inl ⟨hm, fun hi => hout hi (h.running hm).2⟩
  kept hm _ := by
    rw [ht]
    exact hm
  nodup := by
    rw [ht]
    exact h.tasks_nodup
  started _ hr := absurd hr hst

theorem Sound.historyMoves_same (h : s.Sound) (hh : s'.handled = s.handled)
    (hforward : ∀ {i}, moved i → (s.stage i).Over → st.Over)
    (hanswered : ∀ {i reply}, moved i → st = .replied reply ∨ st = .returned (some reply) →
      s.RepliedBy i reply) : HistoryMoves s s' moved st where
  sub hr := by
    rw [hh] at hr
    exact Or.inl hr
  kept hr := by
    rw [hh]
    exact hr
  nodup := by
    rw [hh]
    exact h.handled_nodup
  forward := hforward
  answered hi hst := by
    unfold RepliedBy
    rw [hh]
    exact hanswered hi hst

/-- A step that sets the stage of one call. -/
theorem Sound.move_one (h : s.Sound) {i : ℕ} (hst : s'.stage = Function.update s.stage i st)
    (htargets : s'.targets = s.targets) (howners : s'.owners = s.owners)
    (hcalls : s'.calls = s.calls) (hnot : ∀ {ch data}, st ≠ .holding ch data)
    (hqueue : QueueMoves s s' (· = i) st) (htasks : TaskMoves s s' (· = i) st)
    (hhistory : HistoryMoves s s' (· = i) st) : s'.Sound := by
  apply Moves.sound ⟨htargets, howners, hcalls, ?_, ?_, hnot, hqueue, htasks, hhistory⟩ h
  · intro j hj
    rw [hst, hj, Function.update_self]
  · intro j hj
    rw [hst]
    exact Function.update_of_ne hj _ _

/-! ### The steps of a call -/

theorem Sound.send (h : s.Sound) {i ch : ℕ} {c : RpcCall P} {data : Bytes}
    (hc : s.calls[i]? = some c) (hst : s.stage i = .holding ch data) :
    Sound { s with
      queue := Function.update s.queue ch (s.queue ch ++ [⟨c.kind.path, data, i⟩])
      stage := Function.update s.stage i (.queued ch) } := by
  -- the call has no message in a queue yet
  have hnot {ch' : ℕ} : s.stage i ≠ .queued ch' := by
    rw [hst]
    exact fun h => nomatch h
  have hfresh {m : RpcMessage} (hm : m ∈ s.queue ch) : ¬m.responseTx = i := by
    intro hi
    have hq := (h.queued hm).2
    rw [hi] at hq
    exact hnot hq
  have hcarries : s.Carries ch ⟨c.kind.path, data, i⟩ := by
    obtain ⟨c', hc', ho, hd⟩ := h.held hst
    rw [hc] at hc'
    cases hc'
    exact ⟨c, hc, ho, rfl, hd⟩
  refine h.move_one rfl rfl rfl rfl (fun h => nomatch h) (h.queueMoves_update rfl ?_ ?_ ?_ ?_ ?_ ?_)
    ?_ ?_
  · intro j ch' hj _
    rw [hj]
    exact hnot
  · intro ch' hq
    exact (CallStage.queued.inj hq).symm
  · intro m hm
    rw [List.mem_append, List.mem_singleton] at hm
    rcases hm with hold | rfl
    · exact Or.inl ⟨hold, hfresh hold⟩
    · exact Or.inr ⟨hcarries, rfl, rfl⟩
  · intro m hm _
    exact List.mem_append_left _ hm
  · rw [List.map_append]
    apply List.Nodup.append (h.queue_nodup _) (List.nodup_singleton _)
    intro j hj hj'
    obtain ⟨m, hm, rfl⟩ := List.mem_map.mp hj
    exact hfresh hm (List.mem_singleton.mp hj')
  · intro j hj _
    exact ⟨_, List.mem_append_right _ (List.mem_singleton_self _), hj.symm⟩
  · refine h.taskMoves_same rfl ?_ (fun h => nomatch h)
    intro j hj
    rw [hj, hst]
    exact fun h => nomatch h
  · refine h.historyMoves_same rfl ?_ ?_
    · intro j hj hover
      rw [hj, hst] at hover
      exact hover.elim
    · intro j reply _ hr
      exact hr.elim (fun h => nomatch h) (fun h => nomatch h)

/-- A step of the caller alone, from a stage in which no message is under way. -/
theorem Sound.caller_step (h : s.Sound) {i : ℕ} (hq : ∀ ch, s.stage i ≠ .queued ch)
    (hr : s.stage i ≠ .running) (hst : ∀ ch, st ≠ .queued ch) (hst' : st ≠ .running)
    (hnot : ∀ {ch data}, st ≠ .holding ch data) (hforward : (s.stage i).Over → st.Over)
    (hanswered : ∀ {reply}, st = .replied reply ∨ st = .returned (some reply) →
      s.RepliedBy i reply) : Sound { s with stage := Function.update s.stage i st } := by
  refine h.move_one rfl rfl rfl rfl hnot ?_ ?_ ?_
  · refine h.queueMoves_same rfl ?_ hst
    intro j ch hj
    rw [hj]
    exact hq ch
  · refine h.taskMoves_same rfl ?_ hst'
    intro j hj
    rw [hj]
    exact hr
  · refine h.historyMoves_same rfl ?_ ?_
    · intro j hj hover
      rw [hj] at hover
      exact hforward hover
    · intro j reply hj hreply
      rw [hj]
      exact hanswered hreply

theorem Sound.receive (h : s.Sound) {ch : ℕ} {m : RpcMessage} {rest : List RpcMessage}
    (hm : s.queue ch = m :: rest) :
    Sound { s with
      queue := Function.update s.queue ch rest
      tasks := s.tasks ++ [(ch, m)]
      stage := Function.update s.stage m.responseTx .running } := by
  have hhead : m ∈ s.queue ch := by
    rw [hm]
    exact List.mem_cons_self
  obtain ⟨hcarries, hst⟩ := h.queued hhead
  have hnodup := h.queue_nodup ch
  rw [hm, List.map_cons, List.nodup_cons] at hnodup
  refine h.move_one rfl rfl rfl rfl (fun h => nomatch h) (h.queueMoves_update rfl ?_ ?_ ?_ ?_ ?_ ?_)
    ⟨?_, ?_, ?_, ?_⟩ ?_
  · intro j ch' hj hch
    rw [hj, hst]
    exact fun heq => hch (CallStage.queued.inj heq).symm
  · intro ch' hq
    contradiction
  · -- no other message of the queue belongs to the call
    intro m' hm'
    refine Or.inl ⟨?_, fun hsame => hnodup.1 ?_⟩
    · rw [hm]
      exact List.mem_cons_of_mem _ hm'
    · rw [← hsame]
      exact List.mem_map_of_mem hm'
  · intro m' hm' hne
    rw [hm] at hm'
    exact (List.mem_cons.mp hm').resolve_left (fun heq => hne (by rw [heq]))
  · exact hnodup.2
  · intro j _ hq
    contradiction
  · intro ch' m' hm'
    rcases List.mem_append.mp hm' with hold | hnew
    · refine Or.inl ⟨hold, fun hsame => ?_⟩
      have hrun := (h.running hold).2
      rw [hsame, hst] at hrun
      contradiction
    · cases List.mem_singleton.mp hnew
      exact Or.inr ⟨hcarries, rfl, rfl⟩
  · intro task htask _
    exact List.mem_append_left _ htask
  · dsimp only
    rw [List.map_append]
    apply List.Nodup.append h.tasks_nodup (List.nodup_singleton _)
    intro j hj hj'
    obtain ⟨⟨ch', m'⟩, htask, rfl⟩ := List.mem_map.mp hj
    have hrun := (h.running htask).2
    rw [List.mem_singleton.mp hj', hst] at hrun
    contradiction
  · intro j hj _
    exact ⟨(ch, m), List.mem_append_right _ (List.mem_singleton_self _), hj.symm⟩
  · refine h.historyMoves_same rfl ?_ ?_
    · intro j hj hover
      rw [hj, hst] at hover
      exact hover.elim
    · intro j reply _ hr
      exact hr.elim (fun h => nomatch h) (fun h => nomatch h)

/-- Among tasks for different calls, those that are left when one is taken out. -/
theorem mem_eraseIdx_iff_ne {α β : Type} {l : List α} {f : α → β} (hn : (l.map f).Nodup) {n : ℕ}
    {a : α} (ha : l[n]? = some a) (b : α) : b ∈ l.eraseIdx n ↔ b ∈ l ∧ ¬f b = f a := by
  obtain ⟨hlt, rfl⟩ := List.getElem?_eq_some_iff.mp ha
  rw [List.mem_eraseIdx_iff_getElem, List.mem_iff_getElem]
  constructor
  · intro hb
    obtain ⟨i, hi, hne, rfl⟩ := hb
    refine ⟨⟨i, hi, rfl⟩, fun hsame => hne ?_⟩
    have hi' : i < (l.map f).length := by rwa [List.length_map]
    have hn' : n < (l.map f).length := by rwa [List.length_map]
    have hmap : (l.map f)[i] = (l.map f)[n] := by
      rw [List.getElem_map, List.getElem_map]
      exact hsame
    exact (List.Nodup.getElem_inj_iff hn).mp hmap
  · intro hb
    obtain ⟨⟨i, hi, rfl⟩, hne⟩ := hb
    refine ⟨i, hi, ?_, rfl⟩
    intro hin
    subst hin
    exact hne rfl

/-- The task of a message hands the request of its call to the node. -/
theorem Carries.dispatch {ch : ℕ} {m : RpcMessage} (h : s.Carries ch m)
    (respond : ∀ k, P.Req k → P.Outcome k) :
    ∃ ex, dispatch P respond m.path m.data = (some ex, (P.reply ex.kind).toVec ex.out) ∧
      s.Genuine ⟨m.responseTx, ch, ex⟩ := by
  obtain ⟨c, hc, ho, hpath, hdata⟩ := h
  refine ⟨⟨c.kind, c.req, respond c.kind c.req⟩, ?_, c, hc, ho, _, rfl⟩
  unfold RaftRpc.dispatch
  rw [hpath, RpcKind.ofPath_path]
  dsimp only
  rw [(P.request c.kind).fromSlice_toVec hdata]

theorem mem_record {m : RpcMessage} {ch : ℕ} {ex : Option (Exchange P)} {r : Handled P} :
    r ∈ record m ch ex ↔ ∃ e, ex = some e ∧ r = ⟨m.responseTx, ch, e⟩ := by
  unfold record
  cases ex with
  | none => simp
  | some e => simp

/-- A task ends, with or without a record in the history. -/
theorem Sound.end_task (h : s.Sound) {n ch : ℕ} {m : RpcMessage} (hn : s.tasks[n]? = some (ch, m))
    {ex : Option (Exchange P)} (hnew : ∀ e, ex = some e → s.Genuine ⟨m.responseTx, ch, e⟩)
    (hst : st.Over)
    (hreply : ∀ {reply}, st = .replied reply ∨ st = .returned (some reply) →
      ∃ e, ex = some e ∧ reply = (P.reply e.kind).toVec e.out) :
    Sound { s with
      tasks := s.tasks.eraseIdx n
      handled := s.handled ++ record m ch ex
      stage := Function.update s.stage m.responseTx st } := by
  have hrun := (h.running (List.mem_of_getElem? hn)).2
  have hleft := mem_eraseIdx_iff_ne h.tasks_nodup hn
  have hrecord {r : Handled P} (hr : r ∈ record m ch ex) : r.call = m.responseTx ∧ s.Genuine r := by
    obtain ⟨e, he, rfl⟩ := mem_record.mp hr
    exact ⟨rfl, hnew e he⟩
  refine h.move_one rfl rfl rfl rfl ?_ ?_ ⟨?_, ?_, ?_, ?_⟩ ⟨?_, ?_, ?_, ?_, ?_⟩
  · rintro ch' data rfl
    exact hst
  · refine h.queueMoves_same rfl ?_ ?_
    · intro j ch' hj
      rw [hj, hrun]
      exact fun h => nomatch h
    · rintro ch' rfl
      exact hst
  · -- a call has one task, so the tasks that are left are those of other calls
    intro ch' m' hm'
    exact Or.inl ((hleft (ch', m')).mp hm')
  · intro task htask hne
    exact (hleft task).mpr ⟨htask, hne⟩
  · exact h.tasks_nodup.sublist ((List.eraseIdx_sublist _ _).map _)
  · rintro j - rfl
    exact hst.elim
  · intro r hr
    rcases List.mem_append.mp hr with hold | hmem
    · exact Or.inl hold
    · exact Or.inr ⟨(hrecord hmem).2, (hrecord hmem).1, hst⟩
  · intro r hr
    exact List.mem_append_left _ hr
  · -- the call of a running task is not in the history yet
    dsimp only
    rw [List.map_append]
    apply List.Nodup.append h.handled_nodup
    · cases ex with
      | none => exact List.nodup_nil
      | some e => exact List.nodup_singleton _
    · intro j hj hj'
      obtain ⟨r, hr, rfl⟩ := List.mem_map.mp hj
      obtain ⟨r', hr', heq⟩ := List.mem_map.mp hj'
      have hover := h.behind r hr
      rw [← heq, (hrecord hr').1, hrun] at hover
      exact hover
  · intro _ _ _
    exact hst
  · intro j reply hj hr
    obtain ⟨e, he, heq⟩ := hreply hr
    exact ⟨_, List.mem_append_right _ (mem_record.mpr ⟨e, he, rfl⟩), hj.symm, heq⟩

theorem Sound.close_moves (h : s.Sound) (ch : ℕ) :
    Moves s { s with
      closed := Function.update s.closed ch true
      queue := Function.update s.queue ch []
      stage := fun i => if i ∈ (s.queue ch).map (·.responseTx) then .dropped else s.stage i }
      (· ∈ (s.queue ch).map (·.responseTx)) .dropped := by
  have hmoved {i : ℕ} (hi : i ∈ (s.queue ch).map (·.responseTx)) : s.stage i = .queued ch := by
    obtain ⟨m, hm, rfl⟩ := List.mem_map.mp hi
    exact (h.queued hm).2
  refine ⟨rfl, rfl, rfl, fun hi => if_pos hi, fun hi => if_neg hi, (fun h => nomatch h),
    h.queueMoves_update rfl ?_ ?_ ?_ ?_ List.nodup_nil ?_, ?_, ?_⟩
  · intro i ch' hi hch
    rw [hmoved hi]
    exact fun heq => hch (CallStage.queued.inj heq).symm
  · intro ch' hq
    contradiction
  · intro m hm
    contradiction
  · intro m hm hne
    exact absurd (List.mem_map_of_mem hm) hne
  · intro _ _ hq
    contradiction
  · refine h.taskMoves_same rfl ?_ (fun h => nomatch h)
    intro i hi
    rw [hmoved hi]
    exact fun h => nomatch h
  · refine h.historyMoves_same rfl ?_ ?_
    · intro _ _ _
      exact trivial
    · intro _ _ _ hr
      exact hr.elim (fun h => nomatch h) (fun h => nomatch h)

/-! ### Steps that add a channel or a call -/

/-- The stages of the calls there were stay, and so do queues, tasks and history. A new call
has nothing under way. -/
theorem Sound.regrow (h : s.Sound) (hg : Grows s s')
    (hrouted : ∀ {id ch}, s'.targets id = some ch → s'.owners[ch]? = some id)
    (hqueue : s'.queue = s.queue) (htasks : s'.tasks = s.tasks)
    (hhandled : s'.handled = s.handled)
    (hstage : ∀ i, s'.stage i = s.stage i ∨ s.calls[i]? = none ∧
      ((∃ message, s'.stage i = .unsent message) ∨
        ∃ ch data c, s'.stage i = .holding ch data ∧ s'.calls[i]? = some c ∧
          s'.owners[ch]? = some c.target ∧ (P.request c.kind).toVec c.req = .ok data)) :
    s'.Sound := by
  -- what is known about a call that was there, and about a stage that is not a first one
  have hold {i : ℕ} {c : RpcCall P} (hc : s.calls[i]? = some c) : s'.stage i = s.stage i := by
    rcases hstage i with hsame | ⟨hnone, -⟩
    · exact hsame
    · rw [hc] at hnone
      contradiction
  have hback {i : ℕ} {st : CallStage} (hst : s'.stage i = st) (hu : ∀ message, st ≠ .unsent message)
      (hh : ∀ ch data, st ≠ .holding ch data) : s.stage i = st := by
    rcases hstage i with hsame | ⟨-, ⟨message, hun⟩ | ⟨ch, data, c, hho, -⟩⟩
    · exact hsame.symm.trans hst
    · exact absurd (hst.symm.trans hun) (hu message)
    · exact absurd (hst.symm.trans hho) (hh ch data)
  have hreplied {i : ℕ} {reply : Except String Bytes} (hr : s.RepliedBy i reply) :
      s'.RepliedBy i reply := by
    unfold RepliedBy
    rw [hhandled]
    exact hr
  constructor
  case routed => exact hrouted
  case held =>
    intro i ch data hst
    rcases hstage i with hsame | ⟨-, ⟨message, hun⟩ | ⟨ch', data', c, hho, hrest⟩⟩
    · obtain ⟨c, hc, ho, hd⟩ := h.held (hsame.symm.trans hst)
      exact ⟨c, hg.calls hc, hg.owners ho, hd⟩
    · rw [hst] at hun
      contradiction
    · rw [hst] at hho
      cases hho
      exact ⟨c, hrest⟩
  case queued =>
    intro ch m hm
    rw [hqueue] at hm
    obtain ⟨hcarries, hst⟩ := h.queued hm
    obtain ⟨c, hc, -⟩ := id hcarries
    exact ⟨hcarries.mono hg, (hold hc).trans hst⟩
  case running =>
    intro ch m hm
    rw [htasks] at hm
    obtain ⟨hcarries, hst⟩ := h.running hm
    obtain ⟨c, hc, -⟩ := id hcarries
    exact ⟨hcarries.mono hg, (hold hc).trans hst⟩
  case queue_nodup =>
    rw [hqueue]
    exact h.queue_nodup
  case tasks_nodup =>
    rw [htasks]
    exact h.tasks_nodup
  case handled_nodup =>
    rw [hhandled]
    exact h.handled_nodup
  case genuine =>
    intro r hr
    rw [hhandled] at hr
    exact (h.genuine r hr).mono hg
  case behind =>
    intro r hr
    rw [hhandled] at hr
    obtain ⟨c, hc, -⟩ := h.genuine r hr
    rw [hold hc]
    exact h.behind r hr
  case replied =>
    intro i reply hst
    exact hreplied (h.replied (hback hst (fun _ h => nomatch h) (fun _ _ h => nomatch h)))
  case returned =>
    intro i reply hst
    exact hreplied (h.returned (hback hst (fun _ h => nomatch h) (fun _ _ h => nomatch h)))
  case in_queue =>
    intro i ch hst
    rw [hqueue]
    exact h.in_queue (hback hst (fun _ h => nomatch h) (fun _ _ h => nomatch h))
  case in_task =>
    intro i hst
    rw [htasks]
    exact h.in_task (hback hst (fun _ h => nomatch h) (fun _ _ h => nomatch h))

theorem grows_concat {α : Type} (l : List α) (a : α) {i : ℕ} {b : α} (h : l[i]? = some b) :
    (l ++ [a])[i]? = some b := by
  rw [List.getElem?_append_left (List.getElem?_eq_some_iff.mp h).1]
  exact h

theorem Sound.register (h : s.Sound) (id : NodeName) :
    Sound { s with
      owners := s.owners ++ [id]
      targets := Function.update s.targets id (some s.owners.length) } := by
  refine h.regrow ⟨grows_concat _ _, fun hc => hc⟩ ?_ rfl rfl rfl (fun _ => Or.inl rfl)
  intro id' ch htarget
  dsimp only at htarget ⊢
  by_cases hid : id' = id
  · rw [hid, Function.update_self] at htarget
    cases htarget
    rw [hid, List.getElem?_concat_length]
  · rw [Function.update_of_ne hid] at htarget
    exact grows_concat _ _ (h.routed htarget)

theorem Sound.unregister (h : s.Sound) (id : NodeName) :
    Sound { s with targets := Function.update s.targets id none } := by
  refine h.regrow ⟨fun ho => ho, fun hc => hc⟩ ?_ rfl rfl rfl (fun _ => Or.inl rfl)
  intro id' ch htarget
  dsimp only at htarget
  by_cases hid : id' = id
  · rw [hid, Function.update_self] at htarget
    contradiction
  · rw [Function.update_of_ne hid] at htarget
    exact h.routed htarget

theorem Sound.call (h : s.Sound) (c : RpcCall P) :
    Sound { s with
      calls := s.calls ++ [c]
      stage := Function.update s.stage s.calls.length (s.lookupTarget c) } := by
  refine h.regrow ⟨fun ho => ho, grows_concat _ _⟩ h.routed rfl rfl rfl ?_
  intro i
  dsimp only
  by_cases hi : i = s.calls.length
  · rw [hi, Function.update_self]
    refine Or.inr ⟨List.getElem?_eq_none (le_refl _), ?_⟩
    obtain ⟨target, kind, req⟩ := c
    rw [lookupTarget]
    cases hd : (P.request kind).toVec req with
    | error e => exact Or.inl ⟨e, rfl⟩
    | ok data =>
      dsimp only
      cases ht : s.targets target with
      | none => exact Or.inl ⟨_, rfl⟩
      | some ch =>
        exact Or.inr ⟨ch, data, ⟨target, kind, req⟩, rfl, List.getElem?_concat_length,
          h.routed ht, hd⟩
  · exact Or.inl (Function.update_of_ne hi _ _)

theorem Sound.finish (h : s.Sound) {i : ℕ} {received : Option (Except String Bytes)}
    (hst : (∃ reply, s.stage i = .replied reply ∧ received = some reply) ∨
      s.stage i = .dropped ∧ received = none) :
    Sound { s with stage := Function.update s.stage i (.returned received) } := by
  have hover : (s.stage i).Over := by
    rcases hst with ⟨reply, hst, -⟩ | ⟨hst, -⟩
    · rw [hst]
      exact trivial
    · rw [hst]
      exact trivial
  refine h.caller_step ?_ ?_ (fun _ h => nomatch h) (fun h => nomatch h) (fun h => nomatch h)
    (fun _ => trivial) ?_
  · intro ch hq
    rw [hq] at hover
    exact hover
  · intro hr
    rw [hr] at hover
    exact hover
  · intro reply' hreply
    rcases hst with ⟨reply, hst, rfl⟩ | ⟨-, rfl⟩
    · rcases hreply with hno | hsame
      · contradiction
      · cases hsame
        exact h.replied hst
    · rcases hreply with hno | hno
      · contradiction
      · cases hno

theorem step_sound {a : RouterAction P} (h : s.Sound) (hstep : s.step a = some s') : s'.Sound := by
  cases a with
  | register id =>
    cases hstep
    exact h.register id
  | unregister id =>
    cases hstep
    exact h.unregister id
  | close ch =>
    rw [step] at hstep
    split_ifs at hstep
    cases hstep
    exact (h.close_moves ch).sound h
  | call c =>
    cases hstep
    exact h.call c
  | send i =>
    rw [step] at hstep
    split at hstep
    next target kind req ch data hc hst =>
      split_ifs at hstep
      · -- the receiver is gone: the message is never in a queue
        cases hstep
        refine h.caller_step ?_ ?_ (fun _ h => nomatch h) (fun h => nomatch h)
          (fun h => nomatch h) ?_ ?_
        · rw [hst]
          exact fun _ h => nomatch h
        · rw [hst]
          exact fun h => nomatch h
        · rw [hst]
          exact False.elim
        · intro reply hr
          exact hr.elim (fun h => nomatch h) (fun h => nomatch h)
      · cases hstep
        exact h.send hc hst
    next => contradiction
  | receive ch =>
    rw [step] at hstep
    split at hstep
    next => contradiction
    next m rest hq =>
      cases hstep
      exact h.receive hq
  | handle n respond =>
    cases hn : s.tasks[n]? with
    | none =>
      rw [step, hn] at hstep
      contradiction
    | some task =>
      obtain ⟨ch, m⟩ := task
      obtain ⟨ex, hd, hgenuine⟩ := (h.running (List.mem_of_getElem? hn)).1.dispatch respond
      rw [step_handle hn hd] at hstep
      cases hstep
      refine h.end_task hn ?_ trivial ?_
      · intro e he
        cases he
        exact hgenuine
      · intro reply hr
        rcases hr with hsame | hno
        · cases hsame
          exact ⟨ex, rfl, rfl⟩
        · contradiction
  | abort n respond =>
    rw [step] at hstep
    split at hstep
    next => contradiction
    next ch m hn =>
      cases hstep
      refine h.end_task hn ?_ trivial ?_
      · -- if the node had the request already, it was the one of the call
        intro e he
        obtain ⟨respond, -, hdispatch⟩ := Option.bind_eq_some_iff.mp he
        obtain ⟨ex, hd, hgenuine⟩ := (h.running (List.mem_of_getElem? hn)).1.dispatch respond
        rw [hd] at hdispatch
        cases hdispatch
        exact hgenuine
      · intro reply hr
        exact hr.elim (fun h => nomatch h) (fun h => nomatch h)
  | finish i =>
    rw [step] at hstep
    by_cases ha : s.abandoned i = true
    · rw [if_pos ha] at hstep
      contradiction
    · rw [if_neg ha] at hstep
      split at hstep
      next reply hst =>
        cases hstep
        exact h.finish (Or.inl ⟨reply, hst, rfl⟩)
      next hst =>
        split_ifs at hstep
        cases hstep
        exact h.finish (Or.inr ⟨hst, rfl⟩)
      next => contradiction
  | abandon i =>
    cases hstep
    exact h.regrow ⟨fun ho => ho, fun hc => hc⟩ h.routed rfl rfl rfl (fun _ => Or.inl rfl)

theorem run_sound {actions : List (RouterAction P)}
    (hrun : PartialRun.run step new actions = some s) : s.Sound :=
  PartialRun.run_induct (fun h hstep => step_sound h hstep) new_sound hrun

/-! ### What the callers see -/

/-- An answer that is no failure of the transport is what the node returned. -/
theorem answer_reply {k : RpcKind} (target : NodeName) (out : P.Outcome k) :
    (∃ e, answer P k target (some ((P.reply k).toVec out)) = .error (.unreachable e)) ∨
      answer P k target (some ((P.reply k).toVec out)) = ofOutcome P target out := by
  cases hd : (P.reply k).toVec out with
  | error e => exact Or.inl ⟨e, rfl⟩
  | ok data =>
    apply Or.inr
    unfold answer
    dsimp only
    rw [(P.reply k).fromSlice_toVec hd]

theorem ofOutcome_eq_ok {k : RpcKind} {target : NodeName} {out : P.Outcome k} {resp : P.Resp k}
    (h : ofOutcome P target out = .ok resp) : out = .ok resp := by
  unfold ofOutcome at h
  split at h
  · cases h
    rfl
  · cases h
  · cases h

theorem ofOutcome_eq_remoteError {k : RpcKind} {target node : NodeName} {out : P.Outcome k}
    {e : ApiError P.SnapshotError k} (h : ofOutcome P target out = .error (.remoteError node e)) :
    node = target ∧ out = .error (.apiError e) := by
  unfold ofOutcome at h
  split at h
  · cases h
  · cases h
    exact ⟨rfl, rfl⟩
  · cases h

/-- A reply comes from a record of the call. -/
theorem Sound.exchange_of_reply (h : s.Sound) {i : ℕ} {c : RpcCall P} (hc : s.calls[i]? = some c)
    {reply : Except String Bytes} (hr : s.RepliedBy i reply) :
    ∃ ch out, (⟨i, ch, ⟨c.kind, c.req, out⟩⟩ : Handled P) ∈ s.handled ∧
      reply = (P.reply c.kind).toVec out := by
  obtain ⟨⟨call, ch, ex⟩, hmem, rfl, hreply⟩ := hr
  obtain ⟨c', hc', -, out, hex⟩ := h.genuine _ hmem
  dsimp only at hc' hex hreply
  rw [hc] at hc'
  cases hc'
  rw [hex] at hmem hreply
  exact ⟨ch, out, hmem, hreply⟩

/-- What a call returns is a failure of the transport or what the node made of its request. -/
theorem Sound.result_cases (h : s.Sound) {i : ℕ} {c : RpcCall P} (hc : s.calls[i]? = some c)
    {res : P.Result c.kind} (hres : s.result i c = some res) :
    (∃ e, res = .error (.unreachable e)) ∨
      ∃ ch out, (⟨i, ch, ⟨c.kind, c.req, out⟩⟩ : Handled P) ∈ s.handled ∧
        res = ofOutcome P c.target out := by
  unfold result at hres
  split at hres
  next message _ =>
    cases hres
    exact Or.inl ⟨message, rfl⟩
  next received hst =>
    cases hres
    cases received with
    | none => exact Or.inl ⟨_, rfl⟩
    | some reply =>
      obtain ⟨ch, out, hmem, rfl⟩ := h.exchange_of_reply hc (h.returned hst)
      rcases answer_reply c.target out with hfail | hout
      · exact Or.inl hfail
      · exact Or.inr ⟨ch, out, hmem, hout⟩
  next => contradiction

/-- Nothing is in a queue or in a task, and no caller has a step to take. -/
structure Quiescent (s : Router P) : Prop where
  queue : ∀ ch, s.queue ch = []
  tasks : s.tasks = []
  send : ∀ i, s.step (.send i) = none
  finish : ∀ i, s.step (.finish i) = none

theorem Sound.result_isSome (h : s.Sound) (hq : s.Quiescent) {i : ℕ} {c : RpcCall P}
    (hc : s.calls[i]? = some c) (ha : s.abandoned i = false) : (s.result i c).isSome = true := by
  have hlen : i < s.calls.length := (List.getElem?_eq_some_iff.mp hc).1
  have hsend := hq.send i
  have hfinish := hq.finish i
  rw [step] at hsend
  rw [step] at hfinish
  rw [ha, if_neg Bool.false_ne_true] at hfinish
  unfold result
  cases hst : s.stage i with
  | holding ch data =>
    rw [hc, hst] at hsend
    dsimp only at hsend
    rw [ha, if_neg Bool.false_ne_true] at hsend
    split_ifs at hsend
  | queued ch =>
    obtain ⟨m, hm, -⟩ := h.in_queue hst
    rw [hq.queue ch] at hm
    contradiction
  | running =>
    obtain ⟨task, htask, -⟩ := h.in_task hst
    rw [hq.tasks] at htask
    contradiction
  | replied reply =>
    rw [hst] at hfinish
    contradiction
  | dropped =>
    rw [hst] at hfinish
    dsimp only at hfinish
    rw [if_pos hlen] at hfinish
    contradiction
  | unsent message => rfl
  | returned received => rfl

/-- In every run of the router, whatever nodes come and go and whatever is lost: a node is
given a request at most once for each call, and only requests of calls to it. A call that
returns a response, or an error of the remote node, returns what the node answered to its
request; a call that failed before it sent anything was not handled. When nothing is left to
do, every caller that has not given up has a result. -/
theorem rpcs_matched {actions : List (RouterAction P)}
    (hrun : PartialRun.run step new actions = some s) :
    (s.handled.map (·.call)).Nodup ∧ (∀ r ∈ s.handled, s.Genuine r) ∧
      (∀ i c, s.calls[i]? = some c →
        (∀ resp, s.result i c = some (.ok resp) →
          ∃ ch, (⟨i, ch, ⟨c.kind, c.req, .ok resp⟩⟩ : Handled P) ∈ s.handled) ∧
        (∀ node e, s.result i c = some (.error (.remoteError node e)) → node = c.target ∧
          ∃ ch, (⟨i, ch, ⟨c.kind, c.req, .error (.apiError e)⟩⟩ : Handled P) ∈ s.handled) ∧
        (∀ message, s.stage i = .unsent message → ∀ r ∈ s.handled, r.call ≠ i)) ∧
      (s.Quiescent → ∀ i c, s.calls[i]? = some c → s.abandoned i = false →
        (s.result i c).isSome = true) := by
  have h := run_sound hrun
  refine ⟨h.handled_nodup, h.genuine, ?_, fun hq i c hc ha => h.result_isSome hq hc ha⟩
  intro i c hc
  refine ⟨?_, ?_, ?_⟩
  · intro resp hres
    rcases h.result_cases hc hres with ⟨e, he⟩ | ⟨ch, out, hmem, hout⟩
    · contradiction
    · rw [ofOutcome_eq_ok hout.symm] at hmem
      exact ⟨ch, hmem⟩
  · intro node e hres
    rcases h.result_cases hc hres with ⟨_, he⟩ | ⟨ch, out, hmem, hout⟩
    · cases he
    · obtain ⟨hnode, hfail⟩ := ofOutcome_eq_remoteError hout.symm
      rw [hfail] at hmem
      exact ⟨hnode, ch, hmem⟩
  · intro message hst r hr heq
    have hover := h.behind r hr
    rw [heq, hst] at hover
    exact hover

/-! An election: node 1 asks nodes 2 and 3 for their votes, and only node 2 is there. -/

structure Vote where
  leaderId : LeaderId
  committed : Bool
  deriving DecidableEq, Repr

structure VoteRequest where
  vote : Vote
  lastLogId : Option LogId
  deriving DecidableEq, Repr

structure VoteResponse where
  vote : Vote
  voteGranted : Bool
  lastLogId : Option LogId
  deriving DecidableEq, Repr

inductive Fatal where
  | panicked
  | stopped
  deriving DecidableEq, Repr

def Fatal.text : Fatal → String
  | .panicked => "panicked"
  | .stopped => "raft stopped"

def knownCodec {α : Type} [DecidableEq α] (table : List (α × String))
    (h : (table.map (·.2)).Nodup) : Codec α where
  toVec a :=
    match table.find? (fun e => e.1 = a) with
    | some e => .ok (utf8Bytes e.2.toList)
    | none => .error "unknown message"
  fromSlice d :=
    match table.find? (fun e => utf8Bytes e.2.toList = d) with
    | some e => .ok e.1
    | none => .error "unknown text"
  fromSlice_toVec {a d} hd := by
    split at hd
    · rename_i e he
      cases hd
      have hmem := List.mem_of_find?_eq_some he
      have hkey : e.1 = a := by simpa using List.find?_some he
      split
      · rename_i e' he'
        have htext : e'.2 = e.2 := by
          have hbytes : utf8Bytes e'.2.toList = utf8Bytes e.2.toList := by
            simpa using List.find?_some he'
          have := congrArg fromUtf8Lossy hbytes
          rwa [fromUtf8Lossy_utf8Bytes, fromUtf8Lossy_utf8Bytes, String.toList_inj] at this
        rw [List.inj_on_of_nodup_map h (List.mem_of_find?_eq_some he') hmem htext, hkey]
      · rename_i hnone
        exact absurd (List.find?_eq_none.mp hnone e hmem) (by simp)
    · contradiction

def voteRequest : VoteRequest := ⟨⟨⟨1, 1⟩, false⟩, none⟩

def voteRequestJson : String :=
  "\x7b\"vote\":\x7b\"leader_id\":\x7b\"term\":1,\"node_id\":1\x7d,\"committed\":false\x7d," ++
  "\"last_log_id\":null\x7d"

def voteGranted : VoteResponse := ⟨⟨⟨1, 1⟩, false⟩, true, none⟩

def voteGrantedJson : String :=
  "\x7b\"Ok\":\x7b\"vote\":\x7b\"leader_id\":\x7b\"term\":1,\"node_id\":1\x7d,\"committed\":false\x7d," ++
  "\"vote_granted\":true,\"last_log_id\":null\x7d\x7d"

def stoppedJson : String := "\x7b\"Err\":\x7b\"Fatal\":\"Stopped\"\x7d\x7d"

def election : Protocol where
  Req
    | .vote => VoteRequest
    | _ => Empty
  Resp
    | .vote => VoteResponse
    | _ => Empty
  SnapshotError := Empty
  Fatal := Fatal
  fatalText := Fatal.text
  request
    | .vote => knownCodec [(voteRequest, voteRequestJson)] (by decide)
    | .append => knownCodec [] List.nodup_nil
    | .snapshot => knownCodec [] List.nodup_nil
  reply
    | .vote => knownCodec
        [(.ok voteGranted, voteGrantedJson), (.error (.fatal .stopped), stoppedJson)] (by decide)
    | .append => knownCodec [] List.nodup_nil
    | .snapshot => knownCodec [] List.nodup_nil

def grantVote : ∀ k, election.Req k → election.Outcome k
  | .vote, _ => .ok voteGranted
  | .append, req => Empty.elim req
  | .snapshot, req => Empty.elim req

def requestData : Bytes := utf8Bytes voteRequestJson.toList

def grantedData : Bytes := utf8Bytes voteGrantedJson.toList

theorem dispatch_grantVote : dispatch election grantVote "/raft/vote" requestData =
    (some ⟨.vote, voteRequest, .ok voteGranted⟩, .ok grantedData) := by
  unfold dispatch
  rw [show RpcKind.ofPath "/raft/vote" = some .vote from RpcKind.ofPath_path .vote]
  have hreq : (election.request .vote).fromSlice requestData = .ok voteRequest :=
    (election.request .vote).fromSlice_toVec rfl
  simp only [hreq]
  rfl

def voteReceived : Router election where
  targets := Function.update (fun _ => none) 2 (some 0)
  owners := [2]
  queue := Function.update (Function.update (fun _ => []) 0 [⟨"/raft/vote", requestData, 0⟩]) 0 []
  closed := fun _ => false
  tasks := [(0, ⟨"/raft/vote", requestData, 0⟩)]
  calls := [⟨2, .vote, voteRequest⟩, ⟨3, .vote, voteRequest⟩]
  stage := Function.update (Function.update (Function.update (Function.update (fun _ => .dropped)
    0 (.holding 0 requestData)) 1 (.unsent "node 3 not found")) 0 (.queued 0)) 0 .running
  abandoned := fun _ => false
  handled := []

theorem run_voteReceived : PartialRun.run step (new : Router election)
    [.register 2, .call ⟨2, .vote, voteRequest⟩, .call ⟨3, .vote, voteRequest⟩, .send 0,
      .receive 0] = some voteReceived := rfl

def voteReturned : Router election :=
  { voteReceived with
    tasks := []
    handled := [⟨0, 0, ⟨.vote, voteRequest, .ok voteGranted⟩⟩]
    stage := Function.update (Function.update voteReceived.stage 0 (.replied (.ok grantedData))) 0
      (.returned (some (.ok grantedData))) }

theorem run_voteReturned : PartialRun.run step (new : Router election)
    ([.register 2, .call ⟨2, .vote, voteRequest⟩, .call ⟨3, .vote, voteRequest⟩, .send 0,
      .receive 0] ++ [.handle 0 grantVote] ++ [.finish 0]) = some voteReturned := by
  have hhandle : step voteReceived (.handle 0 grantVote) =
      some { voteReceived with
        tasks := []
        handled := [⟨0, 0, ⟨.vote, voteRequest, .ok voteGranted⟩⟩]
        stage := Function.update voteReceived.stage 0 (.replied (.ok grantedData)) } := by
    have htask : voteReceived.tasks[0]? = some (0, ⟨"/raft/vote", requestData, 0⟩) := rfl
    exact step_handle htask dispatch_grantVote
  exact PartialRun.run_concat (PartialRun.run_concat run_voteReceived hhandle) rfl

theorem rpcs_matched_voteReturned :
    (∃ ch, (⟨0, ch, ⟨.vote, voteRequest, .ok voteGranted⟩⟩ : Handled election) ∈
      voteReturned.handled) ∧ ∀ r ∈ voteReturned.handled, r.call ≠ 1 := by
  obtain ⟨-, -, hcalls, -⟩ := rpcs_matched run_voteReturned
  have hvote : voteReturned.result 0 ⟨2, .vote, voteRequest⟩ = some (.ok voteGranted) := by
    have hreply : (election.reply .vote).fromSlice grantedData = .ok (.ok voteGranted) :=
      (election.reply .vote).fromSlice_toVec rfl
    change some (answer election .vote 2 (some (.ok grantedData))) = _
    unfold answer
    simp only [hreply]
    rfl
  exact ⟨(hcalls 0 ⟨2, .vote, voteRequest⟩ rfl).1 voteGranted hvote,
    (hcalls 1 ⟨3, .vote, voteRequest⟩ rfl).2.2 "node 3 not found" rfl⟩

end Router
end MemEtcd.RaftRpc
