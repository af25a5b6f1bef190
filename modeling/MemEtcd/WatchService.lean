import MemEtcd.KvService
import MemEtcd.Server

/-! The watch service. A session is a server with one watch stream under way; the
threads of the server, the notification thread and the stream take steps in any
order. The notification thread is cut into its sends and the store of its
progress, the stream into the registration of its watcher, the reads of the
items, the polls of its channel and of the client, and its responses. -/
namespace MemEtcd

inductive EventType where
  | put
  | delete
  deriving DecidableEq, Repr

structure Event where
  type : EventType
  kv : KeyValue
  prevKv : Option KeyValue
  deriving DecidableEq, Repr

structure WatchResponse where
  header : ResponseHeader
  watchId : ℤ
  created : Bool
  compactRevision : ℤ
  events : List Event
  deriving DecidableEq, Repr

structure WatchCreateRequest where
  key : Bytes
  rangeEnd : Bytes
  startRevision : ℤ
  prevKv : Bool
  deriving DecidableEq, Repr

/-- What the client's half of the stream yields after the create request. -/
inductive ClientMessage where
  | error
  | closed
  | cancel (watchId : ℤ)
  | progress
  | other
  deriving DecidableEq, Repr

def KeyValueWithPrev.toEvent (wantPrevKv : Bool) (c : KeyValueWithPrev) : Event where
  type := if c.kv.version = 0 then .delete else .put
  kv := c.kv
  prevKv := if wantPrevKv then c.prevKv else none

inductive WatchStage where
  /-- the watcher is registered, the bucket not opened yet -/
  | registered
  /-- `Store::watch` has the given items left to read -/
  | scanning (left : List (Bytes × ℕ))
  /-- the creation is confirmed -/
  | created
  /-- about to poll the channel -/
  | polling
  /-- the channel was empty; about to poll the client -/
  | waiting
  /-- a progress request was taken -/
  | requested
  | ended
  deriving DecidableEq, Repr

/-- A watch stream: the variables of `Store::watch` and of the stream's loop, and
the responses so far. -/
structure WatchStream where
  request : WatchCreateRequest
  compactRevision : ℤ
  watcherId : ℤ
  stage : WatchStage
  pastChanges : List KeyValueWithPrev
  maxEventStreamRev : ℤ
  responses : List WatchResponse
  deriving DecidableEq, Repr

def Server.setChannel (s : Server) (ch : ℕ) (c : WatchChannel) : Server :=
  { s with sinks := { s.sinks with channels := Function.update s.sinks.channels ch c } }

namespace WatchStream

def events (st : WatchStream) : List Event := st.responses.flatMap (·.events)

def channel (st : WatchStream) : ℕ := st.watcherId.toNat

def respond (st : WatchStream) (r : WatchResponse) (stage : WatchStage) : WatchStream :=
  { st with responses := st.responses ++ [r], stage := stage }

def refuse (st : WatchStream) : WatchStream :=
  st.respond ⟨responseHeader 0, 0, false, st.compactRevision, []⟩ .ended

/-- `Store::watch` looks for the bucket of its request. A refusal and a panic drop
the receiver, but not the watcher. -/
def openBucket (s : Server) (st : WatchStream) : Server × WatchStream :=
  if st.request.startRevision > 0 then
    match prefixAndRangeOfKey st.request.key st.request.rangeEnd with
    | .error _ => (s.setChannel st.channel ⟨[], true⟩, st.refuse)
    | .ok (pfx, lo, hi) =>
      match s.store.prefixMap[pfx]? with
      | none => (s, { st with stage := .scanning [] })
      | some btree =>
        match btreeRange btree lo hi with
        | .error _ => (s.setChannel st.channel ⟨[], true⟩, { st with stage := .ended })
        | .ok entries => (s, { st with stage := .scanning entries })
  else (s, { st with stage := .scanning [] })

/-- `Store::watch` reads one item, whose lock it holds meanwhile. -/
def scanItem (s : Server) (st : WatchStream) (a : ℕ) (left : List (Bytes × ℕ)) : WatchStream :=
  { st with
    stage := .scanning left
    pastChanges := st.pastChanges ++
      s.store.itemChanges st.request.startRevision st.request.prevKv (s.store.deref a) }

def confirm (s : Server) (st : WatchStream) : WatchStream :=
  st.respond ⟨responseHeader s.store.currentRevision, st.watcherId, true, 0, []⟩ .created

def sendPast (s : Server) (st : WatchStream) : WatchStream :=
  let maxPastRev := (st.pastChanges.getLast?.map (·.kv.modRevision)).getD 0
  let st := { st with maxEventStreamRev := maxPastRev }
  if st.pastChanges.isEmpty then { st with stage := .polling }
  else
    st.respond ⟨responseHeader s.store.currentRevision, st.watcherId, false, 0,
      st.pastChanges.map (·.toEvent st.request.prevKv)⟩ .polling

/-- The number of events that `recv_many` takes at most. -/
abbrev recvLimit : ℕ := 1000

def forward (st : WatchStream) (readMany : List KeyValueWithPrev) : WatchStream :=
  match (readMany.filter (fun c => c.kv.modRevision > st.maxEventStreamRev)).getLast? with
  | none => { st with stage := .polling }
  | some last =>
    { st.respond ⟨responseHeader last.kv.modRevision, st.watcherId, false, 0,
        (readMany.filter (fun c => c.kv.modRevision > st.maxEventStreamRev)).map
          (·.toEvent st.request.prevKv)⟩ .polling with
      maxEventStreamRev := max last.kv.modRevision st.maxEventStreamRev }

/-- A sender of the stream's channel is left: in the watcher or in a job. -/
def hasSender (s : Server) (st : WatchStream) : Bool :=
  (s.store.watchers[(st.request.key, st.watcherId)]?).isSome ||
    (s.collected ++ s.store.notifyTx ++ s.thread.jobSpool).any
      (fun job => job.watchers.contains st.channel)

/-- `unwatch`, and the receiver is dropped. -/
def stop (s : Server) (st : WatchStream) : Server × WatchStream :=
  (Server.setChannel { s with store := s.store.unwatch st.request.key st.watcherId } st.channel
    ⟨[], true⟩, { st with stage := .ended })

/-- The poll of `rx.recv_many`. -/
def pollChannel (s : Server) (st : WatchStream) : Server × WatchStream :=
  let c := s.sinks.channels st.channel
  if c.buffer.isEmpty then
    if hasSender s st then (s, { st with stage := .waiting }) else stop s st
  else
    (s.setChannel st.channel { c with buffer := c.buffer.drop recvLimit },
      st.forward (c.buffer.take recvLimit))

def answer (s : Server) (st : WatchStream) : WatchStream :=
  st.respond ⟨responseHeader (max s.thread.revWritten st.maxEventStreamRev), st.watcherId, false,
    0, []⟩ .polling

def advance (s : Server) (st : WatchStream) : Server × WatchStream :=
  match st.stage with
  | .registered => openBucket s st
  | .scanning ((_, a) :: left) => (s, scanItem s st a left)
  | .scanning [] => (s, confirm s st)
  | .created => (s, sendPast s st)
  | .polling => pollChannel s st
  | .waiting => (s, { st with stage := .polling })
  | .requested => (s, answer s st)
  | .ended => (s, st)

/-- The poll of the client yields a message. The client is polled only after the
channel. -/
def receive (s : Server) (st : WatchStream) (m : ClientMessage) : Server × WatchStream :=
  if st.stage = .waiting then
    match m with
    | .error => stop s st
    | .closed => stop s st
    | .cancel watchId =>
      if watchId = st.watcherId then stop s st else (s, { st with stage := .polling })
    | .progress => (s, { st with stage := .requested })
    | .other => (s, { st with stage := .polling })
  else (s, st)

end WatchStream

namespace Server

/-- `do_send` of the next job, with the spool that is left. -/
def sendNext (s : Server) (job : NotifyJob) (spool : List NotifyJob) : Server :=
  { s with
    thread := { s.thread with nextRev := s.thread.nextRev + 1, jobSpool := spool }
    sinks := doSend s.sinks job
    dispatched := s.dispatched ++ [job] }

/-- The store of `rev_written`. -/
def storeProgress (s : Server) : Server :=
  { s with thread := { s.thread with revWritten := s.thread.nextRev - 1 } }

/-- The thread receives a job. The result says whether it sends it, and goes on to
its spool. -/
def takeJob (s : Server) : Server × Bool :=
  match s.store.notifyTx with
  | [] => (s, false)
  | job :: rest =>
    let s := { s with store := { s.store with notifyTx := rest } }
    if job.rev > s.thread.nextRev then
      ({ s with thread := { s.thread with
          jobSpool := ReorderBuffer.push NotifyJob.rev job s.thread.jobSpool } }, false)
    else (s.sendNext job s.thread.jobSpool, true)

def takeSpooled (s : Server) : Server × Bool :=
  match s.thread.jobSpool with
  | [] => (s.storeProgress, false)
  | job :: spool =>
    if job.rev = s.thread.nextRev then (s.sendNext job spool, true) else (s.storeProgress, false)

/-- A step of the notification thread, which is in the loop over its spool or not. -/
def work (s : Server) (draining : Bool) : Server × Bool :=
  if draining then s.takeSpooled else s.takeJob

end Server

/-- A server with at most one watch stream that is looked at. `draining` says that
the notification thread is in the loop over its spool. -/
structure WatchSession where
  server : Server
  draining : Bool
  stream : Option WatchStream

inductive WatchAction where
  /-- a step of the server, the notification thread and the stream apart -/
  | server (a : Action)
  /-- the notification thread -/
  | thread
  /-- the create request, up to the registration of the watcher -/
  | watch (req : WatchCreateRequest)
  /-- the stream, without a message from the client -/
  | advance
  | message (m : ClientMessage)
  deriving DecidableEq, Repr

namespace WatchSession

def start (wal : Option WalManager) (records : List WalRecord) : WatchSession :=
  ⟨Server.start wal records, false, none⟩

/-- The watcher and the receiver of the stream belong to the stream, the jobs to
the notification thread. -/
def foreign (s : WatchSession) : Action → Bool
  | .receive => false
  | .unwatch _ watcherId => s.stream.all (fun st => st.watcherId ≠ watcherId)
  | .takeEvent ch => s.stream.all (fun st => st.channel ≠ ch)
  | .dropReceiver ch => s.stream.all (fun st => st.channel ≠ ch)
  | _ => true

/-- The create request: the check against the compacted revision, then the
registration. -/
def create (s : WatchSession) (req : WatchCreateRequest) : WatchSession :=
  let store := s.server.store
  let watcherId := store.watchCounter + 1
  if req.startRevision > 0 ∧ req.startRevision ≤ store.compactedRevision then
    { s with stream := some (WatchStream.refuse
        ⟨req, store.compactedRevision, 0, .registered, [], 0, []⟩) }
  else
    let startRev := if req.startRevision ≤ 0 then store.currentRevision else req.startRevision
    { s with
      server := Server.setChannel
        { s.server with store := store.register req.key req.rangeEnd startRev }
        watcherId.toNat ⟨[], false⟩
      stream := some ⟨req, store.compactedRevision, watcherId, .registered, [], 0, []⟩ }

/-- A step of the session. A step that is not possible does nothing. -/
def step (s : WatchSession) : WatchAction → WatchSession
  | .server a => if s.foreign a then { s with server := s.server.step a } else s
  | .thread =>
    { s with server := (s.server.work s.draining).1, draining := (s.server.work s.draining).2 }
  | .watch req =>
    match s.stream with
    | none => s.create req
    | some _ => s
  | .advance =>
    match s.stream with
    | none => s
    | some st => { s with server := (st.advance s.server).1, stream := some (st.advance s.server).2 }
  | .message m =>
    match s.stream with
    | none => s
    | some st =>
      { s with server := (st.receive s.server m).1, stream := some (st.receive s.server m).2 }

def run (s : WatchSession) (actions : List WatchAction) : WatchSession := actions.foldl step s

end WatchSession
end MemEtcd
