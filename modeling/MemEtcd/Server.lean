import MemEtcd.ReorderBuffer
import MemEtcd.Snapshot
import MemEtcd.Wal

/-! The notification thread and the server around it. Calls of `set` get their item
from `tree_map`, list a new one in `prefix_map`, commit under the item's lock, collect
their watchers and enqueue a job, each in a step of its own; the thread puts the jobs
back into the order of their revisions and hands them to the WAL and to the
watchers. -/
namespace MemEtcd

abbrev watchChannelSize : ℕ := 10000

/-- The channel of a watcher, closed once its receiver is gone. -/
structure WatchChannel where
  buffer : List KeyValueWithPrev
  closed : Bool
  deriving DecidableEq, Repr

/-- `try_send`, whose failures the thread ignores. -/
def WatchChannel.trySend (ch : WatchChannel) (msg : KeyValueWithPrev) : WatchChannel :=
  if ch.closed then ch
  else if ch.buffer.length < watchChannelSize then { ch with buffer := ch.buffer ++ [msg] }
  else ch

/-- Where `do_send` writes to. -/
structure Sinks where
  wal : Option WalManager
  channels : ℕ → WatchChannel

def doSend (sinks : Sinks) (job : NotifyJob) : Sinks where
  wal := sinks.wal.map (fun wal =>
    let v := if job.msg.kv.version = 0 then none else some job.msg.kv.value
    wal.append (utf8Bytes job.prefixStr) job.rev job.msg.kv.key v job.walHandled)
  channels := job.watchers.foldl
    (fun chs ch => Function.update chs ch ((chs ch).trySend job.msg)) sinks.channels

/-- The local state of the notification thread. `revWritten` is what
`progress_revision` returns. -/
structure NotifyThread where
  nextRev : ℤ
  jobSpool : List NotifyJob
  revWritten : ℤ
  deriving DecidableEq, Repr

def NotifyThread.new : NotifyThread := ⟨1, [], 0⟩

/-- One round of the thread's loop, and the jobs it passes to `do_send`. -/
def NotifyThread.receive (t : NotifyThread) (job : NotifyJob) : NotifyThread × List NotifyJob :=
  if job.rev > t.nextRev then
    ({ t with jobSpool := ReorderBuffer.push NotifyJob.rev job t.jobSpool }, [])
  else
    let (ready, nextRev, jobSpool) :=
      ReorderBuffer.drain NotifyJob.rev t.jobSpool (t.nextRev + 1)
    (⟨nextRev, jobSpool, nextRev - 1⟩, job :: ready)

/-- A `set` or `delete` that has the item of its key and has not locked it yet. It is
`listed` when nothing is left to be put into `prefix_map`. -/
structure PendingCall where
  call : Call
  item : ℕ
  isNewItem : Bool
  listed : Bool
  deriving DecidableEq, Repr

def PendingCall.locked (p : PendingCall) (s : Store) :
    Store × Except (Option KeyValue) Committed :=
  s.locked p.item p.isNewItem p.call.value p.call.required

/-- A server. `committed` are the calls that have released the item's lock,
`collected` those that have built their job and not enqueued it yet. `successes`
and `dispatched` record the successful calls and the jobs given to `do_send`. -/
structure Server where
  store : Store
  pending : List PendingCall
  committed : List (Committed × Bytes)
  collected : List NotifyJob
  thread : NotifyThread
  sinks : Sinks
  successes : List Committed
  dispatched : List NotifyJob

inductive Action where
  /-- a `set` or `delete` gets or creates the item of its key -/
  | enter (c : Call)
  /-- it puts the item that it has created into `prefix_map` -/
  | index (i : ℕ)
  /-- its section under the lock of the item -/
  | lock (i : ℕ)
  /-- `notify_watchers` of a committed call collects the watchers -/
  | collect (i : ℕ)
  /-- `notify_tx.send` of a collected job -/
  | send (i : ℕ)
  /-- the thread receives the next job -/
  | receive
  | watch (start endKey : Bytes) (rev : ℤ) (wantPrevKv : Bool)
  | unwatch (start : Bytes) (watcherId : ℤ)
  /-- a watcher takes an event out of its channel, or drops its receiver -/
  | takeEvent (ch : ℕ)
  | dropReceiver (ch : ℕ)
  | compact (rev : ℤ)
  | importSnapshot (entries : List SnapshotEntry)
  /-- a WAL worker writes a batch of a prefix -/
  | writeWal (pfx : Bytes) (ticks : ℕ) (fails : Option ℕ)
  deriving DecidableEq, Repr

/-- Every step of a run meets a condition on the state before it. -/
def along {σ α : Type} (step : σ → α → σ) (p : σ → α → Bool) : σ → List α → Bool
  | _, [] => true
  | s, a :: actions => p s a && along step p (step s a) actions

/-- A call up to the release of the item's lock, when no other one is under way. -/
def Call.actions (c : Call) : List Action := [.enter c, .index 0, .lock 0]

namespace Server

/-- `Store::new` after the replay of the given WAL records. -/
def start (wal : Option WalManager) (records : List WalRecord) : Server where
  store := records.foldl Store.replayRecord (Store.new (wal.map (·.defaultMode)))
  pending := []
  committed := []
  collected := []
  thread := NotifyThread.new
  sinks := ⟨wal, fun _ => ⟨[], true⟩⟩
  successes := []
  dispatched := []

def enter (s : Server) (c : Call) : Server :=
  let (store, item, isNewItem) := s.store.entry c.key
  { s with store := store, pending := s.pending ++ [⟨c, item, isNewItem, !isNewItem⟩] }

def index (s : Server) (i : ℕ) : Server :=
  match s.pending[i]? with
  | none => s
  | some p =>
    if p.listed then s
    else
      { s with
        store := s.store.index p.call.key p.item
        pending := s.pending.set i { p with listed := true } }

def lock (s : Server) (i : ℕ) : Server :=
  match s.pending[i]? with
  | none => s
  | some p =>
    if p.listed then
      match p.locked s.store with
      | (store, .error _) => { s with store := store, pending := s.pending.eraseIdx i }
      | (store, .ok done) =>
        { s with
          store := store
          pending := s.pending.eraseIdx i
          committed := s.committed ++ [(done, (prefixSplit p.call.key).1)]
          successes := s.successes ++ [done] }
    else s

def collect (s : Server) (i : ℕ) : Server :=
  match s.committed[i]? with
  | none => s
  | some (done, pfx) =>
    { s with
      committed := s.committed.eraseIdx i
      collected := s.collected ++ [s.store.notifyJob done pfx] }

def send (s : Server) (i : ℕ) : Server :=
  match s.collected[i]? with
  | none => s
  | some job =>
    { s with
      collected := s.collected.eraseIdx i
      store := { s.store with notifyTx := s.store.notifyTx ++ [job] } }

def receive (s : Server) : Server :=
  match s.store.notifyTx with
  | [] => s
  | job :: rest =>
    let (thread, sent) := s.thread.receive job
    { s with
      store := { s.store with notifyTx := rest }
      thread := thread
      sinks := sent.foldl doSend s.sinks
      dispatched := s.dispatched ++ sent }

/-- A refused watch drops its receiver at once. -/
def watch (s : Server) (startKey endKey : Bytes) (rev : ℤ) (wantPrevKv : Bool) : Server :=
  let (store, res) := s.store.watch startKey endKey rev wantPrevKv
  let channels := match res with
    | .ok (.ok (_, watcherId)) => Function.update s.sinks.channels watcherId.toNat ⟨[], false⟩
    | _ => s.sinks.channels
  { s with store := store, sinks := { s.sinks with channels := channels } }

/-- An action of some thread. An action that is not possible does nothing. -/
def step (s : Server) : Action → Server
  | .enter c => s.enter c
  | .index i => s.index i
  | .lock i => s.lock i
  | .collect i => s.collect i
  | .send i => s.send i
  | .receive => s.receive
  | .watch startKey endKey rev wantPrevKv => s.watch startKey endKey rev wantPrevKv
  | .unwatch startKey watcherId => { s with store := s.store.unwatch startKey watcherId }
  | .takeEvent ch =>
    let c := s.sinks.channels ch
    { s with sinks := { s.sinks with
        channels := Function.update s.sinks.channels ch { c with buffer := c.buffer.tail } } }
  | .dropReceiver ch =>
    { s with sinks := { s.sinks with
        channels := Function.update s.sinks.channels ch ⟨[], true⟩ } }
  | .compact rev => { s with store := (s.store.compact rev).1 }
  | .importSnapshot entries => { s with store := s.store.importSnapshotData entries }
  | .writeWal pfx ticks fails =>
    { s with sinks := { s.sinks with wal := s.sinks.wal.map (·.writeLocked pfx ticks fails) } }

def run (s : Server) (actions : List Action) : Server := actions.foldl step s

/-- Every committed call has enqueued its job, and the thread has received every
job. -/
def Quiescent (s : Server) : Prop :=
  s.committed = [] ∧ s.collected = [] ∧ s.store.notifyTx = []

def keepsRevision (s : Server) : Action → Bool
  | .importSnapshot entries => Store.maxModRev entries = s.store.currentRevision
  | _ => true

/-- Every import of the run has the current revision as its largest one. -/
def importsKeepRevision : Server → List Action → Bool := along step keepsRevision

end Server
end MemEtcd
