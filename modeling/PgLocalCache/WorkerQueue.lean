import PgLocalCache.DeferredQueue
import PgLocalCache.ClientTurn
import PgLocalCache.DeskWorld

/-!
# The clients of a worker and their deferred misses

The event loop of pg_local_cache_worker.c drives many clients over one world and one
queue of deferred misses. A slot holds a client and its `deferred_miss` pointer; a
turn of the client sees the miss behind the pointer. Within a turn nothing but the
client's own enqueue touches the queue, and that ends the turn: the answer is given
from the queue at the start of the turn and the miss is linked at its end. The
clients have no TLS, and allocation does not fail.
-/

namespace PgLocalCache.WorkerQueue

open WorkerBackend FastPath ClientProtocol CommandDispatch ClientTurn DeferredQueue DeskWorld
open WireKey (Server)
open MgetCommand (deadlineExceeded intMax)

/-- What a worker was started with. -/
structure Setup (W D : Type) where
  identity : Identity
  server : Server D
  backend : Backend W D
  commands : Commands W D
  settings : WorkerSettings
  maxPipelineCommands : ℕ
  maxDeferredMisses : ℕ
  allocator : Allocator
  workerMappingGeneration : W → ℕ

/-- A place for a client. `deferredMiss` is the pointer; the copy of the miss in `client` is not
read. -/
structure Slot (W : Type) where
  client : Client
  deferredMiss : Option ℕ
  connected : Bool
  received : Bytes
  handed : Bytes
  log : List (Event (Desk W))

structure Worker (W : Type) where
  desk : Desk W
  queue : Queue
  slots : ℕ → Slot W

variable {W D : Type}

def emptySlot : Slot W := ⟨blankClient,none,false,[],[],[]⟩

def startWorker (w : W) : Worker W := ⟨⟨w,[]⟩,emptyQueue,fun _ => emptySlot⟩

/-- A client with the miss its pointer leads to. -/
def view (q : Queue) (slot : Slot W) : Client := { slot.client with
  deferredMiss := slot.deferredMiss.map (fun a => (q.misses a).request) }

def attach (w : Worker W) (i : ℕ) : Link (Desk W) where
  client := view w.queue (w.slots i)
  world := w.desk
  connected := (w.slots i).connected
  received := (w.slots i).received
  handed := (w.slots i).handed
  log := (w.slots i).log

def slotOf (s : Link (Desk W)) (pointer : Option ℕ) : Slot W :=
  ⟨s.client,pointer,s.connected,s.received,s.handed,s.log⟩

def putSlot (w : Worker W) (i : ℕ) (s : Link (Desk W)) (pointer : Option ℕ) : Worker W := { w with
  desk := s.world
  slots := Function.update w.slots i (slotOf s pointer) }

def setQueue (w : Worker W) (q : Queue) : Worker W := { w with queue := q }

variable (E : Setup W D)

/-- For which requests of a client the queue has room. -/
def roomFor (w : Worker W) (i : ℕ) : ℕ → Bool :=
  hasRoom E.maxDeferredMisses w.queue (w.slots i).deferredMiss.isSome

def backendFor (w : Worker W) (i : ℕ) : Backend (Desk W) D :=
  deskBackend E.backend (roomFor E w i)

/-- `enqueue_deferred_miss` behind its checks. -/
def enqueueDeferredMiss (w : Worker W) (i : ℕ) (miss : DeferredMiss) : Worker W :=
  let a := E.allocator.pick w.queue.allocated
  { w with
    queue := linkMiss w.queue a ⟨i,miss.requestOffset,miss.requestLength,miss.deadline,
      E.workerMappingGeneration w.desk.rest⟩
    slots := Function.update w.slots i { w.slots i with deferredMiss := some a } }

/-- The part of `close_client` that concerns the queue. -/
def dropMiss (w : Worker W) (i : ℕ) : Worker W :=
  match (w.slots i).deferredMiss with
  | none => w
  | some a => setQueue w (removeDeferredMiss w.queue a)

/-- A client behind an action: closed, put off, or as before. -/
def restore (w : Worker W) (i : ℕ) (s : Link (Desk W)) : Worker W :=
  if s.connected then
    match (w.slots i).deferredMiss, s.client.deferredMiss with
    | none, some miss => enqueueDeferredMiss E (putSlot w i s none) i miss
    | pointer, _ => putSlot w i s pointer
  else putSlot (dropMiss w i) i s none

def runClient (w : Worker W) (i : ℕ) (incoming : List Incoming) : Worker W :=
  restore E w i (settle (processClient E.identity E.server (backendFor E w i)
    (deskCommands E.commands) E.settings E.maxPipelineCommands incoming (attach w i)))

/-! `retry_deferred_misses`. -/

/-- The mappings are reloaded if they are newer than the miss. -/
def missCommands (miss : Miss) : Commands (Desk W) D := { deskCommands E.commands with
  reloadForMiss := fun d =>
    if miss.mappingGeneration ≠ E.workerMappingGeneration d.rest then
      (deskCommands E.commands).maybeReloadMappings d
    else d }

/-- The loop body for the miss at the head of the queue. -/
def retryHead (w : Worker W) (a : ℕ) (incoming : List Incoming) : Worker W :=
  let miss := w.queue.misses a
  let i := miss.client
  let s := noteDeadline (backendFor E w i) (attach w i) miss.request
  let rotated := setQueue (putSlot w i s (w.slots i).deferredMiss)
    (rotateDeferredMissHead w.queue)
  if outputPending s.client then rotated
  else if s.client.deferredDeadlineExpired then
    match queueResponse s.client deadlineExceeded false with
    | none => rotated
    | some _ => setQueue (putSlot w i (expireMiss s miss.request) none) (takeHead w.queue a)
  else
    let w := setQueue (putSlot w i (resumeMiss (missCommands E miss) s miss.request) none)
      (takeHead w.queue a)
    runClient E w i incoming

def retryLoop : ℕ → List (List Incoming) → Worker W → Worker W
  | 0, _, w => w
  | attempts+1, incoming, w =>
    match w.queue.head with
    | none => w
    | some a => retryLoop attempts incoming.tail (retryHead E w a (incoming.headD []))

def retryDeferredMisses (incoming : List (List Incoming)) (w : Worker W) : Worker W :=
  retryLoop E (min w.queue.count deferredRetriesPerTurn) incoming w

/-! `deferred_miss_poll_timeout`. -/

def markExpired (w : Worker W) (i : ℕ) : Worker W := { w with
  slots := Function.update w.slots i { w.slots i with
    client := { (w.slots i).client with deferredDeadlineExpired := true } } }

/-- The walk over the queue; `fuel` bounds the cells that are visited. -/
def pollLoop (now : ℕ) : ℕ → ℕ → Option ℕ → Worker W → ℕ × Worker W
  | 0, timeout, _, w => (timeout,w)
  | _+1, timeout, none, w => (timeout,w)
  | fuel+1, timeout, some a, w =>
    let miss := w.queue.misses a
    if miss.deadline ≤ now then
      if outputPending (w.slots miss.client).client then
        pollLoop now fuel timeout (w.queue.next a) (markExpired w miss.client)
      else (0,markExpired w miss.client)
    else
      pollLoop now fuel (min timeout (min ((miss.deadline-now+999)/1000) intMax))
        (w.queue.next a) w

def deferredMissPollTimeout (currentTimeout : ℕ) (w : Worker W) : ℕ × Worker W :=
  let clock := E.backend.getCurrentTimestamp w.desk.rest
  pollLoop clock.1 w.queue.count currentTimeout w.queue.head
    { w with desk := { w.desk with rest := clock.2 } }

/-! The event loop. -/

inductive Action (W : Type) where
  | accept (i : ℕ)
  | turn (i : ℕ) (incoming : List Incoming)
  | retry (incoming : List (List Incoming))
  | pollTimeout (currentTimeout : ℕ)
  | flush (i : ℕ) (outgoing : Outgoing)
  | writable (i : ℕ)
  | hangUp (i : ℕ)
  | drop (i : ℕ)
  | elsewhere (world : W)

/-- An action on a client that is connected. -/
def onClient (w : Worker W) (i : ℕ) (f : Link (Desk W) → Link (Desk W)) : Worker W :=
  if (w.slots i).connected then restore E w i (f (attach w i)) else w

def accept (w : Worker W) (i : ℕ) : Worker W :=
  if (w.slots i).connected then w
  else putSlot w i (acceptClient E.identity w.desk) (w.slots i).deferredMiss

def step (w : Worker W) : Action W → Worker W
  | .accept i => accept E w i
  | .turn i incoming => if (w.slots i).connected then runClient E w i incoming else w
  | .retry incoming => retryDeferredMisses E incoming w
  | .pollTimeout currentTimeout => (deferredMissPollTimeout E currentTimeout w).2
  | .flush i outgoing => onClient E w i (fun s => flushReady s outgoing)
  | .writable i => onClient E w i (fun s => withClient s { s.client with outputReady := true })
  | .hangUp i => onClient E w i (fun s => withClient s { s.client with peerHungUp := true })
  | .drop i => onClient E w i closeClient
  | .elsewhere world => { w with desk := { w.desk with rest := world } }

def run (w : W) (actions : List (Action W)) : Worker W :=
  actions.foldl (step E) (startWorker w)

end PgLocalCache.WorkerQueue
