import PgLocalCache.CommandDispatch

/-!
# The turns of a client of pg_local_cache_worker.c

One connection without TLS, as the event loop drives it: `processClient` parses,
executes and receives, `flushReady` sends and decides about the end of the
connection, `retryDeferredMiss` takes up a request that was put off. The results
of receives and sends, the number of commands a turn may run and the order of the
actions come from outside, and so does what others do to the world in between.
`received`, `handed` and `log` record what has happened and are never read.
-/

namespace PgLocalCache.ClientTurn

open ByteMemory WorkerBackend FastPath ClientProtocol CommandDispatch
open WireKey (Server)
open MgetCommand (deadlineExceeded)
open RespParser RespWriter

/-- A connection: its client, the world, and what it has received, handed to the socket and
done. -/
structure Link (W : Type) where
  client : Client
  world : W
  connected : Bool
  received : Bytes
  handed : Bytes
  log : List (Event W)

/-- The result of a `recv`. -/
inductive Incoming where
  | data (bytes : Bytes)
  | eof
  | interrupted
  | again
  | failed
  deriving DecidableEq, Repr

/-- The result of a `send`. -/
inductive Outgoing where
  | wrote (count : ℕ)
  | interrupted
  | again
  | failed
  deriving DecidableEq, Repr

inductive Action (W : Type) where
  | turn (maxPipelineCommands : ℕ) (incoming : List Incoming)
  | retry (maxPipelineCommands : ℕ) (incoming : List Incoming)
  | flush (outgoing : Outgoing)
  | writable
  | hangUp
  | pollDeadline
  | drop
  | elsewhere (world : W)

def blankClient : Client where
  authenticated := false
  authenticationFailures := 0
  closeAfterFlush := false
  inputReady := false
  outputReady := false
  inputEof := false
  peerHungUp := false
  inputStart := 0
  input := []
  output := fun _ => 0
  outputUsed := 0
  outputSent := 0
  deferredMiss := none
  deferredDeadline := 0
  deferredDeadlineExpired := false
  retryingDeferredMiss := false

variable {W D : Type}

def acceptClient (identity : Identity) (w : W) : Link W :=
  ⟨{ blankClient with authenticated := decide (identity.authToken = []) },w,true,[],[],[]⟩

def closeClient (s : Link W) : Link W := { s with
  client := blankClient
  connected := false }

def outputPending (client : Client) : Prop := client.outputSent < client.outputUsed

instance (client : Client) : Decidable (outputPending client) :=
  inferInstanceAs (Decidable (_ < _))

/-! Input and output buffers. -/

def unread (client : Client) : Bytes := client.input.drop client.inputStart

def compactClientInput (client : Client) : Client := { client with
  input := unread client
  inputStart := 0 }

def queueResponse (client : Client) (response : Bytes) (closeAfter : Bool) : Option Client :=
  if client.outputSent ≠ 0 ∨ outputBufferMax-client.outputUsed < response.length then none
  else some { client with
    output := write client.output client.outputUsed response
    outputUsed := client.outputUsed+response.length
    outputReady := true
    closeAfterFlush := client.closeAfterFlush || closeAfter }

def resetInput (client : Client) : Client :=
  if client.inputStart = client.input.length then { client with
    input := []
    inputStart := 0 }
  else client

def finishClientTurn (client : Client) : Client :=
  let client := resetInput client
  if client.inputEof ∧ client.deferredMiss = none ∧ client.inputStart = client.input.length then
    { client with closeAfterFlush := true }
  else client

def endRetry (client : Client) : Client :=
  if client.retryingDeferredMiss then { client with
    retryingDeferredMiss := false
    deferredDeadline := 0
    deferredDeadlineExpired := false }
  else client

/-- `client_recv` with room for `capacity` bytes; a receive of no bytes is the end of the
stream. -/
def clientRecv (capacity : ℕ) : Incoming → Incoming
  | .data bytes => if bytes.take capacity = [] then .eof else .data (bytes.take capacity)
  | result => result

/-! One request. -/

/-- How one pass through the loop over the input ends: the input is used up or not complete, the
turn returns, or a request has been answered. -/
inductive Step (W : Type) where
  | drained (s : Link W)
  | returned (ok : Bool) (s : Link W)
  | answered (s : Link W)

inductive Pass (W : Type) where
  | drained (remaining : ℕ) (s : Link W)
  | returned (ok : Bool) (s : Link W)

def withClient (s : Link W) (client : Client) : Link W := { s with client := client }

def skipInput (client : Client) : Client := { client with inputStart := client.input.length }

def consume (client : Client) (length : ℕ) : Client :=
  { client with inputStart := client.inputStart+length }

/-- The place in the stream of the first byte that is still unread. -/
def position (s : Link W) : ℕ := s.received.length-(unread s.client).length

def record (s : Link W) (event : Event W) : Link W := { s with log := s.log++[event] }

def onIncomplete (s : Link W) : Step W :=
  let client := compactClientInput s.client
  if client.inputEof then .drained (withClient s (skipInput client))
  else if client.input.length = requestMax then
    .returned true (withClient s (finishClientTurn { client with closeAfterFlush := true }))
  else .drained (withClient s client)

def onMalformed (s : Link W) (error : RespError) : Step W :=
  match queueResponse s.client (complaintOf error) true with
  | none => .returned false s
  | some client =>
    .returned true (record (withClient s (finishClientTurn (skipInput client))) (.malformed error))

variable (identity : Identity) (S : Server D) (B : Backend W D) (C : Commands W D)
  (cfg : WorkerSettings)

/-- The general path behind a parsed request; `before` is the world in front of the fast path. -/
def onCommand (before : W) (s : Link W) (request : Request) : Step W :=
  let result := executeCommand identity S B C cfg s.client request.args request.consumed s.world
  let event := Event.executed (position s) request.args result.1.reply before result.2
  let s := record { s with world := result.2 } event
  match result.1.reply with
  | none => .returned true (withClient s (finishClientTurn result.1.client))
  | some response =>
    match queueResponse result.1.client response result.1.closeAfter with
    | none => .returned false (record (withClient s result.1.client) .refused)
    | some client =>
      let client := endRetry (consume client request.consumed)
      if result.1.closeAfter then
        .returned true (withClient s (finishClientTurn (skipInput client)))
      else .answered (withClient s client)

/-- A parsed request: the fast path first, then the general one. -/
def onRequest (s : Link W) (request : Request) : Step W :=
  match tryFastMgetHit S B (C.mappings s.world) s.client request.args s.world with
  | .ok (true,client) w =>
    let response := read client.output s.client.outputUsed (client.outputUsed-s.client.outputUsed)
    let event := Event.executed (position s) request.args (some response) s.world w
    .answered (record ⟨consume (endRetry client) request.consumed,w,s.connected,s.received,s.handed,
      s.log⟩ event)
  | .ok (false,client) w =>
    onCommand identity S B C cfg s.world { s with
      client := client
      world := w } request
  | .error _ w => .returned false { s with world := w }

def requestStep (s : Link W) : Step W :=
  if s.client.input.length ≤ s.client.inputStart then .drained s
  else if outputBufferMax-s.client.outputUsed < responseMax then
    .returned true (withClient s (finishClientTurn { s.client with inputReady := true }))
  else
    let s := { s with world := C.processConfigReload s.world }
    match respParse (unread s.client) with
    | .incomplete => onIncomplete s
    | .error error => onMalformed s error
    | .complete request => onRequest identity S B C cfg s request

def yieldTurn (s : Link W) : Link W :=
  withClient s (finishClientTurn { s.client with
    inputReady := decide (s.client.inputStart < s.client.input.length) })

/-- The loop over the input; `remaining` more commands may be answered without a yield. -/
def pipeline : ℕ → Link W → Pass W
  | 0, s =>
    match requestStep identity S B C cfg s with
    | .drained s => .drained 0 s
    | .returned ok s => .returned ok s
    | .answered s => .returned true (yieldTurn s)
  | n+1, s =>
    match requestStep identity S B C cfg s with
    | .drained s => .drained (n+1) s
    | .returned ok s => .returned ok s
    | .answered s => pipeline n s

/-! One turn. -/

def takeIn (s : Link W) (bytes : Bytes) : Link W := { s with
  client := { s.client with input := s.client.input++bytes }
  received := s.received++bytes }

def endInput (s : Link W) : Link W := withClient s { s.client with inputEof := true }

def finishTurn (s : Link W) : Bool × Link W := (true,withClient s (finishClientTurn s.client))

/-- A turn while a request is put off only receives. -/
def receiveDeferred (s : Link W) (incoming : List Incoming) : Bool × Link W :=
  if requestMax ≤ s.client.input.length ∨ s.client.inputEof then finishTurn s
  else
    match clientRecv (requestMax-s.client.input.length) (incoming.headD .again) with
    | .interrupted => finishTurn s
    | .eof => finishTurn (endInput s)
    | .data bytes => finishTurn (takeIn s bytes)
    | .again => finishTurn s
    | .failed => (false,s)

/-- The receive loop of a turn goes on over interrupts. -/
def receiveLoop (capacity : ℕ) : List Incoming → Incoming
  | [] => .again
  | result::incoming =>
    match clientRecv capacity result with
    | .interrupted => receiveLoop capacity incoming
    | result => result

def lastPass (remaining : ℕ) (s : Link W) : Bool × Link W :=
  match pipeline identity S B C cfg remaining s with
  | .returned ok s => (ok,s)
  | .drained _ s => finishTurn s

def receiveTurn (remaining : ℕ) (s : Link W) (incoming : List Incoming) : Bool × Link W :=
  let s := withClient s (compactClientInput s.client)
  match receiveLoop (requestMax-s.client.input.length) incoming with
  | .eof => lastPass identity S B C cfg remaining (endInput s)
  | .data bytes => lastPass identity S B C cfg remaining (takeIn s bytes)
  | .failed => (false,s)
  | _ => finishTurn s

/-- A turn with nothing put off. -/
def freshTurn (maxPipelineCommands : ℕ) (incoming : List Incoming) (s : Link W) : Bool × Link W :=
  match pipeline identity S B C cfg (maxPipelineCommands-1) s with
  | .returned ok s => (ok,s)
  | .drained remaining s =>
    if s.client.inputEof then finishTurn s
    else receiveTurn identity S B C cfg remaining s incoming

def openTurn (maxPipelineCommands : ℕ) (incoming : List Incoming) (s : Link W) : Bool × Link W :=
  match s.client.deferredMiss with
  | some _ => receiveDeferred s incoming
  | none => freshTurn identity S B C cfg maxPipelineCommands incoming
      { s with world := C.maybeReloadMappings s.world }

def processClient (maxPipelineCommands : ℕ) (incoming : List Incoming) (s : Link W) :
    Bool × Link W :=
  if outputPending s.client then (true,s)
  else openTurn identity S B C cfg maxPipelineCommands incoming
    (withClient s { s.client with inputReady := false })

def settle (result : Bool × Link W) : Link W :=
  if result.1 then result.2 else closeClient result.2

/-! Sending. -/

def sendOutput (s : Link W) (count : ℕ) : Link W := { s with
  client := { s.client with outputSent := s.client.outputSent+count }
  handed := s.handed++read s.client.output s.client.outputSent count }

def resetOutput (s : Link W) : Link W :=
  if s.client.outputSent = s.client.outputUsed then
    withClient s { s.client with
      outputUsed := 0
      outputSent := 0 }
  else s

def sendStep (s : Link W) (outgoing : Outgoing) : Bool × Link W :=
  if outputPending s.client then
    match outgoing with
    | .wrote count =>
      let count := min count (s.client.outputUsed-s.client.outputSent)
      if count = 0 then (false,s) else (true,resetOutput (sendOutput s count))
    | .interrupted => (true,s)
    | .again => (true,s)
    | .failed => (false,s)
  else (true,resetOutput s)

def flushClientOutput (s : Link W) (outgoing : Outgoing) : Bool × Link W :=
  sendStep (withClient s { s.client with outputReady := false }) outgoing

def inputWaiting (client : Client) : Bool :=
  decide (client.inputStart < client.input.length) || client.inputEof

def closesAfterFlush (client : Client) : Bool :=
  client.closeAfterFlush && decide (client.outputSent = client.outputUsed)

def wakeInput (s : Link W) : Link W :=
  if s.client.outputSent = s.client.outputUsed ∧ inputWaiting s.client then
    withClient s { s.client with inputReady := true }
  else s

/-- The end of the loop body of `flush_ready_client_outputs`. -/
def flushTail (s : Link W) : Link W :=
  if closesAfterFlush s.client then closeClient s
  else if !s.client.peerHungUp then s
  else if outputPending s.client then closeClient s
  else
    match s.client.deferredMiss with
    | some _ =>
      if !s.client.inputEof && decide (s.client.input.length < requestMax) then
        withClient s { s.client with inputReady := true }
      else s
    | none =>
      if s.client.inputStart < s.client.input.length then
        withClient s { s.client with inputReady := true }
      else closeClient s

def flushReady (s : Link W) (outgoing : Outgoing) : Link W :=
  if s.client.outputReady && decide (outputPending s.client) then
    match flushClientOutput s outgoing with
    | (false,s) => closeClient s
    | (true,s) =>
      if closesAfterFlush s.client then closeClient s else flushTail (wakeInput s)
  else flushTail s

/-! Requests that were put off. -/

def noteDeadline (s : Link W) (miss : DeferredMiss) : Link W :=
  let clock := B.getCurrentTimestamp s.world
  { s with
    world := clock.2
    client := { s.client with deferredDeadlineExpired :=
      s.client.deferredDeadlineExpired || decide (miss.deadline ≤ clock.1) } }

def expireMiss (s : Link W) (miss : DeferredMiss) : Link W :=
  match queueResponse s.client deadlineExceeded false with
  | none => s
  | some client =>
    let client := { consume client miss.requestLength with
      deferredMiss := none
      deferredDeadline := 0
      deferredDeadlineExpired := false
      retryingDeferredMiss := false }
    record (withClient s { client with inputReady := inputWaiting client })
      (.expired deadlineExceeded)

def resumeMiss (s : Link W) (miss : DeferredMiss) : Link W := { s with
  world := C.reloadForMiss s.world
  client := { s.client with
    deferredMiss := none
    retryingDeferredMiss := true
    deferredDeadline := miss.deadline
    deferredDeadlineExpired := false } }

/-- The loop body of `retry_deferred_misses` for the request of this client. -/
def retryDeferredMiss (maxPipelineCommands : ℕ) (incoming : List Incoming) (s : Link W) :
    Link W :=
  match s.client.deferredMiss with
  | none => s
  | some miss =>
    let s := noteDeadline B s miss
    if outputPending s.client then s
    else if s.client.deferredDeadlineExpired then expireMiss s miss
    else settle (processClient identity S B C cfg maxPipelineCommands incoming
      (resumeMiss C s miss))

/-- `deferred_miss_poll_timeout` marks a request whose deadline has passed. -/
def pollDeadline (s : Link W) : Link W :=
  match s.client.deferredMiss with
  | none => s
  | some miss => noteDeadline B s miss

/-! The connection. -/

def act (s : Link W) : Action W → Link W
  | .turn maxPipelineCommands incoming =>
    settle (processClient identity S B C cfg maxPipelineCommands incoming s)
  | .retry maxPipelineCommands incoming =>
    retryDeferredMiss identity S B C cfg maxPipelineCommands incoming s
  | .flush outgoing => flushReady s outgoing
  | .writable => withClient s { s.client with outputReady := true }
  | .hangUp => withClient s { s.client with peerHungUp := true }
  | .pollDeadline => pollDeadline B s
  | .drop => closeClient s
  | .elsewhere world => { s with world := world }

def step (s : Link W) (action : Action W) : Link W :=
  if s.connected then act identity S B C cfg s action else s

def run (w : W) (actions : List (Action W)) : Link W :=
  actions.foldl (step identity S B C cfg) (acceptClient identity w)

end PgLocalCache.ClientTurn
