import PgLocalCache.WorkerBackend

/-!
# The MGET command of pg_local_cache_worker.c

The keys of a request are folded into items, one for each distinct key, with the
number of response slots that ask for it. The items are looked up, claimed, read,
stored and waited for in five sweeps, each of which accounts the size of the
results it obtains, and the reply is assembled slot by slot at the end. The frame
holds the variables of `command_mget` that its error handler reads.
-/

namespace PgLocalCache.MgetCommand

open PrefixCode CacheState WireKey WorkerBackend RespWriter RowPayload

def maxLoadRetries : ℕ := 3
def intMax : ℕ := 2^31-1
def sizeBound : ℕ := 2^64

structure MgetItem (D : Type) where
  mapping : WorkerMapping D
  canonical : Bytes
  keyValues : List D
  token : ReadToken
  json : Bytes
  payload : Option Bytes
  responseElement : Option Bytes
  databaseXmin : ℕ
  responseSlots : ℕ
  loadId : ℕ
  cacheEnabled : Bool
  resultReady : Bool
  nullResult : Bool
  deferred : Bool
  ownsLoad : Bool
  databaseRead : Bool

/-- A zeroed item for a key. -/
def newItem {D : Type} (key : ResolvedKey D) (cacheEnabled : Bool) : MgetItem D where
  mapping := key.mapping
  canonical := key.canonical
  keyValues := key.values
  token := blankToken
  json := []
  payload := none
  responseElement := none
  databaseXmin := 0
  responseSlots := 0
  loadId := 0
  cacheEnabled := cacheEnabled
  resultReady := false
  nullResult := false
  deferred := false
  ownsLoad := false
  databaseRead := false

inductive MgetFailure where
  | deadline
  | limit
  | command (reply : Bytes)
  deriving DecidableEq, Repr

/-- The size accounted so far and the flags behind it; `wrapped` records whether a computation
of type `Size` has left its range. -/
structure Tally where
  responseSize : ℕ
  wrapped : Bool
  failure : Option MgetFailure
  relationBlocked : Bool
  deriving DecidableEq, Repr

structure MgetFrame (W D : Type) where
  world : W
  items : List (MgetItem D)
  tally : Tally
  inTransaction : Bool

abbrev MgetM (W D : Type) := EStateM PgError (MgetFrame W D)

structure MgetClient where
  retryingDeferredMiss : Bool
  deferredDeadline : ℕ
  deriving DecidableEq, Repr

variable {W D α : Type} (S : Server D) (B : Backend W D) (cfg : WorkerSettings)

def onWorld (x : WorldM W α) : MgetM W D α := fun s =>
  match x s.world with
  | .ok a w => .ok a { s with world := w }
  | .error e w => .error e { s with world := w }

def setItem (i : ℕ) (item : MgetItem D) : MgetM W D Unit :=
  modify (fun s => { s with items := s.items.set i item })

def setTally (f : Tally → Tally) : MgetM W D Unit :=
  modify (fun s => { s with tally := f s.tally })

def fail (failure : MgetFailure) : MgetM W D Unit :=
  setTally (fun t => { t with failure := some failure })

/-- A loop over items that ends early once `stop` holds. -/
def sweep (stop : MgetFrame W D → Bool) (f : ℕ → MgetItem D → MgetM W D Unit) :
    List ℕ → MgetM W D Unit
  | [] => pure ()
  | i::is => do
    let s ← get
    if stop s then pure ()
    else
      match s.items[i]? with
      | none => sweep stop f is
      | some item => do
        f i item
        sweep stop f is

def overItems (stop : MgetFrame W D → Bool) (f : ℕ → MgetItem D → MgetM W D Unit) :
    MgetM W D Unit := do
  let s ← get
  sweep stop f (List.range s.items.length)

def hasFailed (s : MgetFrame W D) : Bool := s.tally.failure.isSome

/-! Time. -/

def clock : WorldM W ℕ := call B.getCurrentTimestamp

def deadlinePassed (deadline : ℕ) : WorldM W Bool := do
  let now ← clock B
  return decide (deadline ≤ now)

/-- `TimestampDifferenceExceeds` up to the current time. -/
def waitExceeded (started : ℕ) : WorldM W Bool := do
  let now ← clock B
  return decide (started+cfg.singleflightWaitMs*1000 ≤ now)

/-- `TimestampDifferenceMilliseconds`. -/
def remainingMs (now deadline : ℕ) : ℕ := min intMax ((deadline-now+999)/1000)

/-! Sizes. -/

def digitsLoop : ℕ → ℕ → ℕ → ℕ
  | 0, _, digits => digits
  | fuel+1, value, digits =>
    if 10 ≤ value then digitsLoop fuel (value/10) (digits+1) else digits

def mgetDecimalDigits (value : ℕ) : ℕ := digitsLoop value value 1

def elementLength (item : MgetItem D) : ℕ :=
  match item.responseElement with
  | some element => element.length
  | none =>
    if item.nullResult then 5
    else 1+mgetDecimalDigits item.json.length+2+item.json.length+2

/-- Whether a computation of `mget_account_result` leaves the range of `Size`. -/
def accountWraps (item : MgetItem D) (responseSize : ℕ) : Bool :=
  decide (sizeBound ≤ elementLength item ∨ responseMax < responseSize ∨
    (item.responseSlots ≤ (responseMax-responseSize)/elementLength item ∧
      sizeBound ≤ responseSize+elementLength item*item.responseSlots))

def mgetAccountResult (item : MgetItem D) (t : Tally) : Tally :=
  let t := { t with wrapped := t.wrapped || accountWraps item t.responseSize }
  if responseMax < elementLength item ∨
      (responseMax-t.responseSize)/elementLength item < item.responseSlots then
    { t with failure := some .limit }
  else { t with responseSize := t.responseSize+elementLength item*item.responseSlots }

/-! Cache lookups. -/

def mgetQuietLookup (item : MgetItem D) : WorldM W (Bool × MgetItem D) := do
  let found ← call (B.cacheLookupQuiet item.mapping item.canonical)
  let item := { item with token := found.token }
  match found.result with
  | .negative => return (true,{ item with
      nullResult := true
      resultReady := true
      responseElement := some respNull })
  | .value bytes =>
    match cachedRowJson S item.mapping bytes with
    | some json => return (true,{ item with
        json := json
        resultReady := true
        responseElement := some (respBulk json) })
    | none =>
      -- A corrupt or stale payload is invalidated, and only the token of the second lookup is used.
      let _ ← call (B.cacheInvalidateKey item.mapping item.canonical)
      let again ← call (B.cacheLookupQuiet item.mapping item.canonical)
      return (false,{ item with token := again.token })
  | .miss => return (false,item)

def lookupItem (i : ℕ) (item : MgetItem D) : MgetM W D Unit := do
  if item.cacheEnabled then
    let found ← onWorld (mgetQuietLookup S B item)
    setItem i found.2
    if found.1 then setTally (mgetAccountResult found.2) else pure ()
  else pure ()

/-! Claims. -/

def retryExpired (started left : ℕ) : WorldM W Bool :=
  if left < maxLoadRetries then waitExceeded B cfg started else pure false

/-- The claim loop with `left` attempts to go. -/
def claimLoop (deadline started i : ℕ) : ℕ → MgetItem D → MgetM W D Unit
  | 0, _ => pure ()
  | left+1, item => do
    let late ← onWorld (deadlinePassed B deadline)
    if late then fail .deadline
    else
      let slow ← onWorld (retryExpired B cfg started (left+1))
      if slow then pure ()
      else
        let claim ← onWorld (call (B.cacheClaimLoad item.mapping item.canonical item.token))
        let item := { item with loadId := claim.2 }
        match claim.1 with
        | .owner => setItem i { item with ownsLoad := true }
        | .bypass => setItem i item
        | .wait => setItem i { item with deferred := true }
        | .retry =>
          if left = 0 then setItem i item
          else
            let found ← onWorld (mgetQuietLookup S B item)
            setItem i found.2
            if found.1 then setTally (mgetAccountResult found.2)
            else claimLoop deadline started i left found.2

def claimItem (deadline i : ℕ) (item : MgetItem D) : MgetM W D Unit := do
  let started ← onWorld (clock B)
  if item.resultReady || !item.cacheEnabled then pure ()
  else claimLoop S B cfg deadline started i maxLoadRetries item

/-! Reads. -/

def toRead (item : MgetItem D) : Bool := !item.resultReady && !item.deferred

/-- The attribute loop of `source_row_json`. -/
def attributesFit : List ℕ → ℕ → Bool
  | [], _ => true
  | size::sizes, bytes =>
    if responseValueMax < size ∨ responseValueMax-size < bytes then false
    else attributesFit sizes (bytes+size)

def sourceRowJson (row : SourceRow) : Option Bytes :=
  if attributesFit row.attributeSizes 0 ∧ row.json.length ≤ responseValueMax then some row.json
  else none

def rowTooLarge : PgError :=
  ⟨ascii "row JSON exceeds the RESP limit of "++decimal responseValueMax++ascii " bytes"⟩

def mappingChanged : PgError :=
  ⟨ascii "pg_local_cache mapping changed while the command was running"⟩

def notPrepared : PgError := ⟨ascii "pg_local_cache MGET result was not prepared"⟩

def ensureMappingCurrent (mapping : WorkerMapping D) : WorldM W Unit := do
  let generation ← call B.configGeneration
  if mapping.cache.configGeneration ≠ generation then throw mappingChanged else pure ()

/-- The read plan of a mapping between two checks that the mapping is current. -/
def readRow (mapping : WorkerMapping D) (keyValues : List D) :
    WorldM W (Option (Bytes × ℕ)) := do
  ensureMappingCurrent B mapping
  let row ← enter (B.executeGetPlan mapping keyValues)
  ensureMappingCurrent B mapping
  match row with
  | none => return none
  | some row =>
    match sourceRowJson row with
    | none => throw rowTooLarge
    | some json => return some (json,row.xmin)

def encodePayload (mapping : WorkerMapping D) (json : Bytes) : Option Bytes :=
  payloadEncode S.crc32c mapping.row json valueMax

def mgetReadOne (item : MgetItem D) : WorldM W (MgetItem D) := do
  let row ← readRow B item.mapping item.keyValues
  match row with
  | none => return { item with databaseRead := true, nullResult := true, resultReady := true }
  | some row => return { item with
      databaseRead := true
      payload := encodePayload S item.mapping row.1
      json := row.1
      databaseXmin := row.2
      resultReady := true }

def readItem (deadline i : ℕ) (item : MgetItem D) : MgetM W D Unit := do
  if !toRead item then pure ()
  else
    let late ← onWorld (deadlinePassed B deadline)
    if late then fail .deadline
    else
      let item ← onWorld (mgetReadOne S B item)
      setItem i item
      setTally (mgetAccountResult item)

def relationOids (items : List (MgetItem D)) : List ℕ :=
  ((items.filter toRead).map (fun item => item.mapping.cache.relationOid)).eraseDups

/-- The elements of the rows read, built once the transaction has ended. -/
def prepareItem (item : MgetItem D) : MgetItem D :=
  if !item.databaseRead then item
  else if item.nullResult then { item with responseElement := some respNull }
  else { item with responseElement := some (respBulk item.json) }

def readItems (deadline : ℕ) : MgetM W D Unit := do
  let now ← onWorld (clock B)
  if remainingMs now deadline = 0 then fail .deadline
  else
    let s ← get
    let locked ← onWorld (enter (B.beginMgetSpi
      (min cfg.statementTimeoutMs (remainingMs now deadline)) (relationOids s.items)))
    if locked then setTally (fun t => { t with relationBlocked := true })
    else
      modify (fun s => { s with inTransaction := true })
      overItems hasFailed (readItem S B deadline)
      modify (fun s => { s with inTransaction := false })
      onWorld (enter B.commitSpi)
      let s ← get
      if hasFailed s then pure ()
      else
        set { s with items := s.items.map prepareItem }
        let late ← onWorld (deadlinePassed B deadline)
        if late then fail .deadline else pure ()

/-! Stores. -/

def releaseItem (i : ℕ) (item : MgetItem D) : MgetM W D Unit := do
  if item.ownsLoad then
    onWorld (perform (B.cacheReleaseLoad item.mapping item.canonical item.token item.loadId))
    setItem i { item with ownsLoad := false }
  else pure ()

def mgetReleaseClaims : MgetM W D Unit := overItems (fun _ => false) (releaseItem B)

def storeResult (item : MgetItem D) : WorldM W Bool :=
  if item.nullResult then
    call (B.cacheStore item.mapping item.canonical item.token none item.loadId 0)
  else
    match item.payload with
    | some payload => call (B.cacheStore item.mapping item.canonical item.token (some payload)
        item.loadId item.databaseXmin)
    | none => pure false

def storeItem (i : ℕ) (item : MgetItem D) : MgetM W D Unit := do
  if !item.ownsLoad then pure ()
  else
    let stored ← onWorld (storeResult B item)
    if stored then pure ()
    else onWorld (perform
      (B.cacheReleaseLoad item.mapping item.canonical item.token item.loadId))
    setItem i { item with ownsLoad := false }

/-! Waits. -/

/-- The deadline checks of `command_mget_one`, where zero stands for no deadline. -/
def oneDeadlinePassed (deadline : ℕ) : WorldM W Bool :=
  if deadline = 0 then pure false else deadlinePassed B deadline

/-- The statement timeout of its read, if there is any time left. -/
def oneTimeout (deadline : ℕ) : WorldM W (Option ℕ) := do
  if deadline = 0 then return some cfg.statementTimeoutMs
  else
    let now ← clock B
    if remainingMs now deadline = 0 then return none
    else return some (min cfg.statementTimeoutMs (remainingMs now deadline))

inductive OneLookup where
  | answer (element : Bytes)
  | stale (token : ReadToken)
  | miss (token : ReadToken)

def lookupOne (mapping : WorkerMapping D) (canonical : Bytes) : WorldM W OneLookup := do
  let found ← call (B.cacheLookupQuiet mapping canonical)
  match found.result with
  | .negative => return .answer respNull
  | .value bytes =>
    match cachedRowJson S mapping bytes with
    | some json => return .answer (respBulk json)
    | none =>
      let _ ← call (B.cacheInvalidateKey mapping canonical)
      let again ← call (B.cacheLookupQuiet mapping canonical)
      return .stale again.token
  | .miss => return .miss found.token

inductive WaitEnd where
  | reply (element : Bytes)
  | read (token : ReadToken) (load : Option ℕ)

def deadlineExceeded : Bytes := respError (ascii "ERR MGET deadline exceeded")

def limitExceeded : Bytes := respError (ascii "ERR response exceeds limit")

/-- The part of a wait round behind a claim that is neither granted nor refused. -/
def waitRound (mapping : WorkerMapping D) (canonical : Bytes) (deadline started : ℕ)
    (claim : LoadClaim) (next : ReadToken → WorldM W WaitEnd) : WorldM W WaitEnd := do
  let found ← lookupOne S B mapping canonical
  match found with
  | .answer element => return .reply element
  | .stale token =>
    let late ← oneDeadlinePassed B deadline
    if late then return .read token none
    else
      let ended ← waitExceeded B cfg started
      if ended then return .read token none else next token
  | .miss token =>
    let ended ← waitExceeded B cfg started
    if ended then return .read token none
    else
      if claim = .wait then perform B.waitLatch else pure ()
      next token

def waitLoop (mapping : WorkerMapping D) (canonical : Bytes) (deadline started : ℕ) :
    ℕ → ℕ → ReadToken → WorldM W WaitEnd
  | 0, _, token => return .read token none
  | rounds+1, retries, token => do
    let late ← oneDeadlinePassed B deadline
    if late then return .reply deadlineExceeded
    else
      let claim ← call (B.cacheClaimLoad mapping canonical token)
      match claim.1 with
      | .owner => return .read token (some claim.2)
      | .bypass => return .read token none
      | .wait =>
        waitRound S B cfg mapping canonical deadline started .wait
          (waitLoop mapping canonical deadline started rounds retries)
      | .retry =>
        if maxLoadRetries ≤ retries+1 then return .read token none
        else
          waitRound S B cfg mapping canonical deadline started .retry
            (waitLoop mapping canonical deadline started rounds (retries+1))

/-- What `command_mget_one` knows when it goes to the table. -/
def enterWait (mapping : WorkerMapping D) (canonical : Bytes) (deadline : ℕ) :
    WorldM W WaitEnd := do
  let enabled ← call B.cacheIsEnabled
  if enabled then
    let found ← lookupOne S B mapping canonical
    match found with
    | .answer element => return .reply element
    | .stale token | .miss token =>
      let started ← clock B
      waitLoop S B cfg mapping canonical deadline started cfg.waitRounds 0 token
  else return .read blankToken none

def releaseOne (mapping : WorkerMapping D) (canonical : Bytes) (token : ReadToken) :
    Option ℕ → WorldM W Unit
  | some loadId => perform (B.cacheReleaseLoad mapping canonical token loadId)
  | none => pure ()

/-- The read of `command_mget_one` between the two ends of its error handler; `none` reports a
locked relation. -/
def readAndStore (mapping : WorkerMapping D) (canonical : Bytes) (keyValues : List D)
    (timeoutMs : ℕ) (token : ReadToken) (load : Option ℕ) :
    WorldM W (Option (Option Bytes)) := do
  let locked ← enter (B.beginMgetSpi timeoutMs [mapping.cache.relationOid])
  if locked then
    releaseOne B mapping canonical token load
    return none
  else
    let row ← readRow B mapping keyValues
    enter B.commitSpi
    match load with
    | none => pure ()
    | some loadId =>
      match row with
      | none =>
        let _ ← call (B.cacheStore mapping canonical token none loadId 0)
      | some row =>
        match encodePayload S mapping row.1 with
        | none => pure ()
        | some payload =>
          let _ ← call (B.cacheStore mapping canonical token (some payload) loadId row.2)
    releaseOne B mapping canonical token load
    return some (row.map Prod.fst)

def commandMgetOne (mapping : WorkerMapping D) (canonical : Bytes) (keyValues : List D)
    (deadline : ℕ) : WorldM W (Option Bytes) := do
  let late ← oneDeadlinePassed B deadline
  if late then return some deadlineExceeded
  else
    let waited ← enterWait S B cfg mapping canonical deadline
    match waited with
    | .reply element => return some element
    | .read token load =>
      let timeout ← oneTimeout B cfg deadline
      match timeout with
      | none =>
        releaseOne B mapping canonical token load
        return some deadlineExceeded
      | some timeoutMs =>
        let row ← tryCatch
          (readAndStore S B mapping canonical keyValues timeoutMs token load)
          (fun e => do
            releaseOne B mapping canonical token load
            throw e)
        match row with
        | none => return none
        | some none => return some respNull
        | some (some json) => return some (respBulk json)

def waitItem (deadline i : ℕ) (item : MgetItem D) : MgetM W D Unit := do
  if !item.deferred then pure ()
  else
    let late ← onWorld (deadlinePassed B deadline)
    if late then fail .deadline
    else
      let reply ← onWorld
        (commandMgetOne S B cfg item.mapping item.canonical item.keyValues deadline)
      match reply with
      | none => setTally (fun t => { t with relationBlocked := true })
      | some element =>
        let item := { item with responseElement := some element }
        if element.head? = some minusByte then
          setItem i item
          fail (.command element)
        else
          let item := { item with resultReady := true }
          setItem i item
          setTally (mgetAccountResult item)

/-! The command. -/

def isStopped (s : MgetFrame W D) : Bool := hasFailed s || s.tally.relationBlocked

def readPhase (deadline : ℕ) : MgetM W D Unit := do
  let s ← get
  if !hasFailed s && s.items.any toRead then readItems S B cfg deadline else pure ()

def storePhase : MgetM W D Unit := do
  let s ← get
  if hasFailed s then pure () else overItems (fun _ => false) (storeItem B)

/-- The part of `command_mget` inside its error handler. -/
def mgetObtain (deadline : ℕ) : MgetM W D Unit := do
  overItems hasFailed (claimItem S B cfg deadline)
  readPhase S B cfg deadline
  storePhase B
  overItems isStopped (waitItem S B cfg deadline)

def mgetCleanup (e : PgError) : MgetM W D Unit := do
  let s ← get
  if s.inTransaction then onWorld (perform B.abortSpi) else pure ()
  mgetReleaseClaims B
  throw e

/-- The loop that builds the reply; `none` is the size check inside it. -/
def assemble (items : List (MgetItem D)) : List ℕ → Bytes → Except PgError (Option Bytes)
  | [], response => .ok (some response)
  | slot::slots, response =>
    match items[slot]? with
    | none => .error notPrepared
    | some item =>
      match item.responseElement with
      | none => .error notPrepared
      | some element =>
        if !item.resultReady then .error notPrepared
        else if responseMax < element.length ∨ responseMax-element.length < response.length then
          .ok none
        else assemble items slots (response++element)

def failureReply : MgetFailure → Bytes
  | .deadline => deadlineExceeded
  | .limit => limitExceeded
  | .command reply => reply

def mgetAnswer (deadline : ℕ) (slots : List ℕ) : MgetM W D (Option Bytes) := do
  let late ← onWorld (deadlinePassed B deadline)
  if late then
    mgetReleaseClaims B
    return some deadlineExceeded
  else
    let s ← get
    match assemble s.items slots (arrayHeader slots.length) with
    | .error e => throw e
    | .ok (some response) => return some response
    | .ok none =>
      mgetReleaseClaims B
      return some limitExceeded

/-- `command_mget` behind the resolution of its keys; no reply means that the request has been
put off. -/
def mgetServe (requestLength deadline : ℕ) (slots : List ℕ) : MgetM W D (Option Bytes) := do
  overItems hasFailed (lookupItem S B)
  let s ← get
  if hasFailed s then
    mgetReleaseClaims B
    return some limitExceeded
  else
    tryCatch (mgetObtain S B cfg deadline) (mgetCleanup B)
    let s ← get
    if s.tally.relationBlocked then
      mgetReleaseClaims B
      let result ← onWorld (call (B.enqueueDeferredMiss requestLength deadline))
      match result with
      | .queued => return none
      | .expired => return some deadlineExceeded
      | .full => return some (respError (ascii "ERR busy: relation locked, retry"))
    else
      match s.tally.failure with
      | some failure =>
        mgetReleaseClaims B
        return some (failureReply failure)
      | none => mgetAnswer B deadline slots

/-- The comparison that folds equal keys into one item. -/
def sameKey (item : MgetItem D) (key : ResolvedKey D) : Bool :=
  decide (item.mapping.cache.relationOid = key.mapping.cache.relationOid ∧
    item.mapping.cache.nspace = key.mapping.cache.nspace ∧ item.canonical = key.canonical)

def countSlot (item : MgetItem D) : MgetItem D :=
  { item with responseSlots := item.responseSlots+1 }

/-- The item of one more key, appended if no earlier item has the same key. -/
def addKey (key : ResolvedKey D) (items : List (MgetItem D)) :
    WorldM W (List (MgetItem D) × ℕ) := do
  let found := items.findIdx (fun item => sameKey item key)
  if found = items.length then
    let enabled ← call B.cacheIsEnabled
    return (items++[countSlot (newItem key enabled)],found)
  else return (items.modify found countSlot,found)

/-- The loop over the keys; the text of a key error is returned in place of the items. -/
def prepareLoop (mappings : List (WorkerMapping D)) :
    List Bytes → List (MgetItem D) → List ℕ → WorldM W (Except Bytes (List (MgetItem D) × List ℕ))
  | [], items, slots => return .ok (items,slots)
  | wireKey::wireKeys, items, slots =>
    match resolveKey S mappings wireKey with
    | .error (.reply message) => return .error message
    | .error (.raise error) => throw error
    | .ok key => do
      let added ← addKey B key items
      prepareLoop mappings wireKeys added.1 (slots++[added.2])

def startTally (keyCount : ℕ) : Tally := ⟨1+mgetDecimalDigits keyCount+2,false,none,false⟩

/-- A command frame that lives for one call. -/
def withFrame (items : List (MgetItem D)) (tally : Tally) (x : MgetM W D α) : WorldM W α :=
  fun w =>
    match x ⟨w,items,tally,false⟩ with
    | .ok a s => .ok a s.world
    | .error e s => .error e s.world

def mgetDeadline (client : MgetClient) (now : ℕ) : ℕ :=
  if client.retryingDeferredMiss then client.deferredDeadline
  else now+cfg.statementTimeoutMs*1000

def commandMget (client : MgetClient) (mappings : List (WorkerMapping D))
    (wireKeys : List Bytes) (requestLength : ℕ) : WorldM W (Option Bytes) := do
  let now ← clock B
  let prepared ← prepareLoop S B mappings wireKeys [] []
  match prepared with
  | .error message => return some (respError message)
  | .ok (items,slots) =>
    withFrame items (startTally slots.length)
      (mgetServe S B cfg requestLength (mgetDeadline cfg client now) slots)

end PgLocalCache.MgetCommand
