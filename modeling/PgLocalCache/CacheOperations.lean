import PgLocalCache.CacheAdmission

/-!
# The critical sections of readers and writers

What a lookup, a claim, a store, a release, an invalidation and the reservation,
publication and finish of a written key do to one partition. Every value read
from a fence counter during a section is an argument.
-/

namespace PgLocalCache.CacheOperations

open ByteMemory CacheArena CacheState CacheEntries CacheMarkers CacheAdmission

variable (cfg : Settings) (m : Mapping)

def mappingMatches (m : Mapping) (e : CacheEntry) : Bool :=
  e.relationOid == m.relationOid && e.relationSlot == m.relationSlot &&
    e.slotGeneration == m.relationSlotGeneration

structure LookupReads where
  before : FenceReads
  current : SlotReads
  after : FenceReads
  clock : ℕ

structure LookupResult where
  hit : Bool
  negative : Bool
  value : List UInt8
  sourceXmin : ℕ
  token : ReadToken
  complete : Bool
  malformed : Bool
  corruptEntryId : ℕ
  deriving DecidableEq, Repr

def tokenOf (m : Mapping) (e : Option CacheEntry) (s : FenceSnapshot) (cacheable : Bool) :
    ReadToken where
  configGeneration := s.configGeneration
  globalVersion := s.globalVersion
  globalEpoch := s.globalEpoch
  relationVersion := s.relationVersion
  relationIncarnation := s.relationIncarnation
  slotGeneration := s.slotGeneration
  relationSlot := m.relationSlot
  keyVersion := (e.map (·.version)).getD 0
  sourceObservedFullXid := (e.map (·.sourceObservedFullXid)).getD 0
  cacheable := cacheable
  hasEntry := e.isSome

/-- The negative flag and bytes offered by a current descriptor, if its block is sound. -/
def payloadOf (P : Partition) (e : CacheEntry) (valueCapacity : ℕ) :
    Option (Option (Bool × List UInt8)) :=
  match cacheEntryBlock P e with
  | none => none
  | some block =>
    if e.negative then some (some (true,[]))
    else if e.valueLen ≤ valueCapacity then
      some (some (false,read P.arena.memory (block+e.keyLen) e.valueLen))
    else some none

def missResult (token : ReadToken) (complete malformed : Bool) (corrupt : ℕ) : LookupResult :=
  ⟨false,false,[],0,token,complete,malformed,corrupt⟩

def answerLookup (P : Partition) (e : CacheEntry)
    (token : ReadToken) (valueCapacity : ℕ) (reads : LookupReads) (malformed : Bool) (corrupt : ℕ) :
    LookupResult :=
  match payloadOf P e valueCapacity with
  | none => missResult token true true corrupt
  | some none => missResult token true malformed corrupt
  | some (some (negative,value)) =>
    let before := (readFenceSnapshot cfg m (some e) reads.before).2
    let (stable,after) := readFenceSnapshot cfg m (some e) reads.after
    if stable && before == after then
      ⟨true,negative,value,if negative then 0 else e.sourceXmin,token,true,malformed,corrupt⟩
    else missResult { token with cacheable := false } true malformed corrupt

/-- The part of a lookup behind the search. -/
def lookupFound (valueCapacity : ℕ) (reads : LookupReads)
    (found : Option ℕ) (corrupt : ℕ) : CacheM LookupResult := do
  let P ← get
  let malformed := corrupt != 0
  match found with
  | none =>
    let (_,before) := readFenceSnapshot cfg m none reads.before
    return missResult (tokenOf m none before false) false malformed corrupt
  | some id =>
    let e := P.entries id
    let (stable,before) := readFenceSnapshot cfg m (some e) reads.before
    let token := tokenOf m (some e) before (stable && mappingMatches m e)
    if token.cacheable && entryIsCurrentSlot cfg e reads.current then
      let result := answerLookup cfg m P e token valueCapacity reads malformed corrupt
      set (setEntry P id { e with lastAccess := reads.clock })
      return result
    else return missResult token (mappingMatches m e) malformed corrupt

def cacheLookupLocked (r : EntryRequest) (valueCapacity : ℕ)
    (create : Bool) (env : AdmissionEnv) (reads : LookupReads) : CacheM LookupResult := do
  if cfg.relationStates ≤ m.relationSlot then return missResult blankToken true false 0
  else
    let (found,corrupt) ← getCacheEntryInternal cfg r false create env
    lookupFound cfg m valueCapacity reads found corrupt

def retireEntry (id : ℕ) : CacheM Unit := do
  modify (fun P => setEntry P id { P.entries id with
    valid := false
    loading := false
    loadId := bump64 (P.entries id).loadId })
  advanceVersion id
  modify (fun P => setEntry P id { P.entries id with sourceXmin := 0, sourceObservedFullXid := 0 })

def cacheRetireMalformedEntryLocked (r : EntryRequest)
    (corruptEntryId : ℕ) (fence : FenceReads) (current : SlotReads) : CacheM Bool := do
  let P ← get
  let e := P.entries corruptEntryId
  if corruptEntryId = 0 ∨ P.capacity < corruptEntryId then return false
  else if !e.inUse ∨ e.databaseOid ≠ r.databaseOid ∨ e.keyHash ≠ r.hash ∨
      !mappingMatches m e ∨ !(readFenceSnapshot cfg m (some e) fence).1 ∨
      !entryIsCurrentSlot cfg e current then return false
  else
    retireEntry corruptEntryId
    return true

structure StoreArgs where
  token : ReadToken
  value : List UInt8
  negative : Bool
  loadId : ℕ
  sourceXmin : ℕ
  observedFullXid : ℕ
  deriving DecidableEq, Repr

structure StoreReads where
  before : FenceReads
  after : FenceReads
  clock : ℕ
  evict : ℕ → EvictEnv

def storeAllowed (m : Mapping) (args : StoreArgs) (configGeneration : ℕ) : Bool :=
  args.token.cacheable && args.token.hasEntry && decide (args.value.length ≤ valueMax) &&
    m.configGeneration == args.token.configGeneration &&
    configGeneration == args.token.configGeneration

def ownsLease (e : CacheEntry) (t : ReadToken) (loadId : ℕ) : Bool :=
  e.loading && e.loadId == loadId && e.globalEpoch == t.globalEpoch &&
    e.relationVersion == t.relationVersion && e.relationIncarnation == t.relationIncarnation &&
    e.version == t.keyVersion

def abandonStore (id : ℕ) (clearValid : Bool) : CacheM Bool := do
  modify (fun P => setEntry P id { P.entries id with
    valid := if clearValid then false else (P.entries id).valid
    loading := false
    loadId := bump64 (P.entries id).loadId })
  return false

def newValueLen (args : StoreArgs) : ℕ := if args.negative then 0 else args.value.length

def filledEntry (e : CacheEntry) (args : StoreArgs) : CacheEntry :=
  { e with
    negative := args.negative
    valueLen := newValueLen args
    sourceXmin := if args.negative then 0 else args.sourceXmin
    sourceObservedFullXid := args.observedFullXid
    globalEpoch := args.token.globalEpoch
    relationVersion := args.token.relationVersion
    relationIncarnation := args.token.relationIncarnation
    relationSlot := args.token.relationSlot
    slotGeneration := args.token.slotGeneration }

def completeStore (id : ℕ) (args : StoreArgs) (after : FenceReads)
    (clock : ℕ) : CacheM Bool := do
  advanceVersion id
  modify (fun P => setEntry P id { P.entries id with
    loading := false
    loadId := bump64 (P.entries id).loadId
    valid := true })
  let P ← get
  let (stable,snapshot) := readFenceSnapshot cfg m (some (P.entries id)) after
  let stored := stable && fencesMatchToken snapshot args.token && (P.entries id).valid
  if !stored then
    let _ ← abandonStore id true
    modify (fun P => setEntry P id { P.entries id with lastAccess := clock })
    return false
  else
    modify (fun P => setEntry P id { P.entries id with lastAccess := clock })
    return true

def fillStore (id newBlockLen : ℕ) (args : StoreArgs)
    (reads : StoreReads) : CacheM Bool := do
  let P ← get
  let e := P.entries id
  match arenaBlock P.arena e.blockRef with
  | none => abandonStore id true
  | some block =>
    if arenaBlockClass P.arena e.blockRef < newBlockLen then abandonStore id true
    else
      let bytes := if args.negative then [] else args.value
      set { P with
        arena := { P.arena with memory := write P.arena.memory (block+e.keyLen) bytes }
        entries := Function.update P.entries id (filledEntry e args) }
      completeStore cfg m id args reads.after reads.clock

/-- The part of a growing store behind the allocation. -/
def growFill (id oldRef oldLen newBlockLen : ℕ) (args : StoreArgs)
    (reads : StoreReads) (newRef newClass : ℕ) : CacheM Bool := do
  let P ← get
  let e := P.entries id
  match arenaBlock P.arena newRef, arenaBlock P.arena oldRef with
  | some block, some oldBlock =>
    if newClass < newBlockLen then
      dropBlock newRef newBlockLen
      abandonStore id true
    else
      let memory := write P.arena.memory block (read P.arena.memory oldBlock e.keyLen)
      let (freed,arena) := arenaFree { P.arena with memory := memory } oldRef oldLen
      set { P with
        arena := arena
        entries := Function.update P.entries id
          { e with blockRef := newRef, blockLen := newBlockLen } }
      if !freed then abandonStore id true
      else fillStore cfg m id newBlockLen args reads
  | _, _ =>
    dropBlock newRef newBlockLen
    abandonStore id true

def growStore (id oldRef oldLen newBlockLen : ℕ) (args : StoreArgs)
    (reads : StoreReads) : CacheM Bool := do
  let P ← get
  match ← allocOrEvict cfg newBlockLen id reads.evict (P.capacity+1) 0 with
  | none => abandonStore id false
  | some (newRef,newClass) =>
    growFill cfg m id oldRef oldLen newBlockLen args reads newRef newClass

def resizeStore (id newBlockLen : ℕ) (args : StoreArgs)
    (reads : StoreReads) : CacheM Bool := do
  let P ← get
  let e := P.entries id
  let (resized,arena) := arenaResize P.arena e.blockRef e.blockLen newBlockLen
  if !resized then
    set { P with arena := arena }
    abandonStore id true
  else
    set { P with
      arena := arena
      entries := Function.update P.entries id { e with blockLen := newBlockLen } }
    fillStore cfg m id newBlockLen args reads

def storeInto (id : ℕ) (args : StoreArgs) (reads : StoreReads) :
    CacheM Bool := do
  let P ← get
  let e := P.entries id
  let oldClass := arenaBlockClass P.arena e.blockRef
  let valueLen := newValueLen args
  if 2^32-1-valueLen < e.keyLen ∨ 2^16-1-valueLen < e.keyLen then abandonStore id true
  else
    let newBlockLen := e.keyLen+valueLen
    let requested := arenaClassSize newBlockLen
    if requested = 0 ∨ oldClass = 0 ∨ e.blockLen ≠ e.keyLen+e.valueLen ∨ oldClass < e.blockLen ∨
        newBlockLen < e.keyLen ∨ newBlockLen-e.keyLen < valueLen then abandonStore id true
    else if oldClass < requested then
      growStore cfg m id e.blockRef e.blockLen newBlockLen args reads
    else resizeStore cfg m id newBlockLen args reads

def cacheStoreLocked (r : EntryRequest) (args : StoreArgs)
    (reads : StoreReads) : CacheM Bool := do
  let P ← get
  match getCacheEntry P r with
  | none => return false
  | some id =>
    let e := P.entries id
    let (stable,before) := readFenceSnapshot cfg m (some e) reads.before
    if stable && matchesToken before args.token && mappingMatches m e && args.loadId != 0 &&
        ownsLease e args.token args.loadId then storeInto cfg m id args reads
    else return false

structure ClaimReads where
  now : ℕ
  before : FenceReads
  globalDirtyWriters : ℕ
  relationDirtyWriters : ℕ
  current : SlotReads
  after : FenceReads
  deriving DecidableEq, Repr

def leaseTagsMatch (e : CacheEntry) (t : ReadToken) : Bool :=
  e.globalEpoch == t.globalEpoch && e.relationVersion == t.relationVersion &&
    e.relationIncarnation == t.relationIncarnation && e.version == t.keyVersion

def nextLoadId (loadId : ℕ) : ℕ := if bump64 loadId = 0 then 1 else bump64 loadId

def leasedEntry (e : CacheEntry) (t : ReadToken) (now : ℕ) : CacheEntry :=
  { e with
    loading := true
    loadStarted := now
    valid := false
    globalEpoch := t.globalEpoch
    relationVersion := t.relationVersion
    relationIncarnation := t.relationIncarnation
    loadId := nextLoadId e.loadId }

def grantLease (id : ℕ) (t : ReadToken) (reads : ClaimReads) :
    CacheM (LoadClaim × ℕ) := do
  let P ← get
  let e := leasedEntry (P.entries id) t reads.now
  let (stable,after) := readFenceSnapshot cfg m (some e) reads.after
  if !stable || !matchesToken after t then
    set (setEntry P id { e with loading := false, loadId := bump64 e.loadId })
    return (.retry,0)
  else
    set (setEntry P id e)
    return (.owner,e.loadId)

def claimFound (id : ℕ) (t : ReadToken) (reads : ClaimReads) :
    CacheM (LoadClaim × ℕ) := do
  let P ← get
  let e := P.entries id
  if entryIsCurrentSlot cfg e reads.current then return (.retry,0)
  else
    if e.loading && !leaseTagsMatch e t then
      set (setEntry P id { e with loading := false, loadId := bump64 e.loadId })
    let active ← cacheLoadIsActiveLocked cfg id reads.now
    if active then return (.wait,0)
    else
      let P ← get
      if (P.entries id).version ≠ t.keyVersion then return (.retry,0)
      else grantLease cfg m id t reads

def cacheClaimLoadLocked (r : EntryRequest) (t : ReadToken)
    (reads : ClaimReads) : CacheM (LoadClaim × ℕ) := do
  if cfg.relationStates ≤ m.relationSlot then return (.bypass,0)
  else
    let P ← get
    let found := getCacheEntry P r
    let entry := found.map P.entries
    let (stable,before) := readFenceSnapshot cfg m entry reads.before
    if before.configGeneration ≠ m.configGeneration ∨
        before.slotGeneration ≠ m.relationSlotGeneration ∨ before.relationIncarnation = 0 ∨
        (entry.map (mappingMatches m)).getD true = false then return (.bypass,0)
    else if r.keyLen = keyMax then return (.bypass,0)
    else if reads.globalDirtyWriters ≠ 0 ∨ reads.relationDirtyWriters ≠ 0 ∨
        (entry.map (·.dirtyWriters)).getD 0 ≠ 0 ∨
        cacheMarkerFind P (markerRequestOf r) ≠ 0 then return (.bypass,0)
    else
      match found with
      | none => return (.retry,0)
      | some id =>
        if !stable || !matchesToken before t then return (.retry,0)
        else claimFound cfg m id t reads

def cacheReleaseLoadLocked (m : Mapping) (r : EntryRequest) (t : ReadToken) (loadId : ℕ) :
    CacheM Unit := do
  let P ← get
  match getCacheEntry P r with
  | none => return ()
  | some id =>
    let e := P.entries id
    if mappingMatches m e && ownsLease e t loadId then
      set (setEntry P id { e with loading := false })
    else return ()

def cacheInvalidateKeyLocked (r : EntryRequest) (current : SlotReads) :
    CacheM ℕ := do
  let P ← get
  match getCacheEntry P r with
  | none => return 0
  | some id =>
    let count := if entryIsCurrentSlot cfg (P.entries id) current then 1 else 0
    retireEntry id
    return count

inductive Reservation where
  | refused
  | entry
  | marker (id generation : ℕ)
  deriving DecidableEq, Repr

def reserveKey (r : EntryRequest) (relationIncarnation : ℕ) : CacheM Reservation := do
  let P ← get
  match getCacheEntryWithCachedHash P r with
  | none =>
    match ← reserveCacheMarker { markerRequestOf r with
      relationIncarnation := relationIncarnation } with
    | none => return .refused
    | some (id,generation) => return .marker id generation
  | some id =>
    if (P.entries id).dirtyWriters = 2^32-1 then return .refused
    else
      retireEntry id
      modify (fun P => setEntry P id { P.entries id with
        dirtyWriters := (P.entries id).dirtyWriters+1 })
      return .entry

def publishKey (r : EntryRequest) : CacheM Unit := do
  let P ← get
  match getCacheEntryWithCachedHash P r with
  | none => return ()
  | some id =>
    set (setEntry P id { P.entries id with
      valid := false
      loading := false
      loadId := bump64 (P.entries id).loadId })
    advanceVersion id

def finishKey (r : EntryRequest) : CacheM Unit := do
  let P ← get
  match getCacheEntryWithCachedHash P r with
  | none => return ()
  | some id =>
    let e := P.entries id
    if 0 < e.dirtyWriters then
      set (setEntry P id { e with valid := false, dirtyWriters := e.dirtyWriters-1 })
    else return ()

end PgLocalCache.CacheOperations
