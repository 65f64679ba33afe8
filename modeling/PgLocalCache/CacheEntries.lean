import PgLocalCache.CacheState

/-!
# Descriptors of one partition: search, removal, eviction and admission

The functions that run under a partition's exclusive lock. A raised error keeps
the partition as it was at that point. Values that come from outside the
partition are arguments: the clock and the fence counters seen by an eviction,
and the answers of the shared descriptor counter.
-/

namespace PgLocalCache.CacheEntries

open ByteMemory CacheIndex CacheArena CacheState

inductive Fault where
  | descriptorMissing
  | slabInconsistent
  | unindexedKeyBlock
  | rejectedKeyBlock
  | markerMissing
  | keyGenerationOverflow
  | loopBound
  deriving DecidableEq, Repr

abbrev CacheM := EStateM Fault Partition

def setEntry (P : Partition) (id : ℕ) (e : CacheEntry) : Partition :=
  { P with entries := Function.update P.entries id e }

structure EntryRequest where
  databaseOid : ℕ
  relationOid : ℕ
  relationSlot : ℕ
  slotGeneration : ℕ
  key : List UInt8
  keyLen : ℕ
  hash : ℕ
  deriving DecidableEq, Repr

structure EntryQuery where
  request : EntryRequest
  expectedId : ℕ
  corruptEntryId : ℕ
  corrupt : Bool
  deriving DecidableEq, Repr

def blankRequest : EntryRequest := ⟨0,0,0,0,[],0,0⟩

def blankQuery : EntryQuery := ⟨blankRequest,0,0,false⟩

def cacheEntryBlock (P : Partition) (e : CacheEntry) : Option ℕ :=
  if !e.inUse ∨ keyMax < e.keyLen ∨ valueMax < e.valueLen ∨ (e.negative ∧ e.valueLen ≠ 0) then none
  else if 2^32-1-e.keyLen < e.valueLen then none
  else if e.keyLen+e.valueLen ≠ e.blockLen then none
  else
    let size := arenaBlockClass P.arena e.blockRef
    if size = 0 ∨ size < e.blockLen then none else arenaBlock P.arena e.blockRef

def cacheEntryHashById (P : Partition) (id : ℕ) (q : EntryQuery) : ℕ × EntryQuery :=
  if id = 0 ∨ P.capacity < id ∨ !(P.entries id).inUse then (0,{ q with corrupt := true })
  else ((P.entries id).keyHash,q)

def cacheEntryMatchesQuery (P : Partition) (id : ℕ) (q : EntryQuery) : Bool × EntryQuery :=
  let e := P.entries id
  let r := q.request
  if id = 0 ∨ P.capacity < id then (false,{ q with corrupt := true })
  else if !e.inUse then (false,{ q with corrupt := true })
  else
    match cacheEntryBlock P e with
    | none => (false,{ q with corrupt := true, corruptEntryId := id })
    | some block =>
      if e.databaseOid ≠ r.databaseOid ∨ e.relationOid ≠ r.relationOid ∨
          e.relationSlot ≠ r.relationSlot ∨ e.slotGeneration ≠ r.slotGeneration ∨
          e.keyLen ≠ r.keyLen then (false,q)
      else (read P.arena.memory block r.keyLen == r.key.take r.keyLen,q)

def cacheEntryMatchesId (P : Partition) (id : ℕ) (q : EntryQuery) : Bool × EntryQuery :=
  if id = 0 ∨ P.capacity < id then (false,{ q with corrupt := true })
  else (id == q.expectedId,q)

def queryCallbacks (P : Partition) : Callbacks EntryQuery :=
  ⟨cacheEntryHashById P,cacheEntryMatchesQuery P⟩

def idCallbacks (P : Partition) : Callbacks EntryQuery :=
  ⟨cacheEntryHashById P,cacheEntryMatchesId P⟩

def rebuildCacheIndex : CacheM Bool := do
  let P ← get
  if !partitionIndexValid P false then return false
  else
    let (ok,index,q) := indexRebuildExisting P.index (idCallbacks P) blankQuery
    set { P with index := index }
    return ok && !q.corrupt

def nextEntryGeneration : CacheM ℕ := do
  let P ← get
  if P.entryGeneration = 2^64-1 then throw .keyGenerationOverflow
  else
    set { P with entryGeneration := P.entryGeneration+1 }
    return P.entryGeneration+1

def advanceVersion (id : ℕ) : CacheM Unit := do
  let version ← nextEntryGeneration
  modify (fun P => setEntry P id { P.entries id with version := version })

def cacheLoadIsActiveLocked (cfg : Settings) (id now : ℕ) : CacheM Bool := do
  let P ← get
  let e := P.entries id
  if !e.loading then return false
  else if !timestampDifferenceExceeds e.loadStarted now (loadLeaseMs cfg) then return true
  else
    set (setEntry P id { e with loading := false, loadId := bump64 e.loadId })
    advanceVersion id
    return false

def retiredEntry (e : CacheEntry) (freeNext : ℕ) : CacheEntry :=
  { e with
    inUse := false
    valid := false
    loading := false
    dirtyWriters := 0
    keyLen := 0
    valueLen := 0
    blockLen := 0
    blockRef := noBlock
    freeNext := freeNext }

def removalQuery (e : CacheEntry) (id : ℕ) : EntryQuery :=
  ⟨{ blankRequest with hash := e.keyHash },id,0,false⟩

def cacheEntryRemoveLocked (id : ℕ) : CacheM Bool := do
  let P ← get
  let e := P.entries id
  if id = 0 ∨ P.capacity < id then return false
  else if !e.inUse then return false
  else if !partitionIndexValid P false ∨ P.capacity < P.freeEntryHead ∨
      cacheEntryBlock P e = none then return false
  else
    let (removed,index,_) := indexRemove P.index (idCallbacks P) e.keyHash (removalQuery e id)
    set { P with index := index }
    if removed ≠ id then throw .descriptorMissing
    else
      let (freed,arena) := arenaFree P.arena e.blockRef e.blockLen
      set { P with index := index, arena := arena }
      if !freed then throw .slabInconsistent
      else
        set { P with
          index := index
          arena := arena
          entries := Function.update P.entries id (retiredEntry e P.freeEntryHead)
          freeEntryHead := id
          entryCount := P.entryCount-1 }
        if indexNeedsRebuild index then
          let _ ← rebuildCacheIndex
          return true
        else return true

structure EvictEnv where
  now : ℕ
  reads : ℕ → SlotReads

structure Candidate where
  access : ℕ
  id : ℕ
  deriving DecidableEq, Repr

/-- The candidates of one scan, the most recently used one first. -/
def shiftCandidate (c : Candidate) : List Candidate → List Candidate
  | [] => [c]
  | x::xs => if c.access < x.access then x :: shiftCandidate c xs else c :: x :: xs

def insertCandidate (c : Candidate) (xs : List Candidate) : List Candidate :=
  match xs with
  | [] => [c]
  | x::rest =>
    if xs.length = evictionBatch then
      if x.access ≤ c.access then xs else shiftCandidate c rest
    else shiftCandidate c xs

structure ScanState where
  victims : List ℕ
  candidates : List Candidate
  deriving DecidableEq, Repr

def scanEntry (cfg : Settings) (env : EvictEnv) (required excluded id : ℕ) (st : ScanState) :
    CacheM ScanState := do
  let P ← get
  let e := P.entries id
  if !e.inUse ∨ id = excluded ∨ e.dirtyWriters ≠ 0 then return st
  else
    let active ← cacheLoadIsActiveLocked cfg id env.now
    let P ← get
    let e := P.entries id
    if active then return st
    else if required ≠ 0 ∧ arenaBlockClass P.arena e.blockRef ≠ required then return st
    else if !entryIsCurrentSlot cfg e (env.reads id) then
      return if st.victims.length < evictionBatch then
        { st with victims := st.victims ++ [id] } else st
    else return { st with candidates := insertCandidate ⟨e.lastAccess,id⟩ st.candidates }

def scanEntries (cfg : Settings) (env : EvictEnv) (required excluded start : ℕ) :
    ℕ → ℕ → ScanState → CacheM ScanState
  | _, 0, st => return st
  | scanned, n+1, st => do
    let P ← get
    let st ← scanEntry cfg env required excluded ((start+scanned)%P.capacity+1) st
    scanEntries cfg env required excluded start (scanned+1) n st

def removeVictims : List ℕ → ℕ → CacheM ℕ
  | [], removed => return removed
  | id::ids, removed => do
    let gone ← cacheEntryRemoveLocked id
    removeVictims ids (if gone then removed+1 else removed)

def evictCacheEntries (cfg : Settings) (required excluded : ℕ) (env : EvictEnv) : CacheM ℕ := do
  let P ← get
  let scanCount := min P.capacity evictionSample
  let start := P.evictionBucketCursor
  let st ← scanEntries cfg env required excluded start 0 scanCount ⟨[],[]⟩
  modify (fun P => { P with
    evictionBucketCursor := if P.capacity = 0 then 0 else (start+scanCount)%P.capacity })
  let room := evictionBatch-st.victims.length
  removeVictims (st.victims ++ (st.candidates.reverse.map (·.id)).take room) 0

end PgLocalCache.CacheEntries
