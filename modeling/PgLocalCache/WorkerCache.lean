import PgLocalCache.LeaseLedger
import PgLocalCache.WorkerBackend

/-!
# The cache calls of a worker among other backends

The world of a request is the log of all locked sections from some state of the
partitions on. Each call of the worker runs its own sections, and others run
theirs behind each of them, in any number and on any key. What is read outside the
locks, the fence counters and the slot of the mapping above all, comes from a feed
that nothing is assumed about, and so do the clock and the answers of SPI. A
section that raises is out of this model and leaves its flag.
-/

namespace PgLocalCache.WorkerCache

open CacheState CacheAdmission CacheOperations PartitionModel WireKey WorkerBackend LeaseLedger

/-- The constants of a running server and of the hash table it keeps. -/
structure Site where
  settings : Settings
  hash : KeyTuple → ℕ
  partitionForHash : ℕ → ℕ
  databaseOid : ℕ

/-- What one call finds outside the locks, and what others do during it. -/
structure Moment where
  now : ℕ
  enabled : Bool
  configGeneration : ℕ
  firstLookup : LookupReads
  secondLookup : LookupReads
  admission : AdmissionEnv
  retireFence : FenceReads
  retireSlot : SlotReads
  invalidateSlot : SlotReads
  claim : ClaimReads
  store : StoreReads
  observedFullXid : ℕ
  locked : Except PgError Bool
  row : Except PgError (Option SourceRow)
  committed : Except PgError Unit
  deferred : DeferredResult
  between : List (ℕ × PartOp)
  behind : List (ℕ × PartOp)

structure World where
  start : ℕ → Partition
  log : List Mark
  raised : Bool
  feed : ℕ → Moment
  tick : ℕ

def World.moment (w : World) : Moment := w.feed w.tick

def World.partition (w : World) (p : ℕ) : Partition := stateAt w.start w.log p

def World.record (w : World) (own : Bool) (p : ℕ) (event : Event) : World :=
  { w with log := .locked own p event::w.log }

variable (X : Site)

def lockedSection (own : Bool) (p : ℕ) (op : PartOp) (w : World) : Option OpResult × World :=
  match runOp X.settings X.hash op (w.partition p) with
  | .ok result P => (some result,w.record own p ⟨op,result,P⟩)
  | .error _ _ => (none,{ w with raised := true })

def others : List (ℕ × PartOp) → World → World
  | [], w => w
  | (p,op)::rest, w => others rest (lockedSection X false p op w).2

/-- The end of a call. -/
def passTime (w : World) : World := { others X w.moment.behind w with tick := w.tick+1 }

def tupleOf (m : Mapping) (key : Bytes) : KeyTuple :=
  ⟨X.databaseOid,m.relationOid,m.relationSlot,m.relationSlotGeneration,key⟩

def cachePartitionFor (m : Mapping) (key : Bytes) : ℕ :=
  X.partitionForHash (X.hash (tupleOf X m key))

def ownSection (m : Mapping) (key : Bytes) (op : PartOp) (w : World) : Option OpResult × World :=
  lockedSection X true (cachePartitionFor X m key) op w

def lookupSection (m : Mapping) (key : Bytes) (create : Bool) (reads : LookupReads) (w : World) :
    CacheOperations.LookupResult × World :=
  match ownSection X m key
      (.lookup m (tupleOf X m key) valueMax create w.moment.admission reads) w with
  | (some (.looked found),w) => (found,w)
  | (_,w) => (missResult blankToken true false 0,w)

def retireSection (m : Mapping) (key : Bytes) (corruptEntryId : ℕ) (w : World) : World :=
  (ownSection X m key (.retireMalformed m (tupleOf X m key) corruptEntryId w.moment.retireFence
    w.moment.retireSlot) w).2

/-- `pglc_cache_lookup_internal`: the shared lock first, then the exclusive one if the descriptor
is malformed or has to be created. -/
def cacheLookupInternal (m : Mapping) (key : Bytes) (w : World) :
    CacheOperations.LookupResult × World :=
  let first := lookupSection X m key false w.moment.firstLookup w
  let w := others X w.moment.between first.2
  if first.1.malformed then
    lookupSection X m key false w.moment.secondLookup
      (retireSection X m key first.1.corruptEntryId w)
  else if !first.1.complete then lookupSection X m key true w.moment.secondLookup w
  else (first.1,w)

def lookupAnswer (found : CacheOperations.LookupResult) : Lookup where
  result := if found.hit then if found.negative then .negative else .value found.value else .miss
  token := found.token

def cacheInvalidateKey (m : Mapping) (key : Bytes) (w : World) : ℕ × World :=
  let count := match cacheInvalidateKeyLocked X.settings (requestOf X.hash (tupleOf X m key))
      w.moment.invalidateSlot (w.partition (cachePartitionFor X m key)) with
    | .ok count _ => count
    | .error _ _ => 0
  (count,(ownSection X m key (.invalidateKey (tupleOf X m key) w.moment.invalidateSlot) w).2)

def cacheClaimLoad (m : Mapping) (key : Bytes) (token : ReadToken) (w : World) :
    (LoadClaim × ℕ) × World :=
  if !token.cacheable || !token.hasEntry then ((.bypass,0),w)
  else
    match ownSection X m key (.claim m (tupleOf X m key) token w.moment.claim) w with
    | (some (.claimed claim loadId),w) => ((claim,loadId),w)
    | (_,w) => ((.bypass,0),w)

def cacheReleaseLoad (m : Mapping) (key : Bytes) (token : ReadToken) (loadId : ℕ) (w : World) :
    World :=
  if loadId = 0 ∨ !token.cacheable ∨ !token.hasEntry then w
  else (ownSection X m key (.release m (tupleOf X m key) token loadId) w).2

/-- `pglc_cache_store`; no value stands for a negative entry. -/
def cacheStore (m : Mapping) (key : Bytes) (token : ReadToken) (value : Option Bytes)
    (loadId sourceXmin : ℕ) (w : World) : Bool × World :=
  match ownSection X m key (.store m (tupleOf X m key)
      ⟨token,value.getD [],value.isNone,loadId,sourceXmin,w.moment.observedFullXid⟩
      w.moment.configGeneration w.moment.store) w with
  | (some (.stored stored),w) => (stored,w)
  | (_,w) => (false,w)

def ended {α : Type} (result : α × World) : α × World := (result.1,passTime X result.2)

def backend (D : Type) : Backend World D where
  getCurrentTimestamp := fun w => (w.moment.now,passTime X w)
  waitLatch := fun w => passTime X { w with log := .waited::w.log }
  cacheIsEnabled := fun w => (w.moment.enabled,passTime X w)
  configGeneration := fun w => (w.moment.configGeneration,passTime X w)
  cacheLookupQuiet := fun m key w =>
    let found := cacheLookupInternal X m.cache key w
    (lookupAnswer found.1,passTime X found.2)
  cacheInvalidateKey := fun m key w => ended X (cacheInvalidateKey X m.cache key w)
  cacheClaimLoad := fun m key token w => ended X (cacheClaimLoad X m.cache key token w)
  cacheReleaseLoad := fun m key token loadId w =>
    passTime X (cacheReleaseLoad X m.cache key token loadId w)
  cacheStore := fun m key token value loadId sourceXmin w =>
    ended X (cacheStore X m.cache key token value loadId sourceXmin w)
  beginMgetSpi := fun _ _ w => (w.moment.locked,passTime X w)
  executeGetPlan := fun _ _ w => (w.moment.row,passTime X w)
  commitSpi := fun w => (w.moment.committed,passTime X w)
  abortSpi := passTime X
  enqueueDeferredMiss := fun _ _ w => (w.moment.deferred,passTime X w)

end PgLocalCache.WorkerCache
