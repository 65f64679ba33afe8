import PgLocalCache.CacheOperations

/-!
# A partition from its initial state on

The tables of a partition as shared-memory start-up leaves them, the sections
that work on it as one list of operations, and the runs of a partition. A run is
a sequence of operations that return; an operation that raises ends it, and no result
about runs says what the partition does behind it.
-/

namespace PgLocalCache.PartitionModel

open ByteMemory CacheIndex CacheArena CacheState CacheEntries CacheMarkers CacheAdmission
open CacheOperations

/-- The table sizes of one partition, within the limits of the settings. -/
structure PartitionSize where
  capacity : ℕ
  markerCapacity : ℕ
  markerKeyCapacity : ℕ
  pages : ℕ
  capacity_le : capacity ≤ 2^24
  markerCapacity_le : markerCapacity ≤ 2^20
  pages_le : pages ≤ (2^32-1)/pageSize

def freeNextInit (capacity id : ℕ) : ℕ := if id < capacity then id+1 else 0

def freeHeadInit (capacity : ℕ) : ℕ := if 0 < capacity then 1 else 0

def blankArena (memory : Memory) (pages : ℕ) : Arena where
  memory := memory
  pages := fun _ => blankPage
  pageCount := pages
  firstUnassignedPage := 0
  usedBytes := 0
  classSlackBytes := 0
  assignedBytes := 0

def partitionInit (size : PartitionSize) (memory keyMemory : Memory) : Partition where
  entries := fun id => { blankEntry with freeNext := freeNextInit size.capacity id }
  markers := fun id => { blankMarker with freeNext := freeNextInit size.markerCapacity id }
  index := indexInit (indexBucketsFor size.capacity)
  markerIndex := indexInit (indexBucketsFor size.markerCapacity)
  arena := blankArena memory size.pages
  markerKeyArena := keyMemory
  markerKeyFreeNext := freeNextInit size.markerKeyCapacity
  entryGeneration := 0
  markerGeneration := 0
  evictionBucketCursor := 0
  entryCount := 0
  capacity := size.capacity
  freeEntryHead := freeHeadInit size.capacity
  markerCapacity := size.markerCapacity
  markerFreeHead := freeHeadInit size.markerCapacity
  markerKeyCapacity := size.markerKeyCapacity
  markerKeyFreeHead := freeHeadInit size.markerKeyCapacity
  markerCount := 0

/-- What a caller names when it asks for a key. -/
structure KeyTuple where
  databaseOid : ℕ
  relationOid : ℕ
  relationSlot : ℕ
  slotGeneration : ℕ
  key : List UInt8
  deriving DecidableEq, Repr

def requestOf (hash : KeyTuple → ℕ) (t : KeyTuple) : EntryRequest where
  key := t.key
  keyLen := min t.key.length keyMax
  hash := hash t
  databaseOid := t.databaseOid
  relationOid := t.relationOid
  relationSlot := t.relationSlot
  slotGeneration := t.slotGeneration

def cacheStore (cfg : Settings) (m : Mapping) (r : EntryRequest) (args : StoreArgs)
    (configGeneration : ℕ) (reads : StoreReads) : CacheM Bool :=
  if storeAllowed m args configGeneration then cacheStoreLocked cfg m r args reads
  else return false

inductive PartOp where
  | lookup (m : Mapping) (t : KeyTuple) (valueCapacity : ℕ) (create : Bool) (env : AdmissionEnv)
      (reads : LookupReads)
  | claim (m : Mapping) (t : KeyTuple) (token : ReadToken) (reads : ClaimReads)
  | store (m : Mapping) (t : KeyTuple) (args : StoreArgs) (configGeneration : ℕ)
      (reads : StoreReads)
  | release (m : Mapping) (t : KeyTuple) (token : ReadToken) (loadId : ℕ)
  | invalidateKey (t : KeyTuple) (current : SlotReads)
  | retireMalformed (m : Mapping) (t : KeyTuple) (corruptEntryId : ℕ) (fence : FenceReads)
      (current : SlotReads)
  | reserve (t : KeyTuple) (relationIncarnation : ℕ)
  | publish (t : KeyTuple)
  | finish (t : KeyTuple)
  | releaseMarker (id generation : ℕ)
  | evict (required excluded : ℕ) (env : EvictEnv)
  | remove (id : ℕ)
  | rebuildEntries
  | rebuildMarkers

inductive OpResult where
  | looked (res : LookupResult)
  | claimed (claim : LoadClaim) (loadId : ℕ)
  | stored (ok : Bool)
  | reserved (res : Reservation)
  | done
  deriving DecidableEq, Repr

def runOp (cfg : Settings) (hash : KeyTuple → ℕ) : PartOp → CacheM OpResult
  | .lookup m t valueCapacity create env reads => do
    return .looked (← cacheLookupLocked cfg m (requestOf hash t) valueCapacity create env reads)
  | .claim m t token reads => do
    let (claim,loadId) ← cacheClaimLoadLocked cfg m (requestOf hash t) token reads
    return .claimed claim loadId
  | .store m t args configGeneration reads => do
    return .stored (← cacheStore cfg m (requestOf hash t) args configGeneration reads)
  | .release m t token loadId => do
    cacheReleaseLoadLocked m (requestOf hash t) token loadId
    return .done
  | .invalidateKey t current => do
    let _ ← cacheInvalidateKeyLocked cfg (requestOf hash t) current
    return .done
  | .retireMalformed m t corruptEntryId fence current => do
    let _ ← cacheRetireMalformedEntryLocked cfg m (requestOf hash t) corruptEntryId fence current
    return .done
  | .reserve t relationIncarnation => do
    return .reserved (← reserveKey (requestOf hash t) relationIncarnation)
  | .publish t => do
    publishKey (requestOf hash t)
    return .done
  | .finish t => do
    finishKey (requestOf hash t)
    return .done
  | .releaseMarker id generation => do
    releaseCacheMarker id generation
    return .done
  | .evict required excluded env => do
    let _ ← evictCacheEntries cfg required excluded env
    return .done
  | .remove id => do
    let _ ← cacheEntryRemoveLocked id
    return .done
  | .rebuildEntries => do
    let _ ← rebuildCacheIndex
    return .done
  | .rebuildMarkers => do
    let _ ← rebuildMarkerIndex
    return .done

/-- An operation that returned, its answer and the partition it left. -/
structure Event where
  op : PartOp
  result : OpResult
  after : Partition

def finalState (P0 : Partition) : List Event → Partition
  | [] => P0
  | e::_ => e.after

/-- The runs of a partition; the newest event stands first. -/
inductive Run (cfg : Settings) (hash : KeyTuple → ℕ) (P0 : Partition) : List Event → Prop
  | nil : Run cfg hash P0 []
  | step {trace : List Event} (op : PartOp) (result : OpResult) (P : Partition) :
      Run cfg hash P0 trace → runOp cfg hash op (finalState P0 trace) = .ok result P →
      Run cfg hash P0 (⟨op,result,P⟩::trace)

theorem run_split {cfg : Settings} {hash : KeyTuple → ℕ} {P0 : Partition} {e : Event}
    {older : List Event} (newer : List Event) (h : Run cfg hash P0 (newer++e::older)) :
    Run cfg hash P0 older ∧
      runOp cfg hash e.op (finalState P0 older) = .ok e.result e.after := by
  induction newer with
  | nil =>
    cases h with
    | step op result P hrun hop => exact ⟨hrun,hop⟩
  | cons e' newer ih =>
    cases h with
    | step op result P hrun _ => exact ih hrun

def resultState : EStateM.Result Fault Partition OpResult → Partition
  | .ok _ P => P
  | .error _ P => P

def resultOf : EStateM.Result Fault Partition OpResult → Option OpResult
  | .ok result _ => some result
  | .error _ _ => none

def faultOf : EStateM.Result Fault Partition OpResult → Option Fault
  | .ok _ _ => none
  | .error e _ => some e

theorem ok_of_result {x : EStateM.Result Fault Partition OpResult} {result : OpResult}
    (h : resultOf x = some result) : x = .ok result (resultState x) := by
  cases x with
  | ok a P =>
    cases h
    rfl
  | error e P => cases h

theorem error_of_fault {x : EStateM.Result Fault Partition OpResult} {e : Fault}
    (h : faultOf x = some e) : x = .error e (resultState x) := by
  cases x with
  | ok a P => cases h
  | error e' P =>
    cases h
    rfl

/-- The event of an operation that returns. -/
def nextEvent (cfg : Settings) (hash : KeyTuple → ℕ) (P : Partition) (op : PartOp) : Event :=
  ⟨op,(resultOf (runOp cfg hash op P)).getD .done,resultState (runOp cfg hash op P)⟩

theorem run_next {cfg : Settings} {hash : KeyTuple → ℕ} {P0 : Partition} {trace : List Event}
    (h : Run cfg hash P0 trace) (op : PartOp)
    (hok : (resultOf (runOp cfg hash op (finalState P0 trace))).isSome = true) :
    Run cfg hash P0 (nextEvent cfg hash (finalState P0 trace) op::trace) := by
  obtain ⟨result,hres⟩ := Option.isSome_iff_exists.mp hok
  refine .step _ _ _ h ?_
  rw [hres]
  exact ok_of_result hres

/-- A partition with one descriptor, one marker and one page, and a reader of one key. -/
def smallSize : PartitionSize := ⟨1,1,1,1,by decide,by decide,by decide⟩

def smallInit : Partition := partitionInit smallSize (fun _ => 0) (fun _ => 0)

def smallSettings : Settings := ⟨1,1000⟩

def smallMapping : Mapping := ⟨[],1,1,1,0⟩

def smallTuple : KeyTuple := ⟨1,1,0,1,[65]⟩

def calmFence : FenceReads := ⟨0,0,1,1,1,0,0,0,0,0,1,1,1⟩

def calmSlot : SlotReads := ⟨1,0,1,0⟩

def calmEvict : EvictEnv := ⟨0,fun _ => calmSlot⟩

def calmLookup : PartOp := .lookup smallMapping smallTuple 100 true
  ⟨fun _ => calmEvict,calmEvict,fun _ => calmEvict,fun _ => true⟩ ⟨calmFence,calmSlot,calmFence,1⟩

def calmToken : ReadToken := ⟨1,0,0,0,1,1,0,1,0,true,true⟩

def calmReads : ClaimReads := ⟨0,calmFence,0,0,calmSlot,calmFence⟩

def calmClaim : PartOp := .claim smallMapping smallTuple calmToken calmReads

def calmStore (value : List UInt8) : PartOp := .store smallMapping smallTuple
  ⟨calmToken,value,false,1,7,9⟩ 1 ⟨calmFence,calmFence,2,fun _ => calmEvict⟩

def createdEvent : Event := nextEvent smallSettings (fun _ => 0) smallInit calmLookup

def claimedEvent : Event := nextEvent smallSettings (fun _ => 0) createdEvent.after calmClaim

def storedEvent : Event :=
  nextEvent smallSettings (fun _ => 0) claimedEvent.after (calmStore [66,67])

theorem small_run : Run smallSettings (fun _ => 0) smallInit
    [storedEvent,claimedEvent,createdEvent] := by
  have h1 : Run smallSettings (fun _ => 0) smallInit [createdEvent] :=
    run_next .nil calmLookup (by decide +kernel)
  have h2 : Run smallSettings (fun _ => 0) smallInit [claimedEvent,createdEvent] :=
    run_next h1 calmClaim (by decide +kernel)
  exact run_next h2 (calmStore [66,67]) (by decide +kernel)

end PgLocalCache.PartitionModel
