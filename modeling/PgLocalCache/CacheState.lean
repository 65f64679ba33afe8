import PgLocalCache.CacheIndex
import PgLocalCache.CacheArena

/-!
# Shared records of the cache

The descriptor, marker and partition records of pg_local_cache.h, the read
token, and the pure comparisons made on values read from the fence counters.
Descriptor, marker and key-slot ids start at one and zero ends a free list.
Statistics counters are left out.
-/

namespace PgLocalCache.CacheState

open ByteMemory CacheIndex CacheArena

def keyMax : ℕ := 1024
def valueMax : ℕ := 8192
def evictionSample : ℕ := 64
def evictionBatch : ℕ := 8

structure Settings where
  relationStates : ℕ
  statementTimeoutMs : ℕ

structure CacheEntry where
  keyHash : ℕ
  slotGeneration : ℕ
  globalEpoch : ℕ
  relationVersion : ℕ
  relationIncarnation : ℕ
  version : ℕ
  loadId : ℕ
  loadStarted : ℕ
  lastAccess : ℕ
  sourceObservedFullXid : ℕ
  databaseOid : ℕ
  relationOid : ℕ
  relationSlot : ℕ
  dirtyWriters : ℕ
  blockRef : ℕ
  keyLen : ℕ
  valueLen : ℕ
  blockLen : ℕ
  sourceXmin : ℕ
  valid : Bool
  negative : Bool
  loading : Bool
  inUse : Bool
  freeNext : ℕ
  deriving DecidableEq, Repr

def blankEntry : CacheEntry :=
  ⟨0,0,0,0,0,0,0,0,0,0,0,0,0,0,0,0,0,0,0,false,false,false,false,0⟩

structure DirtyMarker where
  keyHash : ℕ
  relationSlotGeneration : ℕ
  relationIncarnation : ℕ
  generation : ℕ
  relationSlot : ℕ
  writerCount : ℕ
  keySlot : ℕ
  keyLen : ℕ
  freeNext : ℕ
  inUse : Bool
  deriving DecidableEq, Repr

def blankMarker : DirtyMarker := ⟨0,0,0,0,0,0,0,0,0,false⟩

structure Partition where
  entries : ℕ → CacheEntry
  markers : ℕ → DirtyMarker
  index : Index
  markerIndex : Index
  arena : Arena
  markerKeyArena : Memory
  markerKeyFreeNext : ℕ → ℕ
  entryGeneration : ℕ
  markerGeneration : ℕ
  evictionBucketCursor : ℕ
  entryCount : ℕ
  capacity : ℕ
  freeEntryHead : ℕ
  markerCapacity : ℕ
  markerFreeHead : ℕ
  markerKeyCapacity : ℕ
  markerKeyFreeHead : ℕ
  markerCount : ℕ

def nextPowerOfTwo (requested : ℕ) : ℕ → ℕ → ℕ
  | 0, result => result
  | n+1, result => if result < requested then nextPowerOfTwo requested n (result*2) else result

def indexBucketsFor (capacity : ℕ) : ℕ := nextPowerOfTwo (max 16 (capacity*2)) 32 1

def partitionIndexValid (P : Partition) (markers : Bool) : Bool :=
  if markers then indexValid P.markerIndex (indexBucketsFor P.markerCapacity)
  else indexValid P.index (indexBucketsFor P.capacity)

structure Mapping where
  nspace : List UInt8
  relationOid : ℕ
  configGeneration : ℕ
  relationSlotGeneration : ℕ
  relationSlot : ℕ
  deriving DecidableEq, Repr

structure ReadToken where
  configGeneration : ℕ
  globalVersion : ℕ
  globalEpoch : ℕ
  relationVersion : ℕ
  relationIncarnation : ℕ
  slotGeneration : ℕ
  relationSlot : ℕ
  keyVersion : ℕ
  sourceObservedFullXid : ℕ
  cacheable : Bool
  hasEntry : Bool
  deriving DecidableEq, Repr

def blankToken : ReadToken := ⟨0,0,0,0,0,0,0,0,0,false,false⟩

inductive LoadClaim where
  | bypass
  | owner
  | wait
  | retry
  deriving DecidableEq, Repr

structure SlotReads where
  generation : ℕ
  globalEpoch : ℕ
  incarnation : ℕ
  version : ℕ
  deriving DecidableEq, Repr

def entryIsCurrentSlot (cfg : Settings) (e : CacheEntry) (r : SlotReads) : Bool :=
  decide (e.relationSlot < cfg.relationStates) && e.valid &&
    e.slotGeneration == r.generation && e.globalEpoch == r.globalEpoch &&
    e.relationIncarnation == r.incarnation && e.relationVersion == r.version

structure FenceReads where
  globalVersion : ℕ
  relationVersion : ℕ
  configGeneration : ℕ
  slotGeneration : ℕ
  relationIncarnation : ℕ
  globalDirtyWriters : ℕ
  relationDirtyWriters : ℕ
  globalEpoch : ℕ
  globalVersionAfter : ℕ
  relationVersionAfter : ℕ
  configGenerationAfter : ℕ
  slotGenerationAfter : ℕ
  relationIncarnationAfter : ℕ
  deriving DecidableEq, Repr

structure FenceSnapshot where
  globalVersion : ℕ
  globalEpoch : ℕ
  globalDirtyWriters : ℕ
  relationVersion : ℕ
  relationIncarnation : ℕ
  relationDirtyWriters : ℕ
  configGeneration : ℕ
  slotGeneration : ℕ
  keyVersion : ℕ
  keyDirtyWriters : ℕ
  entryGlobalEpoch : ℕ
  entryRelationVersion : ℕ
  entryRelationIncarnation : ℕ
  entrySlotGeneration : ℕ
  relationSlot : ℕ
  deriving DecidableEq, Repr

def fenceSnapshot (m : Mapping) (e : Option CacheEntry) (r : FenceReads) : FenceSnapshot where
  globalVersion := r.globalVersion
  globalEpoch := r.globalEpoch
  globalDirtyWriters := r.globalDirtyWriters
  relationVersion := r.relationVersion
  relationIncarnation := r.relationIncarnation
  relationDirtyWriters := r.relationDirtyWriters
  configGeneration := r.configGeneration
  slotGeneration := r.slotGeneration
  keyVersion := (e.map (·.version)).getD 0
  keyDirtyWriters := (e.map (·.dirtyWriters)).getD 0
  entryGlobalEpoch := (e.map (·.globalEpoch)).getD 0
  entryRelationVersion := (e.map (·.relationVersion)).getD 0
  entryRelationIncarnation := (e.map (·.relationIncarnation)).getD 0
  entrySlotGeneration := (e.map (·.slotGeneration)).getD 0
  relationSlot := m.relationSlot

def snapshotStable (m : Mapping) (s : FenceSnapshot) (r : FenceReads) : Bool :=
  s.globalVersion == r.globalVersionAfter && s.relationVersion == r.relationVersionAfter &&
    s.configGeneration == r.configGenerationAfter && s.slotGeneration == r.slotGenerationAfter &&
    s.relationIncarnation == r.relationIncarnationAfter &&
    s.configGeneration == m.configGeneration && s.slotGeneration == m.relationSlotGeneration &&
    s.relationIncarnation != 0 && s.globalDirtyWriters == 0 && s.relationDirtyWriters == 0 &&
    s.keyDirtyWriters == 0

def readFenceSnapshot (cfg : Settings) (m : Mapping) (e : Option CacheEntry) (r : FenceReads) :
    Bool × FenceSnapshot :=
  let s := fenceSnapshot m e r
  (decide (m.relationSlot < cfg.relationStates) && snapshotStable m s r,s)

def fencesMatchToken (s : FenceSnapshot) (t : ReadToken) : Bool :=
  s.configGeneration == t.configGeneration && s.globalVersion == t.globalVersion &&
    s.globalEpoch == t.globalEpoch && s.relationVersion == t.relationVersion &&
    s.relationIncarnation == t.relationIncarnation && s.slotGeneration == t.slotGeneration &&
    s.relationSlot == t.relationSlot

def matchesToken (s : FenceSnapshot) (t : ReadToken) : Bool :=
  fencesMatchToken s t && s.keyVersion == t.keyVersion

def loadLeaseMs (cfg : Settings) : ℕ := max 1000 (cfg.statementTimeoutMs*2)

def timestampDifferenceExceeds (start stop msec : ℕ) : Bool := decide (msec*1000 ≤ stop-start)

def bump64 (n : ℕ) : ℕ := (n+1)%2^64

end PgLocalCache.CacheState
