import PgLocalCache.DescriptorCounter
import PgLocalCache.SerialLayout

/-!
# Sizing and carving the shared memory of pg_local_cache.c

Start-up validates the configuration, derives the number of arena pages from what
the memory budget leaves, reserves that many bytes and cuts them into regions.
`add_size` and `mul_size` report an overflow. All other arithmetic of the source
wraps around silently; `fit` is such a step, and in strict mode it fails instead,
so that a strict run that succeeds shows that no step overflowed. Structure sizes
that depend on the server's headers are parameters.
-/

namespace PgLocalCache.ShmemLayout

open CacheArena SerialLayout
open CacheState (keyMax)
open DescriptorCounter (partitionCapacity)

inductive Fault where
  | sizeOverflow
  | wrapped
  | maxClients
  | capacityBounds
  | lockPartitions
  | budget
  | arenaLimit
  deriving DecidableEq, Repr

abbrev Sized := Except Fault

variable (strict : Bool)

def fit (width value : ℕ) : Sized ℕ :=
  if value < 2^width then .ok value
  else if strict then .error .wrapped
  else .ok (value%2^width)

def addSize (m n : ℕ) : Sized ℕ := if m+n < 2^64 then .ok (m+n) else .error .sizeOverflow

def mulSize (m n : ℕ) : Sized ℕ := if m*n < 2^64 then .ok (m*n) else .error .sizeOverflow

def maxAlign (value : ℕ) : Sized ℕ := do
  let raised ← fit strict 64 (value+7)
  return raised/8*8

def maxLockPartitions : ℕ := 256
def maxWorkers : ℕ := 32
def maxClientsPerWorkerLimit : ℕ := 4096
def deferredMissesMax : ℕ := 64
def maxMappings : ℕ := 128
def maxTupleAttributes : ℕ := 1664
def requestMax : ℕ := 65536
def outputBufferMax : ℕ := 64*1024+1024+16*1024
def megabyte : ℕ := 1024*1024
def uint32Bytes : ℕ := 4
/-- Two 32-bit words, one byte and a bitmap of 32 bytes, padded to the alignment of the words. -/
def arenaPageBytes : ℕ := 44
def arenaPageAlign : ℕ := 4

/-- The settings, in the ranges that their definitions and check hooks allow. -/
structure Config where
  port : ℕ
  workers : ℕ
  cacheEntries : ℕ
  dirtyMarkerEntries : ℤ
  dirtyMarkerMemoryMb : ℤ
  lockPartitions : ℕ
  relationStates : ℕ
  maxClients : ℕ
  maxClientsPerWorker : ℕ
  memoryBudgetMb : ℕ
  maxDeferredMisses : ℕ
  port_le : port ≤ 65535
  workers_range : 1 ≤ workers ∧ workers ≤ maxWorkers
  cacheEntries_range : 128 ≤ cacheEntries ∧ cacheEntries ≤ 16777216
  markerEntries_range : dirtyMarkerEntries = -1 ∨
    (128 ≤ dirtyMarkerEntries ∧ dirtyMarkerEntries ≤ 1048576)
  markerMemory_range : dirtyMarkerMemoryMb = -1 ∨
    (1 ≤ dirtyMarkerMemoryMb ∧ dirtyMarkerMemoryMb ≤ 1024)
  lockPartitions_range : 16 ≤ lockPartitions ∧ lockPartitions ≤ maxLockPartitions
  relationStates_range : 128 ≤ relationStates ∧ relationStates ≤ 8192
  maxClients_range : 1 ≤ maxClients ∧ maxClients ≤ 4096
  maxClientsPerWorker_range : 1 ≤ maxClientsPerWorker ∧
    maxClientsPerWorker ≤ maxClientsPerWorkerLimit
  memoryBudget_range : 64 ≤ memoryBudgetMb ∧ memoryBudgetMb ≤ 8192
  maxDeferredMisses_range : 1 ≤ maxDeferredMisses ∧ maxDeferredMisses ≤ deferredMissesMax

/-- The sizes of structures, and what the server estimates for the registry's hash table. -/
structure Sizes where
  sharedState : ℕ
  cacheEntry : ℕ
  dirtyMarker : ℕ
  relationSlot : ℕ
  lwlockPadded : ℕ
  client : ℕ
  deferredMiss : ℕ
  pollfd : ℕ
  tupleDescData : ℕ
  formAttribute : ℕ
  mapping : ℕ
  hashEstimateSize : ℕ → Sized ℕ
  small : ∀ n ∈ [sharedState,cacheEntry,dirtyMarker,relationSlot,lwlockPadded,client,deferredMiss,
    pollfd,tupleDescData,formAttribute,mapping], n < 2^31

/-! Sizing. -/

def alignAppend (offset bytes : ℕ) : Sized (ℕ × ℕ) := do
  let start ← maxAlign strict offset
  let aligned ← maxAlign strict bytes
  let next ← addSize start aligned
  return (start,next)

def nextPowerOfTwo (requested : ℕ) : ℕ → ℕ → Sized ℕ
  | 0, _ => .error .wrapped
  | n+1, result =>
    if result < requested then do
      let doubled ← fit strict 32 (result*2)
      nextPowerOfTwo requested n doubled
    else return result

def capacityOf (total partition partitions : ℕ) : Sized ℕ :=
  fit strict 32 (partitionCapacity total partition partitions)

def indexBucketsFor (capacity : ℕ) : Sized ℕ := do
  let twice ← fit strict 32 (capacity*2)
  nextPowerOfTwo strict (max 16 twice) 33 1

def entriesPerPartition (cfg : Config) (partitions : ℕ) : Sized ℕ := do
  let raised ← addSize cfg.cacheEntries (partitions-1)
  return raised/partitions

def partitionCountLoop (cfg : Config) : ℕ → ℕ → Sized ℕ
  | 0, partitions => return partitions
  | n+1, partitions =>
    if 16 < partitions then do
      let entries ← entriesPerPartition cfg partitions
      if entries < 32 then partitionCountLoop cfg n (partitions/2) else return partitions
    else return partitions

def cachePartitionCount (cfg : Config) : Sized ℕ :=
  partitionCountLoop cfg cfg.lockPartitions cfg.lockPartitions

def effectiveMarkerEntries (cfg : Config) : ℕ :=
  if cfg.dirtyMarkerEntries = -1 then min 16384 (max 1024 (cfg.cacheEntries/4))
  else cfg.dirtyMarkerEntries.toNat

def effectiveMarkerMemoryMb (cfg : Config) : ℕ :=
  if cfg.dirtyMarkerMemoryMb = -1 then min 16 (max 1 (cfg.memoryBudgetMb/25))
  else cfg.dirtyMarkerMemoryMb.toNat

variable (z : Sizes) (cfg : Config)

def markerKeySlots : Sized ℕ := do
  let bytes ← mulSize (effectiveMarkerMemoryMb cfg) megabyte
  fit strict 32 (min (effectiveMarkerEntries cfg) (bytes/keyMax))

structure Shares where
  capacity : ℕ
  buckets : ℕ
  markerCapacity : ℕ
  markerBuckets : ℕ
  keySlots : ℕ
  deriving DecidableEq, Repr

def sharesOf (partitions slots partition : ℕ) : Sized Shares := do
  let capacity ← capacityOf strict cfg.cacheEntries partition partitions
  let buckets ← indexBucketsFor strict capacity
  let markerCapacity ← capacityOf strict (effectiveMarkerEntries cfg) partition partitions
  let markerBuckets ← indexBucketsFor strict markerCapacity
  let keySlots ← capacityOf strict slots partition partitions
  return ⟨capacity,buckets,markerCapacity,markerBuckets,keySlots⟩

/-- What the sizing loop appends for one partition: a count and the size of one element. -/
def sizedParts (z : Sizes) (s : Shares) : List (ℕ × ℕ) :=
  [(s.capacity,z.cacheEntry),(s.buckets,uint32Bytes),(s.buckets,uint32Bytes),
    (s.markerCapacity,z.dirtyMarker),(s.markerBuckets,uint32Bytes),(s.markerBuckets,uint32Bytes),
    (s.keySlots,keyMax),(s.keySlots,uint32Bytes)]

def appendParts : ℕ → List (ℕ × ℕ) → Sized ℕ
  | offset, [] => return offset
  | offset, (count,size)::parts => do
    let bytes ← mulSize count size
    let (_,next) ← alignAppend strict offset bytes
    appendParts next parts

def fixedLoop (partitions slots : ℕ) :
    ℕ → ℕ → ℕ → Sized ℕ
  | _, 0, offset => return offset
  | partition, n+1, offset => do
    let s ← sharesOf strict cfg partitions slots partition
    let next ← appendParts strict offset (sizedParts z s)
    fixedLoop partitions slots (partition+1) n next

def storageFixedBytes : Sized ℕ := do
  let partitions ← cachePartitionCount cfg
  let slots ← markerKeySlots strict cfg
  let offset ← fixedLoop strict z cfg partitions slots 0 partitions 0
  let reserve ← maxAlign strict 64
  addSize offset reserve

def commonMemoryBytes : Sized ℕ := do
  let shared ← maxAlign strict z.sharedState
  let partitions ← cachePartitionCount cfg
  let hashed ← z.hashEstimateSize cfg.relationStates
  let size ← addSize shared hashed
  let slots ← mulSize cfg.relationStates z.relationSlot
  let size ← addSize size slots
  let lockCount ← fit strict 64 (partitions+1)
  let locks ← mulSize lockCount z.lwlockPadded
  addSize size locks

def workerMemoryBytesPerWorker : Sized ℕ :=
  if cfg.port = 0 then return 0
  else do
    let clients ← mulSize cfg.maxClientsPerWorker z.client
    let missBytes ← maxAlign strict z.deferredMiss
    let misses ← mulSize cfg.maxDeferredMisses missBytes
    let bytes ← addSize clients misses
    let polled ← fit strict 64 (cfg.maxClientsPerWorker+1)
    let pollBytes ← mulSize polled z.pollfd
    let bytes ← addSize bytes pollBytes
    let indexBytes ← mulSize polled uint32Bytes
    let bytes ← addSize bytes indexBytes
    let attributes ← mulSize maxTupleAttributes z.formAttribute
    let descriptor ← addSize z.tupleDescData attributes
    let mapped ← addSize z.mapping descriptor
    let mappings ← mulSize maxMappings mapped
    addSize bytes mappings

def workerMemoryBytes : Sized ℕ :=
  if cfg.port = 0 then return 0
  else do
    let totalSlots ← mulSize cfg.workers cfg.maxClientsPerWorker
    let each ← workerMemoryBytesPerWorker strict z cfg
    let workerBytes ← mulSize cfg.workers each
    let buffer ← fit strict 64 (requestMax+outputBufferMax)
    let buffers ← mulSize (min cfg.maxClients totalSlots) buffer
    addSize workerBytes buffers

def storageBytes (pages : ℕ) : Sized ℕ := do
  let offset ← storageFixedBytes strict z cfg
  let partitions ← cachePartitionCount cfg
  let pageCount ← mulSize pages partitions
  let descriptorBytes ← mulSize pageCount arenaPageBytes
  let (_,offset) ← alignAppend strict offset descriptorBytes
  let arenaBytes ← mulSize pageCount pageSize
  let (_,offset) ← alignAppend strict offset arenaBytes
  return offset

def pagesLoop (nonCache budget : ℕ) : ℕ → Sized ℕ
  | 0 => return 0
  | pages+1 => do
    let storage ← storageBytes strict z cfg (pages+1)
    let total ← addSize nonCache storage
    if budget < total then pagesLoop nonCache budget pages else return pages+1

def arenaPagesPerPartition : Sized ℕ := do
  let budget ← mulSize cfg.memoryBudgetMb megabyte
  let common ← commonMemoryBytes strict z cfg
  let worker ← workerMemoryBytes strict z cfg
  let nonCache ← addSize common worker
  let descriptor ← maxAlign strict arenaPageBytes
  let perPage ← addSize pageSize descriptor
  let fixedCache ← storageFixedBytes strict z cfg
  let fixed ← addSize nonCache fixedCache
  if budget ≤ fixed then return 0
  else do
    let partitions ← cachePartitionCount cfg
    let divisor ← fit strict 64 (partitions*perPage)
    let pages ← fit strict 32 ((budget-fixed)/divisor)
    pagesLoop strict z cfg nonCache budget pages

def addinShmemBytes : Sized ℕ := do
  let shared ← maxAlign strict z.sharedState
  let hashed ← z.hashEstimateSize cfg.relationStates
  let slots ← mulSize cfg.relationStates z.relationSlot
  let pages ← arenaPagesPerPartition strict z cfg
  let storage ← storageBytes strict z cfg pages
  let size ← addSize slots storage
  let size ← addSize hashed size
  addSize shared size

def sharedMemoryBytes : Sized ℕ := do
  let addin ← addinShmemBytes strict z cfg
  let partitions ← cachePartitionCount cfg
  let lockCount ← fit strict 64 (partitions+1)
  let locks ← mulSize lockCount z.lwlockPadded
  addSize addin locks

def estimatedMemoryBytes : Sized ℕ := do
  let shared ← sharedMemoryBytes strict z cfg
  let worker ← workerMemoryBytes strict z cfg
  addSize shared worker

/-- A check that ends the server when its condition holds. -/
def reject (p : Prop) [Decidable p] (fault : Fault) : Sized Unit :=
  if p then .error fault else .ok ()

def checkClientSlots : Sized Unit :=
  if cfg.port = 0 then return ()
  else do
    let clientSlots ← fit strict 64 (cfg.workers*cfg.maxClientsPerWorker)
    reject (clientSlots < cfg.maxClients) .maxClients

def validateStartupLimits : Sized Unit := do
  checkClientSlots strict cfg
  reject (cfg.cacheEntries < 128 ∨ 16777216 < cfg.cacheEntries ∨
    effectiveMarkerEntries cfg < 128 ∨ effectiveMarkerMemoryMb cfg < 1) .capacityBounds
  reject (cfg.lockPartitions < 16 ∨ maxLockPartitions < cfg.lockPartitions ∨
    cfg.lockPartitions &&& (cfg.lockPartitions-1) ≠ 0) .lockPartitions
  let budget ← mulSize cfg.memoryBudgetMb megabyte
  let estimated ← estimatedMemoryBytes strict z cfg
  let pages ← arenaPagesPerPartition strict z cfg
  reject (budget < estimated ∨ pages = 0) .budget

/-! Carving. -/

def storageTake (offset bytes : ℕ) : Sized (Region × ℕ) := do
  let (start,next) ← alignAppend strict offset bytes
  return (⟨start,bytes⟩,next)

/-- What start-up takes for one partition: descriptors, buckets and scratch of the index, markers,
buckets and scratch of their index, marker keys and the free list of the keys. -/
def takenParts (z : Sizes) (s : Shares) : List (ℕ × ℕ) :=
  [(s.capacity,z.cacheEntry),(s.buckets,uint32Bytes),(s.buckets,uint32Bytes),
    (s.markerCapacity,z.dirtyMarker),(s.markerBuckets,uint32Bytes),(s.markerBuckets,uint32Bytes),
    (s.keySlots,keyMax),(s.keySlots,uint32Bytes)]

def takeParts : ℕ → List (ℕ × ℕ) → Sized (List Region × ℕ)
  | offset, [] => return ([],offset)
  | offset, (count,size)::parts => do
    let bytes ← mulSize count size
    let (region,next) ← storageTake strict offset bytes
    let (regions,last) ← takeParts next parts
    return (region::regions,last)

def carveLoop (partitions slots : ℕ) :
    ℕ → ℕ → ℕ → Sized (List (Shares × List Region) × ℕ)
  | _, 0, offset => return ([],offset)
  | partition, n+1, offset => do
    let s ← sharesOf strict cfg partitions slots partition
    let (regions,next) ← takeParts strict offset (takenParts z s)
    let (others,last) ← carveLoop partitions slots (partition+1) n next
    return ((s,regions)::others,last)

/-- The page descriptors and the pages of the partitions, from the first one on. -/
def arenaLoop (pages allPages allArena : ℕ) :
    ℕ → ℕ → Sized (List Region × List Region)
  | _, 0 => return ([],[])
  | partition, n+1 => do
    let skipped ← fit strict 64 (partition*pages)
    let descriptors ← fit strict 64 (skipped*arenaPageBytes)
    let memory ← fit strict 64 (skipped*pageSize)
    match arenaInit (fun _ => 0) pages with
    | none => .error .arenaLimit
    | some _ => do
      let (descriptorRegions,memoryRegions) ← arenaLoop pages allPages allArena
        (partition+1) n
      return (⟨allPages+descriptors,pages*arenaPageBytes⟩::descriptorRegions,
        ⟨allArena+memory,pages*pageSize⟩::memoryRegions)

structure Storage where
  pages : ℕ
  partitions : List (Shares × List Region)
  reserve : Region
  pageDescriptors : List Region
  arenaMemory : List Region
  finish : ℕ
  deriving DecidableEq, Repr

def shmemStartup : Sized Storage := do
  let partitions ← cachePartitionCount cfg
  let pages ← arenaPagesPerPartition strict z cfg
  let slots ← markerKeySlots strict cfg
  let (carved,offset) ← carveLoop strict z cfg partitions slots 0 partitions 0
  let reserveBytes ← maxAlign strict 64
  let (reserve,offset) ← storageTake strict offset reserveBytes
  let pageCount ← mulSize pages partitions
  let descriptorBytes ← mulSize pageCount arenaPageBytes
  let (allPages,offset) ← storageTake strict offset descriptorBytes
  let arenaBytes ← mulSize pageCount pageSize
  let (allArena,offset) ← storageTake strict offset arenaBytes
  let (descriptors,memory) ← arenaLoop strict pages allPages.start allArena.start 0 partitions
  return ⟨pages,carved,reserve,descriptors,memory,offset⟩

end PgLocalCache.ShmemLayout
