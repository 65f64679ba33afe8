import PgLocalCache.EventLog
import PgLocalCache.PartitionModel

/-!
# The sections of a partition with the shared descriptor counter

All partitions share one atomic counter of descriptors. The functions of a
partition that change its entry count or touch that counter stand here once
more, each under its own name, with every access in its place. The counter's
answers are arguments, and a log keeps the accesses in order; without the log
each function is the one it repeats.
-/

namespace PgLocalCache.CountedSections

open ByteMemory CacheIndex CacheArena CacheState CacheEntries CacheMarkers CacheAdmission
open CacheOperations PartitionModel EventLog

variable (cfg : Settings) (m : Mapping)

/-- Accesses to the shared counter, and the changes of the partition's own count. -/
inductive Access where
  | add (granted : Bool)
  | undo
  | release
  | count
  | drop
  deriving DecidableEq, Repr

abbrev CountM := EStateM Fault (Logged Partition Access)

def reserveCacheEntry (granted : Bool) : CountM Bool := do
  emit (.add granted)
  if granted then return true
  else
    emit .undo
    return false

def releaseCacheEntry : CountM Unit := emit .release

def cacheEntryRemoveLocked (id : ℕ) : CountM Bool := do
  let P ← quiet get
  let e := P.entries id
  if id = 0 ∨ P.capacity < id then return false
  else if !e.inUse then return false
  else if !partitionIndexValid P false ∨ P.capacity < P.freeEntryHead ∨
      cacheEntryBlock P e = none then return false
  else
    let (removed,index,_) := indexRemove P.index (idCallbacks P) e.keyHash (removalQuery e id)
    quiet (set { P with index := index })
    if removed ≠ id then quiet (throw .descriptorMissing)
    else
      let (freed,arena) := arenaFree P.arena e.blockRef e.blockLen
      quiet (set { P with index := index, arena := arena })
      if !freed then quiet (throw .slabInconsistent)
      else
        quiet (set { P with
          index := index
          arena := arena
          entries := Function.update P.entries id (retiredEntry e P.freeEntryHead)
          freeEntryHead := id
          entryCount := P.entryCount-1 })
        emit .drop
        releaseCacheEntry
        if indexNeedsRebuild index then
          let _ ← quiet rebuildCacheIndex
          return true
        else return true

def removeVictims : List ℕ → ℕ → CountM ℕ
  | [], removed => return removed
  | id::ids, removed => do
    let gone ← cacheEntryRemoveLocked id
    removeVictims ids (if gone then removed+1 else removed)

def evictCacheEntries (required excluded : ℕ) (env : EvictEnv) : CountM ℕ := do
  let P ← quiet get
  let scanCount := min P.capacity evictionSample
  let start := P.evictionBucketCursor
  let st ← quiet (scanEntries cfg env required excluded start 0 scanCount ⟨[],[]⟩)
  quiet (modify (fun P => { P with
    evictionBucketCursor := if P.capacity = 0 then 0 else (start+scanCount)%P.capacity }))
  let room := evictionBatch-st.victims.length
  removeVictims (st.victims ++ (st.candidates.reverse.map (·.id)).take room) 0

def allocOrEvict (len excluded : ℕ) (env : ℕ → EvictEnv) :
    ℕ → ℕ → CountM (Option (ℕ × ℕ))
  | 0, _ => quiet (throw .loopBound)
  | n+1, i => do
    let P ← quiet get
    match arenaAlloc P.arena len with
    | (some block,arena) =>
      quiet (set { P with arena := arena })
      return some block
    | (none,arena) =>
      quiet (set { P with arena := arena })
      let removed ← evictCacheEntries cfg (arenaClassSize len) excluded (env i)
      if removed = 0 then return none else allocOrEvict len excluded env n (i+1)

def ensureDescriptor (ref len : ℕ) (env : EvictEnv) : CountM Bool := do
  let P ← quiet get
  if P.freeEntryHead ≠ 0 then return true
  else
    let removed ← evictCacheEntries cfg 0 0 env
    if removed = 0 then
      quiet (releaseUnindexed ref len)
      return false
    else return true

def reserveLoop (ref len : ℕ) (env : ℕ → EvictEnv) (grant : ℕ → Bool) :
    ℕ → ℕ → CountM Bool
  | 0, _ => quiet (throw .loopBound)
  | n+1, i => do
    let granted ← reserveCacheEntry (grant i)
    if granted then return true
    else
      let removed ← evictCacheEntries cfg 0 0 (env i)
      if removed = 0 then
        quiet (releaseUnindexed ref len)
        return false
      else reserveLoop ref len env grant n (i+1)

def installDescriptor (r : EntryRequest) (ref : ℕ) : CountM (Option ℕ) := do
  let P ← quiet get
  let id := P.freeEntryHead
  let e := P.entries id
  if id = 0 ∨ P.capacity < id ∨ e.inUse ∨ P.capacity < e.freeNext then
    quiet (dropBlock ref r.keyLen)
    releaseCacheEntry
    return none
  else
    quiet (set { P with
      freeEntryHead := e.freeNext
      entries := Function.update P.entries id (freshEntry r ref) })
    quiet (advanceVersion id)
    let P ← quiet get
    match arenaBlock P.arena ref with
    | none =>
      quiet (set { P with
        entries := Function.update P.entries id
          { P.entries id with inUse := false, freeNext := P.freeEntryHead }
        freeEntryHead := id
        entryCount := P.entryCount-1 })
      emit .drop
      releaseCacheEntry
      return none
    | some block =>
      quiet (set { P with
        arena := { P.arena with
          memory := write P.arena.memory block (r.key.take r.keyLen) }
        entryCount := P.entryCount+1 })
      emit .count
      return some id

def rejectDescriptor (ref len id : ℕ) : CountM Unit := do
  quiet (CacheAdmission.rejectDescriptor ref len id)
  emit .drop
  releaseCacheEntry

def admitBlock (r : EntryRequest) (env : AdmissionEnv) (ref : ℕ) :
    CountM (Option ℕ) := do
  let P ← quiet get
  let haveHead ← ensureDescriptor cfg ref r.keyLen env.headEvict
  if !haveHead then return none
  else
    let reserved ← reserveLoop cfg ref r.keyLen env.reserveEvict env.reserveGrant
      (P.capacity+1) 0
    if !reserved then return none
    else
      match ← installDescriptor r ref with
      | none => return none
      | some id =>
        let indexed ← quiet (indexDescriptor r id)
        if indexed then return some id
        else
          rejectDescriptor ref r.keyLen id
          return none

def admitEntry (r : EntryRequest) (env : AdmissionEnv) : CountM (Option ℕ) := do
  let ready ← quiet tidyIndex
  if !ready then return none
  else
    let P ← quiet get
    if cacheMarkerFind P (markerRequestOf r) ≠ 0 then return none
    else
      match ← allocOrEvict cfg r.keyLen 0 env.allocEvict (P.capacity+1) 0 with
      | none => return none
      | some (ref,_) => admitBlock cfg r env ref

def getCacheEntryInternal (r : EntryRequest) (cached create : Bool)
    (env : AdmissionEnv) : CountM (Option ℕ × ℕ) := do
  let P ← quiet get
  if !cached ∧ r.keyLen = keyMax then return (none,0)
  else
    let (found,corrupt) := lookupEntry P r
    if corrupt ≠ 0 ∨ found ≠ none ∨ !create then return (found,corrupt)
    else
      let made ← admitEntry cfg r env
      return (made,0)

def cacheLookupLocked (r : EntryRequest) (valueCapacity : ℕ)
    (create : Bool) (env : AdmissionEnv) (reads : LookupReads) : CountM LookupResult := do
  if cfg.relationStates ≤ m.relationSlot then return missResult blankToken true false 0
  else
    let (found,corrupt) ← getCacheEntryInternal cfg r false create env
    quiet (lookupFound cfg m valueCapacity reads found corrupt)

def growStore (id oldRef oldLen newBlockLen : ℕ) (args : StoreArgs)
    (reads : StoreReads) : CountM Bool := do
  let P ← quiet get
  match ← allocOrEvict cfg newBlockLen id reads.evict (P.capacity+1) 0 with
  | none => quiet (abandonStore id false)
  | some (newRef,newClass) =>
    quiet (growFill cfg m id oldRef oldLen newBlockLen args reads newRef newClass)

def storeInto (id : ℕ) (args : StoreArgs) (reads : StoreReads) :
    CountM Bool := do
  let P ← quiet get
  let e := P.entries id
  let oldClass := arenaBlockClass P.arena e.blockRef
  let valueLen := newValueLen args
  if 2^32-1-valueLen < e.keyLen ∨ 2^16-1-valueLen < e.keyLen then quiet (abandonStore id true)
  else
    let newBlockLen := e.keyLen+valueLen
    let requested := arenaClassSize newBlockLen
    if requested = 0 ∨ oldClass = 0 ∨ e.blockLen ≠ e.keyLen+e.valueLen ∨ oldClass < e.blockLen ∨
        newBlockLen < e.keyLen ∨ newBlockLen-e.keyLen < valueLen then quiet (abandonStore id true)
    else if oldClass < requested then
      growStore cfg m id e.blockRef e.blockLen newBlockLen args reads
    else quiet (resizeStore cfg m id newBlockLen args reads)

def cacheStoreLocked (r : EntryRequest) (args : StoreArgs)
    (reads : StoreReads) : CountM Bool := do
  let P ← quiet get
  match getCacheEntry P r with
  | none => return false
  | some id =>
    let e := P.entries id
    let (stable,before) := readFenceSnapshot cfg m (some e) reads.before
    if stable && matchesToken before args.token && mappingMatches m e && args.loadId != 0 &&
        ownsLease e args.token args.loadId then storeInto cfg m id args reads
    else return false

def cacheStore (r : EntryRequest) (args : StoreArgs)
    (configGeneration : ℕ) (reads : StoreReads) : CountM Bool :=
  if storeAllowed m args configGeneration then cacheStoreLocked cfg m r args reads
  else return false

def runOp (hash : KeyTuple → ℕ) : PartOp → CountM OpResult
  | .lookup m t valueCapacity create env reads => do
    return .looked (← cacheLookupLocked cfg m (requestOf hash t) valueCapacity create env reads)
  | .store m t args configGeneration reads => do
    return .stored (← cacheStore cfg m (requestOf hash t) args configGeneration reads)
  | .evict required excluded env => do
    let _ ← evictCacheEntries cfg required excluded env
    return .done
  | .remove id => do
    let _ ← cacheEntryRemoveLocked id
    return .done
  | op => quiet (PartitionModel.runOp cfg hash op)

section Erasure

theorem reserveCacheEntry_erases (granted : Bool) :
    Erases (reserveCacheEntry granted) (pure granted) := by
  cases granted with
  | true => exact erases_emit _ (erases_pure true)
  | false => exact erases_emit _ (erases_emit _ (erases_pure false))

theorem remove_erases (id : ℕ) :
    Erases (cacheEntryRemoveLocked id) (CacheEntries.cacheEntryRemoveLocked id) := by
  unfold cacheEntryRemoveLocked CacheEntries.cacheEntryRemoveLocked
  refine erases_then (fun P => ?_)
  refine erases_unless (fun _ => ?_)
  refine erases_unless (fun _ => ?_)
  refine erases_unless (fun _ => ?_)
  refine erases_then (fun _ => ?_)
  refine erases_ite (fun _ => erases_quiet _) (fun _ => ?_)
  refine erases_then (fun _ => ?_)
  refine erases_ite (fun _ => erases_quiet _) (fun _ => ?_)
  refine erases_then (fun _ => ?_)
  refine erases_emit _ (erases_emit _ ?_)
  refine erases_ite (fun _ => ?_) (fun _ => erases_pure _)
  exact erases_then (fun _ => erases_pure _)

theorem removeVictims_erases (ids : List ℕ) (n : ℕ) :
    Erases (removeVictims ids n) (CacheEntries.removeVictims ids n) := by
  induction ids generalizing n with
  | nil => exact erases_pure n
  | cons id ids ih => exact erases_bind (remove_erases id) (fun _ => ih _)

theorem evict_erases (required excluded : ℕ) (env : EvictEnv) :
    Erases (evictCacheEntries cfg required excluded env)
      (CacheEntries.evictCacheEntries cfg required excluded env) :=
  erases_then (fun _ => erases_then (fun _ =>
    erases_then (fun _ => removeVictims_erases _ _)))

theorem allocOrEvict_erases (len excluded : ℕ) (env : ℕ → EvictEnv) (n i : ℕ) :
    Erases (allocOrEvict cfg len excluded env n i)
      (CacheAdmission.allocOrEvict cfg len excluded env n i) := by
  induction n generalizing i with
  | zero => exact erases_quiet _
  | succ n ih =>
    unfold allocOrEvict CacheAdmission.allocOrEvict
    refine erases_then (fun P => ?_)
    rcases arenaAlloc P.arena len with ⟨_ | block,arena⟩
    · refine erases_then (fun _ => ?_)
      refine erases_bind (evict_erases _ _ _ _) (fun _ => ?_)
      exact erases_unless (fun _ => ih _)
    · exact erases_then (fun _ => erases_pure _)

theorem ensureDescriptor_erases (ref len : ℕ) (env : EvictEnv) :
    Erases (ensureDescriptor cfg ref len env)
      (CacheAdmission.ensureDescriptor cfg ref len env) := by
  refine erases_then (fun P => ?_)
  refine erases_unless (fun _ => erases_bind (evict_erases _ _ _ _)
    (fun _ => ?_))
  refine erases_ite (fun _ => ?_) (fun _ => erases_pure _)
  exact erases_then (fun _ => erases_pure _)

theorem reserveLoop_erases (ref len : ℕ) (env : ℕ → EvictEnv) (grant : ℕ → Bool)
    (n i : ℕ) : Erases (reserveLoop cfg ref len env grant n i)
      (CacheAdmission.reserveLoop cfg ref len env grant n i) := by
  induction n generalizing i with
  | zero => exact erases_quiet _
  | succ n ih =>
    change Erases _ (pure (grant i) >>= fun granted => if granted = true then pure true
      else CacheEntries.evictCacheEntries cfg 0 0 (env i) >>= fun removed =>
        if removed = 0 then releaseUnindexed ref len >>= fun _ => pure false
        else CacheAdmission.reserveLoop cfg ref len env grant n (i+1))
    refine erases_bind (reserveCacheEntry_erases (grant i)) (fun granted => ?_)
    refine erases_unless (fun _ => erases_bind (evict_erases _ _ _ _)
      (fun _ => ?_))
    refine erases_ite (fun _ => ?_) (fun _ => ih _)
    exact erases_then (fun _ => erases_pure _)

theorem installDescriptor_erases (r : EntryRequest) (ref : ℕ) :
    Erases (installDescriptor r ref) (CacheAdmission.installDescriptor r ref) := by
  unfold installDescriptor CacheAdmission.installDescriptor
  refine erases_then (fun P => ?_)
  refine erases_ite (fun _ => ?_) (fun _ => ?_)
  · exact erases_then (fun _ => erases_emit _ (erases_pure _))
  refine erases_then (fun _ => erases_then (fun _ => ?_))
  refine erases_then (fun P => ?_)
  cases arenaBlock P.arena ref with
  | none =>
    exact erases_then (fun _ => erases_emit _ (erases_emit _ (erases_pure _)))
  | some block => exact erases_then (fun _ => erases_emit _ (erases_pure _))

theorem rejectDescriptor_erases (ref len id : ℕ) :
    Erases (rejectDescriptor ref len id) (CacheAdmission.rejectDescriptor ref len id) := by
  have h := erases_bind (erases_quiet (κ := Access) (CacheAdmission.rejectDescriptor ref len id))
    (fun _ => erases_emit .drop (erases_access .release))
  rwa [bind_pure_unit] at h

theorem admitBlock_erases (r : EntryRequest) (env : AdmissionEnv) (ref : ℕ) :
    Erases (admitBlock cfg r env ref) (CacheAdmission.admitBlock cfg r env ref) := by
  refine erases_then (fun P => ?_)
  refine erases_bind (ensureDescriptor_erases _ _ _ _) (fun _ => ?_)
  refine erases_unless (fun _ => ?_)
  refine erases_bind (reserveLoop_erases _ _ _ _ _ _ _) (fun _ => ?_)
  refine erases_unless (fun _ => ?_)
  refine erases_bind (installDescriptor_erases _ _) (fun made => ?_)
  cases made with
  | none => exact erases_pure _
  | some id =>
    refine erases_then (fun _ => ?_)
    refine erases_unless (fun _ => ?_)
    exact erases_bind (rejectDescriptor_erases _ _ _) (fun _ => erases_pure _)

theorem admitEntry_erases (r : EntryRequest) (env : AdmissionEnv) :
    Erases (admitEntry cfg r env) (CacheAdmission.admitEntry cfg r env) := by
  refine erases_then (fun _ => ?_)
  refine erases_unless (fun _ => ?_)
  refine erases_then (fun P => ?_)
  refine erases_unless (fun _ => ?_)
  refine erases_bind (allocOrEvict_erases _ _ _ _ _ _) (fun block => ?_)
  rcases block with _ | ⟨ref,size⟩
  · exact erases_pure _
  · exact admitBlock_erases _ _ _ _

theorem getCacheEntryInternal_erases (r : EntryRequest) (cached create : Bool)
    (env : AdmissionEnv) : Erases (getCacheEntryInternal cfg r cached create env)
      (CacheAdmission.getCacheEntryInternal cfg r cached create env) := by
  refine erases_then (fun P => ?_)
  refine erases_unless (fun _ => ?_)
  refine erases_unless (fun _ => ?_)
  exact erases_bind (admitEntry_erases _ _ _) (fun _ => erases_pure _)

theorem cacheLookupLocked_erases (r : EntryRequest)
    (valueCapacity : ℕ) (create : Bool) (env : AdmissionEnv) (reads : LookupReads) :
    Erases (cacheLookupLocked cfg m r valueCapacity create env reads)
      (CacheOperations.cacheLookupLocked cfg m r valueCapacity create env reads) := by
  refine erases_unless (fun _ => ?_)
  exact erases_bind (getCacheEntryInternal_erases _ _ _ _ _) (fun ⟨found,corrupt⟩ =>
    erases_quiet (lookupFound cfg m valueCapacity reads found corrupt))

theorem growStore_erases (id oldRef oldLen newBlockLen : ℕ)
    (args : StoreArgs) (reads : StoreReads) :
    Erases (growStore cfg m id oldRef oldLen newBlockLen args reads)
      (CacheOperations.growStore cfg m id oldRef oldLen newBlockLen args reads) := by
  refine erases_then (fun P => ?_)
  refine erases_bind (allocOrEvict_erases _ _ _ _ _ _) (fun block => ?_)
  rcases block with _ | ⟨newRef,newClass⟩
  · exact erases_quiet _
  · exact erases_quiet (growFill cfg m id oldRef oldLen newBlockLen args reads newRef newClass)

theorem storeInto_erases (id : ℕ) (args : StoreArgs)
    (reads : StoreReads) :
    Erases (storeInto cfg m id args reads) (CacheOperations.storeInto cfg m id args reads) := by
  refine erases_then (fun P => ?_)
  refine erases_ite (fun _ => erases_quiet _) (fun _ => ?_)
  refine erases_ite (fun _ => erases_quiet _) (fun _ => ?_)
  exact erases_ite (fun _ => growStore_erases _ _ _ _ _ _ _ _) (fun _ => erases_quiet _)

theorem cacheStore_erases (r : EntryRequest) (args : StoreArgs)
    (configGeneration : ℕ) (reads : StoreReads) :
    Erases (cacheStore cfg m r args configGeneration reads)
      (PartitionModel.cacheStore cfg m r args configGeneration reads) := by
  refine erases_ite (fun _ => ?_) (fun _ => erases_pure _)
  refine erases_then (fun P => ?_)
  cases getCacheEntry P r with
  | none => exact erases_pure _
  | some id => exact erases_ite (fun _ => storeInto_erases _ _ _ _ _) (fun _ => erases_pure _)

/-- Without the counter every section is the one of the partition alone. -/
theorem runOp_erases (hash : KeyTuple → ℕ) (op : PartOp) :
    Erases (runOp cfg hash op) (PartitionModel.runOp cfg hash op) := by
  cases op with
  | lookup m t valueCapacity create env reads =>
    exact erases_bind (cacheLookupLocked_erases _ _ _ _ _ _ _) (fun _ => erases_pure _)
  | store m t args configGeneration reads =>
    exact erases_bind (cacheStore_erases _ _ _ _ _ _) (fun _ => erases_pure _)
  | evict required excluded env =>
    exact erases_bind (evict_erases _ _ _ _) (fun _ => erases_pure _)
  | remove id => exact erases_bind (remove_erases id) (fun _ => erases_pure _)
  | _ => exact erases_quiet _

end Erasure

end PgLocalCache.CountedSections
