import PgLocalCache.CacheMarkers

/-!
# Finding and creating descriptors: get_cache_entry_internal

Admission takes an arena block, a place in the shared descriptor counter, a free
descriptor and an index bucket in turn, evicting on the way, and gives back what
it holds at each of its failure exits.
-/

namespace PgLocalCache.CacheAdmission

open ByteMemory CacheIndex CacheArena CacheState CacheEntries CacheMarkers

structure AdmissionEnv where
  allocEvict : ℕ → EvictEnv
  headEvict : EvictEnv
  reserveEvict : ℕ → EvictEnv
  reserveGrant : ℕ → Bool

def lookupEntry (P : Partition) (r : EntryRequest) : Option ℕ × ℕ :=
  if !partitionIndexValid P false then (none,tombstone)
  else
    let (id,q) := indexFind P.index (queryCallbacks P) r.hash ⟨r,0,0,false⟩
    if q.corrupt ∨ P.capacity < id then
      (none,if q.corruptEntryId ≠ 0 then q.corruptEntryId else tombstone)
    else if id = 0 then (none,0) else (some id,0)

/-- The retry loop around an allocation, for admission and for a growing store. -/
def allocOrEvict (cfg : Settings) (len excluded : ℕ) (env : ℕ → EvictEnv) :
    ℕ → ℕ → CacheM (Option (ℕ × ℕ))
  | 0, _ => throw .loopBound
  | n+1, i => do
    let P ← get
    match arenaAlloc P.arena len with
    | (some block,arena) =>
      set { P with arena := arena }
      return some block
    | (none,arena) =>
      set { P with arena := arena }
      let removed ← evictCacheEntries cfg (arenaClassSize len) excluded (env i)
      if removed = 0 then return none else allocOrEvict cfg len excluded env n (i+1)

def releaseUnindexed (ref len : ℕ) : CacheM Unit := do
  let P ← get
  let (freed,arena) := arenaFree P.arena ref len
  set { P with arena := arena }
  if freed then return () else throw .unindexedKeyBlock

def ensureDescriptor (cfg : Settings) (ref len : ℕ) (env : EvictEnv) : CacheM Bool := do
  let P ← get
  if P.freeEntryHead ≠ 0 then return true
  else
    let removed ← evictCacheEntries cfg 0 0 env
    if removed = 0 then
      releaseUnindexed ref len
      return false
    else return true

def reserveLoop (cfg : Settings) (ref len : ℕ) (env : ℕ → EvictEnv) (grant : ℕ → Bool) :
    ℕ → ℕ → CacheM Bool
  | 0, _ => throw .loopBound
  | n+1, i =>
    if grant i then return true
    else do
      let removed ← evictCacheEntries cfg 0 0 (env i)
      if removed = 0 then
        releaseUnindexed ref len
        return false
      else reserveLoop cfg ref len env grant n (i+1)

def freshEntry (r : EntryRequest) (ref : ℕ) : CacheEntry :=
  { blankEntry with
    inUse := true
    keyHash := r.hash
    databaseOid := r.databaseOid
    blockRef := ref
    keyLen := r.keyLen
    blockLen := r.keyLen
    relationOid := r.relationOid
    relationSlot := r.relationSlot
    slotGeneration := r.slotGeneration }

def dropBlock (ref len : ℕ) : CacheM Unit :=
  modify (fun P => { P with arena := (arenaFree P.arena ref len).2 })

def installDescriptor (r : EntryRequest) (ref : ℕ) : CacheM (Option ℕ) := do
  let P ← get
  let id := P.freeEntryHead
  let e := P.entries id
  if id = 0 ∨ P.capacity < id ∨ e.inUse ∨ P.capacity < e.freeNext then
    dropBlock ref r.keyLen
    return none
  else
    set { P with
      freeEntryHead := e.freeNext
      entries := Function.update P.entries id (freshEntry r ref) }
    advanceVersion id
    let P ← get
    match arenaBlock P.arena ref with
    | none =>
      set { P with
        entries := Function.update P.entries id
          { P.entries id with inUse := false, freeNext := P.freeEntryHead }
        freeEntryHead := id
        entryCount := P.entryCount-1 }
      return none
    | some block =>
      set { P with
        arena := { P.arena with
          memory := write P.arena.memory block (r.key.take r.keyLen) }
        entryCount := P.entryCount+1 }
      return some id

def insertDescriptor (r : EntryRequest) (id : ℕ) (q : EntryQuery) :
    CacheM (InsertResult × EntryQuery) := do
  let P ← get
  let (result,index,q) := indexInsert P.index (queryCallbacks P) r.hash id q
  set { P with index := index }
  return (result,q)

def rebuildThenInsert (r : EntryRequest) (id : ℕ) (q : EntryQuery) (otherwise : InsertResult) :
    CacheM (InsertResult × EntryQuery) := do
  let rebuilt ← rebuildCacheIndex
  if rebuilt then insertDescriptor r id q else return (otherwise,q)

def firstInsert (r : EntryRequest) (id : ℕ) (q : EntryQuery) :
    CacheM (InsertResult × EntryQuery) := do
  let P ← get
  if indexNeedsRebuild P.index then rebuildThenInsert r id q .probeLimit
  else insertDescriptor r id q

def retryInsert (r : EntryRequest) (id : ℕ) (first : InsertResult × EntryQuery) :
    CacheM (InsertResult × EntryQuery) :=
  if first.1 = .probeLimit then rebuildThenInsert r id first.2 first.1 else return first

def indexDescriptor (r : EntryRequest) (id : ℕ) : CacheM Bool := do
  let first ← firstInsert r id ⟨r,id,0,false⟩
  let (result,q) ← retryInsert r id first
  return result == .inserted && !q.corrupt

def rejectDescriptor (ref len id : ℕ) : CacheM Unit := do
  let P ← get
  let (freed,arena) := arenaFree P.arena ref len
  set { P with arena := arena }
  if !freed then throw .rejectedKeyBlock
  else
    modify (fun P => { P with
      entries := Function.update P.entries id { P.entries id with
        inUse := false
        keyLen := 0
        blockLen := 0
        blockRef := noBlock
        freeNext := P.freeEntryHead }
      freeEntryHead := id
      entryCount := P.entryCount-1 })

def markerRequestOf (r : EntryRequest) : MarkerRequest :=
  ⟨r.key,r.keyLen,r.hash,r.relationSlot,r.slotGeneration,0⟩

def admitBlock (cfg : Settings) (r : EntryRequest) (env : AdmissionEnv) (ref : ℕ) :
    CacheM (Option ℕ) := do
  let P ← get
  let haveHead ← ensureDescriptor cfg ref r.keyLen env.headEvict
  if !haveHead then return none
  else
    let reserved ← reserveLoop cfg ref r.keyLen env.reserveEvict env.reserveGrant
      (P.capacity+1) 0
    if !reserved then return none
    else
      match ← installDescriptor r ref with
      | none => return none
      | some id =>
        let indexed ← indexDescriptor r id
        if indexed then return some id
        else
          rejectDescriptor ref r.keyLen id
          return none

def tidyIndex : CacheM Bool := do
  let P ← get
  if indexNeedsRebuild P.index then rebuildCacheIndex else return true

def admitEntry (cfg : Settings) (r : EntryRequest) (env : AdmissionEnv) : CacheM (Option ℕ) := do
  let ready ← tidyIndex
  if !ready then return none
  else
    let P ← get
    if cacheMarkerFind P (markerRequestOf r) ≠ 0 then return none
    else
      match ← allocOrEvict cfg r.keyLen 0 env.allocEvict (P.capacity+1) 0 with
      | none => return none
      | some (ref,_) => admitBlock cfg r env ref

/-- With `cached` the caller supplies the key length and hash and no length is refused. -/
def getCacheEntryInternal (cfg : Settings) (r : EntryRequest) (cached create : Bool)
    (env : AdmissionEnv) : CacheM (Option ℕ × ℕ) := do
  let P ← get
  if !cached ∧ r.keyLen = keyMax then return (none,0)
  else
    let (found,corrupt) := lookupEntry P r
    if corrupt ≠ 0 ∨ found ≠ none ∨ !create then return (found,corrupt)
    else
      let made ← admitEntry cfg r env
      return (made,0)

def getCacheEntry (P : Partition) (r : EntryRequest) : Option ℕ :=
  if r.keyLen = keyMax then none else (lookupEntry P r).1

def getCacheEntryWithCachedHash (P : Partition) (r : EntryRequest) : Option ℕ := (lookupEntry P r).1

end PgLocalCache.CacheAdmission
