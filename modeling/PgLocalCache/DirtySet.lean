import PgLocalCache.KeyCodec
import PgLocalCache.SortedRuns

/-!
# The dirty records of one transaction in pg_local_cache.c

A transaction collects what it writes as records of a backend-local hash table, and
keeps their addresses in a vector that is sorted by partition before the records are
reserved, published and finished. A record without a partition carries the largest
32-bit number instead. The hash of byte strings and `qsort` belong to the server and
are parameters; a string ends at its first zero byte, which is not part of it.
-/

namespace PgLocalCache.DirtySet

open PrefixCode CacheState KeyCodec SortedRuns

def uint32Max : ℕ := 2^32-1
def initialVectorCapacity : ℕ := 64

inductive DirtyKind where
  | key
  | relation
  | global
  | forgetRelation
  deriving DecidableEq, Repr

def kindCode : DirtyKind → UInt8
  | .key => 1
  | .relation => 2
  | .global => 3
  | .forgetRelation => 4

structure DirtyKey where
  kind : DirtyKind
  databaseOid : ℕ
  relationOid : ℕ
  nspace : Bytes
  key : Bytes
  deriving DecidableEq, Repr

structure Entry where
  key : DirtyKey
  cacheKeyHash : ℕ
  dirtyHash : ℕ
  partition : ℕ
  relationOid : ℕ
  sharedMarkerReserved : Bool
  sharedEntryReserved : Bool
  sharedRelationReserved : Bool
  sharedRelationFencePublished : Bool
  sharedIdentityPin : Bool
  sharedSlot : ℕ
  sharedSlotGeneration : ℕ
  sharedRelationIncarnation : ℕ
  targetRelationIncarnation : ℕ
  sharedMarkerId : ℕ
  sharedMarkerGeneration : ℕ
  deriving DecidableEq, Repr

/-- The sign of a comparison decides; `qsort` sorts whenever it is a total preorder. -/
structure Qsort where
  run : (ℕ → ℕ → ℤ) → List ℕ → List ℕ
  perm : ∀ compare l, (run compare l).Perm l
  sorted : ∀ compare l, (∀ a b, compare a b ≤ 0 ∨ compare b a ≤ 0) →
    (∀ a b c, compare a b ≤ 0 → compare b c ≤ 0 → compare a c ≤ 0) →
    (run compare l).Pairwise (fun a b => compare a b ≤ 0)

/-- What the transaction finds in its server. -/
structure Server where
  hashBytes : Bytes → ℕ → ℕ
  partitionLog : ℕ
  maxDirtyKeys : ℕ
  qsort : Qsort
  hashBytes_lt : ∀ bytes seed, hashBytes bytes seed < 2^64
  partitionLog_range : 4 ≤ partitionLog ∧ partitionLog ≤ 8

def Server.partitionCount (v : Server) : ℕ := 2^v.partitionLog

/-- An element of the hash table with its address. -/
abbrev Cell := ℕ × Entry

structure LocalDirty where
  table : List Cell
  nextAddress : ℕ
  count : ℕ
  keyCount : ℕ
  ordered : List ℕ
  capacity : ℕ
  orderedSorted : Bool
  hasGlobalRecord : Bool
  bumpConfig : Bool
  fallbacks : ℕ
  deriving DecidableEq, Repr

/-! The hash table. -/

def hashHeader (k : DirtyKey) : Bytes :=
  lowBytes 4 k.databaseOid++lowBytes 4 k.relationOid++lowBytes 2 k.nspace.length++
    lowBytes 2 k.key.length++[kindCode k.kind,0,0,0]

def localDirtyHashValue (v : Server) (k : DirtyKey) : ℕ :=
  let hash := v.hashBytes (hashHeader k) 0
  let hash := if 0 < k.nspace.length then v.hashBytes k.nspace hash else hash
  let hash := if 0 < k.key.length then v.hashBytes k.key hash else hash
  (hash ^^^ (hash >>> 32))%2^32

def keyMatches (l r : DirtyKey) : Bool :=
  l.kind == r.kind && l.databaseOid == r.databaseOid && l.relationOid == r.relationOid &&
    l.nspace.length == r.nspace.length && l.key.length == r.key.length &&
    l.nspace == r.nspace && l.key == r.key

/-- `HASH_FIND`: the stored hash value is compared before the key. -/
def hashFind (table : List Cell) (hash : ℕ) (k : DirtyKey) : Option Cell :=
  table.find? (fun c => c.2.dirtyHash == hash && keyMatches c.2.key k)

def entryAt (table : List Cell) (address : ℕ) : Option Entry :=
  (table.find? (fun c => c.1 == address)).map Prod.snd

/-! Collecting. -/

def makeLocalDirtyKey (kind : DirtyKind) (databaseOid relationOid : ℕ)
    (nspace key : Option Bytes) : DirtyKey where
  kind := kind
  databaseOid := databaseOid
  relationOid := relationOid
  nspace := (nspace.map (fun s => strlcpy s namespaceMax)).getD []
  key := (key.map (fun s => strlcpy s keyMax)).getD []

def growCapacity (required : ℕ) : ℕ → ℕ → ℕ
  | 0, capacity => capacity
  | n+1, capacity => if capacity < required then growCapacity required n (capacity*2) else capacity

def ensureVectorCapacity (required capacity : ℕ) : ℕ :=
  if required ≤ capacity then capacity
  else growCapacity required required (max capacity initialVectorCapacity)

def dirtyKeyLimitRequiresFallback (keyAlreadyCollected : Bool) (dirtyKeyCount maxDirtyKeys : ℕ) :
    Bool :=
  !keyAlreadyCollected && decide (maxDirtyKeys ≤ dirtyKeyCount)

def dirtyKeyCountAfterEntry (dirtyKeyCount : ℕ) (isKeyEntry : Bool) : ℕ :=
  dirtyKeyCount+(if isKeyEntry then 1 else 0)

def freshEntry (v : Server) (k : DirtyKey) : Entry :=
  let route := if k.kind = .key then
      routeOf v.hashBytes v.partitionCount (lowBytes 4 k.databaseOid) k.nspace k.key k.key.length
    else ⟨0,uint32Max⟩
  { key := k
    cacheKeyHash := route.keyHash
    dirtyHash := localDirtyHashValue v k
    partition := route.partition
    relationOid := k.relationOid
    sharedMarkerReserved := false
    sharedEntryReserved := false
    sharedRelationReserved := false
    sharedRelationFencePublished := false
    sharedIdentityPin := false
    sharedSlot := uint32Max
    sharedSlotGeneration := 0
    sharedRelationIncarnation := 0
    targetRelationIncarnation := 0
    sharedMarkerId := 0
    sharedMarkerGeneration := 0 }

def enterRecord (v : Server) (k : DirtyKey) (s : LocalDirty) : LocalDirty :=
  match hashFind s.table (localDirtyHashValue v k) k with
  | some _ => s
  | none =>
    { s with
      table := s.table++[(s.nextAddress,freshEntry v k)]
      nextAddress := s.nextAddress+1
      count := s.count+1
      ordered := s.ordered++[s.nextAddress]
      orderedSorted := false
      keyCount := dirtyKeyCountAfterEntry s.keyCount (k.kind == .key)
      hasGlobalRecord := s.hasGlobalRecord || k.kind == .global }

def collectDirty (v : Server) (kind : DirtyKind) (databaseOid relationOid : ℕ)
    (nspace key : Option Bytes) (s : LocalDirty) : LocalDirty :=
  let k := makeLocalDirtyKey kind databaseOid relationOid nspace key
  enterRecord v k { s with capacity := ensureVectorCapacity (s.count+1) s.capacity }

def collectRelation (v : Server) (databaseOid relationOid : ℕ) (nspace : Bytes) :
    LocalDirty → LocalDirty :=
  collectDirty v .relation databaseOid relationOid (some nspace) none

def collectForgetRelation (v : Server) (databaseOid relationOid : ℕ) (nspace : Bytes) :
    LocalDirty → LocalDirty :=
  collectDirty v .forgetRelation databaseOid relationOid (some nspace) none

def collectGlobal (v : Server) (databaseOid : ℕ) (bump : Bool) (s : LocalDirty) : LocalDirty :=
  let s' := collectDirty v .global databaseOid 0 none none s
  if bump then { s' with bumpConfig := true } else s'

def holds (v : Server) (s : LocalDirty) (k : DirtyKey) : Bool :=
  (hashFind s.table (localDirtyHashValue v k) k).isSome

def collectKey (v : Server) (databaseOid relationOid : ℕ) (nspace key : Bytes) (s : LocalDirty) :
    LocalDirty :=
  if holds v s (makeLocalDirtyKey .relation databaseOid relationOid (some nspace) none) then s
  else if holds v s (makeLocalDirtyKey .forgetRelation databaseOid relationOid (some nspace) none)
  then s
  else
    let keyAlreadyCollected :=
      holds v s (makeLocalDirtyKey .key databaseOid relationOid (some nspace) (some key))
    if dirtyKeyLimitRequiresFallback keyAlreadyCollected s.keyCount v.maxDirtyKeys then
      collectRelation v databaseOid relationOid nspace { s with fallbacks := s.fallbacks+1 }
    else if keyAlreadyCollected then s
    else collectDirty v .key databaseOid relationOid (some nspace) (some key) s

/-! Ordering. -/

def partitionAt (table : List Cell) (address : ℕ) : ℕ :=
  ((entryAt table address).map Entry.partition).getD uint32Max

def compareLocalDirtyPartitions (table : List Cell) (left right : ℕ) : ℤ :=
  let lp := partitionAt table left
  let rp := partitionAt table right
  if lp < rp then -1 else if rp < lp then 1 else 0

def orderedLocalDirtyEntries (v : Server) (s : LocalDirty) : LocalDirty :=
  if s.orderedSorted then s
  else { s with
    ordered := v.qsort.run (compareLocalDirtyPartitions s.table) s.ordered
    orderedSorted := true }

/-! The three loops over the ordered vector; what they do for one record is a parameter. -/

variable {σ : Type}

/-- `reserve_key_entries`: a reservation that fails ends the loop. -/
def reserveKeyEntries (s : LocalDirty) (reserve : ℕ → σ → Bool × σ) (x : σ) : Sweep σ ℕ ℕ :=
  sweep (partitionAt s.table) uint32Max reserve s.ordered.length s.ordered x

/-- The loop of `pglc_publish_dirty` over the reserved entries. -/
def publishKeyEntries (s : LocalDirty) (publish : ℕ → σ → σ) (x : σ) : Sweep σ ℕ ℕ :=
  sweep (partitionAt s.table) uint32Max (fun a x => (true,publish a x)) s.ordered.length s.ordered x

/-- The loop of `pglc_finish_dirty` that gives the reservations back. -/
def finishKeyEntries (s : LocalDirty) (finish : ℕ → σ → σ) (x : σ) : Sweep σ ℕ ℕ :=
  sweep (partitionAt s.table) uint32Max (fun a x => (true,finish a x)) s.ordered.length s.ordered x

/-! Runs. -/

/-- `HASH_REMOVE` -/
def hashRemove (table : List Cell) (hash : ℕ) (k : DirtyKey) : Option (List Cell) :=
  if (hashFind table hash k).isSome then
    some (table.eraseP (fun c => c.2.dirtyHash == hash && keyMatches c.2.key k))
  else none

/-- The loop of `reset_local_dirty`; a record that is not found is an error. -/
def resetLoop : List ℕ → List Cell → Option (List Cell)
  | [], table => some table
  | address::rest, table => do
    let found ← entryAt table address
    let table ← hashRemove table found.dirtyHash found.key
    resetLoop rest table

/-- A backend between two transactions: the vector keeps its memory. -/
def betweenTransactions (table : List Cell) (nextAddress capacity fallbacks : ℕ) : LocalDirty where
  table := table
  nextAddress := nextAddress
  count := 0
  keyCount := 0
  ordered := []
  capacity := capacity
  orderedSorted := true
  hasGlobalRecord := false
  bumpConfig := false
  fallbacks := fallbacks

def resetLocalDirty (s : LocalDirty) : Option LocalDirty := do
  let table ← if 0 < s.count then resetLoop s.ordered s.table else some s.table
  return betweenTransactions table s.nextAddress s.capacity s.fallbacks

inductive Call where
  | key (databaseOid relationOid : ℕ) (nspace key : Bytes)
  | relation (databaseOid relationOid : ℕ) (nspace : Bytes)
  | forget (databaseOid relationOid : ℕ) (nspace : Bytes)
  | global (databaseOid : ℕ) (bump : Bool)
  | order
  deriving DecidableEq, Repr

def perform (v : Server) : Call → LocalDirty → LocalDirty
  | .key db rel nspace key, s => collectKey v db rel nspace key s
  | .relation db rel nspace, s => collectRelation v db rel nspace s
  | .forget db rel nspace, s => collectForgetRelation v db rel nspace s
  | .global db bump, s => collectGlobal v db bump s
  | .order, s => orderedLocalDirtyEntries v s

def performAll (v : Server) (calls : List Call) (s : LocalDirty) : LocalDirty :=
  calls.foldl (fun s call => perform v call s) s

end PgLocalCache.DirtySet
