import PgLocalCache.FreeChain

/-!
# The tombstone probing index of cache_index.c

Buckets hold entry ids, `empty` or `tombstone`. A probe starts at the low bits
of the hash and looks at no more than `maxProbes` buckets. The two callbacks of
the source receive the caller's context and may change it, so the context is
passed through every loop. The scratch buckets are the local table of a rebuild.
-/

namespace PgLocalCache.CacheIndex

def empty : ℕ := 0
def tombstone : ℕ := 2^32-1
def maxProbes : ℕ := 64

structure Index where
  buckets : ℕ → ℕ
  bucketCount : ℕ
  allocatedBucketCount : ℕ
  tombstones : ℕ
  probeRejections : ℕ

structure Callbacks (κ : Type) where
  entryHash : ℕ → κ → ℕ × κ
  entryMatches : ℕ → κ → Bool × κ

inductive InsertResult where
  | inserted
  | exists
  | probeLimit
  | corrupt
  deriving DecidableEq, Repr

def indexStart (ix : Index) (hash : ℕ) : ℕ := (hash % 2^32) &&& (ix.bucketCount-1)

def bucketAt (ix : Index) (hash probe : ℕ) : ℕ :=
  (indexStart ix hash+probe) &&& (ix.bucketCount-1)

def indexValid (ix : Index) (allocated : ℕ) : Bool :=
  allocated != 0 && (allocated &&& (allocated-1)) == 0 &&
    ix.allocatedBucketCount == allocated && ix.bucketCount == allocated

def dimensionsValid (ix : Index) : Bool := indexValid ix ix.allocatedBucketCount

def indexInit (bucketCount : ℕ) : Index where
  buckets := fun _ => empty
  bucketCount := bucketCount
  allocatedBucketCount := bucketCount
  tombstones := 0
  probeRejections := 0

variable {κ : Type}

def candidateHits (cb : Callbacks κ) (hash id : ℕ) (c : κ) : Bool × κ :=
  let (h,c) := cb.entryHash id c
  if h = hash then cb.entryMatches id c else (false,c)

/-- The common loop of find and remove: the bucket of the matching id. -/
def search (ix : Index) (cb : Callbacks κ) (hash : ℕ) :
    ℕ → ℕ → κ → Option ℕ × κ
  | _, 0, c => (none,c)
  | probe, n+1, c =>
    let bucket := bucketAt ix hash probe
    let id := ix.buckets bucket
    if id = empty then (none,c)
    else if id = tombstone then search ix cb hash (probe+1) n c
    else
      let (hit,c) := candidateHits cb hash id c
      if hit then (some bucket,c) else search ix cb hash (probe+1) n c

def indexFind (ix : Index) (cb : Callbacks κ) (hash : ℕ) (c : κ) : ℕ × κ :=
  if dimensionsValid ix then
    match search ix cb hash 0 maxProbes c with
    | (some bucket,c) => (ix.buckets bucket,c)
    | (none,c) => (empty,c)
  else (tombstone,c)

inductive Vacancy where
  | taken
  | bucket (b : ℕ) (reused : Bool)
  | none
  deriving DecidableEq, Repr

def fallbackVacancy : Option ℕ → Vacancy
  | some b => .bucket b true
  | none => .none

def vacancy (ix : Index) (cb : Callbacks κ) (hash : ℕ) :
    ℕ → ℕ → Option ℕ → κ → Vacancy × κ
  | _, 0, firstTombstone, c => (fallbackVacancy firstTombstone,c)
  | probe, n+1, firstTombstone, c =>
    let bucket := bucketAt ix hash probe
    let candidate := ix.buckets bucket
    if candidate = tombstone then
      vacancy ix cb hash (probe+1) n (firstTombstone.or (some bucket)) c
    else if candidate = empty then
      match firstTombstone with
      | some b => (.bucket b true,c)
      | none => (.bucket bucket false,c)
    else
      let (hit,c) := candidateHits cb hash candidate c
      if hit then (.taken,c) else vacancy ix cb hash (probe+1) n firstTombstone c

def putBucket (ix : Index) (b id : ℕ) (reused : Bool) : Index :=
  { ix with
    buckets := Function.update ix.buckets b id
    tombstones := if reused then ix.tombstones-1 else ix.tombstones }

def indexInsert (ix : Index) (cb : Callbacks κ) (hash id : ℕ) (c : κ) :
    InsertResult × Index × κ :=
  if dimensionsValid ix then
    match vacancy ix cb hash 0 maxProbes none c with
    | (.taken,c) => (.exists,ix,c)
    | (.bucket b reused,c) => (.inserted,putBucket ix b id reused,c)
    | (.none,c) => (.probeLimit,{ ix with probeRejections := ix.probeRejections+1 },c)
  else (.corrupt,ix,c)

def clearBucket (ix : Index) (b : ℕ) : Index :=
  { ix with
    buckets := Function.update ix.buckets b tombstone
    tombstones := ix.tombstones+1 }

def indexRemove (ix : Index) (cb : Callbacks κ) (hash : ℕ) (c : κ) : ℕ × Index × κ :=
  if dimensionsValid ix then
    match search ix cb hash 0 maxProbes c with
    | (some bucket,c) => (ix.buckets bucket,clearBucket ix bucket,c)
    | (none,c) => (empty,ix,c)
  else (tombstone,ix,c)

def placeScratch (ix : Index) (scratch : ℕ → ℕ) (hash id : ℕ) :
    ℕ → ℕ → Option (ℕ → ℕ)
  | _, 0 => none
  | probe, n+1 =>
    let bucket := bucketAt ix hash probe
    if scratch bucket = empty then some (Function.update scratch bucket id)
    else placeScratch ix scratch hash id (probe+1) n

def rebuildLoop (ix : Index) (cb : Callbacks κ) :
    ℕ → ℕ → (ℕ → ℕ) → κ → Option (ℕ → ℕ) × κ
  | _, 0, scratch, c => (some scratch,c)
  | bucket, n+1, scratch, c =>
    let id := ix.buckets bucket
    if id = empty ∨ id = tombstone then rebuildLoop ix cb (bucket+1) n scratch c
    else
      let (hash,c) := cb.entryHash id c
      match placeScratch ix scratch hash id 0 maxProbes with
      | some scratch => rebuildLoop ix cb (bucket+1) n scratch c
      | none => (none,c)

def indexRebuildExisting (ix : Index) (cb : Callbacks κ) (c : κ) : Bool × Index × κ :=
  if dimensionsValid ix then
    match rebuildLoop ix cb 0 ix.bucketCount (fun _ => empty) c with
    | (some scratch,c) => (true,{ ix with buckets := scratch, tombstones := 0 },c)
    | (none,c) => (false,ix,c)
  else (false,ix,c)

def indexNeedsRebuild (ix : Index) : Bool :=
  if dimensionsValid ix then ix.tombstones > ix.bucketCount/8 else true

end PgLocalCache.CacheIndex
