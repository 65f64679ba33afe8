import PgLocalCache.CacheEntries

/-!
# Dirty markers of one partition

A marker fences a key that has no descriptor. Markers have their own free list,
probing index and key slots of `keyMax` bytes each.
-/

namespace PgLocalCache.CacheMarkers

open ByteMemory CacheIndex CacheState CacheEntries
open Function (update)

def setMarker (P : Partition) (id : ℕ) (m : DirtyMarker) : Partition :=
  { P with markers := update P.markers id m }

structure MarkerRequest where
  key : List UInt8
  keyLen : ℕ
  hash : ℕ
  relationSlot : ℕ
  relationSlotGeneration : ℕ
  relationIncarnation : ℕ
  deriving DecidableEq, Repr

structure MarkerQuery where
  request : MarkerRequest
  expectedId : ℕ
  corrupt : Bool
  deriving DecidableEq, Repr

def blankMarkerRequest : MarkerRequest := ⟨[],0,0,0,0,0⟩

def blankMarkerQuery : MarkerQuery := ⟨blankMarkerRequest,0,false⟩

def markerKeyOffset (P : Partition) (keySlot : ℕ) : Option ℕ :=
  if keySlot = 0 ∨ P.markerKeyCapacity < keySlot then none else some ((keySlot-1)*keyMax)

def markerHashById (P : Partition) (id : ℕ) (q : MarkerQuery) : ℕ × MarkerQuery :=
  if id = 0 ∨ P.markerCapacity < id ∨ !(P.markers id).inUse then (0,{ q with corrupt := true })
  else ((P.markers id).keyHash,q)

def markerMatchesQuery (P : Partition) (id : ℕ) (q : MarkerQuery) : Bool × MarkerQuery :=
  let m := P.markers id
  let r := q.request
  if id = 0 ∨ P.markerCapacity < id ∨ !m.inUse then (false,{ q with corrupt := true })
  else if keyMax < m.keyLen ∨ keyMax < r.keyLen then (false,{ q with corrupt := true })
  else
    match markerKeyOffset P m.keySlot with
    | none => (false,{ q with corrupt := true })
    | some offset =>
      if m.keyHash ≠ r.hash ∨ m.relationSlot ≠ r.relationSlot ∨
          m.relationSlotGeneration ≠ r.relationSlotGeneration ∨ m.keyLen ≠ r.keyLen then (false,q)
      else (read P.markerKeyArena offset r.keyLen == r.key.take r.keyLen,q)

def markerMatchesId (P : Partition) (id : ℕ) (q : MarkerQuery) : Bool × MarkerQuery :=
  if id = 0 ∨ P.markerCapacity < id then (false,{ q with corrupt := true })
  else (id == q.expectedId,q)

def markerQueryCallbacks (P : Partition) : Callbacks MarkerQuery :=
  ⟨markerHashById P,markerMatchesQuery P⟩

def markerIdCallbacks (P : Partition) : Callbacks MarkerQuery :=
  ⟨markerHashById P,markerMatchesId P⟩

def rebuildMarkerIndex : CacheM Bool := do
  let P ← get
  if !partitionIndexValid P true then return false
  else
    let (ok,index,q) := indexRebuildExisting P.markerIndex (markerIdCallbacks P) blankMarkerQuery
    set { P with markerIndex := index }
    return ok && !q.corrupt

def cacheMarkerFind (P : Partition) (r : MarkerRequest) : ℕ :=
  if !partitionIndexValid P true then tombstone
  else
    let (id,q) := indexFind P.markerIndex (markerQueryCallbacks P) r.hash ⟨r,0,false⟩
    if q.corrupt then tombstone else id

def insertMarker (r : MarkerRequest) (id : ℕ) : CacheM InsertResult := do
  let P ← get
  let (result,index,_) := indexInsert P.markerIndex (markerIdCallbacks P) r.hash id ⟨r,id,false⟩
  set { P with markerIndex := index }
  return result

def retryMarker (r : MarkerRequest) (id : ℕ) : CacheM InsertResult := do
  let rebuilt ← rebuildMarkerIndex
  if rebuilt then insertMarker r id else return .probeLimit

def freshMarker (r : MarkerRequest) (keySlot generation : ℕ) : DirtyMarker where
  keyHash := r.hash
  relationSlotGeneration := r.relationSlotGeneration
  relationIncarnation := r.relationIncarnation
  generation := generation
  relationSlot := r.relationSlot
  writerCount := 1
  keySlot := keySlot
  keyLen := r.keyLen
  freeNext := 0
  inUse := true

def returnMarker (id keySlot : ℕ) : CacheM Unit :=
  modify (fun P => { P with
    markers := update P.markers id
      { P.markers id with inUse := false, freeNext := P.markerFreeHead }
    markerFreeHead := id
    markerKeyFreeNext := update P.markerKeyFreeNext keySlot P.markerKeyFreeHead
    markerKeyFreeHead := keySlot })

def settleMarker (r : MarkerRequest) (id : ℕ) (first : InsertResult) : CacheM InsertResult :=
  if first = .probeLimit then retryMarker r id else return first

def takeMarker (r : MarkerRequest) : CacheM (Option (ℕ × ℕ)) := do
  let P ← get
  let id := P.markerFreeHead
  let m := P.markers id
  let keySlot := P.markerKeyFreeHead
  if m.inUse ∨ P.markerCapacity < m.freeNext then return none
  else
    match markerKeyOffset P keySlot with
    | none => return none
    | some offset =>
      if P.markerKeyCapacity < P.markerKeyFreeNext keySlot then return none
      else
        let generation := P.markerGeneration+1
        set { P with
          markerFreeHead := m.freeNext
          markerKeyFreeHead := P.markerKeyFreeNext keySlot
          markerGeneration := generation
          markers := update P.markers id (freshMarker r keySlot generation)
          markerKeyArena := write P.markerKeyArena offset (r.key.take r.keyLen) }
        let first ← insertMarker r id
        let result ← settleMarker r id first
        if result ≠ .inserted then
          returnMarker id keySlot
          return none
        else
          modify (fun P => { P with markerCount := P.markerCount+1 })
          return some (id,generation)

def reserveCacheMarker (r : MarkerRequest) : CacheM (Option (ℕ × ℕ)) := do
  let P ← get
  if keyMax ≤ r.keyLen then return none
  else if !partitionIndexValid P true then return none
  else
    let (found,q) := indexFind P.markerIndex (markerQueryCallbacks P) r.hash ⟨r,0,false⟩
    if q.corrupt ∨ P.markerCapacity < found then return none
    else if found ≠ 0 then
      let m := P.markers found
      if m.writerCount = 2^32-1 then return none
      else
        set (setMarker P found { m with writerCount := m.writerCount+1 })
        return some (found,m.generation)
    else if P.markerFreeHead = 0 ∨ P.markerCapacity < P.markerFreeHead ∨
        P.markerKeyFreeHead = 0 ∨ P.markerKeyCapacity < P.markerKeyFreeHead ∨
        P.markerGeneration = 2^64-1 then return none
    else if indexNeedsRebuild P.markerIndex then
      let rebuilt ← rebuildMarkerIndex
      if rebuilt then takeMarker r else return none
    else takeMarker r

def releaseCacheMarker (id generation : ℕ) : CacheM Unit := do
  let P ← get
  let m := P.markers id
  if id = 0 ∨ P.markerCapacity < id then return ()
  else if !m.inUse ∨ m.generation ≠ generation ∨ m.writerCount = 0 ∨ m.keySlot = 0 ∨
      P.markerKeyCapacity < m.keySlot ∨ keyMax < m.keyLen ∨ !partitionIndexValid P true ∨
      P.markerCapacity < P.markerFreeHead ∨ P.markerKeyCapacity < P.markerKeyFreeHead then
    return ()
  else
    let m := { m with writerCount := m.writerCount-1 }
    set (setMarker P id m)
    if m.writerCount ≠ 0 then return ()
    else
      let P ← get
      let (removed,index,_) := indexRemove P.markerIndex (markerIdCallbacks P) m.keyHash
        { blankMarkerQuery with expectedId := id }
      set { P with markerIndex := index }
      if removed ≠ id then throw .markerMissing
      else
        set { P with
          markerIndex := index
          markers := update P.markers id
            { m with inUse := false, keyLen := 0, keySlot := 0, freeNext := P.markerFreeHead }
          markerFreeHead := id
          markerKeyFreeNext := update P.markerKeyFreeNext m.keySlot P.markerKeyFreeHead
          markerKeyFreeHead := m.keySlot
          markerCount := P.markerCount-1 }
        if indexNeedsRebuild index then
          let _ ← rebuildMarkerIndex
          return ()
        else return ()

end PgLocalCache.CacheMarkers
