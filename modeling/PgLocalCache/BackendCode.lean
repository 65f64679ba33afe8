import PgLocalCache.SharedWorld

/-!
# Programs of the backends

The functions of pg_local_cache.c that read or write the fence counters, the relation
slots and the registry, as programs over the shared state. Every access to a counter
is an action of its own. What is done to one key inside a partition lock is one
action. Branches that report an exhausted counter wait for ever; failed assertions and
branches that report an internal inconsistency stop the backend, and that they are
never taken is not shown.
-/

namespace PgLocalCache.BackendCode

open CacheState CacheEntries CacheMarkers CacheOperations CacheAdmission PartitionModel KeyCodec
open DirtySet Interleaving SharedWorld

variable {α : Type} (env : Env)

def exhausted : Act α := fun _ => .act (fun _ _ => none)

/-! Relation states. -/

def makeRelationKey (databaseOid : ℕ) (nspace : Bytes) : RelationKey :=
  ⟨databaseOid,strlcpy nspace namespaceMax⟩

def advanceGeneration (i : ℕ) : Act ℕ := atomic (fun s l => checked (s.slots i).generation
  ((s.slots i).generation,setSlot s i (fun x => { x with generation := x.generation+1 }),l))

def advanceIncarnationCounter : Act ℕ := atomic (fun s l => checked s.relationIncarnationCounter
  (s.relationIncarnationCounter,
    { s with relationIncarnationCounter := s.relationIncarnationCounter+1 },l))

def raiseIncarnation (i amount : ℕ) : Act Unit :=
  registry (fun s => ((),setSlot s i (fun x => { x with incarnation := x.incarnation+amount })))

def renewIncarnation (i : ℕ) : Act ℕ := do
  let incarnation ← advanceIncarnationCounter
  let previous ← readSlot i RelationSlot.incarnation
  if incarnation+1 ≤ previous then faulty
  else do
    raiseIncarnation i (incarnation+1-previous)
    pure (incarnation+1)

def poisonSlot (i : ℕ) : Act Bool := do
  setInUse i true
  pure false

def subVersion (i version : ℕ) : Act Unit := do
  let reset ← registry (fun s =>
    if (s.slots i).version < version then (false,s)
    else (true,setSlot s i (fun x => { x with version := x.version-version })))
  if reset then pure () else faulty

def occupySlot (i : ℕ) (reuse : Bool) : Act Unit := if reuse then pure () else setInUse i true

def resetVersion (i version : ℕ) : Act Unit := if version ≠ 0 then subVersion i version else pure ()

def settleSlot (key : RelationKey) (i generation : ℕ) : Act Bool := do
  let version ← readSlot i RelationSlot.version
  let dirtyWriters ← readSlot i RelationSlot.dirtyWriters
  if dirtyWriters ≠ 0 then poisonSlot i
  else do
    resetVersion i version
    updateState key (fun st => { st with slot := i, slotGeneration := generation })
    pure true

def chooseSlot (st : RelationState) (reuse : Bool) : Act (Option ℕ) :=
  if reuse then pure (some st.slot) else findFreeSlot env

def initializeRelationSlot (st : RelationState) (reuse : Bool) : Act Bool := do
  let index ← chooseSlot env st reuse
  match index with
  | none => pure false
  | some i => do
    let previous ← advanceGeneration i
    let incarnation ← renewIncarnation i
    occupySlot i reuse
    if previous+1 = 0 ∨ incarnation = 0 then poisonSlot i
    else settleSlot st.key i (previous+1)

def releaseRelationSlot (st : RelationState) : Act Unit :=
  if st.slot < env.relationStates then do
    let previous ← advanceGeneration st.slot
    setInUse st.slot (previous == uint64Max)
  else pure ()

def blankState (key : RelationKey) (relationOid : ℕ) : RelationState :=
  ⟨key,relationOid,0,0,0,false⟩

/-- A new state is refused when the registry is full or the hash table has no memory. -/
def createState (key : RelationKey) (relationOid : ℕ) : Act (Option RelationState) := do
  let entries ← countStates
  if env.relationStates ≤ entries then pure none
  else do
    let memory ← either
    if !memory then pure none
    else do
      enterState (blankState key relationOid)
      let ok ← initializeRelationSlot env (blankState key relationOid) false
      if ok then findState key
      else do
        removeState key
        pure none

/-- A forgotten state is replaced once nobody holds it. -/
def replaceForgotten (st : RelationState) (relationOid : ℕ) : Act (Option RelationState) :=
  if st.identityPins ≠ 0 then pure none
  else do
    let dirtyWriters ← readSlot st.slot RelationSlot.dirtyWriters
    if dirtyWriters ≠ 0 then pure none
    else do
      releaseRelationSlot env st
      removeState st.key
      createState env st.key relationOid

/-- The state of another relation is taken over in its slot. -/
def takeOverState (st : RelationState) (relationOid : ℕ) : Act (Option RelationState) :=
  if st.identityPins ≠ 0 then pure none
  else do
    let ok ← initializeRelationSlot env st true
    if ok then do
      updateState st.key (fun x => { x with relationOid := relationOid, pendingForget := false })
      findState st.key
    else pure none

def getRelationState (databaseOid relationOid : ℕ) (nspace : Bytes) (create : Bool) :
    Act (Option RelationState) := do
  let key := makeRelationKey databaseOid nspace
  let found ← findState key
  match found with
  | none => if create then createState env key relationOid else pure none
  | some st =>
    if create && st.pendingForget then replaceForgotten env st relationOid
    else if create && relationOid ≠ 0 && st.relationOid ≠ relationOid then
      takeOverState env st relationOid
    else pure (some st)

def handOut (st : RelationState) : Act Unit :=
  registry (fun s => ((),{ s with handed := handedOf st::s.handed }))

def offerSlot (databaseOid relationOid : ℕ) (nspace : Bytes) : Act Unit := do
  let state ← getRelationState env databaseOid relationOid nspace true
  match state with
  | none => pure ()
  | some st => if st.relationOid = relationOid ∧ !st.pendingForget then handOut st else pure ()

/-- The slot and generation that a mapping receives. -/
def resolveMappingSlot (databaseOid relationOid : ℕ) (nspace : Bytes) : Act Unit := do
  lockRegistry
  offerSlot env databaseOid relationOid nspace
  unlockRegistry

/-! Relation handles of dirty records. -/

def withRecord (address : ℕ) (f : Entry → Act α) : Act α := do
  let found ← readLocal (fun l => entryAt l.dirty.table address)
  match found with
  | none => faulty
  | some e => f e

def recordState (e : Entry) : Act (Option RelationState) :=
  findState (makeRelationKey e.key.databaseOid e.key.nspace)

def handleMatches (st : RelationState) (e : Entry) : Bool :=
  decide (e.sharedSlot < env.relationStates) && st.slot == e.sharedSlot &&
    st.slotGeneration == e.sharedSlotGeneration

def reserveRelationHandleLocked (address : ℕ) : Act Bool :=
  withRecord address fun e => do
    let found ← recordState e
    match found with
    | none => pure false
    | some st =>
      if !handleMatches env st e || st.pendingForget || st.identityPins == 0 then pure false
      else do
        let generation ← readSlot st.slot RelationSlot.generation
        if generation ≠ e.sharedSlotGeneration then pure false
        else do
          let incarnation ← readSlot st.slot RelationSlot.incarnation
          if incarnation ≠ e.sharedRelationIncarnation then pure false
          else do
            modifyLocal (setEntryAt address (fun e => { e with sharedRelationReserved := true }))
            pure true

def forgetState (st : RelationState) : RelationState := { st with pendingForget := true }

/-- A committed forget record retires the state it was resolved to. -/
def retireForgotten (address : ℕ) : Act Unit :=
  withRecord address fun e =>
    if e.key.kind ≠ .forgetRelation then pure ()
    else do
      let found ← recordState e
      match found with
      | none => pure ()
      | some st =>
        if st.slot = e.sharedSlot ∧ st.slotGeneration = e.sharedSlotGeneration then do
          let incarnation ← readSlot st.slot RelationSlot.incarnation
          if incarnation = e.targetRelationIncarnation then
            updateState st.key forgetState
          else pure ()
        else pure ()

/-- A forgotten state goes once its last pin and its last fence are gone. -/
def removeIfUnused (key : RelationKey) : Act Unit := do
  let found ← findState key
  match found with
  | none => pure ()
  | some st =>
    if st.identityPins ≠ 0 then pure ()
    else do
      let dirtyWriters ← readSlot st.slot RelationSlot.dirtyWriters
      if dirtyWriters = 0 ∧ st.pendingForget then do
        releaseRelationSlot env st
        removeState st.key
      else pure ()

def releasePin (e : Entry) (st : RelationState) : Act Unit :=
  if e.sharedIdentityPin then releaseRelationIdentityPin st else pure ()

/-- The assertion that a pinned record matches its state. -/
def mismatched (e : Entry) : Act Unit := if e.sharedIdentityPin then faulty else pure ()

def releaseMatching (e : Entry) : Act Unit := do
  let found ← recordState e
  match found with
  | none => mismatched e
  | some st =>
    if handleMatches env st e then do
      let incarnation ← readSlot st.slot RelationSlot.incarnation
      if incarnation = e.sharedRelationIncarnation then do
        releasePin e st
        removeIfUnused env st.key
      else mismatched e
    else mismatched e

def clearHandle (e : Entry) : Entry :=
  { e with
    sharedIdentityPin := false
    sharedRelationReserved := false
    sharedRelationFencePublished := false }

def releaseHandle (address : ℕ) : Act Unit :=
  withRecord address fun e =>
    if !e.sharedIdentityPin && !e.sharedRelationReserved then pure ()
    else do
      releaseMatching env e
      modifyLocal (setEntryAt address clearHandle)

def retireWhen (committed : Bool) (ordered : List ℕ) : Act Unit :=
  if committed then forEach retireForgotten ordered else pure ()

def releaseRelationHandlesLocked (committed : Bool) : Act Unit := do
  let ordered ← readLocal (fun l => l.dirty.ordered)
  retireWhen committed ordered
  forEach (releaseHandle env) ordered

/-! Publication. -/

def pinnedTo (st : RelationState) (e : Entry) : Entry :=
  { e with
    sharedIdentityPin := true
    sharedSlot := st.slot
    sharedSlotGeneration := st.slotGeneration }

def noteIncarnation (address i : ℕ) (target : Bool) : Act Unit := atomic (fun s l => some ((),s,
  setEntryAt address (fun e => { e with
    sharedRelationIncarnation := (s.slots i).incarnation
    targetRelationIncarnation :=
      if target then (s.slots i).incarnation else e.targetRelationIncarnation }) l))

def resolveRecord (address : ℕ) : Act Bool :=
  withRecord address fun e =>
    if e.key.kind = .global ∨ e.key.kind = .forgetRelation then pure true
    else do
      let found ← getRelationState env e.key.databaseOid e.relationOid e.key.nspace true
      match found with
      | none => pure false
      | some st =>
        if (e.relationOid ≠ 0 ∧ st.relationOid ≠ e.relationOid) ∨ st.pendingForget ∨
            st.identityPins = uint64Max then pure false
        else do
          pinState st (setEntryAt address (pinnedTo st))
          noteIncarnation address st.slot false
          if e.key.kind = .relation then reserveRelationHandleLocked env address else pure true

def releaseUnless (ok : Bool) : Act Unit :=
  if ok then pure () else releaseRelationHandlesLocked env false

def resolveAndPinRelations : Act Bool := do
  let ordered ← readLocal (fun l => l.dirty.ordered)
  lockRegistry
  let ok ← forAll (resolveRecord env) ordered
  releaseUnless env ok
  unlockRegistry
  pure ok

def resolveForgetRecord (address : ℕ) : Act Unit :=
  withRecord address fun e =>
    if e.key.kind ≠ .forgetRelation then pure ()
    else do
      let found ← recordState e
      match found with
      | none => pure ()
      | some st =>
        if st.relationOid ≠ e.relationOid ∨ st.pendingForget then pure ()
        else if env.relationStates ≤ st.slot then faulty
        else if st.identityPins = uint64Max then exhausted
        else do
          pinState st (setEntryAt address (pinnedTo st))
          noteIncarnation address st.slot true
          let ok ← reserveRelationHandleLocked env address
          if ok then pure () else faulty

def resolveAndPinForgetRelations : Act Unit := do
  let ordered ← readLocal (fun l => l.dirty.ordered)
  lockRegistry
  forEach (resolveForgetRecord env) ordered
  unlockRegistry

def recordRequest (e : Entry) : EntryRequest where
  databaseOid := e.key.databaseOid
  relationOid := e.relationOid
  relationSlot := e.sharedSlot
  slotGeneration := e.sharedSlotGeneration
  key := e.key.key
  keyLen := e.key.key.length
  hash := e.cacheKeyHash

def reservedAs (r : Reservation) (e : Entry) : Entry :=
  match r with
  | .refused => e
  | .entry => { e with sharedEntryReserved := true, sharedMarkerReserved := true }
  | .marker id generation => { e with
      sharedMarkerReserved := true, sharedMarkerId := id, sharedMarkerGeneration := generation }

/-- The answer of a section, which an inconsistency leaves out. -/
abbrev Answer (α : Type) : Type := Option (Option α × Shared × Local)

/-- An error inside a section. -/
def raised (s : Shared) (l : Local) (f : Fault) : Answer α :=
  if f = .keyGenerationOverflow then none else some (none,s,l)

def consistent : Option α → Act α
  | none => faulty
  | some a => pure a

/-- Reserves one key. -/
def reserveStep (address : ℕ) (s : Shared) (l : Local) : Answer Bool :=
  match entryAt l.dirty.table address with
  | none => some (none,s,l)
  | some e =>
    match reserveKey (recordRequest e) e.sharedRelationIncarnation (s.partitions e.partition) with
    | .ok r P => some (some (r != .refused),setPartition s e.partition P,
        setEntryAt address (reservedAs r) l)
    | .error f _ => raised s l f

/-- The transaction may be aborted behind every section. -/
def interruptible (ok : Bool) : Act Bool := do
  let interrupted ← either
  if interrupted then abortTransaction else pure ok

def reserveRecord (address : ℕ) : Act Bool := do
  let answer ← atomic (reserveStep address)
  let ok ← consistent answer
  interruptible ok

def keyAddresses (d : LocalDirty) : List ℕ :=
  d.ordered.takeWhile (fun a => partitionAt d.table a ≠ uint32Max)

def reserveKeyEntries : Act Bool := do
  let keys ← readLocal (fun l => keyAddresses l.dirty)
  forAll reserveRecord keys

def reserveUnreserved (address : ℕ) : Act Bool :=
  withRecord address fun e =>
    if e.key.kind = .key ∧ !e.sharedMarkerReserved then reserveRelationHandleLocked env address
    else pure true

def widenToRelations : Act Bool := do
  let ordered ← readLocal (fun l => l.dirty.ordered)
  lockRegistry
  let ok ← forAll (reserveUnreserved env) ordered
  unlockRegistry
  pure ok

def fencePublished (e : Entry) : Entry := { e with sharedRelationFencePublished := true }

def beginRelationFence (address i : ℕ) : Act Unit := do
  enter (.slot i)
  advance (.slot i) (setEntryAt address fencePublished)

def beginGlobalFence : Act Unit := do
  enter .all
  advance .all id
  advanceGlobalEpoch

def beginReserved (address : ℕ) : Act Unit :=
  withRecord address fun e =>
    if e.sharedRelationReserved then beginRelationFence address e.sharedSlot else pure ()

/-- The assertion that a reserved key has a descriptor with writers. -/
def hasWriters (r : EntryRequest) (P : Partition) : Bool :=
  match getCacheEntryWithCachedHash P r with
  | none => false
  | some id => decide (0 < (P.entries id).dirtyWriters)

def publishStep (address : ℕ) (s : Shared) (l : Local) : Answer Bool :=
  match entryAt l.dirty.table address with
  | none => some (none,s,l)
  | some e =>
    if !e.sharedEntryReserved then some (some true,s,l)
    else if !hasWriters (recordRequest e) (s.partitions e.partition) then some (none,s,l)
    else
      match publishKey (recordRequest e) (s.partitions e.partition) with
      | .ok _ P => some (some true,setPartition s e.partition P,l)
      | .error f _ => raised s l f

def publishRecord (address : ℕ) : Act Bool := do
  let answer ← atomic (publishStep address)
  let ok ← consistent answer
  interruptible ok

def chooseFences : Act Bool := do
  let hasGlobal ← readLocal (fun l => l.dirty.hasGlobalRecord)
  if hasGlobal then pure true
  else do
    let resolved ← resolveAndPinRelations env
    if !resolved then pure true
    else do
      let reserved ← reserveKeyEntries
      if reserved then pure false
      else do
        let widened ← widenToRelations env
        pure !widened

def raiseFences (globalFallback : Bool) : Act Unit :=
  if globalFallback then do
    beginGlobalFence
    modifyLocal (fun l => { l with globalFallback := true })
  else do
    let ordered ← readLocal (fun l => l.dirty.ordered)
    forEach beginReserved ordered
    let keys ← readLocal (fun l => keyAddresses l.dirty)
    let _ ← forAll publishRecord keys
    pure ()

def publishDirty : Act Unit := do
  let nothing ← readLocal (fun l => l.dirty.count == 0 || l.published)
  if nothing then pure ()
  else do
    modifyLocal (fun l => { l with dirty := orderedLocalDirtyEntries env.server l.dirty })
    let globalFallback ← chooseFences env
    resolveAndPinForgetRelations env
    raiseFences globalFallback
    modifyLocal (fun l => { l with published := true })

/-! Finish. -/

def endReserved (address : ℕ) : Act Unit :=
  withRecord address fun e =>
    if e.sharedRelationFencePublished then do
      advance (.slot e.sharedSlot) id
      leave (.slot e.sharedSlot)
    else pure ()

def clearReservation (e : Entry) : Entry :=
  { e with
    sharedMarkerReserved := false
    sharedEntryReserved := false
    sharedMarkerId := 0
    sharedMarkerGeneration := 0 }

def finishPartition (e : Entry) (P : Partition) : EStateM.Result Fault Partition Unit :=
  if e.sharedEntryReserved then finishKey (recordRequest e) P
  else if e.sharedMarkerId ≠ 0 then releaseCacheMarker e.sharedMarkerId e.sharedMarkerGeneration P
  else .ok () P

def finishStep (address : ℕ) (s : Shared) (l : Local) : Answer Unit :=
  match entryAt l.dirty.table address with
  | none => some (none,s,l)
  | some e =>
    if !e.sharedMarkerReserved then some (some (),s,l)
    else
      match finishPartition e (s.partitions e.partition) with
      | .ok _ P => some (some (),setPartition s e.partition P,setEntryAt address clearReservation l)
      | .error _ _ => some (none,s,l)

def finishRecord (address : ℕ) : Act Unit := do
  let answer ← atomic (finishStep address)
  consistent answer

def endGlobalFence (held : Bool) : Act Unit :=
  if held then do
    advance .all id
    leaveGlobal
  else pure ()

def resetLocal : Act Unit := atomic (fun s l =>
  (resetLocalDirty l.dirty).map (fun d => ((),s,
    { l with dirty := d, published := false, globalFallback := false, aborting := false })))

def bumpWhen (bump : Bool) : Act Unit := if bump then advanceConfigGeneration else pure ()

def dropFences (published committed : Bool) : Act Unit := do
  modifyLocal (fun l => { l with dirty := orderedLocalDirtyEntries env.server l.dirty })
  let held ← readLocal (fun l => l.globalFallback)
  endGlobalFence held
  let ordered ← readLocal (fun l => l.dirty.ordered)
  forEach endReserved ordered
  let keys ← readLocal (fun l => keyAddresses l.dirty)
  forEach finishRecord keys
  lockRegistry
  releaseRelationHandlesLocked env (published && committed)
  unlockRegistry

def dropWhen (published committed : Bool) : Act Unit :=
  if published || !committed then dropFences env published committed else pure ()

def finishDirty (committed : Bool) : Act Unit := do
  let nothing ← readLocal (fun l => l.dirty.count == 0 && !l.globalFallback && !l.dirty.bumpConfig)
  if nothing then resetLocal
  else do
    let bump ← readLocal (fun l => committed && l.dirty.bumpConfig)
    let published ← readLocal (fun l => l.published)
    bumpWhen (published && bump)
    dropWhen env published committed
    bumpWhen (!published && bump)
    resetLocal

/-! Invalidation. -/

def raiseNamespaceFence (st : RelationState) : Act Unit := do
  let generation ← readSlot st.slot RelationSlot.generation
  if generation = st.slotGeneration then do
    enter (.slot st.slot)
    advance (.slot st.slot) id
  else pure ()

/-- A fence on a slot that got another generation stays behind. -/
def dropNamespaceFence (st : RelationState) : Act Unit := do
  let generation ← readSlot st.slot RelationSlot.generation
  if generation = st.slotGeneration then do
    advance (.slot st.slot) id
    leave (.slot st.slot)
  else modifyLocal (fun l => { l with stray := l.held.fences })

def pinNamespace (databaseOid : ℕ) (nspace : Bytes) : Act (Option RelationState) := do
  let found ← getRelationState env databaseOid 0 nspace false
  match found with
  | none => pure none
  | some st =>
    if st.identityPins = uint64Max then pure none
    else do
      pinState st id
      pure (some st)

def unpinNamespace (databaseOid : ℕ) (nspace : Bytes) (st : RelationState) : Act Unit := do
  let found ← getRelationState env databaseOid 0 nspace false
  match found with
  | none => pure ()
  | some x =>
    if x.slot = st.slot ∧ x.slotGeneration = st.slotGeneration then do
      releaseRelationIdentityPin x
      removeIfUnused env x.key
    else pure ()

def cacheInvalidateNamespace (databaseOid : ℕ) (nspace : Bytes) : Act Unit := do
  lockRegistry
  let pinned ← pinNamespace env databaseOid nspace
  unlockRegistry
  match pinned with
  | none => pure ()
  | some st => do
    raiseNamespaceFence st
    dropNamespaceFence st
    lockRegistry
    unpinNamespace env databaseOid nspace st
    unlockRegistry

def sweepState (databaseOid : ℕ) (st : RelationState) : Act Unit :=
  if st.key.databaseOid = databaseOid then do
    enter (.slot st.slot)
    advance (.slot st.slot) id
    advance (.slot st.slot) id
    leave (.slot st.slot)
  else pure ()

def cacheInvalidateDatabase (databaseOid : ℕ) : Act Unit := do
  lockRegistry
  let states ← registry (fun s => (s.states,s))
  forEach (sweepState databaseOid) states
  unlockRegistry

def cacheInvalidateAll : Act Unit := do
  enter .all
  advance .all id
  advanceGlobalEpoch
  advance .all id
  leave .all

/-! Operations of a backend. -/

/-- A section of a reader or of an invalidation in one partition. -/
def visitPartition (p : ℕ) (hash : KeyTuple → ℕ) (op : PartOp) : Act Unit := atomic (fun s l =>
  some ((),setPartition s p (resultState (runOp env.settings hash op (s.partitions p))),l))

inductive Op where
  | collect (call : Call)
  | publish
  | finish (committed : Bool)
  | resolve (databaseOid relationOid : ℕ) (nspace : Bytes)
  | invalidateNamespace (databaseOid : ℕ) (nspace : Bytes)
  | invalidateDatabase (databaseOid : ℕ)
  | invalidateAll
  | visit (partition : ℕ) (hash : KeyTuple → ℕ) (op : PartOp)

/-- A transaction collects, publishes before its commit and finishes behind it; an abort finishes
it in any state. Other work is done outside of this window. -/
def allowed : Op → Local → Prop
  | .finish true, l => l.aborting = false ∧ (l.published = true ∨ l.dirty.count = 0)
  | .finish false, _ => True
  | _, l => l.aborting = false ∧ l.published = false

def code : Op → Act Unit
  | .collect call => modifyLocal (fun l => { l with dirty := perform env.server call l.dirty })
  | .publish => publishDirty env
  | .finish committed => finishDirty env committed
  | .resolve databaseOid relationOid nspace => resolveMappingSlot env databaseOid relationOid nspace
  | .invalidateNamespace databaseOid nspace => cacheInvalidateNamespace env databaseOid nspace
  | .invalidateDatabase databaseOid => cacheInvalidateDatabase databaseOid
  | .invalidateAll => cacheInvalidateAll
  | .visit partition hash op => visitPartition env partition hash op

def menu : Menu Shared Local where
  Op := Op
  allowed := allowed
  code := fun op => run (code env op)

end PgLocalCache.BackendCode
