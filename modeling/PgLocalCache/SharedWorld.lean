import PgLocalCache.PartitionModel
import PgLocalCache.DirtySet
import PgLocalCache.Interleaving
import PgLocalCache.FenceLedger

/-!
# The shared state of all backends

The fence counters, the relation slots, the relation registry and the partitions, and
the accesses that backends make to them. A checked addition is one step, and only
below the maximum of its counter: the overflow that the source reports there is not
modelled, and a backend that has come to it takes no further step. The fences of a
backend are noted beside its local state, and the notes of all backends are kept with
the shared state: these, the list of handed pairs and the fences that a backend left
behind are written and never read by a program.
-/

namespace PgLocalCache.SharedWorld

open CacheState KeyCodec DirtySet Interleaving FenceLedger

structure RelationSlot where
  inUse : Bool
  generation : ℕ
  incarnation : ℕ
  version : ℕ
  dirtyWriters : ℕ
  deriving DecidableEq, Repr

structure RelationKey where
  databaseOid : ℕ
  nspace : Bytes
  deriving DecidableEq, Repr

structure RelationState where
  key : RelationKey
  relationOid : ℕ
  slot : ℕ
  slotGeneration : ℕ
  identityPins : ℕ
  pendingForget : Bool
  deriving DecidableEq, Repr

/-- A slot and generation given to a mapping or a dirty record. -/
structure Handed where
  slot : ℕ
  generation : ℕ
  deriving DecidableEq, Repr

/-- What a fence is raised for: everything, or the relation of a slot. -/
inductive Target where
  | all
  | slot (i : ℕ)
  deriving DecidableEq, Repr

/-- What a backend holds: its fences and the registry lock. -/
structure Held where
  fences : List (Fence Target)
  registry : Bool
  deriving DecidableEq, Repr

structure Shared where
  globalVersion : ℕ
  globalEpoch : ℕ
  globalDirtyWriters : ℕ
  configGeneration : ℕ
  relationIncarnationCounter : ℕ
  slots : ℕ → RelationSlot
  states : List RelationState
  registryLocked : Bool
  partitions : ℕ → Partition
  handed : List Handed
  holders : Multiset Held

structure Local where
  dirty : LocalDirty
  published : Bool
  globalFallback : Bool
  aborting : Bool
  held : Held
  stray : List (Fence Target)

/-- The size of the registry and the server. -/
structure Env where
  relationStates : ℕ
  server : Server
  settings : Settings

abbrev Act := Code Shared Local

variable {α : Type}

def note (f : Held → Held) (l : Local) : Local := { l with held := f l.held }

def exchange (h h' : Held) (s : Shared) : Shared := { s with holders := h' ::ₘ s.holders.erase h }

/-- A step that changes what the backend holds. -/
def holding (f : Held → Held) (g : Shared → Shared) : Act Unit := atomic (fun s l => some ((),
  exchange l.held (f l.held) (g s),note f l))

/-- A step of this kind with a test before it; a failed test is a fault. -/
def holdingIf (test : Shared → Bool) (f : Held → Held) (g : Shared → Shared) : Act Unit := do
  let ok ← atomic (fun s l => if test s then some (true,exchange l.held (f l.held) (g s),note f l)
    else some (false,s,l))
  if ok then pure () else faulty

/-! Fences. -/

def uint64Max : ℕ := 2^64-1

/-- The step of a checked addition to a counter with this value. -/
def checked (counter : ℕ) (x : α) : Option α := if counter < uint64Max then some x else none

theorem checked_eq {counter : ℕ} {x y : α} (h : checked counter x = some y) : x = y := by
  unfold checked at h
  split at h
  · exact Option.some.inj h
  · cases h

def setSlot (s : Shared) (i : ℕ) (f : RelationSlot → RelationSlot) : Shared :=
  { s with slots := Function.update s.slots i (f (s.slots i)) }

/-- The version of a target and its writers. -/
structure Counters where
  version : ℕ
  writers : ℕ

def countersOf (s : Shared) : Target → Counters
  | .all => ⟨s.globalVersion,s.globalDirtyWriters⟩
  | .slot i => ⟨(s.slots i).version,(s.slots i).dirtyWriters⟩

def setCounters (s : Shared) (t : Target) (f : Counters → Counters) : Shared :=
  let c := f (countersOf s t)
  match t with
  | .all => { s with globalVersion := c.version, globalDirtyWriters := c.writers }
  | .slot i => setSlot s i (fun x => { x with version := c.version, dirtyWriters := c.writers })

def addVersion (c : Counters) : Counters := { c with version := c.version+1 }

def addWriter (c : Counters) : Counters := { c with writers := c.writers+1 }

def dropWriter (c : Counters) : Counters := { c with writers := c.writers-1 }

def minusOne64 (n : ℕ) : ℕ := if 0 < n then n-1 else 2^64-1

def dropWriter64 (c : Counters) : Counters := { c with writers := minusOne64 c.writers }

def enteredFence (t : Target) (h : Held) : Held := { h with fences := ⟨t,false⟩::h.fences }

def movedFences (t : Target) (h : Held) : Held := { h with fences := moveFences t h.fences }

def leftFence (t : Target) (h : Held) : Held := { h with fences := h.fences.erase ⟨t,true⟩ }

def enter (t : Target) : Act Unit := atomic (fun s l => checked (countersOf s t).writers ((),
  exchange l.held (enteredFence t l.held) (setCounters s t addWriter),note (enteredFence t) l))

/-- Moves a version; `after` is what the backend writes into its record. -/
def advance (t : Target) (after : Local → Local) : Act Unit := atomic (fun s l =>
  checked (countersOf s t).version ((),
    exchange l.held (movedFences t l.held) (setCounters s t addVersion),
    after (note (movedFences t) l)))

/-- The checked subtraction. -/
def leave (t : Target) : Act Unit :=
  holdingIf (fun s => (countersOf s t).writers != 0) (leftFence t)
    (fun s => setCounters s t dropWriter)

/-- The unchecked subtraction at the end of a transaction. -/
def leaveGlobal : Act Unit := holding (leftFence .all) (fun s => setCounters s .all dropWriter64)

def advanceGlobalEpoch : Act Unit := atomic (fun s l => checked s.globalEpoch ((),
  { s with globalEpoch := s.globalEpoch+1 },l))

def advanceConfigGeneration : Act Unit := atomic (fun s l => checked s.configGeneration ((),
  { s with configGeneration := s.configGeneration+1 },l))

def readSlot (i : ℕ) (f : RelationSlot → ℕ) : Act ℕ := atomic (fun s l => some (f (s.slots i),s,l))

/-! The registry. -/

def setRegistry (value : Bool) (h : Held) : Held := { h with registry := value }

def lockRegistry : Act Unit := atomic (fun s l =>
  if s.registryLocked then none
  else some ((),exchange l.held (setRegistry true l.held) { s with registryLocked := true },
    note (setRegistry true) l))

def unlockRegistry : Act Unit :=
  holding (setRegistry false) (fun s => { s with registryLocked := false })

def stateFind (states : List RelationState) (key : RelationKey) : Option RelationState :=
  states.find? (fun st => st.key == key)

def stateUpdate (states : List RelationState) (key : RelationKey)
    (f : RelationState → RelationState) : List RelationState :=
  states.map (fun st => if st.key = key then f st else st)

def stateRemove (states : List RelationState) (key : RelationKey) : List RelationState :=
  states.filter (fun st => st.key ≠ key)

/-- An access to the registry; the caller holds its lock. -/
def registry (f : Shared → α × Shared) : Act α := atomic (fun s l => some ((f s).1,(f s).2,l))

def findState (key : RelationKey) : Act (Option RelationState) :=
  registry (fun s => (stateFind s.states key,s))

def updateState (key : RelationKey) (f : RelationState → RelationState) : Act Unit :=
  registry (fun s => ((),{ s with states := stateUpdate s.states key f }))

def removeState (key : RelationKey) : Act Unit :=
  registry (fun s => ((),{ s with states := stateRemove s.states key }))

def enterState (st : RelationState) : Act Unit :=
  registry (fun s => ((),{ s with states := s.states++[st] }))

def countStates : Act ℕ := registry (fun s => (s.states.length,s))

def setInUse (i : ℕ) (value : Bool) : Act Unit :=
  registry (fun s => ((),setSlot s i (fun x => { x with inUse := value })))

/-- The first slot that is not in use. -/
def findFreeSlot (env : Env) : Act (Option ℕ) :=
  registry (fun s => ((List.range env.relationStates).find? (fun i => !(s.slots i).inUse),s))

def handedOf (st : RelationState) : Handed := ⟨st.slot,st.slotGeneration⟩

def raisePins (st : RelationState) : RelationState := { st with identityPins := st.identityPins+1 }

def lowerPins (st : RelationState) : RelationState := { st with identityPins := st.identityPins-1 }

/-- Takes an identity pin; `after` is what the backend writes into its record. -/
def pinState (st : RelationState) (after : Local → Local) : Act Unit := atomic (fun s l => some ((),
  { s with states := stateUpdate s.states st.key raisePins, handed := handedOf st::s.handed },
  after l))

/-- Gives an identity pin back. -/
def releaseRelationIdentityPin (st : RelationState) : Act Unit := do
  let found ← findState st.key
  match found with
  | none => faulty
  | some x => if x.identityPins = 0 then faulty else updateState st.key lowerPins

/-! Partitions and local state. -/

def setPartition (s : Shared) (p : ℕ) (P : Partition) : Shared :=
  { s with partitions := Function.update s.partitions p P }

def modifyLocal (f : Local → Local) : Act Unit := atomic (fun s l => some ((),s,f l))

def readLocal (f : Local → α) : Act α := atomic (fun s l => some (f l,s,l))

/-- The transaction is aborted here; its callback finishes it. -/
def abortTransaction : Act α := fun _ =>
  .act (fun s l => some (s,{ l with aborting := true },.halt))

def updateEntry (table : List Cell) (address : ℕ) (f : Entry → Entry) : List Cell :=
  table.map (fun c => if c.1 = address then (c.1,f c.2) else c)

def setEntryAt (address : ℕ) (f : Entry → Entry) (l : Local) : Local :=
  { l with dirty := { l.dirty with table := updateEntry l.dirty.table address f } }

end PgLocalCache.SharedWorld
