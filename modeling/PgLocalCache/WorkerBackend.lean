import PgLocalCache.WireKey
import PgLocalCache.Outcome

/-!
# What a worker command calls

A command of the worker runs against a world `W` that holds the shared cache, the
tables and the clock. `Backend` lists the calls it makes there: the cache calls
and the clock always answer, the calls that enter a transaction may raise. A
world that follows from another one is reached from it by such calls alone.
-/

namespace PgLocalCache.WorkerBackend

open CacheState WireKey Outcome

structure WorkerSettings where
  statementTimeoutMs : ℕ
  singleflightWaitMs : ℕ
  /-- A wait of `singleflightWaitMs` is over after this many rounds at the latest. -/
  waitRounds : ℕ
  deriving Repr

inductive LookupResult where
  | miss
  | negative
  | value (bytes : Bytes)
  deriving DecidableEq, Repr

structure Lookup where
  result : LookupResult
  token : ReadToken
  deriving DecidableEq, Repr

/-- A row of a read plan: the sizes of its attributes that are not null, its text and its
creating transaction. -/
structure SourceRow where
  attributeSizes : List ℕ
  json : Bytes
  xmin : ℕ
  deriving DecidableEq, Repr

inductive DeferredResult where
  | queued
  | expired
  | full
  deriving DecidableEq, Repr

structure Backend (W D : Type) where
  getCurrentTimestamp : W → ℕ × W
  waitLatch : W → W
  cacheIsEnabled : W → Bool × W
  configGeneration : W → ℕ × W
  cacheLookupQuiet : WorkerMapping D → Bytes → W → Lookup × W
  cacheInvalidateKey : WorkerMapping D → Bytes → W → ℕ × W
  cacheClaimLoad : WorkerMapping D → Bytes → ReadToken → W → (LoadClaim × ℕ) × W
  cacheReleaseLoad : WorkerMapping D → Bytes → ReadToken → ℕ → W → W
  cacheStore : WorkerMapping D → Bytes → ReadToken → Option Bytes → ℕ → ℕ → W → Bool × W
  beginMgetSpi : ℕ → List ℕ → W → Except PgError Bool × W
  executeGetPlan : WorkerMapping D → List D → W → Except PgError (Option SourceRow) × W
  commitSpi : W → Except PgError Unit × W
  abortSpi : W → W
  enqueueDeferredMiss : ℕ → ℕ → W → DeferredResult × W

abbrev WorldM (W : Type) := EStateM PgError W

variable {W D α : Type}

def call (f : W → α × W) : WorldM W α := fun w => .ok (f w).1 (f w).2

def perform (f : W → W) : WorldM W Unit := fun w => .ok () (f w)

def enter (f : W → Except PgError α × W) : WorldM W α := fun w =>
  match (f w).1 with
  | .ok a => .ok a (f w).2
  | .error e => .error e (f w).2

variable {w : W} {Q : α → W → Prop} {E : PgError → W → Prop}

@[simp] theorem ensures_call (f : W → α × W) : Ensures (call f) w Q E ↔ Q (f w).1 (f w).2 :=
  Iff.rfl

@[simp] theorem ensures_perform (f : W → W) (R : Unit → W → Prop) :
    Ensures (perform f) w R E ↔ R () (f w) := Iff.rfl

theorem ensures_enter (f : W → Except PgError α × W) (ha : ∀ a, (f w).1 = .ok a → Q a (f w).2)
    (he : ∀ e, (f w).1 = .error e → E e (f w).2) : Ensures (enter f) w Q E := by
  unfold Ensures enter
  cases h : (f w).1 with
  | ok a => exact ha a h
  | error e => exact he e h

/-- One call of the backend. -/
inductive Call (B : Backend W D) : W → W → Prop
  | clock (w : W) : Call B w (B.getCurrentTimestamp w).2
  | latch (w : W) : Call B w (B.waitLatch w)
  | enabled (w : W) : Call B w (B.cacheIsEnabled w).2
  | generation (w : W) : Call B w (B.configGeneration w).2
  | lookup (w : W) (m : WorkerMapping D) (k : Bytes) : Call B w (B.cacheLookupQuiet m k w).2
  | invalidate (w : W) (m : WorkerMapping D) (k : Bytes) :
      Call B w (B.cacheInvalidateKey m k w).2
  | claim (w : W) (m : WorkerMapping D) (k : Bytes) (t : ReadToken) :
      Call B w (B.cacheClaimLoad m k t w).2
  | release (w : W) (m : WorkerMapping D) (k : Bytes) (t : ReadToken) (id : ℕ) :
      Call B w (B.cacheReleaseLoad m k t id w)
  | store (w : W) (m : WorkerMapping D) (k : Bytes) (t : ReadToken) (v : Option Bytes)
      (id xmin : ℕ) : Call B w (B.cacheStore m k t v id xmin w).2
  | begin (w : W) (timeout : ℕ) (oids : List ℕ) : Call B w (B.beginMgetSpi timeout oids w).2
  | plan (w : W) (m : WorkerMapping D) (vs : List D) : Call B w (B.executeGetPlan m vs w).2
  | commit (w : W) : Call B w (B.commitSpi w).2
  | abort (w : W) : Call B w (B.abortSpi w)

/-- `w'` is reached from `w` by calls of the backend. -/
def Follows (B : Backend W D) : W → W → Prop := Relation.ReflTransGen (Call B)

theorem follows_refl (B : Backend W D) (w : W) : Follows B w w := Relation.ReflTransGen.refl

theorem follows_call (B : Backend W D) (w0 w w' : W) (h : Follows B w0 w) (hc : Call B w w') :
    Follows B w0 w' :=
  Relation.ReflTransGen.tail h hc

end PgLocalCache.WorkerBackend
