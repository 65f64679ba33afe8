import PgLocalCache.EntryBlocks

/-!
# Eviction in a partition at rest

When no descriptor is dirty and every lease has run out, an eviction removes a
descriptor exactly if its scan passes over one of the wanted class, and then the
class has a free block or the arena an unassigned page. The counter that versions
are drawn from grows only by the leases that are revoked on the way.
-/

namespace PgLocalCache.EvictionProgress

open FreeChain CacheArena ArenaPage ArenaInvariant ArenaRelease
open CacheState CacheEntries Outcome EntryInvariant EntryRemoval EntryEviction

section Arena

variable {a a' : Arena} {req : ℕ → Option ℕ} {p k : ℕ}

end Arena

variable {P P' : Partition} {held : Option (ℕ × ℕ)} {cfg : Settings} {now required id : ℕ}

def Expired (cfg : Settings) (e : CacheEntry) (now : ℕ) : Prop :=
  e.loading = true → timestampDifferenceExceeds e.loadStarted now (loadLeaseMs cfg) = true

/-- No live descriptor is dirty and none has an active lease. -/
def Idle (cfg : Settings) (P : Partition) (now : ℕ) : Prop :=
  ∀ id, Live P id → (P.entries id).dirtyWriters = 0 ∧ Expired cfg (P.entries id) now

/-- What the version counter can reach by revoking every lease. -/
def Budget (P : Partition) : ℕ :=
  P.entryGeneration+tally (fun i => (P.entries (i+1)).loading) P.capacity

def Matches (P : Partition) (required id : ℕ) : Prop :=
  Live P id ∧ (required = 0 ∨ arenaBlockClass P.arena (P.entries id).blockRef = required)

/-- A scan picks only matches, and picks something exactly if it meets one. -/
structure Noted (P : Partition) (required : ℕ) (seen : Prop) (st st' : ScanState) : Prop where
  sound : ∀ v ∈ picked st', v ∈ picked st ∨ Matches P required v
  found : picked st' ≠ [] ↔ picked st ≠ [] ∨ seen

/-- Every request of this class can be served. -/
def Serves (P : Partition) (required : ℕ) : Prop :=
  ∀ request, arenaClassSize request = required → ¬ArenaAlloc.Exhausted P.arena request

def scanLength (P : Partition) : ℕ := min P.capacity evictionSample

end PgLocalCache.EvictionProgress
