import PgLocalCache.EvictionProgress
import PgLocalCache.EntryAdmission
import PgLocalCache.PartitionInvariant

/-!
# Admission to a full partition

An eviction for a new key removes only descriptors whose block has the key's size
class. A partition at rest therefore finds a block for a key after a few calls
exactly if some arena page is unassigned or split into blocks of that class: each
failing call moves the eviction cursor on, until the scan meets such a descriptor.
The call that has found one admits the key, unless the index turns it away.
-/

namespace PgLocalCache.AdmissionProgress

open FreeChain IndexInvariant CacheArena ArenaPage ArenaInvariant ArenaRelease
open CacheState CacheEntries CacheMarkers CacheAdmission Outcome EntryInvariant EntryRemoval
open EntryBlocks EntryInstall EntryAdmission EvictionProgress PartitionModel PartitionInvariant

variable {P P' : Partition} {held : Option (ℕ × ℕ)} {pending : Option ℕ} {cfg : Settings}
  {now id : ℕ} {r : EntryRequest}

/-- A call with a block for the key that has come as far as the index and is turned away: the
probe window of the key is full, also behind a rebuild, or a rebuild is due and does not help. -/
def BlockTurnedAway (cfg : Settings) (r : EntryRequest) (env : AdmissionEnv) (ref : ℕ)
    (P : Partition) : Prop :=
  ∃ P1 P2 P3 P4 id, ensureDescriptor cfg ref r.keyLen env.headEvict P = .ok true P1 ∧
    reserveLoop cfg ref r.keyLen env.reserveEvict env.reserveGrant (P.capacity+1) 0 P1 =
      .ok true P2 ∧
    installDescriptor r ref P2 = .ok (some id) P3 ∧ indexDescriptor r id P3 = .ok false P4 ∧
    (CacheIndex.indexNeedsRebuild P3.index = false → FullWindow P3.index r.hash)

/-- A call that the index turns away, at the rebuild it starts with or at the insertion. -/
inductive TurnedAway (cfg : Settings) (r : EntryRequest) (env : AdmissionEnv) (P : Partition) : Prop
  | untidy (P1 : Partition) : tidyIndex P = .ok false P1 → TurnedAway cfg r env P
  | full (P1 P2 : Partition) (ref size : ℕ) : tidyIndex P = .ok true P1 →
      allocOrEvict cfg r.keyLen 0 env.allocEvict (P.capacity+1) 0 P1 = .ok (some (ref,size)) P2 →
      BlockTurnedAway cfg r env ref P2 → TurnedAway cfg r env P

theorem head_of_room (hr : EntryRep P held pending) (h : P.entryCount < P.capacity) :
    P.freeEntryHead ≠ 0 := by
  intro hz
  have hnone := (lists_stop_iff hr.free).mp hz
  have hfull := tally_full (fun i => (P.entries (i+1)).inUse) P.capacity (fun i hi => by
    by_contra hu
    exact hnone (i+1) ⟨by omega,by omega,by simpa using hu⟩)
  have := hr.count
  omega

/-- A partition at rest in which the requested key is neither cached nor marked. -/
structure Ready (cfg : Settings) (now : ℕ) (r : EntryRequest) (P : Partition) : Prop where
  rep : EntryRep P none none
  absent : ∀ x, Live P x → entryId P x ≠ requestId r
  unmarked : cacheMarkerFind P (markerRequestOf r) = 0
  idle : Idle cfg P now
  budget : Budget P < 2^64-1
  capacity : P.capacity ≠ 0

/-- The shared counter of descriptors in use against its limit. -/
def reserveCacheEntry (count limit : ℕ) : Bool × ℕ :=
  if count < limit then (true,count+1) else (false,count)

/-- What a call without a block leaves: the same blocks, and, unless the index has stopped it, the
cursor past the scanned window. -/
structure Passed (cfg : Settings) (r : EntryRequest) (env : AdmissionEnv) (P P' : Partition) :
    Prop where
  arena : P'.arena = P.arena
  capacity : P'.capacity = P.capacity
  live : ∀ x, Live P' x ↔ Live P x
  block : ∀ x, (P'.entries x).blockRef = (P.entries x).blockRef
  cursor : TurnedAway cfg r env P ∨
    P'.evictionBucketCursor = (P.evictionBucketCursor+scanLength P)%P.capacity

end PgLocalCache.AdmissionProgress
