import PgLocalCache.PartitionInvariant

/-!
# Counters at the end of their range

The version counter of a partition and the load id of a descriptor can be driven
to any value of their range by sections that always return. A claim and its
release move the load id by one, an invalidation moves the version by one.
-/

namespace PgLocalCache.PartitionLimits

open CacheState CacheEntries CacheMarkers CacheAdmission CacheOperations PartitionModel
open Outcome EntryInvariant EntryEviction EntryAdmission EntryStore EntrySections EntryReads
open PartitionInvariant

section Sections

variable {P : Partition} {id : ℕ} (cfg : Settings) (hash : KeyTuple → ℕ) (m : Mapping)
  (t : KeyTuple)

theorem advanceVersion_eq (hg : P.entryGeneration ≠ 2^64-1) : advanceVersion id P =
    .ok () (bumpedState P id { P.entries id with version := P.entryGeneration+1 }) := by
  apply ensures_eq
  simp only [advanceVersion, nextEntryGeneration, ensures_bind, ensures_get]
  rw [if_neg hg]
  exact ⟨trivial,rfl⟩

theorem invalidateKey_eq (current : SlotReads) (hg : P.entryGeneration ≠ 2^64-1)
    (hfind : getCacheEntry P (requestOf hash t) = some id) :
    runOp cfg hash (.invalidateKey t current) P = .ok .done
      (bumpedState P id (retiredRecord (P.entries id) (P.entryGeneration+1))) := by
  have hadv : ∀ P1 : Partition, P1.entryGeneration = P.entryGeneration →
      Ensures (advanceVersion id) P1 (fun _ P2 => P2 = bumpedState P1 id
        { P1.entries id with version := P1.entryGeneration+1 }) Never := by
    intro P1 hP1
    rw [Ensures, advanceVersion_eq (by rwa [hP1])]
  apply ensures_eq
  simp only [runOp, cacheInvalidateKeyLocked, ensures_bind, ensures_get, hfind, retireEntry,
    ensures_modify]
  refine ensures_imp (hadv _ rfl) ?_
  rintro _ P2 rfl
  simp [bumpedState, setEntry, retiredRecord]

theorem releaseLoad_eq (token : ReadToken) (loadId : ℕ)
    (hfind : getCacheEntry P (requestOf hash t) = some id)
    (hmap : mappingMatches m (P.entries id) = true)
    (hown : ownsLease (P.entries id) token loadId = true) :
    runOp cfg hash (.release m t token loadId) P = .ok .done
      (setEntry P id (releasedRecord (P.entries id))) := by
  apply ensures_eq
  simp only [runOp, cacheReleaseLoadLocked, ensures_bind, ensures_get, hfind, hmap, hown,
    Bool.and_self, if_true, ensures_set]
  exact ⟨rfl,rfl⟩

/-- Everything a claim is checked against when nobody holds the lease. -/
structure Claimable (P : Partition) (id : ℕ) (token : ReadToken) (reads : ClaimReads) : Prop where
  slot : m.relationSlot < cfg.relationStates
  found : getCacheEntry P (requestOf hash t) = some id
  mapping : mappingMatches m (P.entries id) = true
  before : (readFenceSnapshot cfg m (some (P.entries id)) reads.before).1 = true
  matched : matchesToken (readFenceSnapshot cfg m (some (P.entries id)) reads.before).2 token = true
  quiet : reads.globalDirtyWriters = 0 ∧ reads.relationDirtyWriters = 0
  clean : (P.entries id).dirtyWriters = 0
  unmarked : cacheMarkerFind P (markerRequestOf (requestOf hash t)) = 0
  idle : (P.entries id).loading = false
  stale : entryIsCurrentSlot cfg (P.entries id) reads.current = false
  after : (readFenceSnapshot cfg m (some (leasedEntry (P.entries id) token reads.now))
    reads.after).1 = true
  again : matchesToken (readFenceSnapshot cfg m
    (some (leasedEntry (P.entries id) token reads.now)) reads.after).2 token = true

theorem claimLoad_eq (token : ReadToken) (reads : ClaimReads)
    (h : Claimable cfg hash m t P id token reads) :
    runOp cfg hash (.claim m t token reads) P =
      .ok (.claimed .owner (nextLoadId (P.entries id).loadId))
        (setEntry P id (leasedEntry (P.entries id) token reads.now)) := by
  have hshort := getCacheEntry_short _ h.found
  have hb := h.before
  have htok := h.matched
  simp only [readFenceSnapshot, snapshotStable, matchesToken, fenceSnapshot, Bool.and_eq_true,
    beq_iff_eq, bne_iff_ne, decide_eq_true_eq] at hb htok
  apply ensures_eq
  simp only [runOp, cacheClaimLoadLocked, ensures_bind]
  rw [if_neg (by have := h.slot; omega), ensures_bind, ensures_get]
  simp only [h.found, Option.map_some]
  rw [if_neg, if_neg hshort, if_neg]
  · simp only [h.before, h.matched, Bool.not_true, Bool.or_self, Bool.false_eq_true, if_false,
      claimFound, ensures_bind, ensures_get, h.stale, h.idle, Bool.false_and,
      cacheLoadIsActiveLocked, Bool.not_false, if_true, ensures_pure]
    rw [if_neg (by simpa using htok.2)]
    simp only [grantLease, ensures_bind, ensures_get, h.after, h.again, Bool.not_true,
      Bool.or_self, Bool.false_eq_true, if_false, ensures_set, ensures_pure]
    exact ⟨rfl,trivial⟩
  · simp [h.quiet, h.clean, h.unmarked]
  · simp only [readFenceSnapshot, fenceSnapshot, Option.getD_some, h.mapping]
    simp
    tauto

end Sections

theorem getCacheEntry_live {P : Partition} {id : ℕ} (hash : KeyTuple → ℕ) (t : KeyTuple)
    (hr : EntryRep P none none) (ht : t.key.length < keyMax) (hl : Live P id)
    (hid : entryId P id = requestId (requestOf hash t)) :
    getCacheEntry P (requestOf hash t) = some id := by
  have hshort : (requestOf hash t).keyLen ≠ keyMax := by
    simp only [requestOf]
    omega
  rcases lookupEntry_cases hr (requestOf hash t) (requestOf_ok hash t) with ⟨x,h1,h2,h3⟩ | ⟨_,h2⟩
  · rw [getCacheEntry, if_neg hshort, h1, hr.unique x id h2 hl (h3.trans hid.symm)]
  · exact absurd hid (h2 id hl)

/-- The partition after `k` invalidations of one key. -/
def aged (P : Partition) (id k : ℕ) : Partition :=
  { P with
    entryGeneration := P.entryGeneration+k
    entries := Function.update P.entries id { P.entries id with
      loadId := ((P.entries id).loadId+k)%2^64
      version := (P.entries id).version+k } }

structure Retired (P : Partition) (id : ℕ) : Prop where
  valid : (P.entries id).valid = false
  loading : (P.entries id).loading = false
  sourceXmin : (P.entries id).sourceXmin = 0
  sourceObservedFullXid : (P.entries id).sourceObservedFullXid = 0
  version : (P.entries id).version = P.entryGeneration
  loadId : (P.entries id).loadId < 2^64

section Loops

variable {P P0 : Partition} {id : ℕ} {cfg : Settings} {hash : KeyTuple → ℕ} {t : KeyTuple}
  {trace : List Event}

theorem aged_zero (h : Retired P id) : aged P id 0 = P := by
  simp only [aged, Nat.add_zero, Nat.mod_eq_of_lt h.loadId, Function.update_eq_self]

theorem aged_soft (P : Partition) (id k : ℕ) : SoftStep P (aged P id k) := by
  refine ⟨fun x => ?_,rfl,rfl,rfl,rfl,rfl⟩
  by_cases hx : x = id
  · subst hx
    simp only [aged, Function.update_self]
    constructor <;> rfl
  · simp only [aged, Function.update_of_ne hx]
    exact hardEq_refl _

theorem aged_succ (h : Retired P id) (k : ℕ) :
    bumpedState (aged P id k) id (retiredRecord ((aged P id k).entries id)
      ((aged P id k).entryGeneration+1)) = aged P id (k+1) := by
  have hrec : retiredRecord ((aged P id k).entries id) ((aged P id k).entryGeneration+1) =
      { P.entries id with
        loadId := ((P.entries id).loadId+(k+1))%2^64
        version := (P.entries id).version+(k+1) } := by
    simp only [aged, Function.update_self, retiredRecord, bump64, h.version, CacheEntry.mk.injEq,
      h.valid, h.loading, h.sourceXmin, h.sourceObservedFullXid, true_and, and_true]
    omega
  rw [hrec]
  simp [bumpedState, aged]
  omega

/-- Invalidations drive the version counter to any value. -/
theorem aged_run (h0 : PartRep P0) (h : Run cfg hash P0 trace) (hP : finalState P0 trace = P)
    (hret : Retired P id) (ht : t.key.length < keyMax) (hl : Live P id)
    (hid : entryId P id = requestId (requestOf hash t)) (current : SlotReads) (k : ℕ)
    (hk : P.entryGeneration+k ≤ 2^64-1) :
    ∃ newer, Run cfg hash P0 (newer++trace) ∧ finalState P0 (newer++trace) = aged P id k := by
  induction k with
  | zero => exact ⟨[],h,hP.trans (aged_zero hret).symm⟩
  | succ k ih =>
    obtain ⟨newer,hrun,hfinal⟩ := ih (by omega)
    have hrep := run_rep cfg h0 hrun
    rw [hfinal] at hrep
    have hsoft := aged_soft P id k
    have hfind := getCacheEntry_live hash t hrep.entries ht ((soft_live hsoft id).mpr hl)
      ((soft_entryId hsoft id).trans hid)
    have hop := invalidateKey_eq cfg hash t current
      (by change P.entryGeneration+k ≠ 2^64-1; omega) hfind
    rw [aged_succ hret, ← hfinal] at hop
    exact ⟨⟨_,_,_⟩::newer,.step _ _ _ hrun hop,rfl⟩

/-- The partition after further claims and releases of one key. -/
def reloaded (P : Partition) (id n : ℕ) : Partition :=
  setEntry P id { P.entries id with loadId := n }

theorem reloaded_soft (P : Partition) (id n : ℕ) : SoftStep P (reloaded P id n) :=
  soft_set P id _ (by constructor <;> rfl)

theorem reloaded_self {n : ℕ} (h : (P.entries id).loadId = n) : reloaded P id n = P := by
  subst h
  simp [reloaded, setEntry]

structure Released (P : Partition) (id : ℕ) (token : ReadToken) (now : ℕ) : Prop where
  valid : (P.entries id).valid = false
  loading : (P.entries id).loading = false
  loadStarted : (P.entries id).loadStarted = now
  globalEpoch : (P.entries id).globalEpoch = token.globalEpoch
  relationVersion : (P.entries id).relationVersion = token.relationVersion
  relationIncarnation : (P.entries id).relationIncarnation = token.relationIncarnation
  version : (P.entries id).version = token.keyVersion

theorem cycle_record {token : ReadToken} {now n : ℕ} (hrel : Released P id token now)
    (hn : n+1 < 2^64) : setEntry (reloaded P id n) id (releasedRecord
      (leasedEntry ((reloaded P id n).entries id) token now)) = reloaded P id (n+1) := by
  have hnext : nextLoadId n = n+1 := by
    have hb : bump64 n = n+1 := Nat.mod_eq_of_lt hn
    rw [nextLoadId, hb, if_neg (by omega)]
  have hrec : releasedRecord (leasedEntry ((reloaded P id n).entries id) token now) =
      { P.entries id with loadId := n+1 } := by
    simp only [reloaded, setEntry_self, releasedRecord, leasedEntry, hnext,
      hrel.valid, hrel.loading, hrel.loadStarted, hrel.globalEpoch, hrel.relationVersion,
      hrel.relationIncarnation]
  rw [hrec]
  simp [reloaded, setEntry]

section Cycle

variable {m : Mapping} {token : ReadToken} {reads : ClaimReads} (h0 : PartRep P0)
  (hrel : Released P id token reads.now) (ht : t.key.length < keyMax) (hl : Live P id)
  (hid : entryId P id = requestId (requestOf hash t))
  (hc : Claimable cfg hash m t P id token reads)

include ht hl hid hc

theorem claimable_reloaded (n : ℕ) (hrep : PartRep (reloaded P id n)) :
    Claimable cfg hash m t (reloaded P id n) id token reads := by
  have hsoft := reloaded_soft P id n
  have hfind := getCacheEntry_live hash t hrep.entries ht ((soft_live hsoft id).mpr hl)
    ((soft_entryId hsoft id).trans hid)
  have hmark : cacheMarkerFind (reloaded P id n) (markerRequestOf (requestOf hash t)) =
      cacheMarkerFind P (markerRequestOf (requestOf hash t)) :=
    cacheMarkerFind_congr (set_besides P id _).markers _
  have he : (reloaded P id n).entries id = { P.entries id with loadId := n } := setEntry_self _ _ _
  refine ⟨hc.slot,hfind,?_,?_,?_,hc.quiet,?_,hmark.trans hc.unmarked,?_,?_,?_,?_⟩ <;> rw [he]
  · exact hc.mapping
  · exact hc.before
  · exact hc.matched
  · exact hc.clean
  · exact hc.idle
  · exact hc.stale
  · exact hc.after
  · exact hc.again

include h0 hrel

theorem cycle_step {n : ℕ} (hrun : Run cfg hash P0 trace)
    (hfinal : finalState P0 trace = reloaded P id n) (hn : n+1 < 2^64) :
    ∃ newer, Run cfg hash P0 (newer++trace) ∧
      finalState P0 (newer++trace) = reloaded P id (n+1) := by
  have hrep := run_rep cfg h0 hrun
  rw [hfinal] at hrep
  have hcn := claimable_reloaded ht hl hid hc n hrep
  have hclaim := claimLoad_eq cfg hash m t token reads hcn
  set L := setEntry (reloaded P id n) id (leasedEntry ((reloaded P id n).entries id) token
    reads.now) with hL
  rw [← hfinal] at hclaim
  have hrun' := Run.step _ _ _ hrun hclaim
  have hsoft : SoftStep (reloaded P id n) L := soft_set _ id _ (leased_hard token _ _)
  have hlive : Live L id := (soft_live hsoft id).mpr ((soft_live (reloaded_soft P id n) id).mpr hl)
  have hident : entryId L id = requestId (requestOf hash t) :=
    (soft_entryId hsoft id).trans ((soft_entryId (reloaded_soft P id n) id).trans hid)
  have hfind := getCacheEntry_live hash t (run_rep cfg h0 hrun').entries ht hlive hident
  have hown : ownsLease (L.entries id) token (L.entries id).loadId = true := by
    have hv := hrel.version
    rw [hL, setEntry_self, reloaded, setEntry_self]
    simp [ownsLease, leasedEntry, hv]
  have hmap : mappingMatches m (L.entries id) = true := by
    rw [hL, setEntry_self]
    exact hcn.mapping
  have hrelease := releaseLoad_eq cfg hash m t token _ hfind hmap hown
  refine ⟨[⟨_,_,_⟩,⟨_,_,_⟩],.step _ _ _ hrun' hrelease,?_⟩
  change setEntry L id (releasedRecord (L.entries id)) = _
  rw [hL, setEntry_self, set_set]
  exact cycle_record hrel hn

theorem cycle_run (n k : ℕ) (hrun : Run cfg hash P0 trace)
    (hfinal : finalState P0 trace = reloaded P id n) (hn : n+k < 2^64) :
    ∃ newer, Run cfg hash P0 (newer++trace) ∧
      finalState P0 (newer++trace) = reloaded P id (n+k) := by
  induction k with
  | zero => exact ⟨[],hrun,hfinal⟩
  | succ k ih =>
    obtain ⟨newer,hrun1,hfinal1⟩ := ih (by omega)
    obtain ⟨newer',hrun2,hfinal2⟩ := cycle_step h0 hrel ht hl hid hc hrun1 hfinal1 (by omega)
    rw [← List.append_assoc] at hrun2 hfinal2
    exact ⟨newer'++newer,hrun2,hfinal2⟩

end Cycle

end Loops

end PgLocalCache.PartitionLimits
