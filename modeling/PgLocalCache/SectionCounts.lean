import PgLocalCache.CountedSections
import PgLocalCache.LockedSections
import PgLocalCache.PartitionInvariant
import PgLocalCache.AdmissionProgress

/-!
# What a section does to the descriptor counts

The books of a partition hold its entry count, the reservations it has made in
the shared counter and not yet counted, and the counted entries it has dropped
and not yet released. Every section follows these books, and it reserves only
while a descriptor is free.
-/

namespace PgLocalCache.SectionCounts

open CacheIndex CacheArena ArenaRelease CacheState CacheEntries CacheMarkers CacheAdmission
open CacheOperations Outcome EventLog LockedSections EntryInvariant EntryRemoval EntryEviction
open EntryBlocks EntryInstall EntryAdmission PartitionModel PartitionInvariant AdmissionProgress
open CountedSections (Access CountM)

def counts (P : Partition) : ℕ × ℕ := (P.entryCount,P.capacity)

section Uncounted

variable (P : Partition) (cfg : Settings) (m : Mapping)

theorem advanceVersion_counts (id : ℕ) : KeepsAt counts P (advanceVersion id) :=
  ensures_mono (advanceVersion_exact P id) (fun _ _ h => by rw [h]; rfl)
    (fun _ _ h => by rw [h.2.1])

theorem rebuildCacheIndex_counts : KeepsAt counts P rebuildCacheIndex :=
  keepsAt_get (keepsAt_unless
    (fun _ => keepsAt_seq (keepsAt_set _ rfl) (fun _ _ => keepsAt_pure _)))

theorem loadActive_counts (id now : ℕ) :
    KeepsAt counts P (cacheLoadIsActiveLocked cfg id now) := by
  refine keepsAt_get (keepsAt_unless (fun _ => ?_))
  refine keepsAt_unless (fun _ => ?_)
  refine keepsAt_seq (keepsAt_set _ rfl) (fun _ t => ?_)
  exact keepsAt_seq (advanceVersion_counts t id) (fun _ _ => keepsAt_pure _)

theorem scanEntry_counts (env : EvictEnv) (required excluded id : ℕ)
    (st : ScanState) : KeepsAt counts P (scanEntry cfg env required excluded id st) := by
  refine keepsAt_get (keepsAt_unless (fun _ => ?_))
  refine keepsAt_seq (loadActive_counts P cfg id env.now) (fun _ t => keepsAt_get ?_)
  refine keepsAt_unless (fun _ => ?_)
  refine keepsAt_unless (fun _ => ?_)
  exact keepsAt_unless (fun _ => keepsAt_pure _)

theorem scanEntries_counts (env : EvictEnv) (required excluded start scanned n : ℕ)
    (st : ScanState) :
    KeepsAt counts P (scanEntries cfg env required excluded start scanned n st) := by
  induction n generalizing P scanned st with
  | zero => exact keepsAt_pure _
  | succ n ih =>
    exact keepsAt_get (keepsAt_seq (scanEntry_counts P _ _ _ _ _ _) (fun _ t => ih t _ _))

theorem releaseUnindexed_counts (ref len : ℕ) : KeepsAt counts P (releaseUnindexed ref len) := by
  refine keepsAt_get (keepsAt_seq (keepsAt_set _ rfl) (fun _ _ => ?_))
  exact keepsAt_unless (fun _ => keepsAt_throw _)

theorem tidyIndex_counts : KeepsAt counts P tidyIndex :=
  keepsAt_get (keepsAt_ite (fun _ => rebuildCacheIndex_counts P) (fun _ => keepsAt_pure _))

theorem insertDescriptor_counts (r : EntryRequest) (id : ℕ) (q : EntryQuery) :
    KeepsAt counts P (insertDescriptor r id q) :=
  keepsAt_get (keepsAt_seq (keepsAt_set _ rfl) (fun _ _ => keepsAt_pure _))

theorem rebuildThenInsert_counts (r : EntryRequest) (id : ℕ) (q : EntryQuery)
    (otherwise : InsertResult) : KeepsAt counts P (rebuildThenInsert r id q otherwise) :=
  keepsAt_seq (rebuildCacheIndex_counts P) (fun _ t =>
    keepsAt_ite (fun _ => insertDescriptor_counts t r id q) (fun _ => keepsAt_pure _))

theorem indexDescriptor_counts (r : EntryRequest) (id : ℕ) :
    KeepsAt counts P (indexDescriptor r id) := by
  refine keepsAt_seq (x := firstInsert r id _) (keepsAt_get ?_) (fun first t => ?_)
  · exact keepsAt_ite (fun _ => rebuildThenInsert_counts P _ _ _ _)
      (fun _ => insertDescriptor_counts P _ _ _)
  refine keepsAt_seq (x := retryInsert r id first) ?_ (fun _ _ => keepsAt_pure _)
  exact keepsAt_ite (fun _ => rebuildThenInsert_counts t _ _ _ _) (fun _ => keepsAt_pure _)

theorem lookupFound_counts (valueCapacity : ℕ) (reads : LookupReads)
    (found : Option ℕ) (corrupt : ℕ) : KeepsAt counts P
      (lookupFound cfg m valueCapacity reads found corrupt) := by
  refine keepsAt_get ?_
  cases found with
  | none => exact keepsAt_pure _
  | some id =>
    refine keepsAt_ite (fun _ => ?_) (fun _ => keepsAt_pure _)
    exact keepsAt_seq (keepsAt_set _ rfl) (fun _ _ => keepsAt_pure _)

theorem dropBlock_counts (ref len : ℕ) : KeepsAt counts P (dropBlock ref len) :=
  keepsAt_modify _ rfl

theorem abandonStore_counts (id : ℕ) (clearValid : Bool) :
    KeepsAt counts P (abandonStore id clearValid) :=
  keepsAt_seq (keepsAt_modify _ rfl) (fun _ _ => keepsAt_pure _)

theorem completeStore_counts (id : ℕ) (args : StoreArgs)
    (after : FenceReads) (clock : ℕ) :
    KeepsAt counts P (completeStore cfg m id args after clock) := by
  refine keepsAt_seq (advanceVersion_counts P id) (fun _ t => ?_)
  refine keepsAt_seq (keepsAt_modify _ rfl) (fun _ t => keepsAt_get ?_)
  refine keepsAt_ite (fun _ => ?_) (fun _ => ?_)
  · refine keepsAt_seq (abandonStore_counts t id true) (fun _ t => ?_)
    exact keepsAt_seq (keepsAt_modify _ rfl) (fun _ _ => keepsAt_pure _)
  · exact keepsAt_seq (keepsAt_modify _ rfl) (fun _ _ => keepsAt_pure _)

theorem fillStore_counts (id newBlockLen : ℕ) (args : StoreArgs)
    (reads : StoreReads) : KeepsAt counts P (fillStore cfg m id newBlockLen args reads) := by
  unfold fillStore
  refine keepsAt_get ?_
  dsimp only
  cases arenaBlock P.arena (P.entries id).blockRef with
  | none => exact abandonStore_counts P id true
  | some block =>
    refine keepsAt_ite (fun _ => abandonStore_counts P id true) (fun _ => ?_)
    exact keepsAt_seq (keepsAt_set _ rfl) (fun _ t => completeStore_counts t _ _ _ _ _ _)

theorem growFill_counts (id oldRef oldLen newBlockLen : ℕ)
    (args : StoreArgs) (reads : StoreReads) (newRef newClass : ℕ) : KeepsAt counts P
      (growFill cfg m id oldRef oldLen newBlockLen args reads newRef newClass) := by
  have hgive : KeepsAt counts P (dropBlock newRef newBlockLen >>= fun _ => abandonStore id true) :=
    keepsAt_seq (dropBlock_counts P _ _) (fun _ t => abandonStore_counts t id true)
  unfold growFill
  refine keepsAt_get ?_
  dsimp only
  cases arenaBlock P.arena newRef with
  | none => exact hgive
  | some block =>
    cases arenaBlock P.arena oldRef with
    | none => exact hgive
    | some oldBlock =>
      refine keepsAt_ite (fun _ => hgive) (fun _ => ?_)
      refine keepsAt_seq (keepsAt_set _ rfl) (fun _ t => ?_)
      exact keepsAt_ite (fun _ => abandonStore_counts t id true)
        (fun _ => fillStore_counts t _ _ _ _ _ _)

theorem resizeStore_counts (id newBlockLen : ℕ) (args : StoreArgs)
    (reads : StoreReads) : KeepsAt counts P (resizeStore cfg m id newBlockLen args reads) := by
  refine keepsAt_get (keepsAt_ite (fun _ => ?_) (fun _ => ?_))
  · exact keepsAt_seq (keepsAt_set _ rfl) (fun _ t => abandonStore_counts t id true)
  · exact keepsAt_seq (keepsAt_set _ rfl) (fun _ t => fillStore_counts t _ _ _ _ _ _)

theorem retireEntry_counts (id : ℕ) : KeepsAt counts P (retireEntry id) :=
  keepsAt_seq (keepsAt_modify _ rfl) (fun _ t =>
    keepsAt_seq (advanceVersion_counts t id) (fun _ _ => keepsAt_modify _ rfl))

theorem grantLease_counts (id : ℕ) (t : ReadToken)
    (reads : ClaimReads) : KeepsAt counts P (grantLease cfg m id t reads) := by
  refine keepsAt_get (keepsAt_ite (fun _ => ?_) (fun _ => ?_))
  · exact keepsAt_seq (keepsAt_set _ rfl) (fun _ _ => keepsAt_pure _)
  · exact keepsAt_seq (keepsAt_set _ rfl) (fun _ _ => keepsAt_pure _)

theorem claimFound_counts (id : ℕ) (t : ReadToken)
    (reads : ClaimReads) : KeepsAt counts P (claimFound cfg m id t reads) := by
  have hrest : ∀ Q, KeepsAt counts Q (cacheLoadIsActiveLocked cfg id reads.now >>= fun active =>
      if active = true then pure (LoadClaim.wait,0)
      else get >>= fun P => if (P.entries id).version ≠ t.keyVersion then pure (LoadClaim.retry,0)
        else grantLease cfg m id t reads) := by
    intro Q
    refine keepsAt_seq (loadActive_counts Q cfg id reads.now) (fun _ Q => ?_)
    refine keepsAt_unless (fun _ => keepsAt_get ?_)
    exact keepsAt_unless (fun _ => grantLease_counts Q cfg m id t reads)
  unfold claimFound
  refine keepsAt_get (keepsAt_unless (fun _ => ?_))
  dsimp only
  exact keepsAt_ite (fun _ => keepsAt_seq (keepsAt_set _ rfl) (fun _ Q => hrest Q))
    (fun _ => hrest P)

theorem claimLoad_counts (r : EntryRequest) (t : ReadToken)
    (reads : ClaimReads) : KeepsAt counts P (cacheClaimLoadLocked cfg m r t reads) := by
  refine keepsAt_unless (fun _ => keepsAt_get ?_)
  refine keepsAt_unless (fun _ => ?_)
  refine keepsAt_unless (fun _ => ?_)
  refine keepsAt_unless (fun _ => ?_)
  cases getCacheEntry P r with
  | none => exact keepsAt_pure _
  | some id =>
    exact keepsAt_unless (fun _ => claimFound_counts P cfg m id t reads)

theorem releaseLoad_counts (m : Mapping) (r : EntryRequest) (t : ReadToken) (loadId : ℕ) :
    KeepsAt counts P (cacheReleaseLoadLocked m r t loadId) := by
  unfold cacheReleaseLoadLocked
  refine keepsAt_get ?_
  cases getCacheEntry P r with
  | none => exact keepsAt_pure _
  | some id => exact keepsAt_ite (fun _ => keepsAt_set _ rfl) (fun _ => keepsAt_pure _)

theorem invalidateKey_counts (r : EntryRequest) (current : SlotReads) :
    KeepsAt counts P (cacheInvalidateKeyLocked cfg r current) := by
  unfold cacheInvalidateKeyLocked
  refine keepsAt_get ?_
  cases getCacheEntry P r with
  | none => exact keepsAt_pure _
  | some id => exact keepsAt_seq (retireEntry_counts P id) (fun _ _ => keepsAt_pure _)

theorem retireMalformed_counts (r : EntryRequest) (corrupt : ℕ)
    (fence : FenceReads) (current : SlotReads) :
    KeepsAt counts P (cacheRetireMalformedEntryLocked cfg m r corrupt fence current) := by
  refine keepsAt_get (keepsAt_unless (fun _ => ?_))
  refine keepsAt_unless (fun _ => ?_)
  exact keepsAt_seq (retireEntry_counts P corrupt) (fun _ _ => keepsAt_pure _)

theorem rebuildMarkerIndex_counts : KeepsAt counts P rebuildMarkerIndex :=
  keepsAt_get (keepsAt_unless
    (fun _ => keepsAt_seq (keepsAt_set _ rfl) (fun _ _ => keepsAt_pure _)))

theorem insertMarker_counts (r : MarkerRequest) (id : ℕ) : KeepsAt counts P (insertMarker r id) :=
  keepsAt_get (keepsAt_seq (keepsAt_set _ rfl) (fun _ _ => keepsAt_pure _))

theorem settleMarker_counts (r : MarkerRequest) (id : ℕ) (first : InsertResult) :
    KeepsAt counts P (settleMarker r id first) := by
  refine keepsAt_ite (fun _ => ?_) (fun _ => keepsAt_pure _)
  exact keepsAt_seq (rebuildMarkerIndex_counts P) (fun _ t =>
    keepsAt_ite (fun _ => insertMarker_counts t r id) (fun _ => keepsAt_pure _))

theorem takeMarker_counts (r : MarkerRequest) : KeepsAt counts P (takeMarker r) := by
  unfold takeMarker
  refine keepsAt_get ?_
  dsimp only
  refine keepsAt_unless (fun _ => ?_)
  cases markerKeyOffset P P.markerKeyFreeHead with
  | none => exact keepsAt_pure _
  | some offset =>
    refine keepsAt_unless (fun _ => ?_)
    refine keepsAt_seq (keepsAt_set _ rfl) (fun _ t => ?_)
    refine keepsAt_seq (insertMarker_counts t r _) (fun first t => ?_)
    refine keepsAt_seq (settleMarker_counts t r _ first) (fun _ t => ?_)
    refine keepsAt_ite (fun _ => ?_) (fun _ => ?_)
    · exact keepsAt_seq (keepsAt_modify _ rfl) (fun _ _ => keepsAt_pure _)
    · exact keepsAt_seq (keepsAt_modify _ rfl) (fun _ _ => keepsAt_pure _)

theorem reserveCacheMarker_counts (r : MarkerRequest) :
    KeepsAt counts P (reserveCacheMarker r) := by
  refine keepsAt_get (keepsAt_unless (fun _ => ?_))
  refine keepsAt_unless (fun _ => ?_)
  refine keepsAt_unless (fun _ => ?_)
  refine keepsAt_ite (fun _ => ?_) (fun _ => ?_)
  · refine keepsAt_unless (fun _ => ?_)
    exact keepsAt_seq (keepsAt_set _ rfl) (fun _ _ => keepsAt_pure _)
  refine keepsAt_unless (fun _ => ?_)
  refine keepsAt_ite (fun _ => ?_) (fun _ => takeMarker_counts P r)
  exact keepsAt_seq (rebuildMarkerIndex_counts P) (fun _ t =>
    keepsAt_ite (fun _ => takeMarker_counts t r) (fun _ => keepsAt_pure _))

theorem releaseCacheMarker_counts (id generation : ℕ) :
    KeepsAt counts P (releaseCacheMarker id generation) := by
  refine keepsAt_get (keepsAt_unless (fun _ => ?_))
  refine keepsAt_unless (fun _ => ?_)
  refine keepsAt_seq (keepsAt_set _ rfl) (fun _ t => ?_)
  refine keepsAt_unless (fun _ => keepsAt_get ?_)
  refine keepsAt_store _ rfl (keepsAt_ite (fun _ => keepsAt_throw _) (fun _ => ?_))
  refine keepsAt_store _ rfl (keepsAt_ite (fun _ => ?_) (fun _ => keepsAt_pure _))
  exact keepsAt_seq (rebuildMarkerIndex_counts _) (fun _ _ => keepsAt_pure _)

theorem reserveKey_counts (r : EntryRequest) (relationIncarnation : ℕ) :
    KeepsAt counts P (reserveKey r relationIncarnation) := by
  unfold reserveKey
  refine keepsAt_get ?_
  cases getCacheEntryWithCachedHash P r with
  | none =>
    refine keepsAt_seq (reserveCacheMarker_counts P _) (fun res t => ?_)
    cases res <;> exact keepsAt_pure _
  | some id =>
    refine keepsAt_unless (fun _ => ?_)
    refine keepsAt_seq (retireEntry_counts P id) (fun _ t => ?_)
    exact keepsAt_seq (keepsAt_modify _ rfl) (fun _ _ => keepsAt_pure _)

theorem publishKey_counts (r : EntryRequest) : KeepsAt counts P (publishKey r) := by
  unfold publishKey
  refine keepsAt_get ?_
  cases getCacheEntryWithCachedHash P r with
  | none => exact keepsAt_pure _
  | some id => exact keepsAt_seq (keepsAt_set _ rfl) (fun _ t => advanceVersion_counts t id)

theorem finishKey_counts (r : EntryRequest) : KeepsAt counts P (finishKey r) := by
  unfold finishKey
  refine keepsAt_get ?_
  cases getCacheEntryWithCachedHash P r with
  | none => exact keepsAt_pure _
  | some id => exact keepsAt_ite (fun _ => keepsAt_set _ rfl) (fun _ => keepsAt_pure _)

end Uncounted

/-- The books of one partition. -/
structure Books where
  counted : ℕ
  reserved : ℕ
  pending : ℕ
  deriving DecidableEq, Repr

def total (b : Books) : ℕ := b.counted+b.reserved+b.pending

def note : Access → Books → Books
  | .add _, b => { b with reserved := b.reserved+1 }
  | .undo, b => { b with reserved := b.reserved-1 }
  | .release, b =>
    if 0 < b.pending then { b with pending := b.pending-1 }
    else { b with reserved := b.reserved-1 }
  | .count, b => { b with counted := b.counted+1, reserved := b.reserved-1 }
  | .drop, b => { b with counted := b.counted-1, pending := b.pending+1 }

def Permitted (cap : ℕ) (b : Books) (P : Partition) : Access → Prop
  | .add _ => total b < cap ∧ P.freeEntryHead ≠ 0
  | .undo => 0 < b.reserved
  | .release => 0 < b.reserved+b.pending
  | .count => 0 < b.reserved
  | .drop => 0 < b.counted

structure Fits (cap : ℕ) (b : Books) (P : Partition) : Prop where
  counted : P.entryCount = b.counted
  capacity : P.capacity = cap
  room : total b ≤ cap

def Allowed (cap : ℕ) (b : Books) (e : Access × Partition) : Prop :=
  Permitted cap b e.2 e.1 ∧ Fits cap (note e.1 b) e.2

/-- The log so far leads from the opening books to the present ones. -/
structure Tracks (cap : ℕ) (b0 : Books) (s : Logged Partition Access) (reserved pending : ℕ) :
    Prop where
  fits : Fits cap ⟨s.1.entryCount,reserved,pending⟩ s.1
  follows : Follows note (Allowed cap) b0 s.2 ⟨s.1.entryCount,reserved,pending⟩

section Tracking

variable (cfg : Settings) (m : Mapping)
variable {cap reserved pending reserved' pending' : ℕ} {b0 : Books} {s : Logged Partition Access}
  {P P' : Partition} {log : List (Access × Partition)} {held : Option (ℕ × ℕ)} {α : Type}

theorem tracks_access (ht : Tracks cap b0 (P,log) reserved pending) (k : Access)
    (hk : Permitted cap ⟨P.entryCount,reserved,pending⟩ P' k)
    (hnote : note k ⟨P.entryCount,reserved,pending⟩ = ⟨P'.entryCount,reserved',pending'⟩)
    (hcap : P'.capacity = P.capacity) (hroom : P'.entryCount+reserved'+pending' ≤ cap) :
    Tracks cap b0 (P',log++[(k,P')]) reserved' pending' := by
  have hfits : Fits cap ⟨P'.entryCount,reserved',pending'⟩ P' :=
    ⟨rfl,hcap.trans ht.fits.capacity,hroom⟩
  refine ⟨hfits,?_⟩
  have h := follows_snoc (e := (k,P')) ht.follows ⟨hk,by rw [hnote]; exact hfits⟩
  rw [hnote] at h
  exact h

theorem tracks_same (ht : Tracks cap b0 (P,log) reserved pending) (h : counts P' = counts P) :
    Tracks cap b0 (P',log) reserved pending := by
  obtain ⟨h1,h2⟩ := Prod.mk.inj h
  obtain ⟨⟨-,hcap,hroom⟩,hf⟩ := ht
  simp only at hcap hroom hf
  rw [← h1] at hroom hf
  exact ⟨⟨rfl,h2.trans hcap,hroom⟩,hf⟩

theorem tracks_quiet {x : CacheM α} (ht : Tracks cap b0 s reserved pending)
    (hx : KeepsAt counts s.1 x) : Ensures (quiet x) s
      (fun _ t => Tracks cap b0 t reserved pending)
      (fun _ t => Tracks cap b0 t reserved pending) :=
  (ensures_quiet x).mpr (ensures_mono hx (fun _ _ h => tracks_same ht h)
    (fun _ _ h => tracks_same ht h))

theorem tracks_and {x : CountM α} {y : CacheM α} (h : Erases x y) {Q : α → Partition → Prop}
    {E : Fault → Partition → Prop} (hy : Ensures y s.1 Q E)
    {R : α → Logged Partition Access → Prop} {F : Fault → Logged Partition Access → Prop}
    (hx : Ensures x s R F) : Ensures x s (fun a t => Q a t.1 ∧ R a t) F :=
  ensures_mono (ensures_and (ensures_erases h hy) hx) (fun _ _ h => h) (fun _ _ h => h.2)

theorem live_counted {id : ℕ} {extra : Option ℕ} (hr : EntryRep P held extra) (hl : Live P id) :
    0 < P.entryCount := by
  have := removed_count (e := retiredEntry (P.entries id) P.freeEntryHead) rfl hl
  have := hr.count
  omega

theorem tracks_removed (ht : Tracks cap b0 (P,log) reserved 0) (hpos : 0 < P.entryCount)
    (hcount : P'.entryCount = P.entryCount-1) (hcap : P'.capacity = P.capacity) :
    Tracks cap b0 (P',log++[(.drop,P')]++[(.release,P')]) reserved 0 := by
  have hroom := ht.fits.room
  simp only [total] at hroom
  have hdrop : Tracks cap b0 (P',log++[(.drop,P')]) reserved 1 :=
    tracks_access ht .drop hpos (by rw [note, hcount]) hcap (by omega)
  exact tracks_access hdrop .release (Nat.succ_pos _) (by simp [note]) rfl (by omega)

theorem remove_tracks (id : ℕ) (hr : EntryRep s.1 held none)
    (ht : Tracks cap b0 s reserved 0) :
    Ensures (CountedSections.cacheEntryRemoveLocked id) s
      (fun _ t => Tracks cap b0 t reserved 0) (fun _ t => Tracks cap b0 t reserved 0) := by
  obtain ⟨P,log⟩ := s
  unfold CountedSections.cacheEntryRemoveLocked CountedSections.releaseCacheEntry
  simp only [ensures_bind, ensures_quiet, ensures_get]
  split
  · exact ht
  rename_i hid
  split
  · exact ht
  rename_i huse
  have hl : Live P id := ⟨fun h => hid (Or.inl h),by omega,by simpa using huse⟩
  split
  · exact ht
  rcases indexRemove P.index (idCallbacks P) (P.entries id).keyHash (removalQuery (P.entries id) id)
    with ⟨removed,index,q⟩
  simp only [ensures_bind, ensures_quiet, ensures_set]
  split
  · exact tracks_same ht rfl
  rcases arenaFree P.arena (P.entries id).blockRef (P.entries id).blockLen with ⟨freed,arena⟩
  simp only [ensures_bind, ensures_quiet, ensures_set]
  split
  · exact tracks_same ht rfl
  set P1 : Partition := removedState P id (retiredEntry (P.entries id) P.freeEntryHead) index arena
    with hP1
  have hdone : Tracks cap b0 (P1,log++[(.drop,P1)]++[(.release,P1)]) reserved 0 :=
    tracks_removed ht (live_counted hr hl) rfl rfl
  simp only [ensures_bind, ensures_quiet, ensures_set, ensures_emit]
  split
  · exact ensures_seq (tracks_quiet hdone (rebuildCacheIndex_counts P1)) (fun _ _ h => h)
  · exact hdone

theorem removeVictims_tracks (ids : List ℕ) (n : ℕ) (hr : EntryRep s.1 held none)
    (ht : Tracks cap b0 s reserved 0) :
    Ensures (CountedSections.removeVictims ids n) s
      (fun _ t => Tracks cap b0 t reserved 0) (fun _ t => Tracks cap b0 t reserved 0) := by
  induction ids generalizing n s with
  | nil => exact ht
  | cons id ids ih =>
    have hrep : Ensures (cacheEntryRemoveLocked id) s.1 (fun _ P' => EntryRep P' held none)
        Exhausted := by
      by_cases hl : Live s.1 id
      · exact ensures_imp (remove_spec hr hl) (fun _ _ h => h.2.1)
      · exact ensures_imp (remove_dead hl) (fun _ _ h => h.2 ▸ hr)
    refine ensures_seq (tracks_and (CountedSections.remove_erases id) hrep
      (remove_tracks id hr ht)) ?_
    rintro gone t ⟨hr',ht'⟩
    exact ih _ hr' ht'

theorem evict_tracks (required excluded : ℕ) (env : EvictEnv)
    (hr : EntryRep s.1 held none) (ht : Tracks cap b0 s reserved 0) :
    Ensures (CountedSections.evictCacheEntries cfg required excluded env) s
      (fun _ t => Tracks cap b0 t reserved 0) (fun _ t => Tracks cap b0 t reserved 0) := by
  unfold CountedSections.evictCacheEntries
  rw [ensures_bind, ensures_quiet, ensures_get]
  refine ensures_seq (tracks_and (erases_quiet _) (scanEntries_spec cfg env required
    s.1.evictionBucketCursor 0 _ ⟨[],[]⟩ hr (show Evictable s.1 excluded _ by
      simp [Evictable, picked])) (tracks_quiet ht (scanEntries_counts _ _ _ _ _ _ _ _ _))) ?_
  rintro st t ⟨hscan,ht'⟩
  simp only [ensures_bind, ensures_quiet, ensures_modify]
  exact removeVictims_tracks _ _ (cursor_rep hscan.rep _) (tracks_same ht' rfl)

theorem evict_both (required excluded : ℕ) (env : EvictEnv)
    (hr : EntryRep s.1 held none) (ht : Tracks cap b0 s reserved 0) :
    Ensures (CountedSections.evictCacheEntries cfg required excluded env) s
      (fun n t => (EntryRep t.1 held none ∧ Trimmed s.1 t.1 excluded ∧
        t.1.entryCount+n = s.1.entryCount) ∧ Tracks cap b0 t reserved 0)
      (fun _ t => Tracks cap b0 t reserved 0) :=
  tracks_and (CountedSections.evict_erases cfg required excluded env)
    (evict_spec cfg required env hr) (evict_tracks cfg required excluded env hr ht)

theorem allocOrEvict_tracks (len excluded : ℕ) (env : ℕ → EvictEnv) (n i : ℕ)
    (hr : EntryRep s.1 none none) (ht : Tracks cap b0 s reserved 0) :
    Ensures (CountedSections.allocOrEvict cfg len excluded env n i) s
      (fun _ t => Tracks cap b0 t reserved 0) (fun _ t => Tracks cap b0 t reserved 0) := by
  induction n generalizing i s with
  | zero => exact ht
  | succ n ih =>
    unfold CountedSections.allocOrEvict
    rw [ensures_bind, ensures_quiet, ensures_get]
    rcases alloc_step hr len with ⟨ref,size,a,h1,-,-,-⟩ | h
    · rw [h1]
      exact tracks_same ht rfl
    · rw [h]
      simp only [ensures_bind, ensures_quiet, ensures_set]
      refine ensures_imp (evict_both cfg (arenaClassSize len) excluded (env i) hr ht) ?_
      rintro m t ⟨⟨hr',-,-⟩,ht'⟩
      by_cases hm : m = 0
      · rw [if_pos hm]
        exact ht'
      · rw [if_neg hm]
        exact ih (i+1) hr' ht'

theorem head_of_removed {n : ℕ} (hr : EntryRep P held none) (hr' : EntryRep P' held none)
    (hcap : P'.capacity = P.capacity) (hcount : P'.entryCount+n = P.entryCount) (hn : n ≠ 0) :
    P'.freeEntryHead ≠ 0 := by
  have := entryCount_le hr
  exact head_of_room hr' (by omega)

theorem room_of_head (hr : EntryRep P held none) (hz : P.freeEntryHead ≠ 0) :
    P.entryCount < P.capacity := by
  have hcount : P.entryCount+1 = FreeChain.tally (fun i =>
      (Function.update P.entries P.freeEntryHead { freshEntry blankRequest 0 with
        version := P.entryGeneration+1 } (i+1)).inUse) P.capacity :=
    installed_count hr (FreeChain.lists_head_free hr.free hz)
  have := FreeChain.tally_le (fun i => (Function.update P.entries P.freeEntryHead
    { freshEntry blankRequest 0 with version := P.entryGeneration+1 } (i+1)).inUse) P.capacity
  omega

theorem ensureDescriptor_tracks (ref len : ℕ) (env : EvictEnv)
    (hr : EntryRep s.1 (some (ref,len)) none) (ht : Tracks cap b0 s reserved 0) :
    Ensures (CountedSections.ensureDescriptor cfg ref len env) s
      (fun ok t => Tracks cap b0 t reserved 0 ∧ (ok = true → t.1.freeEntryHead ≠ 0))
      (fun _ t => Tracks cap b0 t reserved 0) := by
  unfold CountedSections.ensureDescriptor
  rw [ensures_bind, ensures_quiet, ensures_get]
  by_cases hz : s.1.freeEntryHead ≠ 0
  · rw [if_pos hz]
    exact ⟨ht,fun _ => hz⟩
  · rw [if_neg hz]
    refine ensures_seq (evict_both cfg 0 0 env hr ht) ?_
    rintro m t ⟨⟨hr',htrim,hcount⟩,ht'⟩
    by_cases hm : m = 0
    · rw [if_pos hm]
      exact ensures_seq (tracks_quiet ht' (releaseUnindexed_counts t.1 ref len))
        (fun _ _ h => ⟨h,fun he => nomatch he⟩)
    · rw [if_neg hm]
      exact ⟨ht',fun _ => head_of_removed hr hr' htrim.capacity hcount hm⟩

theorem reserveLoop_tracks (ref len : ℕ) (env : ℕ → EvictEnv) (grant : ℕ → Bool)
    (n i : ℕ) (hr : EntryRep s.1 (some (ref,len)) none) (hz : s.1.freeEntryHead ≠ 0)
    (ht : Tracks cap b0 s 0 0) :
    Ensures (CountedSections.reserveLoop cfg ref len env grant n i) s
      (fun ok t => Tracks cap b0 t (if ok then 1 else 0) 0) (fun _ t => Tracks cap b0 t 0 0) := by
  induction n generalizing i s with
  | zero => exact ht
  | succ n ih =>
    obtain ⟨P,log⟩ := s
    have hroom := room_of_head hr hz
    have hcap := ht.fits.capacity
    simp only at hroom hcap
    have hadd : Tracks cap b0 (P,log++[(.add (grant i),P)]) 1 0 :=
      tracks_access ht _ ⟨by simp only [total]; omega,hz⟩ rfl rfl (by omega)
    unfold CountedSections.reserveLoop CountedSections.reserveCacheEntry
    simp only [ensures_bind, ensures_emit]
    cases hg : grant i with
    | true =>
      rw [hg] at hadd
      exact hadd
    | false =>
      rw [hg] at hadd
      have hundo : Tracks cap b0 (P,log++[(.add false,P)]++[(.undo,P)]) 0 0 :=
        tracks_access hadd .undo (Nat.succ_pos _) rfl rfl (by omega)
      simp only [Bool.false_eq_true, if_false, ensures_bind, ensures_emit, ensures_pure]
      refine ensures_imp (evict_both cfg 0 0 (env i) hr hundo) ?_
      rintro m t ⟨⟨hr',htrim,hcount⟩,ht'⟩
      by_cases hm : m = 0
      · rw [if_pos hm]
        exact ensures_seq (tracks_quiet ht' (releaseUnindexed_counts t.1 ref len))
          (fun _ _ h => h)
      · rw [if_neg hm]
        exact ih (i+1) hr' (head_of_removed hr hr' htrim.capacity hcount hm) ht'

theorem installDescriptor_tracks (r : EntryRequest) (ref : ℕ)
    (hr : EntryRep s.1 (some (ref,r.keyLen)) none) (ht : Tracks cap b0 s 1 0) :
    Ensures (CountedSections.installDescriptor r ref) s (fun _ t => Tracks cap b0 t 0 0)
      (fun _ t => Tracks cap b0 t 1 0) := by
  obtain ⟨P,log⟩ := s
  have hroom := ht.fits.room
  simp only [total] at hroom
  unfold CountedSections.installDescriptor CountedSections.releaseCacheEntry
  simp only [ensures_bind, ensures_quiet, ensures_get]
  split
  · refine ensures_seq (tracks_quiet ht (dropBlock_counts P ref r.keyLen)) ?_
    rintro _ ⟨Q,log'⟩ ht'
    have hroom' := ht'.fits.room
    simp only [total] at hroom'
    exact tracks_access ht' .release (Nat.succ_pos _) (by simp [note]) rfl (by simp only; omega)
  · obtain ⟨req,hs,ho⟩ := hr.blocks
    have hreq := (ho.held ref r.keyLen rfl).1
    have hblock : arenaBlock P.arena ref = some ref :=
      arenaBlock_live hs.toCore ref (by simp [hreq])
    simp only [ensures_bind, ensures_quiet, ensures_set]
    refine ensures_mono (advanceVersion_exact _ _) ?_ ?_
    · rintro _ Q rfl
      simp only [ensures_bind, ensures_quiet, ensures_get, bumpedState, hblock, ensures_set,
        ensures_emit, ensures_pure]
      exact tracks_access ht .count Nat.one_pos rfl rfl (by simp only; omega)
    · rintro e Q ⟨-,rfl,-⟩
      exact tracks_same ht rfl

theorem rejectDescriptor_tracks (ref len id : ℕ) (hr : EntryRep s.1 none (some id))
    (hl : Live s.1 id) (ht : Tracks cap b0 s 0 0) :
    Ensures (CountedSections.rejectDescriptor ref len id) s (fun _ t => Tracks cap b0 t 0 0)
      (fun _ t => Tracks cap b0 t 0 0) := by
  obtain ⟨P,log⟩ := s
  unfold CountedSections.rejectDescriptor CountedSections.releaseCacheEntry rejectDescriptor
  simp only [ensures_bind, ensures_quiet, ensures_get]
  rcases arenaFree P.arena ref len with ⟨freed,arena⟩
  simp only [ensures_set]
  split
  · exact tracks_same ht rfl
  · exact tracks_removed ht (live_counted hr hl) rfl rfl

variable {r : EntryRequest}

/-- The last part of an admission: a reserved place is counted, or given back. -/
theorem installed_tracks (ref : ℕ) (hr : EntryRep s.1 (some (ref,r.keyLen)) none)
    (hq : RequestOk r) (hnew : ∀ x, Live s.1 x → entryId s.1 x ≠ requestId r)
    (ht : Tracks cap b0 s 1 0) :
    Ensures (do
      match ← CountedSections.installDescriptor r ref with
      | none => return none
      | some id =>
        let indexed ← quiet (indexDescriptor r id)
        if indexed then return some id
        else
          CountedSections.rejectDescriptor ref r.keyLen id
          return none) s (fun _ t => Tracks cap b0 t 0 0)
      (fun _ t => ∃ reserved, Tracks cap b0 t reserved 0) := by
  refine ensures_seq (ensures_mono (tracks_and (CountedSections.installDescriptor_erases r ref)
    (installDescriptor_spec r ref hr hq hnew) (installDescriptor_tracks r ref hr ht))
    (fun _ _ h => h) (fun _ _ h => ⟨1,h⟩)) ?_
  rintro (_ | id) t ⟨hmade,ht'⟩
  · exact ht'
  obtain ⟨h1,-,-,h4,h5,-,-⟩ := hmade
  refine ensures_seq (ensures_mono (tracks_and (E := Exhausted) (erases_quiet _)
    (indexDescriptor_spec r h1 hq h4 h5) (tracks_quiet ht' (indexDescriptor_counts t.1 r id)))
    (fun _ _ h => h) (fun _ _ h => ⟨0,h⟩)) ?_
  rintro (_ | _) ⟨P,log⟩ ⟨⟨hrep,ix,hP⟩,ht''⟩
  · have hl : Live P id := by
      simp only at hP
      rw [hP]
      exact h4
    exact ensures_seq (ensures_mono (rejectDescriptor_tracks ref r.keyLen id hrep hl ht'')
      (fun _ _ h => h) (fun _ _ h => ⟨0,h⟩)) (fun _ _ h => h)
  · exact ht''

theorem admitBlock_tracks (env : AdmissionEnv) (ref : ℕ)
    (hr : EntryRep s.1 (some (ref,r.keyLen)) none) (hq : RequestOk r)
    (hnew : ∀ x, Live s.1 x → entryId s.1 x ≠ requestId r) (ht : Tracks cap b0 s 0 0) :
    Ensures (CountedSections.admitBlock cfg r env ref) s (fun _ t => Tracks cap b0 t 0 0)
      (fun _ t => ∃ reserved, Tracks cap b0 t reserved 0) := by
  unfold CountedSections.admitBlock
  rw [ensures_bind, ensures_quiet, ensures_get]
  refine ensures_seq (ensures_mono (tracks_and
    (CountedSections.ensureDescriptor_erases cfg ref r.keyLen env.headEvict)
    (ensureDescriptor_spec cfg ref r.keyLen env.headEvict hr)
    (ensureDescriptor_tracks cfg ref r.keyLen env.headEvict hr ht)) (fun _ _ h => h)
    (fun _ _ h => ⟨0,h⟩)) ?_
  rintro (_ | _) t ⟨⟨hrep,htrim⟩,ht',hz⟩
  · exact ht'
  have hcount := entryCount_le hrep
  rw [htrim.capacity] at hcount
  refine ensures_seq (ensures_mono (tracks_and (CountedSections.reserveLoop_erases cfg ref r.keyLen
    env.reserveEvict env.reserveGrant (s.1.capacity+1) 0) (reserveLoop_spec cfg ref r.keyLen
    env.reserveEvict env.reserveGrant (s.1.capacity+1) 0 hrep (by omega))
    (reserveLoop_tracks cfg ref r.keyLen env.reserveEvict env.reserveGrant (s.1.capacity+1) 0 hrep
      (hz rfl) ht')) (fun _ _ h => h) (fun _ _ h => ⟨0,h⟩)) ?_
  rintro (_ | _) u ⟨⟨hrep',htrim'⟩,ht''⟩
  · exact ht''
  have hnew' := absent_trimmed hr (trimmed_trans htrim htrim') hnew
  exact installed_tracks ref hrep' hq hnew' ht''

theorem admitEntry_tracks (env : AdmissionEnv) (hr : EntryRep s.1 none none)
    (hq : RequestOk r) (hnew : ∀ x, Live s.1 x → entryId s.1 x ≠ requestId r)
    (ht : Tracks cap b0 s 0 0) :
    Ensures (CountedSections.admitEntry cfg r env) s (fun _ t => Tracks cap b0 t 0 0)
      (fun _ t => ∃ reserved, Tracks cap b0 t reserved 0) := by
  unfold CountedSections.admitEntry
  refine ensures_seq (ensures_mono (tracks_and (E := Exhausted) (erases_quiet _) (tidyIndex_spec hr)
    (tracks_quiet ht (tidyIndex_counts s.1))) (fun _ _ h => h) (fun _ _ h => ⟨0,h⟩)) ?_
  rintro ready ⟨P,log⟩ ⟨⟨hrep,ix,hP⟩,ht'⟩
  simp only at hP
  have htrim : Trimmed s.1 P 0 := hP ▸ index_trimmed s.1 ix 0
  cases ready with
  | false => exact ht'
  | true =>
    simp only [Bool.not_true, Bool.false_eq_true, if_false, ensures_bind, ensures_quiet,
      ensures_get]
    split
    · exact ht'
    have hcount := entryCount_le hrep
    refine ensures_seq (ensures_mono (tracks_and (CountedSections.allocOrEvict_erases cfg r.keyLen 0
      env.allocEvict (P.capacity+1) 0) (allocOrEvict_spec cfg r.keyLen env.allocEvict (P.capacity+1)
      0 hrep (Nat.lt_succ_of_le hcount)) (allocOrEvict_tracks cfg r.keyLen 0 env.allocEvict
      (P.capacity+1) 0 hrep ht')) (fun _ _ h => h) (fun _ _ h => ⟨0,h⟩)) ?_
    rintro (_ | ⟨ref,size⟩) t ⟨⟨htrim',hres⟩,ht''⟩
    · exact ht''
    · exact admitBlock_tracks cfg env ref hres.2 hq
        (absent_trimmed hr (trimmed_trans htrim htrim') hnew) ht''

theorem getCacheEntryInternal_tracks (cached create : Bool) (env : AdmissionEnv)
    (hr : EntryRep s.1 none none) (hq : RequestOk r) (ht : Tracks cap b0 s 0 0) :
    Ensures (CountedSections.getCacheEntryInternal cfg r cached create env) s
      (fun _ t => Tracks cap b0 t 0 0) (fun _ t => ∃ reserved, Tracks cap b0 t reserved 0) := by
  unfold CountedSections.getCacheEntryInternal
  rw [ensures_bind, ensures_quiet, ensures_get]
  split
  · exact ht
  rcases lookupEntry_cases hr r hq with ⟨id,h1,-,-⟩ | ⟨h1,h2⟩
  · simp only [h1]
    rw [if_pos (by simp)]
    exact ht
  · simp only [h1]
    split
    · exact ht
    · exact ensures_seq (admitEntry_tracks cfg env hr hq h2 ht) (fun _ _ h => h)

theorem lookup_tracks (valueCapacity : ℕ) (create : Bool)
    (env : AdmissionEnv) (reads : LookupReads) (hr : EntryRep s.1 none none) (hq : RequestOk r)
    (ht : Tracks cap b0 s 0 0) :
    Ensures (CountedSections.cacheLookupLocked cfg m r valueCapacity create env reads) s
      (fun _ t => Tracks cap b0 t 0 0) (fun _ t => ∃ reserved, Tracks cap b0 t reserved 0) := by
  unfold CountedSections.cacheLookupLocked
  split
  · exact ht
  refine ensures_seq (getCacheEntryInternal_tracks cfg false create env hr hq ht) ?_
  rintro ⟨found,corrupt⟩ t ht'
  exact ensures_mono (tracks_quiet ht' (lookupFound_counts t.1 cfg m valueCapacity reads found
    corrupt)) (fun _ _ h => h) (fun _ _ h => ⟨0,h⟩)

theorem growStore_tracks (id oldRef oldLen newBlockLen : ℕ)
    (args : StoreArgs) (reads : StoreReads) (hr : EntryRep s.1 none none)
    (ht : Tracks cap b0 s 0 0) :
    Ensures (CountedSections.growStore cfg m id oldRef oldLen newBlockLen args reads) s
      (fun _ t => Tracks cap b0 t 0 0) (fun _ t => Tracks cap b0 t 0 0) := by
  unfold CountedSections.growStore
  rw [ensures_bind, ensures_quiet, ensures_get]
  refine ensures_seq
    (allocOrEvict_tracks cfg newBlockLen id reads.evict (s.1.capacity+1) 0 hr ht) ?_
  rintro (_ | ⟨newRef,newClass⟩) t ht'
  · exact tracks_quiet ht' (abandonStore_counts t.1 id false)
  · exact tracks_quiet ht' (growFill_counts t.1 _ _ _ _ _ _ _ _ _ _)

theorem storeInto_tracks (id : ℕ) (args : StoreArgs)
    (reads : StoreReads) (hr : EntryRep s.1 none none) (ht : Tracks cap b0 s 0 0) :
    Ensures (CountedSections.storeInto cfg m id args reads) s
      (fun _ t => Tracks cap b0 t 0 0) (fun _ t => Tracks cap b0 t 0 0) := by
  have hgive := tracks_quiet ht (abandonStore_counts s.1 id true)
  unfold CountedSections.storeInto
  rw [ensures_bind, ensures_quiet, ensures_get]
  dsimp only
  split
  · exact hgive
  split
  · exact hgive
  split
  · exact growStore_tracks cfg m id _ _ _ args reads hr ht
  · exact tracks_quiet ht (resizeStore_counts s.1 _ _ _ _ _ _)

theorem store_tracks (args : StoreArgs) (configGeneration : ℕ)
    (reads : StoreReads) (hr : EntryRep s.1 none none) (ht : Tracks cap b0 s 0 0) :
    Ensures (CountedSections.cacheStore cfg m r args configGeneration reads) s
      (fun _ t => Tracks cap b0 t 0 0) (fun _ t => Tracks cap b0 t 0 0) := by
  unfold CountedSections.cacheStore CountedSections.cacheStoreLocked
  split
  · rw [ensures_bind, ensures_quiet, ensures_get]
    cases getCacheEntry s.1 r with
    | none => exact ht
    | some id =>
      dsimp only
      split
      · exact storeInto_tracks cfg m id args reads hr ht
      · exact ht
  · exact ht

/-- Every section follows the books; one that raises may keep a reservation. -/
theorem runOp_tracks (hash : KeyTuple → ℕ) (op : PartOp) (h : PartRep s.1)
    (ht : Tracks cap b0 s 0 0) :
    Ensures (CountedSections.runOp cfg hash op) s (fun _ t => Tracks cap b0 t 0 0)
      (fun _ t => ∃ reserved, Tracks cap b0 t reserved 0) := by
  have hr := h.entries
  -- The sections that make no access leave both counts as they are.
  have hquiet : ∀ {β : Type} {x : CacheM β} (res : β → OpResult), KeepsAt counts s.1 x →
      Ensures (quiet (x >>= fun a => pure (res a))) s (fun _ t => Tracks cap b0 t 0 0)
        (fun _ t => ∃ reserved, Tracks cap b0 t reserved 0) := fun res hx =>
    ensures_mono (tracks_quiet ht (keepsAt_seq hx (fun _ _ => keepsAt_pure _))) (fun _ _ h => h)
      (fun _ _ h => ⟨0,h⟩)
  cases op with
  | lookup m t valueCapacity create env reads =>
    exact ensures_seq (lookup_tracks cfg m valueCapacity create env reads hr (requestOf_ok hash t)
      ht) (fun _ _ h => h)
  | store m t args configGeneration reads =>
    exact ensures_seq (ensures_mono (store_tracks cfg m args configGeneration reads hr ht)
      (fun _ _ h => h) (fun _ _ h => ⟨0,h⟩)) (fun _ _ h => h)
  | evict required excluded env =>
    exact ensures_seq (ensures_mono (evict_tracks cfg required excluded env hr ht) (fun _ _ h => h)
      (fun _ _ h => ⟨0,h⟩)) (fun _ _ h => h)
  | remove id =>
    exact ensures_seq (ensures_mono (remove_tracks id hr ht) (fun _ _ h => h)
      (fun _ _ h => ⟨0,h⟩)) (fun _ _ h => h)
  | claim m t token reads => exact hquiet _ (claimLoad_counts s.1 _ _ _ _ _)
  | release m t token loadId => exact hquiet _ (releaseLoad_counts s.1 _ _ _ _)
  | invalidateKey t current => exact hquiet _ (invalidateKey_counts s.1 _ _ _)
  | retireMalformed m t corrupt fence current =>
    exact hquiet _ (retireMalformed_counts s.1 _ _ _ _ _ _)
  | reserve t relationIncarnation => exact hquiet _ (reserveKey_counts s.1 _ _)
  | publish t => exact hquiet _ (publishKey_counts s.1 _)
  | finish t => exact hquiet _ (finishKey_counts s.1 _)
  | releaseMarker id generation => exact hquiet _ (releaseCacheMarker_counts s.1 _ _)
  | rebuildEntries => exact hquiet _ (rebuildCacheIndex_counts s.1)
  | rebuildMarkers => exact hquiet _ (rebuildMarkerIndex_counts s.1)

end Tracking

end PgLocalCache.SectionCounts
