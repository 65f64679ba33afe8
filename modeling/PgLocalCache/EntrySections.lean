import PgLocalCache.EntryStore

/-!
# What the other sections do to the descriptor table

One statement for each section of a reader or writer: which descriptor it works
on, what becomes of that descriptor, and what its answer says about the state it
was given.
-/

namespace PgLocalCache.EntrySections

open CacheState CacheEntries CacheAdmission CacheOperations Outcome
open EntryInvariant EntryRemoval EntryEviction EntryStore

variable {P P' : Partition} {id : ℕ}

/-- A section replaced one descriptor record and added neither a value nor a lease. -/
structure Touched (P P' : Partition) (id : ℕ) : Prop where
  rep : EntryRep P' none none
  besides : Besides P P' id
  live : Live P id
  live' : Live P' id
  lapse : Lapse P P' id

theorem touched_set (hr : EntryRep P none none) (hl : Live P id) (e : CacheEntry)
    (h : EntryLapse P.entryGeneration e (P.entries id)) (hv : e.version ≤ P.entryGeneration) :
    Touched P (setEntry P id e) id := by
  have hsoft := soft_set P id e h.hard
  exact ⟨entryRep_set hr e h.hard hv,set_besides P id e,hl,(soft_live hsoft id).mpr hl,
    lapse_of_soft hsoft (by rw [setEntry_self]; exact h)⟩

theorem bumped_besides (P : Partition) (id : ℕ) (e : CacheEntry) :
    Besides P (bumpedState P id e) id :=
  ⟨sameMarkers_refl P,rfl,Nat.le_succ _,fun x hx => bumped_other P id e x hx,fun _ _ _ _ _ => rfl⟩

theorem touched_bumped (hr : EntryRep P none none) (hl : Live P id) (e : CacheEntry)
    (h : EntryLapse P.entryGeneration e (P.entries id)) (hv : e.version ≤ P.entryGeneration+1) :
    Touched P (bumpedState P id e) id := by
  have hsoft := bumped_soft P id e h.hard
  exact ⟨bumped_rep hr e h.hard hv,bumped_besides P id e,hl,(soft_live hsoft id).mpr hl,
    lapse_of_soft hsoft (by rw [bumped_self]; exact h)⟩

def retiredRecord (e : CacheEntry) (version : ℕ) : CacheEntry :=
  { e with
    valid := false
    loading := false
    loadId := bump64 e.loadId
    version := version
    sourceXmin := 0
    sourceObservedFullXid := 0 }

theorem fresh_version_lapse (generation : ℕ) (e' e : CacheEntry) (hard : HardEq e' e)
    (hvalid : e'.valid = false) (hload : e'.loading = false) (hv : generation < e'.version)
    (he : e.version ≤ generation) : EntryLapse generation e' e := by
  refine ⟨hard,fun h => ?_,fun h => ?_,Or.inr hv,fun h => by omega⟩
  · rw [hvalid] at h
    simp at h
  · rw [hload] at h
    simp at h

theorem retireEntry_spec (P : Partition) (id : ℕ) :
    Ensures (retireEntry id) P (fun _ P' =>
      P' = bumpedState P id (retiredRecord (P.entries id) (P.entryGeneration+1))) Exhausted := by
  unfold retireEntry
  simp only [ensures_bind, ensures_modify]
  refine ensures_imp (advanceVersion_spec _ _) ?_
  rintro _ P1 rfl
  simp [bumpedState, setEntry, retiredRecord]

theorem retired_touched (hr : EntryRep P none none) (hl : Live P id) :
    Touched P (bumpedState P id (retiredRecord (P.entries id) (P.entryGeneration+1))) id :=
  touched_bumped hr hl _ (fresh_version_lapse _ _ _ (by constructor <;> rfl) rfl rfl
    (Nat.lt_succ_self _) (hr.versions id hl)) (le_refl _)

theorem retireMalformed_spec (cfg : Settings) (m : Mapping) (r : EntryRequest) (corrupt : ℕ)
    (fence : FenceReads) (current : SlotReads) (hr : EntryRep P none none) :
    Ensures (cacheRetireMalformedEntryLocked cfg m r corrupt fence current) P (fun _ P' =>
      P' = P ∨ Touched P P' corrupt ∧
        (P'.entries corrupt).dirtyWriters = (P.entries corrupt).dirtyWriters) Exhausted := by
  unfold cacheRetireMalformedEntryLocked
  simp only [ensures_bind, ensures_get]
  split
  · exact Or.inl rfl
  rename_i hbound
  split
  · exact Or.inl rfl
  rename_i hguard
  simp only [not_or] at hguard hbound
  have hl : Live P corrupt := ⟨hbound.1,by omega,by simpa using hguard.1⟩
  refine ensures_seq (retireEntry_spec P corrupt) ?_
  rintro _ P' rfl
  exact Or.inr ⟨retired_touched hr hl,by rw [bumped_self]; rfl⟩

/-- A key invalidation gives the descriptor of the key a new version and clears it. -/
theorem invalidateKey_spec (cfg : Settings) (r : EntryRequest) (current : SlotReads)
    (hr : EntryRep P none none) (hq : RequestOk r) :
    Ensures (cacheInvalidateKeyLocked cfg r current) P (fun _ P' =>
      (P' = P ∧ getCacheEntry P r = none) ∨ ∃ id, entryId P id = requestId r ∧ Touched P P' id ∧
        P' = bumpedState P id (retiredRecord (P.entries id) (P.entryGeneration+1)))
      Exhausted := by
  unfold cacheInvalidateKeyLocked
  simp only [ensures_bind, ensures_get]
  cases hfind : getCacheEntry P r with
  | none => exact Or.inl ⟨rfl,rfl⟩
  | some id =>
    obtain ⟨hl,hid⟩ := getCacheEntry_some hr r hq id hfind
    simp only [ensures_bind]
    refine ensures_imp (retireEntry_spec P id) ?_
    rintro _ P' rfl
    exact Or.inr ⟨id,hid,retired_touched hr hl,rfl⟩

theorem bumped_set (P : Partition) (id : ℕ) (e e' : CacheEntry) :
    bumpedState (setEntry P id e) id e' = bumpedState P id e' := by
  simp [bumpedState, setEntry]

def publishedRecord (e : CacheEntry) (version : ℕ) : CacheEntry :=
  { e with valid := false, loading := false, loadId := bump64 e.loadId, version := version }

theorem publishKey_spec (r : EntryRequest) (hr : EntryRep P none none) (hq : RequestOk r) :
    Ensures (publishKey r) P (fun _ P' =>
      (P' = P ∧ getCacheEntryWithCachedHash P r = none) ∨
      ∃ id, entryId P id = requestId r ∧ Touched P P' id ∧
        P' = bumpedState P id (publishedRecord (P.entries id) (P.entryGeneration+1)))
      Exhausted := by
  unfold publishKey
  simp only [ensures_bind, ensures_get]
  cases hfind : getCacheEntryWithCachedHash P r with
  | none => exact Or.inl ⟨rfl,rfl⟩
  | some id =>
    obtain ⟨hl,hid⟩ := getCached_some hr r hq id hfind
    simp only [ensures_bind, ensures_set]
    refine ensures_imp (advanceVersion_spec _ _) ?_
    intro _ P' hP'
    rw [bumped_set, setEntry_self] at hP'
    subst hP'
    exact Or.inr ⟨id,hid,touched_bumped hr hl _ (fresh_version_lapse _ _ _ (by constructor <;> rfl)
      rfl rfl (Nat.lt_succ_self _) (hr.versions id hl)) (le_refl _),rfl⟩

def finishedRecord (e : CacheEntry) : CacheEntry :=
  { e with valid := false, dirtyWriters := e.dirtyWriters-1 }

theorem finished_lapse (generation : ℕ) (e : CacheEntry) :
    EntryLapse generation (finishedRecord e) e := by
  refine ⟨by constructor <;> rfl,fun h => ?_,fun _ => by constructor <;> rfl,Or.inl rfl,
    fun _ => ⟨0,by omega,rfl⟩⟩
  simp [finishedRecord] at h

theorem finishKey_spec (r : EntryRequest) (hr : EntryRep P none none) (hq : RequestOk r) :
    Ensures (finishKey r) P (fun _ P' =>
      (P' = P ∧ ∀ id, getCacheEntryWithCachedHash P r = some id →
        (P.entries id).dirtyWriters = 0) ∨
      ∃ id, entryId P id = requestId r ∧ Touched P P' id ∧ 0 < (P.entries id).dirtyWriters ∧
        P' = setEntry P id (finishedRecord (P.entries id))) Exhausted := by
  unfold finishKey
  simp only [ensures_bind, ensures_get]
  cases hfind : getCacheEntryWithCachedHash P r with
  | none => exact Or.inl ⟨rfl,by simp⟩
  | some id =>
    obtain ⟨hl,hid⟩ := getCached_some hr r hq id hfind
    simp only
    by_cases hd : 0 < (P.entries id).dirtyWriters
    · rw [if_pos hd]
      exact Or.inr ⟨id,hid,touched_set hr hl _ (finished_lapse _ _) (hr.versions id hl),hd,rfl⟩
    · rw [if_neg hd]
      refine Or.inl ⟨rfl,fun x hx => ?_⟩
      cases hx
      omega

def releasedRecord (e : CacheEntry) : CacheEntry := { e with loading := false }

theorem released_lapse (generation : ℕ) (e : CacheEntry) :
    EntryLapse generation (releasedRecord e) e := by
  refine ⟨by constructor <;> rfl,fun h => ⟨h,rfl,rfl,rfl,rfl⟩,fun h => ?_,Or.inl rfl,
    fun _ => ⟨0,by omega,rfl⟩⟩
  simp [releasedRecord] at h

/-- A release changes nothing unless the lease it names is the one that is held. -/
theorem releaseLoad_spec (m : Mapping) (r : EntryRequest) (t : ReadToken) (loadId : ℕ)
    (hr : EntryRep P none none) (hq : RequestOk r) :
    Ensures (cacheReleaseLoadLocked m r t loadId) P (fun _ P' => P' = P ∨
      ∃ id, entryId P id = requestId r ∧ Touched P P' id ∧
        ownsLease (P.entries id) t loadId = true ∧
        P' = setEntry P id (releasedRecord (P.entries id))) Exhausted := by
  unfold cacheReleaseLoadLocked
  simp only [ensures_bind, ensures_get]
  cases hfind : getCacheEntry P r with
  | none => exact Or.inl rfl
  | some id =>
    obtain ⟨hl,hid⟩ := getCacheEntry_some hr r hq id hfind
    simp only
    by_cases ho : (mappingMatches m (P.entries id) && ownsLease (P.entries id) t loadId) = true
    · rw [if_pos ho]
      rw [Bool.and_eq_true] at ho
      exact Or.inr ⟨id,hid,touched_set hr hl _ (released_lapse _ _) (hr.versions id hl),ho.2,rfl⟩
    · rw [if_neg ho]
      exact Or.inl rfl

end PgLocalCache.EntrySections
