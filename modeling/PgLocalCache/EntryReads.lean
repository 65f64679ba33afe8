import PgLocalCache.EntrySections

/-!
# What claims and lookups do to the descriptor table

A claim leases the descriptor of its key only when two readings of the fences
agree with its token; a hit was checked against the same descriptor before and
after the value was copied.
-/

namespace PgLocalCache.EntryReads

open CacheState CacheEntries CacheMarkers CacheAdmission CacheOperations Outcome
open EntryInvariant EntryRemoval EntryEviction EntryAdmission EntryStore EntrySections

variable {P P' : Partition} {id : ℕ}

/-- A descriptor that was leased to the claim `(t, loadId)`. -/
structure Leased (P P' : Partition) (id : ℕ) (t : ReadToken) (loadId : ℕ) : Prop where
  ident : entryId P' id = entryId P id
  valid : (P'.entries id).valid = false
  owns : ownsLease (P'.entries id) t loadId = true
  version : (P'.entries id).version = (P.entries id).version
  dirty : (P'.entries id).dirtyWriters = (P.entries id).dirtyWriters
  nonzero : loadId ≠ 0
  next : ∃ j, 0 < j ∧ j ≤ 4 ∧ loadId = bump64^[j] (P.entries id).loadId

/-- What a claim that reached its descriptor leaves behind. -/
structure ClaimDone (cfg : Settings) (m : Mapping) (t : ReadToken) (reads : ClaimReads)
    (P : Partition) (id : ℕ) (res : LoadClaim × ℕ) (P' : Partition) : Prop where
  rep : EntryRep P' none none
  besides : Besides P P' id
  live : Live P' id
  dirty : (P'.entries id).dirtyWriters = (P.entries id).dirtyWriters
  owner : res.1 = .owner → Leased P P' id t res.2 ∧ ∃ e : CacheEntry,
    (readFenceSnapshot cfg m (some e) reads.after).1 = true ∧
    matchesToken (readFenceSnapshot cfg m (some e) reads.after).2 t = true
  other : res.1 ≠ .owner → Lapse P P' id

theorem nextLoadId_iterate (n : ℕ) :
    nextLoadId n = bump64 n ∨ nextLoadId n = bump64 (bump64 n) := by
  unfold nextLoadId
  by_cases h : bump64 n = 0
  · rw [if_pos h, h]
    exact Or.inr rfl
  · rw [if_neg h]
    exact Or.inl rfl

theorem nextLoadId_ne_zero (n : ℕ) : nextLoadId n ≠ 0 := by
  unfold nextLoadId
  by_cases h : bump64 n = 0
  · rw [if_pos h]
    omega
  · rwa [if_neg h]

section Claim

variable (cfg : Settings) (m : Mapping) (t : ReadToken) (reads : ClaimReads)

theorem leased_hard (e : CacheEntry) (now : ℕ) : HardEq (leasedEntry e t now) e := by
  constructor <;> rfl

theorem set_set (P : Partition) (id : ℕ) (e e' : CacheEntry) :
    setEntry (setEntry P id e) id e' = setEntry P id e' := by
  simp [setEntry]

theorem nextLoadId_reached (k n n' : ℕ) (hk : k ≤ 1) (h : n' = bump64^[k] n) :
    ∃ j, 0 < j ∧ j ≤ 3 ∧ nextLoadId n' = bump64^[j] n := by
  rcases nextLoadId_iterate n' with h' | h' <;> rw [h', h]
  · exact ⟨k+1,by omega,by omega,(Function.iterate_succ_apply' bump64 k n).symm⟩
  · refine ⟨k+2,by omega,by omega,?_⟩
    rw [Function.iterate_succ_apply', Function.iterate_succ_apply']

theorem grantLease_spec (e : CacheEntry) (k : ℕ) (hk : k ≤ 1) (hr : EntryRep P none none)
    (hl : Live P id) (hv : (P.entries id).version = t.keyVersion)
    (he : HardEq e (P.entries id)) (hev : e.version = (P.entries id).version)
    (hed : e.dirtyWriters = (P.entries id).dirtyWriters)
    (hid : e.loadId = bump64^[k] (P.entries id).loadId) :
    Ensures (grantLease cfg m id t reads) (setEntry P id e)
      (ClaimDone cfg m t reads P id) Exhausted := by
  have hard : HardEq (leasedEntry e t reads.now) (P.entries id) :=
    hardEq_trans (leased_hard t e reads.now) he
  have hver : e.version ≤ P.entryGeneration := by
    rw [hev]
    exact hr.versions id hl
  obtain ⟨j,hj,hj',hnext⟩ := nextLoadId_reached k _ _ hk hid
  unfold grantLease
  simp only [ensures_bind, ensures_get, setEntry_self]
  split
  · have hdrop := abandoned_lapse P.entryGeneration (leasedEntry e t reads.now) false
    have hlapse : EntryLapse P.entryGeneration (abandonedEntry (leasedEntry e t reads.now) false)
        (P.entries id) := by
      refine ⟨hardEq_trans hdrop.hard hard,by simp [abandonedEntry, leasedEntry],
        by simp [abandonedEntry],Or.inl hev,fun _ => ⟨j+1,by omega,?_⟩⟩
      change bump64 (nextLoadId e.loadId) = _
      rw [hnext, Function.iterate_succ_apply']
    have htouch := touched_set hr hl _ hlapse hver
    rw [ensures_bind, ensures_set, set_set]
    exact ⟨htouch.rep,htouch.besides,htouch.live',by rw [setEntry_self]; exact hed,by simp,
      fun _ => htouch.lapse⟩
  · rename_i hok
    have hsoft := soft_set P id _ hard
    simp only [Bool.or_eq_true, Bool.not_eq_true', not_or, Bool.not_eq_false] at hok
    rw [ensures_bind, ensures_set, set_set]
    refine ⟨entryRep_set hr _ hard hver,set_besides P id _,(soft_live hsoft id).mpr hl,
      by rw [setEntry_self]; exact hed,fun _ => ⟨⟨soft_entryId hsoft id,by rw [setEntry_self]; rfl,
        ?_,by rw [setEntry_self]; exact hev,by rw [setEntry_self]; exact hed,nextLoadId_ne_zero _,
        ⟨j,hj,by omega,hnext⟩⟩,⟨leasedEntry e t reads.now,hok.1,hok.2⟩⟩,by simp⟩
    rw [setEntry_self]
    simp [ownsLease, leasedEntry, hev, hv]

theorem claimDone_touched (res : LoadClaim × ℕ) (hres : res.1 ≠ .owner) (h : Touched P P' id)
    (hd : (P'.entries id).dirtyWriters = (P.entries id).dirtyWriters) :
    ClaimDone cfg m t reads P id res P' :=
  ⟨h.rep,h.besides,h.live',hd,fun he => absurd he hres,fun _ => h.lapse⟩

theorem touched_refl (hr : EntryRep P none none) (hl : Live P id) : Touched P P id :=
  ⟨hr,besides_refl P id,hl,hl,survives_lapse hr ⟨hl,Or.inl rfl,fun _ _ => rfl⟩⟩

theorem claimFound_spec (hr : EntryRep P none none) (hl : Live P id)
    (hv : (P.entries id).version = t.keyVersion) :
    Ensures (claimFound cfg m id t reads) P (ClaimDone cfg m t reads P id) Exhausted := by
  have hsame : setEntry P id (P.entries id) = P := by simp [setEntry]
  unfold claimFound
  simp only [ensures_bind, ensures_get]
  split
  · exact claimDone_touched cfg m t reads _ (by simp) (touched_refl hr hl) rfl
  split
  · have hlapse := abandoned_lapse P.entryGeneration (P.entries id) false
    have htouch := touched_set hr hl _ hlapse (hr.versions id hl)
    simp only [ensures_bind, ensures_set]
    refine ensures_imp (loadActive_spec cfg _ id reads.now) ?_
    rintro active P1 (⟨rfl,ha⟩ | ⟨_,hload,_⟩)
    · rw [setEntry_self] at ha
      change active = false at ha
      subst ha
      have hnv : ¬(((setEntry P id { P.entries id with
          loading := false, loadId := bump64 (P.entries id).loadId }).entries id).version ≠
          t.keyVersion) := by
        rw [setEntry_self]
        exact fun h => h hv
      simp only [Bool.false_eq_true, if_false, ensures_bind, ensures_get]
      rw [if_neg hnv]
      exact grantLease_spec cfg m t reads _ 1 (le_refl _) hr hl hv hlapse.hard rfl rfl rfl
    · rw [setEntry_self] at hload
      simp at hload
  · refine ensures_seq (loadActive_spec cfg P id reads.now) ?_
    rintro active P1 (⟨rfl,ha⟩ | ⟨ha,hload,rfl⟩)
    · cases active with
      | true => exact claimDone_touched cfg m t reads _ (by simp) (touched_refl hr hl) rfl
      | false =>
        simp only [Bool.false_eq_true, if_false, ensures_bind, ensures_get]
        rw [if_neg (fun h => h hv)]
        have := grantLease_spec cfg m t reads (P1.entries id) 0 (by omega) hr hl hv (hardEq_refl _)
          rfl rfl rfl
        rwa [hsame] at this
    · subst ha
      have hver := hr.versions id hl
      have htouch : Touched P (revokedState P id) id := touched_bumped hr hl _
        (revoked_lapse _ _ _ (Nat.lt_succ_self _) hver) (le_refl _)
      simp only [Bool.false_eq_true, if_false, ensures_bind, ensures_get]
      rw [if_pos]
      · exact claimDone_touched cfg m t reads _ (by simp) htouch
          (by rw [revokedState, bumped_self]; rfl)
      · rw [revokedState, bumped_self]
        change P.entryGeneration+1 ≠ t.keyVersion
        omega

/-- A claim changes nothing unless it reached the descriptor of its key while the fence
counters agreed with its token and nobody was writing. -/
theorem claimLoad_spec (r : EntryRequest) (hr : EntryRep P none none) (hq : RequestOk r) :
    Ensures (cacheClaimLoadLocked cfg m r t reads) P (fun res P' =>
      (res.1 ≠ .owner ∧ P' = P) ∨ ∃ id, r.keyLen ≠ keyMax ∧ Live P id ∧
        entryId P id = requestId r ∧
        (readFenceSnapshot cfg m (some (P.entries id)) reads.before).1 = true ∧
        matchesToken (readFenceSnapshot cfg m (some (P.entries id)) reads.before).2 t = true ∧
        cacheMarkerFind P (markerRequestOf r) = 0 ∧ mappingMatches m (P.entries id) = true ∧
        ClaimDone cfg m t reads P id res P') Exhausted := by
  unfold cacheClaimLoadLocked
  split
  · exact Or.inl ⟨by simp,rfl⟩
  simp only [ensures_bind, ensures_get]
  split
  · exact Or.inl ⟨by simp,rfl⟩
  rename_i hguard
  split
  · exact Or.inl ⟨by simp,rfl⟩
  split
  · exact Or.inl ⟨by simp,rfl⟩
  rename_i hdirty
  cases hfind : getCacheEntry P r with
  | none => exact Or.inl ⟨by simp,rfl⟩
  | some id =>
    obtain ⟨hl,hid⟩ := getCacheEntry_some hr r hq id hfind
    rw [hfind] at hguard hdirty
    simp only [Option.map_some] at hguard hdirty ⊢
    by_cases hg : (!(readFenceSnapshot cfg m (some (P.entries id)) reads.before).1 ||
        !matchesToken (readFenceSnapshot cfg m (some (P.entries id)) reads.before).2 t) = true
    · rw [if_pos hg]
      exact Or.inl ⟨by simp,rfl⟩
    · rw [if_neg hg]
      simp only [Bool.or_eq_true, Bool.not_eq_true', not_or, Bool.not_eq_false] at hg
      simp only [not_or, ne_eq, not_not, Option.getD_some] at hguard hdirty
      have hver : (P.entries id).version = t.keyVersion := by
        have h := hg.2
        simp only [readFenceSnapshot, matchesToken, fenceSnapshot, Bool.and_eq_true,
          beq_iff_eq] at h
        exact h.2
      refine ensures_imp (claimFound_spec cfg m t reads hr hl hver) ?_
      intro res P' h
      exact Or.inr ⟨id,getCacheEntry_short r hfind,hl,hid,hg.1,hg.2,hdirty.2.2.2,
        by simpa using hguard.2.2.2,h⟩

end Claim

section Lookup

variable (cfg : Settings) (m : Mapping) (r : EntryRequest) (reads : LookupReads)

/-- Everything a hit was checked against. -/
structure HitFrom (P : Partition) (id : ℕ) (res : LookupResult) : Prop where
  short : r.keyLen ≠ keyMax
  live : Live P id
  ident : entryId P id = requestId r
  mapping : mappingMatches m (P.entries id) = true
  before : (readFenceSnapshot cfg m (some (P.entries id)) reads.before).1 = true
  current : entryIsCurrentSlot cfg (P.entries id) reads.current = true
  after : (readFenceSnapshot cfg m (some (P.entries id)) reads.after).1 = true
  unchanged : (readFenceSnapshot cfg m (some (P.entries id)) reads.before).2 =
    (readFenceSnapshot cfg m (some (P.entries id)) reads.after).2
  negative : res.negative = (P.entries id).negative
  value : res.value = if (P.entries id).negative then [] else entryValue P id

/-- A token that allows a fill describes a descriptor and a stable reading of the fences. -/
def TokenFrom (P : Partition) (t : ReadToken) : Prop :=
  ∃ id, Live P id ∧ entryId P id = requestId r ∧
    (readFenceSnapshot cfg m (some (P.entries id)) reads.before).1 = true ∧
    t = tokenOf m (some (P.entries id))
      (readFenceSnapshot cfg m (some (P.entries id)) reads.before).2 true

def touchedRecord (e : CacheEntry) (clock : ℕ) : CacheEntry := { e with lastAccess := clock }

theorem touchedRecord_lapse (generation clock : ℕ) (e : CacheEntry) :
    EntryLapse generation (touchedRecord e clock) e :=
  ⟨by constructor <;> rfl,fun h => ⟨h,rfl,rfl,rfl,rfl⟩,fun _ => by constructor <;> rfl,Or.inl rfl,
    fun _ => ⟨0,by omega,rfl⟩⟩

theorem answerLookup_hit (hr : EntryRep P none none) (hshort : r.keyLen ≠ keyMax) (hl : Live P id)
    (hid : entryId P id = requestId r) (valueCapacity corrupt : ℕ) (malformed : Bool)
    (t : ReadToken) (hm : mappingMatches m (P.entries id) = true)
    (hb : (readFenceSnapshot cfg m (some (P.entries id)) reads.before).1 = true)
    (hc : entryIsCurrentSlot cfg (P.entries id) reads.current = true)
    (h : (answerLookup cfg m P (P.entries id) t valueCapacity reads malformed corrupt).hit = true) :
    HitFrom cfg m r reads P id
      (answerLookup cfg m P (P.entries id) t valueCapacity reads malformed corrupt) := by
  have hblock := rep_block hr id hl
  unfold answerLookup at h ⊢
  unfold payloadOf at h ⊢
  simp only [hblock] at h ⊢
  by_cases hn : (P.entries id).negative = true
  · simp only [hn, if_true] at h ⊢
    split at h
    · rename_i hs
      simp only [Bool.and_eq_true, beq_iff_eq] at hs
      rw [if_pos (by simp [hs])]
      exact ⟨hshort,hl,hid,hm,hb,hc,hs.1,hs.2,by rw [hn],by rw [hn]; rfl⟩
    · simp [missResult] at h
  · simp only [Bool.not_eq_true] at hn
    simp only [hn, Bool.false_eq_true, if_false] at h ⊢
    by_cases hcap : (P.entries id).valueLen ≤ valueCapacity
    · rw [if_pos hcap] at h ⊢
      simp only at h ⊢
      split at h
      · rename_i hs
        simp only [Bool.and_eq_true, beq_iff_eq] at hs
        rw [if_pos (by simp [hs])]
        exact ⟨hshort,hl,hid,hm,hb,hc,hs.1,hs.2,by rw [hn],by rw [hn]; rfl⟩
      · simp [missResult] at h
    · rw [if_neg hcap] at h
      simp [missResult] at h

theorem tokenOf_cacheable (e : Option CacheEntry) (s : FenceSnapshot) (c : Bool)
    (h : (tokenOf m e s c).cacheable = true) : tokenOf m e s c = tokenOf m e s true := by
  change c = true at h
  rw [h]

theorem answerLookup_token (valueCapacity corrupt : ℕ) (malformed : Bool) (e : CacheEntry)
    (t : ReadToken)
    (h : (answerLookup cfg m P e t valueCapacity reads malformed corrupt).token.cacheable = true) :
    (answerLookup cfg m P e t valueCapacity reads malformed corrupt).token = t := by
  unfold answerLookup at h ⊢
  rcases hp : payloadOf P e valueCapacity with _ | _ | ⟨negative,value⟩
  · rfl
  · rfl
  · simp only [hp] at h ⊢
    by_cases hs : ((readFenceSnapshot cfg m (some e) reads.after).1 &&
        (readFenceSnapshot cfg m (some e) reads.before).2 ==
          (readFenceSnapshot cfg m (some e) reads.after).2) = true
    · rw [if_pos hs]
    · rw [if_neg hs] at h
      simp [missResult] at h

/-- What a lookup section leaves behind: the descriptor it found was touched, or admission
ran for a missing key. -/
def LookupState (P P' : Partition) : Prop :=
  (∃ id, entryId P id = requestId r ∧ Touched P P' id ∧
    (P'.entries id).dirtyWriters = (P.entries id).dirtyWriters) ∨
  ∃ made, Admitted P r made P' ∧
    (made ≠ none → r.keyLen ≠ keyMax ∧ cacheMarkerFind P (markerRequestOf r) = 0)

theorem lookupLocked_spec (valueCapacity : ℕ) (create : Bool) (env : AdmissionEnv)
    (hr : EntryRep P none none) (hq : RequestOk r) :
    Ensures (cacheLookupLocked cfg m r valueCapacity create env reads) P (fun res P' =>
      (P' = P ∨ LookupState r P P') ∧ (res.hit = true → ∃ id, HitFrom cfg m r reads P id res) ∧
      (res.token.cacheable = true → TokenFrom cfg m r reads P' res.token)) Exhausted := by
  unfold cacheLookupLocked lookupFound
  split
  · exact ⟨Or.inl rfl,by simp [missResult],by simp [missResult, blankToken]⟩
  refine ensures_seq (getCacheEntryInternal_spec cfg r false create env hr hq) ?_
  rintro ⟨found,corrupt⟩ P1 ⟨hcor,hshort,hcase⟩
  simp only [Bool.false_eq_true, false_or] at hcor hshort hcase
  subst hcor
  simp only [ensures_bind, ensures_get]
  rcases hcase with ⟨id,rfl,rfl,hl,hid⟩ | ⟨hadm,hmark⟩
  · simp only
    by_cases hg : ((readFenceSnapshot cfg m (some (P1.entries id)) reads.before).1 &&
        mappingMatches m (P1.entries id) && entryIsCurrentSlot cfg (P1.entries id) reads.current) =
        true
    · have hg' := hg
      simp only [Bool.and_eq_true] at hg'
      have hcond : ((tokenOf m (some (P1.entries id))
          (readFenceSnapshot cfg m (some (P1.entries id)) reads.before).2
          ((readFenceSnapshot cfg m (some (P1.entries id)) reads.before).1 &&
            mappingMatches m (P1.entries id))).cacheable &&
          entryIsCurrentSlot cfg (P1.entries id) reads.current) = true := hg
      rw [if_pos hcond, ensures_bind, ensures_set]
      have htouch : Touched P1 (setEntry P1 id (touchedRecord (P1.entries id) reads.clock)) id :=
        touched_set hr hl _ (touchedRecord_lapse _ _ _) (hr.versions id hl)
      refine ⟨Or.inr (Or.inl ⟨id,hid,htouch,by rw [setEntry_self]⟩),fun h => ⟨id,?_⟩,
        fun h => ⟨id,htouch.live',htouch.lapse.ident.trans hid,?_,?_⟩⟩
      · exact answerLookup_hit cfg m r reads hr (hshort (by simp)) hl hid _ _ _ _ hg'.1.2 hg'.1.1
          hg'.2 h
      · rw [setEntry_self]
        exact hg'.1.1
      · rw [setEntry_self, answerLookup_token cfg m reads _ _ _ _ _ h, hg'.1.1, hg'.1.2]
        rfl
    · have hcond : ¬((tokenOf m (some (P1.entries id))
          (readFenceSnapshot cfg m (some (P1.entries id)) reads.before).2
          ((readFenceSnapshot cfg m (some (P1.entries id)) reads.before).1 &&
            mappingMatches m (P1.entries id))).cacheable &&
          entryIsCurrentSlot cfg (P1.entries id) reads.current) = true := hg
      rw [if_neg hcond]
      refine ⟨Or.inl rfl,by simp [missResult],fun h => ⟨id,hl,hid,?_,tokenOf_cacheable m _ _ _ h⟩⟩
      simp only [missResult, tokenOf, Bool.and_eq_true] at h
      exact h.1
  · cases found with
    | none => exact ⟨Or.inr (Or.inr ⟨none,hadm,by simp⟩),by simp [missResult],
        by simp [missResult, tokenOf]⟩
    | some id =>
      have hc := hadm.2
      obtain ⟨ref,v,_,_,he⟩ := hc.fresh
      have hidle : entryIsCurrentSlot cfg (P1.entries id) reads.current = false := by
        rw [he]
        simp [entryIsCurrentSlot, freshEntry, blankEntry]
      simp only [hidle, Bool.and_false, Bool.false_eq_true, if_false]
      refine ⟨Or.inr (Or.inr ⟨some id,hadm,fun h => ⟨hshort h,(hmark h).2⟩⟩),by simp [missResult],
        fun h => ⟨id,hc.live,hc.ident,?_,tokenOf_cacheable m _ _ _ h⟩⟩
      simp only [missResult, tokenOf, Bool.and_eq_true] at h
      exact h.1

end Lookup

end PgLocalCache.EntryReads
