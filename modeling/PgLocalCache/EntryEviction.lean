import PgLocalCache.EntryRemoval

/-!
# Eviction keeps the descriptor table

A scan may revoke expired leases; the removal that follows takes only
descriptors that were neither dirty nor excluded. The number returned is the
number of descriptors gone, which bounds the retry loops of admission.
-/

namespace PgLocalCache.EntryEviction

open CacheState CacheEntries Outcome EntryInvariant EntryRemoval

variable {P P' : Partition} {held : Option (ℕ × ℕ)} {pending : Option ℕ} {excluded id : ℕ}

/-- The state after one descriptor was replaced under the next generation. -/
def bumpedState (P : Partition) (id : ℕ) (e : CacheEntry) : Partition :=
  { P with
    entryGeneration := P.entryGeneration+1
    entries := Function.update P.entries id e }

@[simp] theorem bumped_self (P : Partition) (id : ℕ) (e : CacheEntry) :
    (bumpedState P id e).entries id = e := Function.update_self _ _ _

theorem bumped_other (P : Partition) (id : ℕ) (e : CacheEntry) (x : ℕ) (h : x ≠ id) :
    (bumpedState P id e).entries x = P.entries x := Function.update_of_ne h _ _

theorem bumped_soft (P : Partition) (id : ℕ) (e : CacheEntry) (h : HardEq e (P.entries id)) :
    SoftStep P (bumpedState P id e) := by
  refine ⟨fun x => ?_,rfl,rfl,rfl,rfl,rfl⟩
  by_cases hx : x = id
  · rw [hx, bumped_self]
    exact h
  · rw [bumped_other P id e x hx]
    exact hardEq_refl _

theorem bumped_rep (hr : EntryRep P held pending) (e : CacheEntry) (h : HardEq e (P.entries id))
    (hv : e.version ≤ P.entryGeneration+1) : EntryRep (bumpedState P id e) held pending := by
  refine entryRep_soft hr (bumped_soft P id e h) (fun x hl => ?_)
  by_cases hx : x = id
  · rw [hx, bumped_self]
    exact hv
  · rw [bumped_other P id e x hx]
    exact Nat.le_succ_of_le (hr.versions x hl)

theorem advanceVersion_exact (P : Partition) (id : ℕ) :
    Ensures (advanceVersion id) P (fun _ P' =>
      P' = bumpedState P id { P.entries id with version := P.entryGeneration+1 })
      (fun e P' => e = .keyGenerationOverflow ∧ P' = P ∧ P.entryGeneration = 2^64-1) := by
  unfold advanceVersion nextEntryGeneration
  simp only [ensures_bind, ensures_get]
  by_cases h : P.entryGeneration = 2^64-1
  · rw [if_pos h]
    exact ⟨rfl,rfl,h⟩
  · rw [if_neg h]
    rfl

theorem advanceVersion_spec (P : Partition) (id : ℕ) :
    Ensures (advanceVersion id) P (fun _ P' =>
      P' = bumpedState P id { P.entries id with version := P.entryGeneration+1 }) Exhausted :=
  ensures_mono (advanceVersion_exact P id) (fun _ _ h => h)
    (fun _ _ ⟨he,hP,hg⟩ => ⟨he,hP ▸ hg⟩)

def revokedState (P : Partition) (id : ℕ) : Partition :=
  bumpedState P id (revokedEntry (P.entries id) (P.entryGeneration+1))

theorem loadActive_spec (cfg : Settings) (P : Partition) (id now : ℕ) :
    Ensures (cacheLoadIsActiveLocked cfg id now) P (fun active P' =>
      (P' = P ∧ active = (P.entries id).loading) ∨
      (active = false ∧ (P.entries id).loading = true ∧ P' = revokedState P id)) Exhausted := by
  unfold cacheLoadIsActiveLocked
  simp only [ensures_bind, ensures_get]
  cases hload : (P.entries id).loading with
  | false =>
    rw [if_pos (by simp)]
    exact Or.inl ⟨rfl,rfl⟩
  | true =>
    rw [if_neg (by simp)]
    by_cases ht : timestampDifferenceExceeds (P.entries id).loadStarted now (loadLeaseMs cfg)
    · rw [if_neg (by simp [ht])]
      simp only [ensures_bind, ensures_set]
      refine ensures_imp (advanceVersion_spec _ _) ?_
      rintro _ P' rfl
      refine Or.inr ⟨rfl,trivial,?_⟩
      simp [bumpedState, revokedState, setEntry, revokedEntry]
    · rw [if_pos (by simp [ht])]
      exact Or.inl ⟨rfl,rfl⟩

theorem revoked_hard (e : CacheEntry) (v : ℕ) : HardEq (revokedEntry e v) e := by
  constructor <;> rfl

theorem revoked_rep (hr : EntryRep P held pending) : EntryRep (revokedState P id) held pending :=
  bumped_rep hr _ (revoked_hard _ _) (le_refl _)

theorem revoked_trimmed (hl : (P.entries id).loading = true) (hp : ¬Protected P excluded id) :
    Trimmed P (revokedState P id) excluded := by
  have hsoft := bumped_soft P id _ (revoked_hard (P.entries id) (P.entryGeneration+1))
  refine ⟨sameMarkers_refl P,rfl,Nat.le_succ _,fun x hx => ?_,fun x hx hpx => ?_⟩
  · refine ⟨(soft_live hsoft x).mp hx,?_,fun _ _ => rfl⟩
    by_cases h : x = id
    · subst h
      exact Or.inr ⟨hl,P.entryGeneration+1,Nat.lt_succ_self _,le_refl _,bumped_self _ _ _⟩
    · exact Or.inl (bumped_other P id _ x h)
  · exact bumped_other P id _ x (fun he => hp (he ▸ hpx))

theorem trimmed_protected (h : Trimmed P P' excluded) (v : ℕ) (hl : Live P' v) :
    Protected P' excluded v ↔ Protected P excluded v := by
  rw [Protected, Protected, (survivor_block (h.survive v hl).entry).2]

theorem mem_shiftCandidate (c x : Candidate) (xs : List Candidate) (h : x ∈ shiftCandidate c xs) :
    x = c ∨ x ∈ xs := by
  induction xs with
  | nil => simpa [shiftCandidate] using h
  | cons y ys ih =>
    unfold shiftCandidate at h
    split at h
    · rcases List.mem_cons.mp h with rfl | h
      · simp
      · exact (ih h).imp_right (fun h => List.mem_cons_of_mem _ h)
    · simpa using h

theorem mem_insertCandidate (c x : Candidate) (xs : List Candidate)
    (h : x ∈ insertCandidate c xs) : x = c ∨ x ∈ xs := by
  cases xs with
  | nil => simpa [insertCandidate] using h
  | cons y ys =>
    unfold insertCandidate at h
    simp only at h
    split at h
    · split at h
      · exact Or.inr h
      · exact (mem_shiftCandidate c x ys h).imp_right (fun h => List.mem_cons_of_mem _ h)
    · exact mem_shiftCandidate c x _ h

def picked (st : ScanState) : List ℕ := st.victims ++ st.candidates.map (·.id)

def Evictable (P : Partition) (excluded : ℕ) (ids : List ℕ) : Prop :=
  ∀ v ∈ ids, Live P v → ¬Protected P excluded v

theorem evictable_trimmed (h : Trimmed P P' excluded) (ids : List ℕ)
    (he : Evictable P excluded ids) : Evictable P' excluded ids := fun v hv hl hp =>
  he v hv (h.survive v hl).1 ((trimmed_protected h v hl).mp hp)

structure Scanned (P P' : Partition) (held : Option (ℕ × ℕ)) (excluded : ℕ) (st : ScanState) :
    Prop where
  rep : EntryRep P' held none
  trimmed : Trimmed P P' excluded
  count : P'.entryCount = P.entryCount
  evictable : Evictable P' excluded (picked st)

theorem picked_victim (st : ScanState) (h : Evictable P excluded (picked st))
    (hid : Live P id → ¬Protected P excluded id) :
    Evictable P excluded (picked { st with victims := st.victims ++ [id] }) := by
  intro v hv
  simp only [picked, List.append_assoc, List.mem_append, List.mem_singleton] at hv
  rcases hv with hv | rfl | hv
  · exact h v (by simp [picked, hv])
  · exact hid
  · exact h v (by rw [picked, List.mem_append]; exact Or.inr hv)

theorem picked_candidate (st : ScanState) (access : ℕ) (h : Evictable P excluded (picked st))
    (hid : Live P id → ¬Protected P excluded id) :
    Evictable P excluded
      (picked { st with candidates := insertCandidate ⟨access,id⟩ st.candidates }) := by
  intro v hv
  simp only [picked, List.mem_append, List.mem_map] at hv
  rcases hv with hv | ⟨c,hc,rfl⟩
  · exact h v (by simp [picked, hv])
  · rcases mem_insertCandidate _ _ _ hc with rfl | hc
    · exact hid
    · exact h _ (by
        rw [picked, List.mem_append]
        exact Or.inr (List.mem_map_of_mem hc))

theorem scanEntry_spec (cfg : Settings) (env : EvictEnv) (required : ℕ) (st : ScanState)
    (hr : EntryRep P held none) (he : Evictable P excluded (picked st)) :
    Ensures (scanEntry cfg env required excluded id st) P
      (fun st' P' => Scanned P P' held excluded st') Exhausted := by
  unfold scanEntry
  simp only [ensures_bind, ensures_get]
  by_cases hskip : !(P.entries id).inUse ∨ id = excluded ∨ (P.entries id).dirtyWriters ≠ 0
  · rw [if_pos hskip]
    exact ⟨hr,trimmed_refl P excluded,rfl,he⟩
  rw [if_neg hskip]
  have hp : ¬Protected P excluded id := fun h => hskip (Or.inr h)
  refine ensures_seq (loadActive_spec cfg P id env.now) ?_
  intro active P' hcase
  have hstep : EntryRep P' held none ∧ Trimmed P P' excluded ∧ P'.entryCount = P.entryCount := by
    rcases hcase with ⟨rfl,_⟩ | ⟨_,hl,rfl⟩
    · exact ⟨hr,trimmed_refl _ _,rfl⟩
    · exact ⟨revoked_rep hr,revoked_trimmed hl hp,rfl⟩
  obtain ⟨hr',ht,hcount⟩ := hstep
  have he' := evictable_trimmed ht _ he
  have hid : Live P' id → ¬Protected P' excluded id := fun hl h =>
    hp ((trimmed_protected ht id hl).mp h)
  simp only [ensures_bind, ensures_get]
  split
  · exact ⟨hr',ht,hcount,he'⟩
  split
  · exact ⟨hr',ht,hcount,he'⟩
  split
  · refine ⟨hr',ht,hcount,?_⟩
    split
    · exact picked_victim st he' hid
    · exact he'
  · exact ⟨hr',ht,hcount,picked_candidate st _ he' hid⟩

theorem scanEntries_spec (cfg : Settings) (env : EvictEnv) (required start scanned n : ℕ)
    (st : ScanState) (hr : EntryRep P held none) (he : Evictable P excluded (picked st)) :
    Ensures (scanEntries cfg env required excluded start scanned n st) P
      (fun st' P' => Scanned P P' held excluded st') Exhausted := by
  induction n generalizing scanned st P with
  | zero => exact ⟨hr,trimmed_refl P excluded,rfl,he⟩
  | succ n ih =>
    unfold scanEntries
    simp only [ensures_bind, ensures_get]
    refine ensures_imp (scanEntry_spec cfg env required st hr he) ?_
    intro st' P' hs
    refine ensures_imp (ih (scanned+1) st' hs.rep hs.evictable) ?_
    intro st'' P'' hs'
    exact ⟨hs'.rep,trimmed_trans hs.trimmed hs'.trimmed,hs'.count.trans hs.count,hs'.evictable⟩

theorem cursor_rep (hr : EntryRep P held none) (cursor : ℕ) :
    EntryRep { P with evictionBucketCursor := cursor } held none :=
  ⟨hr.bound,hr.buckets,hr.indexed,hr.free,hr.count,by
    obtain ⟨req,hs,ho⟩ := hr.blocks
    exact ⟨req,hs,ho.own,ho.owner,ho.held,ho.inj⟩,hr.shape,hr.unique,hr.versions⟩

theorem cursor_trimmed (P : Partition) (cursor excluded : ℕ) :
    Trimmed P { P with evictionBucketCursor := cursor } excluded :=
  ⟨sameMarkers_refl P,rfl,le_refl _,fun _ h => ⟨h,Or.inl rfl,fun _ _ => rfl⟩,fun _ _ _ => rfl⟩

theorem evict_spec (cfg : Settings) (required : ℕ) (env : EvictEnv) (hr : EntryRep P held none) :
    Ensures (evictCacheEntries cfg required excluded env) P (fun n P' =>
      EntryRep P' held none ∧ Trimmed P P' excluded ∧ P'.entryCount+n = P.entryCount)
      Exhausted := by
  unfold evictCacheEntries
  simp only [ensures_bind, ensures_get]
  refine ensures_imp (scanEntries_spec cfg env required _ 0 _ ⟨[],[]⟩ hr
    (by simp [Evictable, picked])) ?_
  intro st P1 hs
  simp only [ensures_modify]
  set P2 : Partition := { P1 with evictionBucketCursor := _ } with hP2
  have ht2 : Trimmed P1 P2 excluded := cursor_trimmed P1 _ excluded
  have hev : Evictable P2 excluded
      (st.victims++(st.candidates.reverse.map (·.id)).take (evictionBatch-st.victims.length)) := by
    intro v hv
    refine evictable_trimmed ht2 _ hs.evictable v ?_
    rw [picked, List.mem_append]
    refine (List.mem_append.mp hv).imp_right (fun h => ?_)
    have := List.mem_of_mem_take h
    simpa [List.map_reverse] using this
  refine ensures_imp (removeVictims_spec _ 0 (cursor_rep hs.rep _) hev) ?_
  rintro n P3 ⟨h1,h2,h3⟩
  have h4 : P2.entryCount = P.entryCount := hs.count
  exact ⟨h1,trimmed_trans hs.trimmed (trimmed_trans ht2 h2),by omega⟩

end PgLocalCache.EntryEviction
