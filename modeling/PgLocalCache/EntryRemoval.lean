import PgLocalCache.EntryInvariant

/-!
# Removing descriptors

`Trimmed P P' excluded` says what eviction may do: descriptors disappear or lose
an expired lease, dirty descriptors and the excluded one stay as they are, and
the bytes of every surviving block are kept.
-/

namespace PgLocalCache.EntryRemoval

open ByteMemory FreeChain CacheIndex IndexInvariant CacheArena ArenaInvariant ArenaRelease
open CacheState CacheEntries Outcome EntryInvariant
open Function (update update_of_ne update_self)

def revokedEntry (e : CacheEntry) (version : ℕ) : CacheEntry :=
  { e with loading := false, loadId := bump64 e.loadId, version := version }

def SameBytes (P P' : Partition) (id : ℕ) : Prop :=
  ∀ i < (P.entries id).blockLen,
    P'.arena.memory ((P.entries id).blockRef+i) = P.arena.memory ((P.entries id).blockRef+i)

def LeaseRevoked (P P' : Partition) (id : ℕ) : Prop :=
  (P.entries id).loading = true ∧ ∃ v, P.entryGeneration < v ∧ v ≤ P'.entryGeneration ∧
    P'.entries id = revokedEntry (P.entries id) v

def Protected (P : Partition) (excluded id : ℕ) : Prop :=
  id = excluded ∨ (P.entries id).dirtyWriters ≠ 0

structure Survives (P P' : Partition) (id : ℕ) : Prop where
  live : Live P id
  entry : P'.entries id = P.entries id ∨ LeaseRevoked P P' id
  bytes : SameBytes P P' id

structure Trimmed (P P' : Partition) (excluded : ℕ) : Prop where
  markers : SameMarkers P P'
  capacity : P'.capacity = P.capacity
  generation : P.entryGeneration ≤ P'.entryGeneration
  survive : ∀ id, Live P' id → Survives P P' id
  kept : ∀ id, Live P id → Protected P excluded id → P'.entries id = P.entries id

variable {P P' P'' : Partition} {held : Option (ℕ × ℕ)} {pending : Option ℕ} {excluded id : ℕ}

theorem trimmed_refl (P : Partition) (excluded : ℕ) : Trimmed P P excluded :=
  ⟨sameMarkers_refl P,rfl,le_refl _,fun _ h => ⟨h,Or.inl rfl,fun _ _ => rfl⟩,fun _ _ _ => rfl⟩

theorem trimmed_live (h : Trimmed P P' excluded) (hl : Live P id) (hp : Protected P excluded id) :
    Live P' id := by
  refine ⟨hl.1,?_,?_⟩
  · rw [h.capacity]
    exact hl.2.1
  · rw [h.kept id hl hp]
    exact hl.2.2

theorem survivor_block (h : P'.entries id = P.entries id ∨ LeaseRevoked P P' id) :
    HardEq (P'.entries id) (P.entries id) ∧
      (P'.entries id).dirtyWriters = (P.entries id).dirtyWriters := by
  rcases h with h | ⟨_,v,_,_,h⟩ <;> rw [h]
  · exact ⟨hardEq_refl _,rfl⟩
  · exact ⟨by constructor <;> rfl,rfl⟩

theorem survives_trans (hg : P.entryGeneration ≤ P'.entryGeneration)
    (hg' : P'.entryGeneration ≤ P''.entryGeneration) (h : Survives P P' id)
    (h' : Survives P' P'' id) : Survives P P'' id := by
  have hb := (survivor_block h.entry).1
  refine ⟨h.live,?_,fun i hi => ?_⟩
  · rcases h.entry with g2 | ⟨gl,v,gv,gv',ge⟩
    · rcases h'.entry with h2 | ⟨hl2,v,hv,hv',he⟩
      · exact Or.inl (h2.trans g2)
      · rw [g2] at hl2 he
        exact Or.inr ⟨hl2,v,lt_of_le_of_lt hg hv,hv',he⟩
    · rcases h'.entry with h2 | ⟨hl2,_⟩
      · exact Or.inr ⟨gl,v,gv,le_trans gv' hg',h2.trans ge⟩
      · rw [ge] at hl2
        simp [revokedEntry] at hl2
  · have e := h'.bytes i (by rw [hb.blockLen]; exact hi)
    rw [hb.blockRef] at e
    exact e.trans (h.bytes i hi)

theorem trimmed_trans (h : Trimmed P P' excluded) (h' : Trimmed P' P'' excluded) :
    Trimmed P P'' excluded := by
  refine ⟨sameMarkers_trans h.markers h'.markers,h'.capacity.trans h.capacity,
    le_trans h.generation h'.generation,fun id hl => ?_,fun id hl hp => ?_⟩
  · have hs := h'.survive id hl
    exact survives_trans h.generation h'.generation (h.survive id hs.live) hs
  · have e := h.kept id hl hp
    have hl' := trimmed_live h hl hp
    rw [h'.kept id hl' (by rwa [Protected, e]), e]

theorem survives_entryId (hr : EntryRep P held pending) (h : Survives P P' id) :
    entryId P' id = entryId P id := by
  have e := (survivor_block h.entry).1
  have hb := (hr.shape id h.live).block
  have hk : entryKey P' id = entryKey P id := by
    rw [entryKey, entryKey, e.blockRef, e.keyLen]
    refine read_congr _ _ _ _ (fun x hx hx' => ?_)
    have := h.bytes (x-(P.entries id).blockRef) (by omega)
    rwa [Nat.add_sub_cancel' hx] at this
  simp only [entryId, e.databaseOid, e.relationOid, e.relationSlot, e.slotGeneration, e.keyHash, hk]

theorem survives_value (hr : EntryRep P held pending) (h : Survives P P' id) :
    entryValue P' id = entryValue P id := by
  have e := (survivor_block h.entry).1
  have hb := (hr.shape id h.live).block
  rw [entryValue, entryValue, e.blockRef, e.keyLen, e.valueLen]
  refine read_congr _ _ _ _ (fun x hx hx' => ?_)
  have := h.bytes (x-(P.entries id).blockRef) (by omega)
  rwa [Nat.add_sub_cancel' (by omega)] at this

theorem trimmed_entryId (hr : EntryRep P held pending) (h : Trimmed P P' excluded)
    (hl : Live P' id) : entryId P' id = entryId P id :=
  survives_entryId hr (h.survive id hl)

/-- Everything but one descriptor is as before. -/
structure Besides (P P' : Partition) (id : ℕ) : Prop where
  markers : SameMarkers P P'
  capacity : P'.capacity = P.capacity
  generation : P.entryGeneration ≤ P'.entryGeneration
  entries : ∀ x, x ≠ id → P'.entries x = P.entries x
  bytes : ∀ x, x ≠ id → Live P x → SameBytes P P' x

theorem besides_refl (P : Partition) (id : ℕ) : Besides P P id :=
  ⟨sameMarkers_refl P,rfl,le_refl _,fun _ _ => rfl,fun _ _ _ _ _ => rfl⟩

theorem besides_live (h : Besides P P' id) (x : ℕ) (hx : x ≠ id) : Live P' x ↔ Live P x := by
  rw [Live, Live, h.entries x hx, h.capacity]

theorem besides_trans (h : Besides P P' id) (h' : Besides P' P'' id) : Besides P P'' id := by
  refine ⟨sameMarkers_trans h.markers h'.markers,h'.capacity.trans h.capacity,
    le_trans h.generation h'.generation,fun x hx => (h'.entries x hx).trans (h.entries x hx),
    fun x hx hl i hi => ?_⟩
  have e := h'.bytes x hx ((besides_live h x hx).mpr hl) i (by rw [h.entries x hx]; exact hi)
  rw [h.entries x hx] at e
  exact e.trans (h.bytes x hx hl i hi)

theorem besides_survives (h : Besides P P' id) (x : ℕ) (hx : x ≠ id) (hl : Live P x) :
    Survives P P' x :=
  ⟨hl,Or.inl (h.entries x hx),h.bytes x hx hl⟩

def removedState (P : Partition) (id : ℕ) (e : CacheEntry) (ix : Index) (a : Arena) : Partition :=
  { P with
    index := ix
    arena := a
    entries := update P.entries id e
    freeEntryHead := id
    entryCount := P.entryCount-1 }

section Removed

variable {e : CacheEntry} {ix : Index} {a : Arena}

theorem removed_other (x : ℕ) (h : x ≠ id) :
    (removedState P id e ix a).entries x = P.entries x := by
  simp [removedState, h]

theorem removed_live (he : e.inUse = false) (x : ℕ) :
    Live (removedState P id e ix a) x ↔ Live P x ∧ x ≠ id := by
  by_cases h : x = id
  · subst h
    simp [Live, removedState, he]
  · simp only [Live, removed_other x h, h, ne_eq, not_false_eq_true, and_true]
    rfl

theorem removed_vacant (he : e.inUse = false) (hl : Live P id) (x : ℕ) :
    Vacant (removedState P id e ix a) x ↔ Vacant P x ∨ x = id := by
  by_cases h : x = id
  · subst h
    simp only [Vacant, removedState, update_self, he, or_true, iff_true]
    exact ⟨hl.1,hl.2.1,trivial⟩
  · simp only [Vacant, removed_other x h, h, or_false]
    rfl

theorem removed_count (he : e.inUse = false) (hl : Live P id) :
    tally (fun i => (P.entries (i+1)).inUse) P.capacity =
      tally (fun i => (update P.entries id e (i+1)).inUse) P.capacity+1 := by
  have h1 := hl.1
  have h2 := hl.2.1
  refine tally_set _ _ _ (id-1) (by omega) (fun i _ hi => ?_) ?_ ?_
  · rw [update_of_ne (by omega)]
  · rw [Nat.sub_add_cancel (by omega), update_self]
    exact he
  · rw [Nat.sub_add_cancel (by omega)]
    exact hl.2.2

variable {req : ℕ → Option ℕ}

theorem removed_bytes (hs : Sound P.arena req) (ho : Owned P held req)
    (hk : Keeps P.arena a (fun r => req r ≠ none ∧ r ≠ (P.entries id).blockRef)) (hl : Live P id)
    (x : ℕ) (hx : Live P x) (hne : x ≠ id) : SameBytes P (removedState P id e ix a) x := by
  intro i hi
  have hown := ho.own x hx
  have hfit := hs.fits _ _ hown
  exact (hk _ ⟨by simp [hown],fun he => hne (ho.inj x id hx hl he)⟩).2 i (by omega)

theorem removed_owned (he : e.inUse = false) (ho : Owned P held req) (hl : Live P id) :
    Owned (removedState P id e ix a) held
      (update req (P.entries id).blockRef none) := by
  have hlive : ∀ x, Live (removedState P id e ix a) x ↔ Live P x ∧ x ≠ id := removed_live he
  refine ⟨fun x hx => ?_,fun ref hne => ?_,fun ref len h => ?_,fun x y hx hy heq => ?_⟩
  · obtain ⟨h1,h2⟩ := (hlive x).mp hx
    rw [removed_other x h2, update_of_ne (fun heq => h2 (ho.inj x id h1 hl heq))]
    exact ho.own x h1
  · by_cases h : ref = (P.entries id).blockRef
    · rw [h, update_self] at hne
      exact absurd rfl hne
    · rw [update_of_ne h] at hne
      refine (ho.owner ref hne).imp (fun ⟨x,h1,h2⟩ => ?_) (fun h => h)
      have hx : x ≠ id := fun heq => h (by rw [← h2, heq])
      exact ⟨x,(hlive x).mpr ⟨h1,hx⟩,by rw [removed_other x hx, h2]⟩
  · obtain ⟨h1,h2⟩ := ho.held ref len h
    refine ⟨by rw [update_of_ne (h2 id hl).symm]; exact h1,fun x hx => ?_⟩
    obtain ⟨g1,g2⟩ := (hlive x).mp hx
    rw [removed_other x g2]
    exact h2 x g1
  · obtain ⟨h1,h2⟩ := (hlive x).mp hx
    obtain ⟨g1,g2⟩ := (hlive y).mp hy
    rw [removed_other x h2, removed_other y g2] at heq
    exact ho.inj x y h1 g1 heq

theorem entryRep_remove (hr : EntryRep P held pending) (he : e.inUse = false)
    (hnext : e.freeNext = P.freeEntryHead)
    (hs : Sound P.arena req) (ho : Owned P held req) (hl : Live P id)
    (hix : Indexed ix (fun x => Live P x ∧ x ≠ id) (hashOf P))
    (hal : ix.allocatedBucketCount = P.index.allocatedBucketCount)
    (ha : Sound a (update req (P.entries id).blockRef none))
    (hk : Keeps P.arena a (fun r => req r ≠ none ∧ r ≠ (P.entries id).blockRef)) :
    EntryRep (removedState P id e ix a) held none := by
  have hlive : ∀ x, Live (removedState P id e ix a) x ↔ Live P x ∧ x ≠ id := removed_live he
  have hkey : ∀ x, Live P x → x ≠ id →
      entryId (removedState P id e ix a) x = entryId P x := by
    intro x hx hne
    exact survives_entryId hr ⟨hx,Or.inl (removed_other x hne),removed_bytes hs ho hk hl x hx hne⟩
  refine ⟨hr.bound,hal.trans hr.buckets,?_,?_,?_,⟨_,ha,removed_owned he ho hl⟩,fun x hx => ?_,
    fun x y hx hy heq => ?_,fun x hx => ?_⟩
  · refine indexed_congr hix (fun x => ?_) (fun x hx => ?_)
    · simp only [Listed, hlive]
      simp
    · simp only [hashOf, removed_other x hx.2]
  · have hv : ¬Vacant P id := fun h => by
      have := h.2.2
      rw [hl.2.2] at this
      simp at this
    have hpush := lists_push hr.free id hv hl.1
    refine lists_congr hpush (fun x => removed_vacant he hl x) (fun x _ => ?_)
    by_cases h : x = id
    · subst h
      simp [removedState, hnext]
    · simp [removedState, h]
  · have hc := removed_count he hl
    have hcount := hr.count
    change P.entryCount-1 = tally (fun i => (update P.entries id e (i+1)).inUse)
      P.capacity
    omega
  · obtain ⟨h1,h2⟩ := (hlive x).mp hx
    rw [removed_other x h2]
    exact hr.shape x h1
  · obtain ⟨h1,h2⟩ := (hlive x).mp hx
    obtain ⟨g1,g2⟩ := (hlive y).mp hy
    rw [hkey x h1 h2, hkey y g1 g2] at heq
    exact hr.unique x y h1 g1 heq
  · obtain ⟨h1,h2⟩ := (hlive x).mp hx
    rw [removed_other x h2]
    exact hr.versions x h1

end Removed

theorem rebuildCacheIndex_spec {E : Fault → Partition → Prop} (hr : EntryRep P held pending) :
    Ensures rebuildCacheIndex P
      (fun _ P' => EntryRep P' held pending ∧ ∃ ix, P' = { P with index := ix }) E := by
  have hv := rep_indexValid hr
  have hal := indexRebuild_allocated P.index (idCallbacks P) blankQuery
  unfold rebuildCacheIndex
  simp only [ensures_bind, ensures_get, hv, Bool.not_true, Bool.false_eq_true, if_false]
  rcases rebuildExisting_cases hr.indexed (idCallbacks_faithful blankQuery) with ⟨ix,h,hi,_⟩ | h
  · rw [h] at hal ⊢
    exact ⟨entryRep_reindex hr pending ix hal hi,ix,rfl⟩
  · rw [h]
    exact ⟨hr,P.index,rfl⟩

theorem index_trimmed (P : Partition) (ix : Index) (excluded : ℕ) :
    Trimmed P { P with index := ix } excluded :=
  ⟨sameMarkers_refl P,rfl,le_refl _,fun _ h => ⟨h,Or.inl rfl,fun _ _ => rfl⟩,fun _ _ _ => rfl⟩

theorem trimmed_removed (hb : Besides P P' id) (hn : ¬Live P' id) (hp : ¬Protected P excluded id) :
    Trimmed P P' excluded := by
  refine ⟨hb.markers,hb.capacity,hb.generation,fun x hx => ?_,fun x hx hpx => ?_⟩
  · have hne : x ≠ id := fun he => hn (he ▸ hx)
    exact besides_survives hb x hne ((besides_live hb x hne).mp hx)
  · exact hb.entries x (fun he => hp (he ▸ hpx))

theorem remove_exact (hr : EntryRep P held none) (hl : Live P id) :
    ∃ a, arenaFree P.arena (P.entries id).blockRef (P.entries id).blockLen = (true,a) ∧
      Ensures (cacheEntryRemoveLocked id) P (fun gone P' => gone = true ∧ EntryRep P' held none ∧
        ∃ ix, P' = removedState P id (retiredEntry (P.entries id) P.freeEntryHead) ix a)
        Never := by
  obtain ⟨req,hs,ho⟩ := hr.blocks
  have hv := rep_indexValid hr
  have hfree : P.freeEntryHead ≤ P.capacity := by
    by_cases h : P.freeEntryHead = 0
    · omega
    · exact (lists_head_free hr.free h).2.1
  have h0 := hl.1
  have h1 := hl.2.1
  obtain ⟨ix,hrem,hix⟩ := remove_hit hr.indexed
    (idCallbacks_faithful (removalQuery (P.entries id) id)) id ⟨hl,by simp⟩
    (by simp [removalQuery]) (fun id' _ _ h => by simpa [removalQuery] using h)
  have hal := indexRemove_allocated P.index (idCallbacks P) (hashOf P id)
    (removalQuery (P.entries id) id)
  rw [hrem] at hal
  rw [hashOf] at hrem
  obtain ⟨a,hfr,ha,hk⟩ := arenaFree_live hs _ _ (ho.own id hl)
  have hrep : EntryRep (removedState P id (retiredEntry (P.entries id) P.freeEntryHead) ix a)
      held none :=
    entryRep_remove hr rfl rfl hs ho hl (indexed_congr hix (fun x => by simp [Listed])
      (fun _ _ => rfl)) hal ha hk
  refine ⟨a,hfr,?_⟩
  unfold cacheEntryRemoveLocked
  simp only [ensures_bind, ensures_get, rep_block hr id hl, hv, hl.2.2]
  rw [if_neg (by omega), if_neg (by simp), if_neg (by simp; omega)]
  simp only [hrem, hfr, ensures_bind, ensures_set, ne_eq, not_true_eq_false, if_false,
    Bool.not_true, Bool.false_eq_true]
  by_cases hn : indexNeedsRebuild ix
  · rw [if_pos hn]
    apply ensures_seq (rebuildCacheIndex_spec hrep)
    rintro _ P' ⟨hrep',ix',rfl⟩
    exact ⟨rfl,hrep',ix',rfl⟩
  · rw [if_neg hn]
    exact ⟨rfl,hrep,ix,rfl⟩

theorem remove_spec (hr : EntryRep P held none) (hl : Live P id) :
    Ensures (cacheEntryRemoveLocked id) P (fun gone P' => gone = true ∧ EntryRep P' held none ∧
      Besides P P' id ∧ ¬Live P' id ∧ P'.entryCount+1 = P.entryCount) Exhausted := by
  obtain ⟨req,hs,ho⟩ := hr.blocks
  obtain ⟨a,hfr,hrun⟩ := remove_exact hr hl
  obtain ⟨a',hfr',_,hk⟩ := arenaFree_live hs _ _ (ho.own id hl)
  have ha : a' = a := by
    rw [hfr] at hfr'
    exact (Prod.mk.inj hfr').2.symm
  subst ha
  refine ensures_mono hrun ?_ (fun _ _ h => h.elim)
  rintro gone P' ⟨rfl,hrep,ix,rfl⟩
  refine ⟨rfl,hrep,⟨sameMarkers_refl P,rfl,le_refl _,fun x hx => removed_other x hx,
    fun x hx hlx => removed_bytes hs ho hk hl x hlx hx⟩,fun h => ?_,?_⟩
  · exact ((removed_live (e := retiredEntry (P.entries id) P.freeEntryHead) rfl id).mp h).2 rfl
  · have := removed_count (e := retiredEntry (P.entries id) P.freeEntryHead) rfl hl
    have := hr.count
    change P.entryCount-1+1 = P.entryCount
    omega

theorem remove_dead {E : Fault → Partition → Prop} (hl : ¬Live P id) :
    Ensures (cacheEntryRemoveLocked id) P (fun gone P' => gone = false ∧ P' = P) E := by
  unfold cacheEntryRemoveLocked
  simp only [ensures_bind, ensures_get]
  by_cases h0 : id = 0 ∨ P.capacity < id
  · rw [if_pos h0]
    exact ⟨rfl,rfl⟩
  · rw [if_neg h0]
    have hu : (P.entries id).inUse = false := by
      by_contra h
      exact hl ⟨fun e => h0 (Or.inl e),by omega,by simpa using h⟩
    rw [if_pos (by simp [hu])]
    exact ⟨rfl,rfl⟩

theorem removeVictims_spec (victims : List ℕ) (n : ℕ) (hr : EntryRep P held none)
    (hp : ∀ v ∈ victims, Live P v → ¬Protected P excluded v) :
    Ensures (removeVictims victims n) P (fun m P' => EntryRep P' held none ∧
      Trimmed P P' excluded ∧ P'.entryCount+m = P.entryCount+n) Exhausted := by
  induction victims generalizing n P with
  | nil => exact ⟨hr,trimmed_refl P excluded,rfl⟩
  | cons v vs ih =>
    rw [removeVictims, ensures_bind]
    by_cases hl : Live P v
    · refine ensures_imp (remove_spec hr hl) ?_
      rintro _ P' ⟨rfl,hr',hb,hn,hcount⟩
      have ht := trimmed_removed hb hn (hp v (by simp) hl)
      have hp' : ∀ x ∈ vs, Live P' x → ¬Protected P' excluded x := by
        intro x hx hlx
        obtain ⟨g1,g2,_⟩ := ht.survive x hlx
        have := hp x (by simp [hx]) g1
        rwa [Protected, (survivor_block g2).2]
      refine ensures_imp (ih (n+1) hr' hp') ?_
      rintro m P'' ⟨hr'',ht',hcount'⟩
      exact ⟨hr'',trimmed_trans ht ht',by omega⟩
    · refine ensures_imp (remove_dead hl) ?_
      rintro _ P' ⟨rfl,rfl⟩
      exact ih n hr (fun x hx => hp x (by simp [hx]))

end PgLocalCache.EntryRemoval
