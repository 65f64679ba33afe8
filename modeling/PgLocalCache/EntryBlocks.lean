import PgLocalCache.EntryEviction

/-!
# Blocks taken and returned by a running operation

The retry loop around an allocation, the release of a block that never got a
descriptor, and the loops that look for a free descriptor. Each of them only
trims the table; what changes is whether the operation holds a block.
-/

namespace PgLocalCache.EntryBlocks

open CacheArena ArenaInvariant ArenaAlloc ArenaRelease
open CacheState CacheEntries CacheAdmission Outcome EntryInvariant EntryRemoval EntryEviction
open Function (update update_of_ne update_self)

variable {P P' : Partition} {held : Option (ℕ × ℕ)} {pending : Option ℕ} {excluded : ℕ}

theorem arena_trimmed {req : ℕ → Option ℕ} {a : Arena} (hs : Sound P.arena req)
    (ho : Owned P held req)
    (hk : Keeps P.arena a (fun r => ∃ id, Live P id ∧ (P.entries id).blockRef = r))
    (excluded : ℕ) : Trimmed P { P with arena := a } excluded := by
  refine ⟨sameMarkers_refl P,rfl,le_refl _,fun id hl => ⟨hl,Or.inl rfl,fun i hi => ?_⟩,
    fun _ _ _ => rfl⟩
  have hfit := hs.fits _ _ (ho.own id hl)
  exact (hk _ ⟨id,hl,rfl⟩).2 i (by omega)

theorem entryRep_arena {req req' : ℕ → Option ℕ} {a : Arena} {held' : Option (ℕ × ℕ)}
    (hr : EntryRep P held pending) (hs : Sound P.arena req) (ho : Owned P held req)
    (ha : Sound a req') (ho' : Owned P held' req')
    (hk : Keeps P.arena a (fun r => ∃ id, Live P id ∧ (P.entries id).blockRef = r)) :
    EntryRep { P with arena := a } held' pending := by
  have hid : ∀ id, Live P id → entryId { P with arena := a } id = entryId P id := fun id hl =>
    trimmed_entryId hr (arena_trimmed hs ho hk 0) hl
  refine ⟨hr.bound,hr.buckets,hr.indexed,hr.free,hr.count,⟨req',ha,ho'.own,ho'.owner,ho'.held,
    ho'.inj⟩,hr.shape,fun id id' h h' he => hr.unique id id' h h' ?_,hr.versions⟩
  rwa [hid id h, hid id' h'] at he

theorem owned_hold {req : ℕ → Option ℕ} (ho : Owned P none req) (ref len : ℕ)
    (hnone : req ref = none) :
    Owned P (some (ref,len)) (update req ref (some len)) := by
  have hne : ∀ id, Live P id → (P.entries id).blockRef ≠ ref := fun id hl he => by
    have := ho.own id hl
    rw [he, hnone] at this
    simp at this
  refine ⟨fun id hl => ?_,fun r hr => ?_,fun r n h => ?_,ho.inj⟩
  · rw [update_of_ne (hne id hl)]
    exact ho.own id hl
  · by_cases h : r = ref
    · exact Or.inr ⟨len,by rw [h]⟩
    · rw [update_of_ne h] at hr
      rcases ho.owner r hr with h' | ⟨_,h'⟩
      · exact Or.inl h'
      · simp at h'
  · cases h
    exact ⟨update_self _ _ _,hne⟩

theorem owned_drop {req : ℕ → Option ℕ} (ref len : ℕ) (ho : Owned P (some (ref,len)) req) :
    Owned P none (update req ref none) := by
  obtain ⟨_,hne⟩ := ho.held ref len rfl
  refine ⟨fun id hl => ?_,fun r hr => ?_,fun _ _ h => by simp at h,ho.inj⟩
  · rw [update_of_ne (hne id hl)]
    exact ho.own id hl
  · by_cases h : r = ref
    · rw [h, update_self] at hr
      exact absurd rfl hr
    · rw [update_of_ne h] at hr
      rcases ho.owner r hr with h' | ⟨n,h'⟩
      · exact Or.inl h'
      · simp only [Option.some.injEq, Prod.mk.injEq] at h'
        exact absurd h'.1.symm h

theorem alloc_step (hr : EntryRep P none none) (len : ℕ) :
    (∃ ref size a, arenaAlloc P.arena len = (some (ref,size),a) ∧ len ≤ size ∧
      EntryRep { P with arena := a } (some (ref,len)) none ∧
      ∀ excluded, Trimmed P { P with arena := a } excluded) ∨
    arenaAlloc P.arena len = (none,P.arena) := by
  obtain ⟨req,hs,ho⟩ := hr.blocks
  rcases arenaAlloc_cases hs len with ⟨ref,size,a,h1,h2,h3,h4,_,h6⟩ | h
  · have hk : Keeps P.arena a (fun r => ∃ id, Live P id ∧ (P.entries id).blockRef = r) := by
      rintro r ⟨id,hl,rfl⟩
      exact h6 _ (by simp [ho.own id hl])
    exact Or.inl ⟨ref,size,a,h1,h3,entryRep_arena hr hs ho h4 (owned_hold ho ref len h2) hk,
      arena_trimmed hs ho hk⟩
  · exact Or.inr h

theorem free_step (ref len : ℕ) (hr : EntryRep P (some (ref,len)) pending) :
    ∃ a, arenaFree P.arena ref len = (true,a) ∧ EntryRep { P with arena := a } none pending ∧
      ∀ excluded, Trimmed P { P with arena := a } excluded := by
  obtain ⟨req,hs,ho⟩ := hr.blocks
  obtain ⟨hreq,hne⟩ := ho.held ref len rfl
  obtain ⟨a,h1,h2,h3⟩ := arenaFree_live hs ref len hreq
  have hk : Keeps P.arena a (fun r => ∃ id, Live P id ∧ (P.entries id).blockRef = r) := by
    rintro r ⟨id,hl,rfl⟩
    exact h3 _ ⟨by simp [ho.own id hl],hne id hl⟩
  exact ⟨a,h1,entryRep_arena hr hs ho h2 (owned_drop ref len ho) hk,arena_trimmed hs ho hk⟩

theorem allocOrEvict_spec (cfg : Settings) (len : ℕ) (env : ℕ → EvictEnv) (n i : ℕ)
    (hr : EntryRep P none none) (hn : P.entryCount < n) :
    Ensures (allocOrEvict cfg len excluded env n i) P (fun res P' => Trimmed P P' excluded ∧
      match res with
      | none => EntryRep P' none none
      | some (ref,size) => len ≤ size ∧ EntryRep P' (some (ref,len)) none) Exhausted := by
  induction n generalizing i P with
  | zero => omega
  | succ n ih =>
    unfold allocOrEvict
    simp only [ensures_bind, ensures_get]
    rcases alloc_step hr len with ⟨ref,size,a,h1,h2,h3,h4⟩ | h
    · rw [h1]
      exact ⟨h4 excluded,h2,h3⟩
    · rw [h]
      simp only [ensures_bind, ensures_set]
      refine ensures_imp (evict_spec cfg (arenaClassSize len) (env i) hr) ?_
      rintro m P' ⟨g1,g2,g3⟩
      change P'.entryCount+m = P.entryCount at g3
      by_cases hm : m = 0
      · rw [if_pos hm]
        exact ⟨g2,g1⟩
      · rw [if_neg hm]
        refine ensures_imp (ih (i+1) g1 (by omega)) ?_
        rintro res P'' ⟨k1,k2⟩
        exact ⟨trimmed_trans g2 k1,k2⟩

theorem releaseUnindexed_spec (ref len : ℕ) (hr : EntryRep P (some (ref,len)) pending) :
    Ensures (releaseUnindexed ref len) P (fun _ P' => EntryRep P' none pending ∧
      ∀ excluded, Trimmed P P' excluded) Exhausted := by
  obtain ⟨a,h1,h2,h3⟩ := free_step ref len hr
  unfold releaseUnindexed
  simp only [ensures_bind, ensures_get, h1, ensures_set, if_true]
  exact ⟨h2,h3⟩

theorem dropBlock_spec (ref len : ℕ) (hr : EntryRep P (some (ref,len)) pending) :
    Ensures (dropBlock ref len) P (fun _ P' => EntryRep P' none pending ∧
      ∀ excluded, Trimmed P P' excluded) Exhausted := by
  obtain ⟨a,h1,h2,h3⟩ := free_step ref len hr
  unfold dropBlock
  simp only [ensures_modify, h1]
  exact ⟨h2,h3⟩

def HoldIf (ref len : ℕ) (kept : Bool) : Option (ℕ × ℕ) := if kept then some (ref,len) else none

theorem ensureDescriptor_spec (cfg : Settings) (ref len : ℕ) (env : EvictEnv)
    (hr : EntryRep P (some (ref,len)) none) :
    Ensures (ensureDescriptor cfg ref len env) P (fun ok P' =>
      EntryRep P' (HoldIf ref len ok) none ∧ Trimmed P P' 0) Exhausted := by
  unfold ensureDescriptor
  simp only [ensures_bind, ensures_get]
  by_cases hh : P.freeEntryHead ≠ 0
  · rw [if_pos hh]
    exact ⟨hr,trimmed_refl P 0⟩
  · rw [if_neg hh]
    refine ensures_seq (evict_spec cfg 0 env hr) ?_
    rintro m P' ⟨g1,g2,_⟩
    by_cases hm : m = 0
    · rw [if_pos hm]
      refine ensures_seq (releaseUnindexed_spec ref len g1) ?_
      rintro _ P'' ⟨k1,k2⟩
      exact ⟨k1,trimmed_trans g2 (k2 0)⟩
    · rw [if_neg hm]
      exact ⟨g1,g2⟩

theorem reserveLoop_spec (cfg : Settings) (ref len : ℕ) (env : ℕ → EvictEnv) (grant : ℕ → Bool)
    (n i : ℕ) (hr : EntryRep P (some (ref,len)) none) (hn : P.entryCount < n) :
    Ensures (reserveLoop cfg ref len env grant n i) P (fun ok P' =>
      EntryRep P' (HoldIf ref len ok) none ∧ Trimmed P P' 0) Exhausted := by
  induction n generalizing i P with
  | zero => omega
  | succ n ih =>
    unfold reserveLoop
    by_cases hg : grant i
    · rw [if_pos hg]
      exact ⟨hr,trimmed_refl P 0⟩
    · rw [if_neg hg]
      refine ensures_seq (evict_spec cfg 0 (env i) hr) ?_
      rintro m P' ⟨g1,g2,g3⟩
      by_cases hm : m = 0
      · rw [if_pos hm]
        refine ensures_seq (releaseUnindexed_spec ref len g1) ?_
        rintro _ P'' ⟨k1,k2⟩
        exact ⟨k1,trimmed_trans g2 (k2 0)⟩
      · rw [if_neg hm]
        refine ensures_imp (ih (i+1) g1 (by omega)) ?_
        rintro ok P'' ⟨k1,k2⟩
        exact ⟨k1,trimmed_trans g2 k2⟩

end PgLocalCache.EntryBlocks
