import PgLocalCache.EntryBlocks

/-!
# Filling a free descriptor

The frames of a section that works on one descriptor, and the step of an
admission that turns the held block and the head of the free list into a
descriptor that is not yet indexed.
-/

namespace PgLocalCache.EntryInstall

open ByteMemory FreeChain IndexInvariant CacheArena ArenaInvariant ArenaRelease
open CacheState CacheEntries CacheAdmission Outcome
open EntryInvariant EntryRemoval EntryEviction EntryBlocks
open Function (update update_of_ne update_self)

variable {P P' P'' : Partition} {held : Option (ℕ × ℕ)} {pending : Option ℕ} {id : ℕ}

def installedState (P : Partition) (r : EntryRequest) (ref id : ℕ) : Partition :=
  { P with
    freeEntryHead := (P.entries id).freeNext
    entryGeneration := P.entryGeneration+1
    entries := update P.entries id
      { freshEntry r ref with version := P.entryGeneration+1 }
    arena := { P.arena with memory := write P.arena.memory ref (r.key.take r.keyLen) }
    entryCount := P.entryCount+1 }

theorem besides_entryId (hr : EntryRep P held pending) (h : Besides P P' id) (x : ℕ) (hx : x ≠ id)
    (hl : Live P x) : entryId P' x = entryId P x :=
  survives_entryId hr (besides_survives h x hx hl)

/-- What a section may do to the descriptors it does not work on. -/
structure Change (P P' : Partition) (id : ℕ) : Prop where
  markers : SameMarkers P P'
  capacity : P'.capacity = P.capacity
  generation : P.entryGeneration ≤ P'.entryGeneration
  survive : ∀ x, x ≠ id → Live P' x → Survives P P' x
  kept : ∀ x, x ≠ id → Live P x → (P.entries x).dirtyWriters ≠ 0 → P'.entries x = P.entries x

theorem change_of_besides (h : Besides P P' id) : Change P P' id :=
  ⟨h.markers,h.capacity,h.generation,
    fun x hx hl => besides_survives h x hx ((besides_live h x hx).mp hl),
    fun x hx _ _ => h.entries x hx⟩

theorem change_of_trimmed {excluded : ℕ} (h : Trimmed P P' excluded) (id : ℕ) : Change P P' id :=
  ⟨h.markers,h.capacity,h.generation,fun x _ hl => h.survive x hl,
    fun x _ hl hd => h.kept x hl (Or.inr hd)⟩

theorem change_refl (P : Partition) (id : ℕ) : Change P P id :=
  change_of_besides (besides_refl P id)

theorem change_trans (h : Change P P' id) (h' : Change P' P'' id) : Change P P'' id := by
  refine ⟨sameMarkers_trans h.markers h'.markers,h'.capacity.trans h.capacity,
    le_trans h.generation h'.generation,fun x hx hl => ?_,fun x hx hl hd => ?_⟩
  · have hs := h'.survive x hx hl
    exact survives_trans h.generation h'.generation (h.survive x hx hs.live) hs
  · have e := h.kept x hx hl hd
    have hl' : Live P' x := by rwa [Live, e, h.capacity]
    rw [h'.kept x hx hl' (by rwa [e]), e]

theorem vacant_not_live (h : Vacant P id) : ¬Live P id := fun hl => by
  have := hl.2.2
  rw [h.2.2] at this
  simp at this

section Install

variable {r : EntryRequest} {ref : ℕ}

theorem installed_live (hv : Vacant P id) (x : ℕ) :
    Live (installedState P r ref id) x ↔ Live P x ∨ x = id := by
  by_cases h : x = id
  · subst h
    simp only [Live, installedState, update_self, freshEntry, or_true, iff_true]
    exact ⟨hv.1,hv.2.1,trivial⟩
  · simp only [Live, installedState, update_of_ne h, h, or_false]

theorem installed_vacant (x : ℕ) :
    Vacant (installedState P r ref id) x ↔ Vacant P x ∧ x ≠ id := by
  by_cases h : x = id
  · subst h
    simp [Vacant, installedState, freshEntry]
  · simp only [Vacant, installedState, update_of_ne h, h, ne_eq, not_false_eq_true,
      and_true]

theorem installed_besides {req : ℕ → Option ℕ} (hs : Sound P.arena req)
    (ho : Owned P (some (ref,r.keyLen)) req) : Besides P (installedState P r ref id) id := by
  obtain ⟨hreq,hne⟩ := ho.held ref r.keyLen rfl
  refine ⟨sameMarkers_refl P,rfl,Nat.le_succ _,fun x hx => update_of_ne hx _ _,
    fun x hx hl i hi => ?_⟩
  have hown := ho.own x hl
  have hfit := hs.fits _ _ hown
  have hfit' := hs.fits _ _ hreq
  have hd := blocks_disjoint hs.toCore (P.entries x).blockRef ref (by simp [hown])
    (by simp [hreq]) (hne x hl)
  refine write_outside _ _ _ _ ?_
  rw [List.length_take]
  omega

theorem installed_key (hq : RequestOk r) :
    entryId (installedState P r ref id) id = requestId r := by
  have hlen : (r.key.take r.keyLen).length = r.keyLen := by
    rw [List.length_take, Nat.min_eq_left hq.len]
  have hk : entryKey (installedState P r ref id) id = r.key.take r.keyLen := by
    simp only [entryKey, installedState, update_self, freshEntry]
    have := read_write_same P.arena.memory ref (r.key.take r.keyLen)
    rwa [hlen] at this
  simp only [entryId, requestId, hk]
  simp [installedState, freshEntry]

theorem installed_count (hr : EntryRep P held pending) (hv : Vacant P id) :
    P.entryCount+1 = tally (fun i => (update P.entries id
      { freshEntry r ref with version := P.entryGeneration+1 } (i+1)).inUse) P.capacity := by
  have h1 := hv.1
  have h2 := hv.2.1
  rw [hr.count]
  refine (tally_set _ _ _ (id-1) (by omega) (fun i _ hi => ?_) ?_ ?_).symm
  · rw [update_of_ne (by omega)]
  · rw [Nat.sub_add_cancel (by omega)]
    exact hv.2.2
  · rw [Nat.sub_add_cancel (by omega), update_self]
    rfl

theorem installed_owned {req : ℕ → Option ℕ} (hv : Vacant P id)
    (ho : Owned P (some (ref,r.keyLen)) req) : Owned (installedState P r ref id) none req := by
  obtain ⟨hreq,hne⟩ := ho.held ref r.keyLen rfl
  have hid : ((installedState P r ref id).entries id).blockRef = ref := by
    simp [installedState, freshEntry]
  have hother : ∀ x, Live P x → x ≠ id ∧ (installedState P r ref id).entries x = P.entries x := by
    intro x hx
    have h : x ≠ id := fun he => vacant_not_live hv (he ▸ hx)
    exact ⟨h,update_of_ne h _ _⟩
  refine ⟨fun x hx => ?_,fun q hq => ?_,fun _ _ h => by simp at h,fun x y hx hy he => ?_⟩
  · rcases (installed_live hv x).mp hx with h | rfl
    · rw [(hother x h).2]
      exact ho.own x h
    · rw [hid, hreq]
      simp [installedState, freshEntry]
  · rcases ho.owner q hq with ⟨x,h1,h2⟩ | ⟨len,h⟩
    · exact Or.inl ⟨x,(installed_live hv x).mpr (Or.inl h1),by rw [(hother x h1).2, h2]⟩
    · cases h
      exact Or.inl ⟨id,(installed_live hv id).mpr (Or.inr rfl),hid⟩
  · rcases (installed_live hv x).mp hx with h1 | rfl <;>
      rcases (installed_live hv y).mp hy with h2 | h2
    · rw [(hother x h1).2, (hother y h2).2] at he
      exact ho.inj x y h1 h2 he
    · rw [(hother x h1).2, h2, hid] at he
      exact absurd he (hne x h1)
    · rw [(hother y h2).2, hid] at he
      exact absurd he.symm (hne y h2)
    · exact h2.symm

theorem entryRep_install (hr : EntryRep P (some (ref,r.keyLen)) none) (hq : RequestOk r)
    (hz : P.freeEntryHead ≠ 0) (hnew : ∀ x, Live P x → entryId P x ≠ requestId r) :
    EntryRep (installedState P r ref P.freeEntryHead) none (some P.freeEntryHead) ∧
      Besides P (installedState P r ref P.freeEntryHead) P.freeEntryHead := by
  obtain ⟨req,hs,ho⟩ := hr.blocks
  obtain ⟨hreq,_⟩ := ho.held ref r.keyLen rfl
  have hv : Vacant P P.freeEntryHead := lists_head_free hr.free hz
  generalize hid : P.freeEntryHead = id at *
  have hbes : Besides P (installedState P r ref id) id := installed_besides hs ho
  have hother : ∀ x, Live P x → x ≠ id := fun x hx he => vacant_not_live hv (he ▸ hx)
  have hfit := hs.fits _ _ hreq
  refine ⟨⟨hr.bound,hr.buckets,?_,?_,installed_count hr hv,⟨req,?_,installed_owned hv ho⟩,
    fun x hx => ?_,fun x y hx hy he => ?_,fun x hx => ?_⟩,hbes⟩
  · refine indexed_congr hr.indexed (fun x => ?_) (fun x hx => ?_)
    · simp only [Listed, installed_live hv]
      constructor
      · rintro ⟨h | h,h'⟩
        · exact ⟨h,by simp⟩
        · exact absurd (congrArg some h.symm) h'
      · rintro ⟨h,_⟩
        exact ⟨Or.inl h,fun he => hother x h (Option.some.inj he).symm⟩
    · simp only [hashOf, hbes.entries x (hother x hx.1)]
  · have hpop := lists_pop hr.free (by rw [hid]; exact hv.1)
    rw [hid] at hpop
    refine lists_congr hpop installed_vacant (fun x hx => ?_)
    simp only [hbes.entries x hx.2]
  · refine (sound_write hs ref (by simp [hreq]) _ (fun x hx => write_outside _ _ _ _ ?_)).1
    rw [List.length_take]
    omega
  · rcases (installed_live hv x).mp hx with h | rfl
    · rw [hbes.entries x (hother x h)]
      exact hr.shape x h
    · have hmax := hq.max
      constructor <;> simp [installedState, freshEntry, blankEntry, hmax]
  · rcases (installed_live hv x).mp hx with h1 | rfl <;>
      rcases (installed_live hv y).mp hy with h2 | h2
    · rw [besides_entryId hr hbes x (hother x h1) h1,
        besides_entryId hr hbes y (hother y h2) h2] at he
      exact hr.unique x y h1 h2 he
    · rw [besides_entryId hr hbes x (hother x h1) h1, h2, installed_key hq] at he
      exact absurd he (hnew x h1)
    · rw [besides_entryId hr hbes y (hother y h2) h2, installed_key hq] at he
      exact absurd he.symm (hnew y h2)
    · exact h2.symm
  · rcases (installed_live hv x).mp hx with h | rfl
    · rw [hbes.entries x (hother x h)]
      exact Nat.le_succ_of_le (hr.versions x h)
    · simp [installedState]

end Install

def FreshAt (P : Partition) (r : EntryRequest) (id low : ℕ) : Prop :=
  ∃ ref v, low < v ∧ v ≤ P.entryGeneration ∧
    P.entries id = { freshEntry r ref with version := v }

theorem installDescriptor_head (r : EntryRequest) (ref : ℕ)
    (hr : EntryRep P (some (ref,r.keyLen)) none) (hz : P.freeEntryHead ≠ 0) :
    Ensures (installDescriptor r ref) P (fun res P' => res = some P.freeEntryHead ∧
      P' = installedState P r ref P.freeEntryHead)
      (fun e P' => Exhausted e P' ∧ P.entryGeneration = 2^64-1) := by
  have hv : Vacant P P.freeEntryHead := lists_head_free hr.free hz
  have hnext : (P.entries P.freeEntryHead).freeNext ≤ P.capacity := by
    rcases lists_next hr.free _ hv with h | h
    · omega
    · exact h.2.1
  obtain ⟨req,hs,ho⟩ := hr.blocks
  have hreq := (ho.held ref r.keyLen rfl).1
  have hbound := hv.2.1
  have hblock : arenaBlock P.arena ref = some ref := arenaBlock_live hs.toCore ref (by simp [hreq])
  unfold installDescriptor
  simp only [ensures_bind, ensures_get]
  rw [if_neg (by simp only [hz, hv.2.2, Bool.false_eq_true, false_or]; omega)]
  rw [ensures_bind, ensures_set, ensures_bind]
  refine ensures_mono (advanceVersion_exact _ _) ?_ ?_
  · rintro _ P1 rfl
    simp only [ensures_bind, ensures_get, bumpedState, hblock, ensures_set, ensures_pure]
    exact ⟨trivial,by simp [installedState]⟩
  · rintro e P1 ⟨rfl,rfl,hg⟩
    exact ⟨⟨rfl,hg⟩,hg⟩

theorem installDescriptor_spec (r : EntryRequest) (ref : ℕ)
    (hr : EntryRep P (some (ref,r.keyLen)) none) (hq : RequestOk r)
    (hnew : ∀ x, Live P x → entryId P x ≠ requestId r) :
    Ensures (installDescriptor r ref) P (fun res P' => match res with
      | none => EntryRep P' none none ∧ Trimmed P P' 0
      | some id => EntryRep P' none (some id) ∧ Besides P P' id ∧ ¬Live P id ∧ Live P' id ∧
        entryId P' id = requestId r ∧ FreshAt P' r id P.entryGeneration ∧
        (P'.entries id).blockRef = ref) Exhausted := by
  by_cases hz : P.freeEntryHead = 0
  · unfold installDescriptor
    simp only [ensures_bind, ensures_get]
    rw [if_pos (Or.inl hz)]
    refine ensures_seq (dropBlock_spec ref r.keyLen hr) ?_
    rintro _ P' ⟨h1,h2⟩
    exact ⟨h1,h2 0⟩
  · have hv : Vacant P P.freeEntryHead := lists_head_free hr.free hz
    obtain ⟨hrep,hbes⟩ := entryRep_install hr hq hz hnew
    refine ensures_mono (installDescriptor_head r ref hr hz) ?_ (fun _ _ h => h.1)
    rintro _ P' ⟨rfl,rfl⟩
    refine ⟨hrep,hbes,vacant_not_live hv,(installed_live hv _).mpr (Or.inr rfl),installed_key hq,
      ⟨ref,P.entryGeneration+1,Nat.lt_succ_self _,le_refl _,?_⟩,?_⟩ <;>
    simp [installedState, freshEntry]

end PgLocalCache.EntryInstall
