import PgLocalCache.EntryRewrite
import PgLocalCache.EntryAdmission

/-!
# Storing a value in a leased descriptor

Every exit of a store ends in one of two kinds of state: the descriptor holds the
new value under a new version, or its lease is gone and no value was added.
-/

namespace PgLocalCache.EntryStore

open ByteMemory CacheArena ArenaAlloc ArenaRelease CacheState CacheEntries
open CacheAdmission CacheOperations Outcome EntryInvariant EntryRemoval EntryEviction EntryBlocks
open EntryInstall EntryAdmission EntryRewrite
open Function (update update_eq_self update_of_ne update_self)

variable {P P' P'' : Partition} {held : Option (ℕ × ℕ)} {id : ℕ}

structure SamePayload (P P' : Partition) (id : ℕ) : Prop where
  negative : (P'.entries id).negative = (P.entries id).negative
  value : entryValue P' id = entryValue P id
  sourceXmin : (P'.entries id).sourceXmin = (P.entries id).sourceXmin
  globalEpoch : (P'.entries id).globalEpoch = (P.entries id).globalEpoch
  relationVersion : (P'.entries id).relationVersion = (P.entries id).relationVersion
  relationIncarnation :
    (P'.entries id).relationIncarnation = (P.entries id).relationIncarnation

structure SameLease (e' e : CacheEntry) : Prop where
  loading : e'.loading = e.loading
  loadId : e'.loadId = e.loadId
  version : e'.version = e.version
  globalEpoch : e'.globalEpoch = e.globalEpoch
  relationVersion : e'.relationVersion = e.relationVersion
  relationIncarnation : e'.relationIncarnation = e.relationIncarnation

/-- A descriptor that got neither a new value nor a new lease. -/
structure Lapse (P P' : Partition) (id : ℕ) : Prop where
  ident : entryId P' id = entryId P id
  valid : (P'.entries id).valid = true → (P.entries id).valid = true ∧ SamePayload P P' id
  loading : (P'.entries id).loading = true → SameLease (P'.entries id) (P.entries id)
  version : (P'.entries id).version = (P.entries id).version ∨
    P.entryGeneration < (P'.entries id).version
  loadId : (P'.entries id).version = (P.entries id).version →
    ∃ j ≤ 4, (P'.entries id).loadId = bump64^[j] (P.entries id).loadId

/-- A change of one descriptor record that adds neither a value nor a lease. -/
structure EntryLapse (generation : ℕ) (e' e : CacheEntry) : Prop where
  hard : HardEq e' e
  valid : e'.valid = true → e.valid = true ∧ e'.sourceXmin = e.sourceXmin ∧
    e'.globalEpoch = e.globalEpoch ∧ e'.relationVersion = e.relationVersion ∧
    e'.relationIncarnation = e.relationIncarnation
  loading : e'.loading = true → SameLease e' e
  version : e'.version = e.version ∨ generation < e'.version
  loadId : e'.version = e.version → ∃ j ≤ 4, e'.loadId = bump64^[j] e.loadId

theorem soft_value (hs : SoftStep P P') (id : ℕ) : entryValue P' id = entryValue P id := by
  have h := hs.entries id
  simp only [entryValue, hs.arena, h.blockRef, h.keyLen, h.valueLen]

theorem lapse_of_soft (hs : SoftStep P P')
    (h : EntryLapse P.entryGeneration (P'.entries id) (P.entries id)) : Lapse P P' id :=
  ⟨soft_entryId hs id,fun hv => ⟨(h.valid hv).1,h.hard.negative,soft_value hs id,(h.valid hv).2.1,
    (h.valid hv).2.2.1,(h.valid hv).2.2.2.1,(h.valid hv).2.2.2.2⟩,h.loading,h.version,h.loadId⟩

theorem revoked_lapse (generation v : ℕ) (e : CacheEntry) (hv : generation < v)
    (he : e.version ≤ generation) : EntryLapse generation (revokedEntry e v) e := by
  refine ⟨revoked_hard e v,fun h => ⟨h,rfl,rfl,rfl,rfl⟩,fun h => ?_,Or.inr hv,fun h => ?_⟩
  · simp [revokedEntry] at h
  · change v = e.version at h
    omega

theorem survives_lapse (hr : EntryRep P held none) (h : Survives P P' id) : Lapse P P' id := by
  have hver := hr.versions id h.live
  have hval := survives_value hr h
  have hid := survives_entryId hr h
  rcases h.entry with he | ⟨_,v,h1,_,he⟩
  · refine ⟨hid,fun hv => ?_,fun _ => ?_,Or.inl (by rw [he]),fun _ => ⟨0,by omega,by rw [he]; rfl⟩⟩
    · rw [he] at hv
      exact ⟨hv,by rw [he],hval,by rw [he],by rw [he],by rw [he],by rw [he]⟩
    · rw [he]
      constructor <;> rfl
  · have hl := revoked_lapse P.entryGeneration v (P.entries id) h1 hver
    rw [← he] at hl
    exact ⟨hid,fun hv => ⟨(hl.valid hv).1,hl.hard.negative,hval,(hl.valid hv).2.1,
      (hl.valid hv).2.2.1,(hl.valid hv).2.2.2.1,(hl.valid hv).2.2.2.2⟩,hl.loading,hl.version,
      hl.loadId⟩

/-- A descriptor that holds the value of a successful store. -/
structure Filled (P P' : Partition) (id : ℕ) (args : StoreArgs) : Prop where
  ident : entryId P' id = entryId P id
  valid : (P'.entries id).valid = true
  loading : (P'.entries id).loading = false
  negative : (P'.entries id).negative = args.negative
  value : entryValue P' id = if args.negative then [] else args.value
  sourceXmin : (P'.entries id).sourceXmin = if args.negative then 0 else args.sourceXmin
  globalEpoch : (P'.entries id).globalEpoch = args.token.globalEpoch
  relationVersion : (P'.entries id).relationVersion = args.token.relationVersion
  relationIncarnation : (P'.entries id).relationIncarnation = args.token.relationIncarnation
  version : P.entryGeneration < (P'.entries id).version

/-- The fence counters were read unchanged after the value was written. -/
def FencesHeld (cfg : Settings) (m : Mapping) (args : StoreArgs) (after : FenceReads)
    (dirtyWriters : ℕ) : Prop :=
  ∃ e : CacheEntry, e.dirtyWriters = dirtyWriters ∧
    (readFenceSnapshot cfg m (some e) after).1 = true ∧
    fencesMatchToken (readFenceSnapshot cfg m (some e) after).2 args.token = true

def abandonedEntry (e : CacheEntry) (clearValid : Bool) : CacheEntry :=
  { e with
    valid := if clearValid then false else e.valid
    loading := false
    loadId := bump64 e.loadId }

theorem set_besides (P : Partition) (id : ℕ) (e : CacheEntry) : Besides P (setEntry P id e) id :=
  ⟨sameMarkers_refl P,rfl,le_refl _,fun _ hx => update_of_ne hx _ _,fun _ _ _ _ _ => rfl⟩

@[simp] theorem setEntry_self (P : Partition) (id : ℕ) (e : CacheEntry) :
    (setEntry P id e).entries id = e := update_self _ _ _

theorem entryRep_set {pending : Option ℕ} (hr : EntryRep P held pending) (e : CacheEntry)
    (he : HardEq e (P.entries id)) (hv : e.version ≤ P.entryGeneration) :
    EntryRep (setEntry P id e) held pending := by
  refine entryRep_soft hr (soft_set P id e he) (fun x hx => ?_)
  by_cases h : x = id
  · rw [h, setEntry_self]
    exact hv
  · simp only [setEntry, update_of_ne h]
    exact hr.versions x hx

theorem abandonStore_spec (clearValid : Bool) (P : Partition) (id : ℕ) :
    Ensures (abandonStore id clearValid) P (fun ok P' => ok = false ∧
      P' = setEntry P id (abandonedEntry (P.entries id) clearValid)) Exhausted :=
  ⟨rfl,rfl⟩

def completedEntry (e : CacheEntry) (version clock : ℕ) (stored : Bool) : CacheEntry :=
  { e with
    version := version
    loading := false
    loadId := if stored then bump64 e.loadId else bump64 (bump64 e.loadId)
    valid := stored
    lastAccess := clock }

def completedState (P : Partition) (id clock : ℕ) (stored : Bool) : Partition :=
  bumpedState P id (completedEntry (P.entries id) (P.entryGeneration+1) clock stored)

theorem completeStore_spec (cfg : Settings) (m : Mapping) (args : StoreArgs) (after : FenceReads)
    (clock : ℕ) (P : Partition) (id : ℕ) :
    Ensures (completeStore cfg m id args after clock) P (fun ok P' =>
      P' = completedState P id clock ok ∧
      (ok = true → FencesHeld cfg m args after (P.entries id).dirtyWriters)) Exhausted := by
  unfold completeStore
  refine ensures_seq (advanceVersion_spec P id) ?_
  rintro _ P1 rfl
  simp only [ensures_bind, ensures_modify, ensures_get]
  set P2 : Partition := setEntry (bumpedState P id _) id _ with hP2
  have he : P2.entries id = { P.entries id with
      version := P.entryGeneration+1, loading := false,
      loadId := bump64 (P.entries id).loadId, valid := true } := by
    simp [hP2, bumpedState]
  by_cases hs : ((readFenceSnapshot cfg m (some (P2.entries id)) after).1 &&
      fencesMatchToken (readFenceSnapshot cfg m (some (P2.entries id)) after).2 args.token &&
      (P2.entries id).valid) = true
  · rw [if_neg (by rw [hs]; simp)]
    simp only [Bool.and_eq_true] at hs
    refine ⟨?_,fun _ => ⟨P2.entries id,by rw [he],hs.1.1,hs.1.2⟩⟩
    simp [setEntry, hP2, completedState, completedEntry, bumpedState]
  · have hs' := Bool.eq_false_iff.mpr hs
    rw [if_pos (by rw [hs']; rfl)]
    refine ensures_seq (abandonStore_spec true _ _) ?_
    rintro _ P3 ⟨_,rfl⟩
    refine ⟨?_,by simp⟩
    simp [setEntry, hP2, completedState, completedEntry, bumpedState, abandonedEntry]

def storedBytes (args : StoreArgs) : List UInt8 := if args.negative then [] else args.value

theorem storedBytes_length (args : StoreArgs) : (storedBytes args).length = newValueLen args := by
  unfold storedBytes newValueLen
  split <;> rfl

theorem completed_rep (hr : EntryRep P none none) (clock : ℕ) (stored : Bool) :
    EntryRep (completedState P id clock stored) none none :=
  bumped_rep hr _ (by constructor <;> rfl) (le_refl _)

/-- The descriptor after its block has the right length and the value was written. -/
structure FilledState (P F : Partition) (id : ℕ) (args : StoreArgs) : Prop where
  rep : EntryRep F none none
  besides : Besides P F id
  entry : ∃ ref len, F.entries id =
    filledEntry { P.entries id with blockRef := ref, blockLen := len } args
  generation : F.entryGeneration = P.entryGeneration
  key : entryKey F id = entryKey P id
  value : entryValue F id = storedBytes args

def lengthened (P : Partition) (id len : ℕ) (args : StoreArgs) : Partition :=
  setEntry P id (resizedEntry (P.entries id) (P.entries id).blockRef len args)

theorem write_filled (args : StoreArgs) (len : ℕ)
    (hr : EntryRep (lengthened P id len args) none none) (hl : Live P id)
    (hlen : len = (P.entries id).keyLen+newValueLen args)
    (hblock : (P.entries id).blockLen = len)
    (hslot : args.token.relationSlot = (P.entries id).relationSlot)
    (hgen : args.token.slotGeneration = (P.entries id).slotGeneration) :
    arenaBlock P.arena (P.entries id).blockRef = some (P.entries id).blockRef ∧
    len ≤ arenaBlockClass P.arena (P.entries id).blockRef ∧
    FilledState P { P with
      arena := { P.arena with memory := (write P.arena.memory
        ((P.entries id).blockRef+(P.entries id).keyLen) (storedBytes args)) }
      entries := update P.entries id (filledEntry (P.entries id) args) } id args := by
  set B := lengthened P id len args with hB
  set ref := (P.entries id).blockRef with href
  have hBe : B.entries id = resizedEntry (P.entries id) ref len args := setEntry_self _ _ _
  have hBl : Live B id := by
    rw [Live, hBe]
    exact hl
  obtain ⟨req,hs,ho⟩ := hr.blocks
  have hown : req ref = some len := by
    have := ho.own id hBl
    rwa [hBe] at this
  have hfit := hs.fits _ _ hown
  have hbytes := storedBytes_length args
  set mem := write P.arena.memory (ref+(P.entries id).keyLen) (storedBytes args) with hmem
  obtain ⟨hw,hkeep⟩ := sound_write hs ref (by simp [hown]) mem
    (fun x hx => write_outside _ _ _ _ (by omega))
  have hi : SameIdent (filledEntry (P.entries id) args) (B.entries id) := by
    rw [hBe]
    constructor <;> first | rfl | exact hslot | exact hgen
  have hF : ({ P with
      arena := { P.arena with memory := mem }
      entries := update P.entries id (filledEntry (P.entries id) args) } : Partition) =
      rewritten B id (filledEntry (P.entries id) args) { P.arena with memory := mem } := by
    simp [rewritten, hB, lengthened, setEntry]
  have howned : Owned (rewritten B id (filledEntry (P.entries id) args)
      { P.arena with memory := mem }) none req := by
    have h := owned_resize (a := { P.arena with memory := mem }) ho hBl hi (by rw [hBe]; rfl)
    have hreq : update req (B.entries id).blockRef
        (some (filledEntry (P.entries id) args).blockLen) = req := by
      rw [hBe]
      change update req ref (some (P.entries id).blockLen) = req
      rw [hblock, ← hown, update_eq_self]
    rwa [hreq] at h
  have hsame : ∀ x, x ≠ id → Live B x → SameBytes B (rewritten B id
      (filledEntry (P.entries id) args) { P.arena with memory := mem }) x := by
    intro x hx hlx i hi'
    have hown' := ho.own x hlx
    have hfit' := hs.fits _ _ hown'
    have hne : (B.entries x).blockRef ≠ ref := fun he =>
      hx (ho.inj x id hlx hBl (by rw [he, hBe]; rfl))
    exact (hkeep _ ⟨by simp [hown'],hne⟩).2 i (by omega)
  have hkey : entryKey (rewritten B id (filledEntry (P.entries id) args)
      { P.arena with memory := mem }) id = entryKey B id := by
    rw [entryKey, rewritten_self, entryKey, hBe]
    exact read_write_disjoint _ _ _ _ _ (Or.inl (le_refl _))
  have hshape : EntryShape (filledEntry (P.entries id) args) := by
    have hsh := hr.shape id hBl
    rw [hBe] at hsh
    exact ⟨hsh.key,hsh.value,hblock.trans hlen,hsh.negative⟩
  have hrep := entryRep_rewrite hr hBl hi hw howned hkey hsame hshape
    (by have := hr.versions id hBl; rwa [hBe] at this)
  have hbes : Besides P (rewritten B id (filledEntry (P.entries id) args)
      { P.arena with memory := mem }) id :=
    besides_trans (set_besides P id _) (rewritten_besides hsame)
  refine ⟨arenaBlock_live hs.toCore ref (by simp [hown]),?_,?_⟩
  · have := arenaBlockClass_live hs.toCore ref (by simp [hown])
    change arenaBlockClass P.arena ref = _ at this
    rw [this]
    exact hfit
  · rw [hF]
    refine ⟨hrep,hbes,⟨_,_,rewritten_self⟩,rfl,?_,?_⟩
    · rw [hkey, entryKey, hBe]
      rfl
    · rw [entryValue, rewritten_self]
      change read mem (ref+(P.entries id).keyLen) (newValueLen args) = storedBytes args
      rw [← hbytes]
      exact read_write_same _ _ _

theorem fillStore_spec (cfg : Settings) (m : Mapping) (args : StoreArgs) (reads : StoreReads)
    (len : ℕ) (hr : EntryRep (lengthened P id len args) none none) (hl : Live P id)
    (hlen : len = (P.entries id).keyLen+newValueLen args)
    (hblock : (P.entries id).blockLen = len)
    (hslot : args.token.relationSlot = (P.entries id).relationSlot)
    (hgen : args.token.slotGeneration = (P.entries id).slotGeneration) :
    Ensures (fillStore cfg m id len args reads) P (fun ok P' => ∃ F, FilledState P F id args ∧
      P' = completedState F id reads.clock ok ∧
      (ok = true → FencesHeld cfg m args reads.after (P.entries id).dirtyWriters))
      Exhausted := by
  obtain ⟨h1,h2,h3⟩ := write_filled args len hr hl hlen hblock hslot hgen
  unfold fillStore
  simp only [ensures_bind, ensures_get, h1]
  rw [if_neg (by omega)]
  simp only [ensures_bind, ensures_set]
  refine ensures_imp (completeStore_spec cfg m args reads.after reads.clock _ id) ?_
  rintro ok P' ⟨rfl,hok⟩
  refine ⟨_,h3,rfl,fun h => ?_⟩
  obtain ⟨e,he,h'⟩ := hok h
  exact ⟨e,he.trans (by simp [filledEntry]),h'⟩

/-- What a store that reached its descriptor leaves behind. -/
structure StoreDone (P : Partition) (id : ℕ) (args : StoreArgs) (ok : Bool) (P' : Partition) :
    Prop where
  rep : EntryRep P' none none
  change : Change P P' id
  live : Live P' id
  dirty : (P'.entries id).dirtyWriters = (P.entries id).dirtyWriters
  idle : (P'.entries id).loading = false
  filled : ok = true → Filled P P' id args
  lapsed : ok = false → Lapse P P' id

theorem besides_live_self (h : Besides P P' id) (hl : Live P id)
    (hu : (P'.entries id).inUse = (P.entries id).inUse) : Live P' id := by
  rw [Live, hu, h.capacity]
  exact hl

theorem completed_done (args : StoreArgs) (ok : Bool) (clock : ℕ) {F : Partition}
    (hf : FilledState P F id args) (hl : Live P id)
    (hver : (P.entries id).version ≤ P.entryGeneration)
    (hslot : args.token.relationSlot = (P.entries id).relationSlot)
    (hgen : args.token.slotGeneration = (P.entries id).slotGeneration) :
    StoreDone P id args ok (completedState F id clock ok) := by
  have hbes : Besides F (completedState F id clock ok) id :=
    ⟨sameMarkers_refl F,rfl,Nat.le_succ _,fun x hx => update_of_ne hx _ _,
      fun _ _ _ _ _ => rfl⟩
  obtain ⟨ref,len,hentry⟩ := hf.entry
  have he : (completedState F id clock ok).entries id = completedEntry
      (filledEntry { P.entries id with blockRef := ref, blockLen := len } args)
      (P.entryGeneration+1) clock ok := by
    simp only [completedState, bumped_self, hentry, hf.generation]
  have hkey : entryKey (completedState F id clock ok) id = entryKey P id := by
    rw [← hf.key, entryKey, he, entryKey, hentry]
    rfl
  have hident : entryId (completedState F id clock ok) id = entryId P id := by
    simp only [entryId, hkey, he]
    simp [completedEntry, filledEntry, hslot, hgen]
  have hvalue : entryValue (completedState F id clock ok) id = storedBytes args := by
    rw [← hf.value, entryValue, he, entryValue, hentry]
    rfl
  refine ⟨completed_rep hf.rep clock ok,change_of_besides (besides_trans hf.besides hbes),
    besides_live_self (besides_trans hf.besides hbes) hl (by rw [he]; rfl),by rw [he]; rfl,
    by rw [he]; rfl,fun hok => ?_,fun hok => ?_⟩
  · subst hok
    refine ⟨hident,?_,?_,?_,hvalue,?_,?_,?_,?_,?_⟩ <;> rw [he] <;>
      simp [completedEntry, filledEntry]
  · subst hok
    refine ⟨hident,?_,?_,Or.inr ?_,fun hv => ?_⟩
    · rw [he]
      simp [completedEntry]
    · rw [he]
      simp [completedEntry]
    · rw [he]
      simp [completedEntry]
    · rw [he] at hv
      change P.entryGeneration+1 = (P.entries id).version at hv
      omega

theorem abandoned_lapse (generation : ℕ) (e : CacheEntry) (clearValid : Bool) :
    EntryLapse generation (abandonedEntry e clearValid) e := by
  refine ⟨by constructor <;> rfl,fun h => ?_,fun h => ?_,Or.inl rfl,fun _ => ⟨1,by omega,rfl⟩⟩
  · cases clearValid with
    | true => simp [abandonedEntry] at h
    | false => exact ⟨h,rfl,rfl,rfl,rfl⟩
  · simp [abandonedEntry] at h

theorem abandon_done (args : StoreArgs) (clearValid : Bool) (hr : EntryRep P none none)
    (hl : Live P id) :
    StoreDone P id args false (setEntry P id (abandonedEntry (P.entries id) clearValid)) := by
  have hlapse := abandoned_lapse P.entryGeneration (P.entries id) clearValid
  have hsoft := soft_set P id _ hlapse.hard
  refine ⟨entryRep_set hr _ hlapse.hard (hr.versions id hl),change_of_besides (set_besides P id _),
    (soft_live hsoft id).mpr hl,by rw [setEntry_self]; rfl,by rw [setEntry_self]; rfl,by simp,
    fun _ => lapse_of_soft hsoft (by rw [setEntry_self]; exact hlapse)⟩

theorem storeDone_trimmed {args : StoreArgs} {ok : Bool} (hr : EntryRep P none none)
    (ht : Trimmed P P' id) (hl : Live P id) (h : StoreDone P' id args ok P'') :
    StoreDone P id args ok P'' := by
  have he : P'.entries id = P.entries id := ht.kept id hl (Or.inl rfl)
  have hs := ht.survive id (trimmed_live ht hl (Or.inl rfl))
  have hid := survives_entryId hr hs
  have hgen := ht.generation
  refine ⟨h.rep,change_trans (change_of_trimmed ht id) h.change,h.live,h.dirty.trans (by rw [he]),
    h.idle,fun hok => ?_,fun hok => ?_⟩
  · have hf := h.filled hok
    exact ⟨hf.ident.trans hid,hf.valid,hf.loading,hf.negative,hf.value,hf.sourceXmin,
      hf.globalEpoch,hf.relationVersion,hf.relationIncarnation,lt_of_le_of_lt hgen hf.version⟩
  · have hf := h.lapsed hok
    refine ⟨hf.ident.trans hid,fun hv => ?_,fun hload => ?_,?_,fun hv => ?_⟩
    · obtain ⟨h1,h2⟩ := hf.valid hv
      refine ⟨by rwa [← he],?_,h2.value.trans (survives_value hr hs),?_,?_,?_,?_⟩
      · rw [h2.negative, he]
      · rw [h2.sourceXmin, he]
      · rw [h2.globalEpoch, he]
      · rw [h2.relationVersion, he]
      · rw [h2.relationIncarnation, he]
    · rw [← he]
      exact hf.loading hload
    · rw [← he]
      exact hf.version.imp_right (lt_of_le_of_lt hgen)
    · rw [← he] at hv ⊢
      exact hf.loadId hv

section Section

variable (cfg : Settings) (m : Mapping) (args : StoreArgs) (reads : StoreReads)

def StoreResult (P : Partition) (id : ℕ) (ok : Bool) (P' : Partition) : Prop :=
  StoreDone P id args ok P' ∧
    (ok = true → FencesHeld cfg m args reads.after (P.entries id).dirtyWriters)

theorem resizeStore_spec (len : ℕ) (hr : EntryRep P none none) (hl : Live P id)
    (hargs : ArgsOk args) (hlen : len = (P.entries id).keyLen+newValueLen args)
    (hfit : len ≤ arenaBlockClass P.arena (P.entries id).blockRef)
    (hslot : args.token.relationSlot = (P.entries id).relationSlot)
    (hgen : args.token.slotGeneration = (P.entries id).slotGeneration) :
    Ensures (resizeStore cfg m id len args reads) P (StoreResult cfg m args reads P id)
      Exhausted := by
  obtain ⟨a,h1,h2,h3⟩ := resize_step hr hl args hargs len hlen hfit
  unfold resizeStore
  simp only [ensures_bind, ensures_get, h1, Bool.not_true, Bool.false_eq_true, if_false,
    ensures_set]
  set P1 : Partition := { P with
    arena := a
    entries := update P.entries id { P.entries id with blockLen := len } } with hP1
  have he : P1.entries id = { P.entries id with blockLen := len } := by simp [hP1]
  have hlong : lengthened P1 id len args = rewritten P id
      (resizedEntry (P.entries id) (P.entries id).blockRef len args) a := by
    simp [lengthened, rewritten, setEntry, hP1, resizedEntry]
  have hl1 : Live P1 id := by
    rw [Live, he]
    exact hl
  refine ensures_imp (fillStore_spec cfg m args reads len (by rw [hlong]; exact h2) hl1
    (by rw [he]; exact hlen) (by rw [he]) (by rw [he]; exact hslot) (by rw [he]; exact hgen)) ?_
  rintro ok P' ⟨F,hF,rfl,hok⟩
  have hF' : FilledState P F id args := by
    have hbes : Besides P P1 id := ⟨sameMarkers_refl P,rfl,le_refl _,
      fun x hx => update_of_ne hx _ _,fun x _ _ i _ => by simp only [hP1, h3]⟩
    refine ⟨hF.rep,besides_trans hbes hF.besides,?_,hF.generation,?_,hF.value⟩
    · obtain ⟨ref,n,hentry⟩ := hF.entry
      exact ⟨ref,n,by rw [hentry, he]⟩
    · rw [hF.key, entryKey, he, entryKey]
      simp only [hP1, h3]
  rw [he] at hok
  exact ⟨completed_done args ok reads.clock hF' hl (hr.versions id hl) hslot hgen,hok⟩

theorem growStore_spec (len : ℕ) (hr : EntryRep P none none) (hl : Live P id)
    (hargs : ArgsOk args) (hlen : len = (P.entries id).keyLen+newValueLen args)
    (hslot : args.token.relationSlot = (P.entries id).relationSlot)
    (hgen : args.token.slotGeneration = (P.entries id).slotGeneration) :
    Ensures (growStore cfg m id (P.entries id).blockRef (P.entries id).blockLen len args reads) P
      (StoreResult cfg m args reads P id) Exhausted := by
  unfold growStore growFill
  simp only [ensures_bind, ensures_get]
  refine ensures_imp (allocOrEvict_spec cfg len reads.evict (P.capacity+1) 0 hr
    (Nat.lt_succ_of_le (entryCount_le hr))) ?_
  rintro (_ | ⟨ref,size⟩) P1 ⟨ht,h1⟩
  · have hl1 := trimmed_live ht hl (Or.inl rfl)
    refine ensures_imp (abandonStore_spec false P1 id) ?_
    rintro _ P2 ⟨rfl,rfl⟩
    exact ⟨storeDone_trimmed hr ht hl (abandon_done args false h1 hl1),by simp⟩
  · obtain ⟨hsize,h1⟩ := h1
    have hl1 := trimmed_live ht hl (Or.inl rfl)
    have he1 : P1.entries id = P.entries id := ht.kept id hl (Or.inl rfl)
    obtain ⟨g1,g2,a,g3,g4,g5,g6⟩ := move_step ref len h1 hl1 args hargs (by rw [he1]; exact hlen)
    rw [he1] at g2 g3
    simp only [ensures_bind, ensures_get, g1, g2, he1, g3]
    rw [if_neg (by omega)]
    simp only [ensures_bind, ensures_set, Bool.not_true, Bool.false_eq_true, if_false]
    set P2 : Partition := { P1 with
      arena := a
      entries := update P1.entries id
        { P.entries id with blockRef := ref, blockLen := len } } with hP2
    have he : P2.entries id = { P.entries id with blockRef := ref, blockLen := len } := by
      simp [hP2]
    have hlong : lengthened P2 id len args = rewritten P1 id
        (resizedEntry (P1.entries id) ref len args) a := by
      simp [lengthened, rewritten, setEntry, hP2, resizedEntry, he1]
    have hl2 : Live P2 id := by
      rw [Live, he, hP2]
      exact ⟨hl1.1,hl1.2.1,hl.2.2⟩
    refine ensures_imp (fillStore_spec cfg m args reads len (by rw [hlong]; exact g4) hl2
      (by rw [he]; exact hlen) (by rw [he]) (by rw [he]; exact hslot) (by rw [he]; exact hgen)) ?_
    rintro ok P' ⟨F,hF,rfl,hok⟩
    have hF' : FilledState P1 F id args := by
      have hbes : Besides P1 P2 id := ⟨g5.markers,g5.capacity,g5.generation,
        fun x hx => update_of_ne hx _ _,fun x hx hlx => g5.bytes x hx hlx⟩
      refine ⟨hF.rep,besides_trans hbes hF.besides,?_,hF.generation,?_,hF.value⟩
      · obtain ⟨ref',n,hentry⟩ := hF.entry
        exact ⟨ref',n,by rw [hentry, he, he1]⟩
      · rw [hF.key, ← g6, entryKey, he, entryKey, rewritten_self, he1]
        rfl
    rw [he] at hok
    exact ⟨storeDone_trimmed hr ht hl (completed_done args ok reads.clock hF' hl1
      (h1.versions id hl1) (by rw [he1]; exact hslot) (by rw [he1]; exact hgen)),hok⟩

theorem storeInto_spec (hr : EntryRep P none none) (hl : Live P id) (hargs : ArgsOk args)
    (hslot : args.token.relationSlot = (P.entries id).relationSlot)
    (hgen : args.token.slotGeneration = (P.entries id).slotGeneration) :
    Ensures (storeInto cfg m id args reads) P (StoreResult cfg m args reads P id) Exhausted := by
  have habandon : Ensures (abandonStore id true) P (StoreResult cfg m args reads P id)
      Exhausted := by
    refine ensures_imp (abandonStore_spec true P id) ?_
    rintro _ P1 ⟨rfl,rfl⟩
    exact ⟨abandon_done args true hr hl,by simp⟩
  unfold storeInto
  simp only [ensures_bind, ensures_get]
  split
  · exact habandon
  split
  · exact habandon
  rename_i hguard
  simp only [not_or] at hguard
  obtain ⟨j,_,hclass,hle⟩ := arenaClassSize_class _ hguard.1
  split
  · exact growStore_spec cfg m args reads _ hr hl hargs rfl hslot hgen
  · refine resizeStore_spec cfg m args reads _ hr hl hargs rfl ?_ hslot hgen
    omega

/-- A store either leaves the partition alone or ends in one of the states of `StoreDone`. -/
theorem cacheStoreLocked_spec (r : EntryRequest) (hr : EntryRep P none none) (hq : RequestOk r)
    (hargs : ArgsOk args) :
    Ensures (cacheStoreLocked cfg m r args reads) P (fun ok P' =>
      (ok = false ∧ P' = P) ∨ ∃ id, r.keyLen ≠ keyMax ∧ Live P id ∧ entryId P id = requestId r ∧
        ownsLease (P.entries id) args.token args.loadId = true ∧
        (readFenceSnapshot cfg m (some (P.entries id)) reads.before).1 = true ∧
        matchesToken (readFenceSnapshot cfg m (some (P.entries id)) reads.before).2 args.token =
          true ∧
        mappingMatches m (P.entries id) = true ∧ StoreResult cfg m args reads P id ok P')
      Exhausted := by
  unfold cacheStoreLocked
  simp only [ensures_bind, ensures_get]
  cases hfind : getCacheEntry P r with
  | none => exact Or.inl ⟨rfl,rfl⟩
  | some id =>
    obtain ⟨hl,hid⟩ := getCacheEntry_some hr r hq id hfind
    simp only
    by_cases hg : ((readFenceSnapshot cfg m (some (P.entries id)) reads.before).1 &&
        matchesToken (readFenceSnapshot cfg m (some (P.entries id)) reads.before).2 args.token &&
        mappingMatches m (P.entries id) && args.loadId != 0 &&
        ownsLease (P.entries id) args.token args.loadId) = true
    · rw [if_pos hg]
      simp only [Bool.and_eq_true] at hg
      obtain ⟨⟨⟨⟨h1,h2⟩,h3⟩,_⟩,h5⟩ := hg
      have hslot : args.token.relationSlot = (P.entries id).relationSlot ∧
          args.token.slotGeneration = (P.entries id).slotGeneration := by
        simp only [readFenceSnapshot, snapshotStable, matchesToken, fencesMatchToken,
          mappingMatches, fenceSnapshot, Bool.and_eq_true, beq_iff_eq] at h1 h2 h3
        omega
      refine ensures_imp (storeInto_spec cfg m args reads hr hl hargs hslot.1 hslot.2) ?_
      intro ok P' h
      exact Or.inr ⟨id,getCacheEntry_short r hfind,hl,hid,h5,h1,h2,h3,h⟩
    · rw [if_neg hg]
      exact Or.inl ⟨rfl,rfl⟩

end Section

end PgLocalCache.EntryStore
