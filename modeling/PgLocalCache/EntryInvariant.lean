import PgLocalCache.CacheOperations
import PgLocalCache.IndexInvariant
import PgLocalCache.ArenaRelease
import PgLocalCache.Outcome

/-!
# The descriptor table of a partition

`EntryRep P held pending` is the representation invariant of the descriptors,
their index and the arena. A running operation may hold one block that no
descriptor owns yet, and one descriptor that is in use and not yet indexed.
-/

namespace PgLocalCache.EntryInvariant

open ByteMemory FreeChain CacheIndex IndexInvariant CacheArena ArenaInvariant ArenaRelease
open CacheState CacheEntries CacheAdmission

def Live (P : Partition) (id : ℕ) : Prop := id ≠ 0 ∧ id ≤ P.capacity ∧ (P.entries id).inUse = true

def Vacant (P : Partition) (id : ℕ) : Prop :=
  id ≠ 0 ∧ id ≤ P.capacity ∧ (P.entries id).inUse = false

structure KeyId where
  databaseOid : ℕ
  relationOid : ℕ
  relationSlot : ℕ
  slotGeneration : ℕ
  hash : ℕ
  key : List UInt8
  deriving DecidableEq, Repr

def entryKey (P : Partition) (id : ℕ) : List UInt8 :=
  read P.arena.memory (P.entries id).blockRef (P.entries id).keyLen

def entryValue (P : Partition) (id : ℕ) : List UInt8 :=
  read P.arena.memory ((P.entries id).blockRef+(P.entries id).keyLen) (P.entries id).valueLen

def entryId (P : Partition) (id : ℕ) : KeyId where
  databaseOid := (P.entries id).databaseOid
  relationOid := (P.entries id).relationOid
  relationSlot := (P.entries id).relationSlot
  slotGeneration := (P.entries id).slotGeneration
  hash := (P.entries id).keyHash
  key := entryKey P id

def requestId (r : EntryRequest) : KeyId where
  databaseOid := r.databaseOid
  relationOid := r.relationOid
  relationSlot := r.relationSlot
  slotGeneration := r.slotGeneration
  hash := r.hash
  key := r.key.take r.keyLen

structure RequestOk (r : EntryRequest) : Prop where
  len : r.keyLen ≤ r.key.length
  max : r.keyLen ≤ keyMax

structure EntryShape (e : CacheEntry) : Prop where
  key : e.keyLen ≤ keyMax
  value : e.valueLen ≤ valueMax
  block : e.blockLen = e.keyLen+e.valueLen
  negative : e.negative = true → e.valueLen = 0

structure Owned (P : Partition) (held : Option (ℕ × ℕ)) (req : ℕ → Option ℕ) : Prop where
  own : ∀ id, Live P id → req (P.entries id).blockRef = some (P.entries id).blockLen
  owner : ∀ ref, req ref ≠ none →
    (∃ id, Live P id ∧ (P.entries id).blockRef = ref) ∨ ∃ len, held = some (ref,len)
  held : ∀ ref len, held = some (ref,len) →
    req ref = some len ∧ ∀ id, Live P id → (P.entries id).blockRef ≠ ref
  inj : ∀ id id', Live P id → Live P id' → (P.entries id).blockRef = (P.entries id').blockRef →
    id = id'

def Listed (P : Partition) (pending : Option ℕ) (id : ℕ) : Prop := Live P id ∧ pending ≠ some id

def hashOf (P : Partition) (id : ℕ) : ℕ := (P.entries id).keyHash

structure EntryRep (P : Partition) (held : Option (ℕ × ℕ)) (pending : Option ℕ) : Prop where
  bound : P.capacity ≤ 2^30
  buckets : P.index.allocatedBucketCount = indexBucketsFor P.capacity
  indexed : Indexed P.index (Listed P pending) (hashOf P)
  free : Lists (fun id => (P.entries id).freeNext) 0 P.freeEntryHead (Vacant P)
  count : P.entryCount = tally (fun i => (P.entries (i+1)).inUse) P.capacity
  blocks : ∃ req, Sound P.arena req ∧ Owned P held req
  shape : ∀ id, Live P id → EntryShape (P.entries id)
  unique : ∀ id id', Live P id → Live P id' → entryId P id = entryId P id' → id = id'
  versions : ∀ id, Live P id → (P.entries id).version ≤ P.entryGeneration

/-- Equality on the fields that the index, the free list and the arena depend on. -/
structure HardEq (e' e : CacheEntry) : Prop where
  keyHash : e'.keyHash = e.keyHash
  slotGeneration : e'.slotGeneration = e.slotGeneration
  databaseOid : e'.databaseOid = e.databaseOid
  relationOid : e'.relationOid = e.relationOid
  relationSlot : e'.relationSlot = e.relationSlot
  blockRef : e'.blockRef = e.blockRef
  keyLen : e'.keyLen = e.keyLen
  valueLen : e'.valueLen = e.valueLen
  blockLen : e'.blockLen = e.blockLen
  negative : e'.negative = e.negative
  inUse : e'.inUse = e.inUse
  freeNext : e'.freeNext = e.freeNext

theorem hardEq_refl (e : CacheEntry) : HardEq e e := by constructor <;> rfl

theorem hardEq_trans {e e' e'' : CacheEntry} (h : HardEq e'' e') (h' : HardEq e' e) :
    HardEq e'' e :=
  ⟨h.keyHash.trans h'.keyHash,h.slotGeneration.trans h'.slotGeneration,
    h.databaseOid.trans h'.databaseOid,h.relationOid.trans h'.relationOid,
    h.relationSlot.trans h'.relationSlot,h.blockRef.trans h'.blockRef,h.keyLen.trans h'.keyLen,
    h.valueLen.trans h'.valueLen,h.blockLen.trans h'.blockLen,h.negative.trans h'.negative,
    h.inUse.trans h'.inUse,h.freeNext.trans h'.freeNext⟩

structure SoftStep (P P' : Partition) : Prop where
  entries : ∀ id, HardEq (P'.entries id) (P.entries id)
  index : P'.index = P.index
  arena : P'.arena = P.arena
  head : P'.freeEntryHead = P.freeEntryHead
  count : P'.entryCount = P.entryCount
  capacity : P'.capacity = P.capacity

variable {P P' : Partition} {held : Option (ℕ × ℕ)} {pending : Option ℕ}

theorem soft_refl (P : Partition) : SoftStep P P :=
  ⟨fun _ => hardEq_refl _,rfl,rfl,rfl,rfl,rfl⟩

theorem soft_trans {P'' : Partition} (h : SoftStep P P') (h' : SoftStep P' P'') : SoftStep P P'' :=
  ⟨fun id => hardEq_trans (h'.entries id) (h.entries id),h'.index.trans h.index,
    h'.arena.trans h.arena,h'.head.trans h.head,h'.count.trans h.count,
    h'.capacity.trans h.capacity⟩

theorem soft_set (P : Partition) (id : ℕ) (e : CacheEntry) (h : HardEq e (P.entries id)) :
    SoftStep P (setEntry P id e) := by
  refine ⟨fun i => ?_,rfl,rfl,rfl,rfl,rfl⟩
  by_cases hi : i = id
  · subst hi
    simpa [setEntry] using h
  · simpa [setEntry, hi] using hardEq_refl _

theorem soft_live (hs : SoftStep P P') (id : ℕ) : Live P' id ↔ Live P id := by
  simp only [Live, hs.capacity, (hs.entries id).inUse]

theorem soft_entryId (hs : SoftStep P P') (id : ℕ) : entryId P' id = entryId P id := by
  have h := hs.entries id
  simp only [entryId, entryKey, hs.arena, h.databaseOid, h.relationOid, h.relationSlot,
    h.slotGeneration, h.keyHash, h.blockRef, h.keyLen]

theorem entryRep_soft (hr : EntryRep P held pending) (hs : SoftStep P P')
    (hv : ∀ id, Live P id → (P'.entries id).version ≤ P'.entryGeneration) :
    EntryRep P' held pending := by
  have hl := soft_live hs
  have href : ∀ id, (P'.entries id).blockRef = (P.entries id).blockRef := fun id =>
    (hs.entries id).blockRef
  obtain ⟨req,hsound,ho⟩ := hr.blocks
  refine ⟨by rw [hs.capacity]; exact hr.bound,by rw [hs.index, hs.capacity]; exact hr.buckets,?_,?_,
    ?_,⟨req,by rw [hs.arena]; exact hsound,?_⟩,fun id h => ?_,fun id id' h h' he => ?_,
    fun id h => hv id ((hl id).mp h)⟩
  · rw [hs.index]
    refine indexed_congr hr.indexed (fun id => by simp only [Listed, hl]) (fun id _ => ?_)
    exact (hs.entries id).keyHash
  · rw [hs.head]
    refine lists_congr hr.free (fun id => by
      simp only [Vacant, (hs.entries id).inUse, hs.capacity]) (fun id _ => ?_)
    exact (hs.entries id).freeNext
  · rw [hs.count, hs.capacity, hr.count]
    exact tally_congr _ _ _ (fun i _ => ((hs.entries _).inUse).symm)
  · refine ⟨fun id h => ?_,fun ref h => ?_,fun ref len h => ?_,fun id id' h h' he => ?_⟩
    · rw [href, (hs.entries id).blockLen]
      exact ho.own id ((hl id).mp h)
    · refine (ho.owner ref h).imp (fun ⟨id,h1,h2⟩ => ⟨id,(hl id).mpr h1,?_⟩) id
      rw [href, h2]
    · refine ⟨(ho.held ref len h).1,fun id hid => ?_⟩
      rw [href]
      exact (ho.held ref len h).2 id ((hl id).mp hid)
    · rw [href, href] at he
      exact ho.inj id id' ((hl id).mp h) ((hl id').mp h') he
  · have hsh := hr.shape id ((hl id).mp h)
    have h' := hs.entries id
    exact ⟨by rw [h'.keyLen]; exact hsh.key,by rw [h'.valueLen]; exact hsh.value,
      by rw [h'.blockLen, h'.keyLen, h'.valueLen]; exact hsh.block,
      by rw [h'.negative, h'.valueLen]; exact hsh.negative⟩
  · rw [soft_entryId hs, soft_entryId hs] at he
    exact hr.unique id id' ((hl id).mp h) ((hl id').mp h') he

theorem rep_indexValid (hr : EntryRep P held pending) : partitionIndexValid P false = true := by
  simp only [partitionIndexValid, Bool.false_eq_true, if_false]
  rw [← hr.buckets]
  exact hr.indexed.dims

theorem rep_id_bound (hr : EntryRep P held pending) (id : ℕ) (h : Live P id) : id < tombstone := by
  have := hr.bound
  have := h.2.1
  unfold tombstone
  omega

theorem rep_class (hr : EntryRep P held pending) (id : ℕ) (h : Live P id) :
    256 ≤ arenaBlockClass P.arena (P.entries id).blockRef ∧
      (P.entries id).blockLen ≤ arenaBlockClass P.arena (P.entries id).blockRef := by
  obtain ⟨req,hs,ho⟩ := hr.blocks
  have hown := ho.own id h
  have hne : req (P.entries id).blockRef ≠ none := by simp [hown]
  rw [arenaBlockClass_live hs.toCore _ hne]
  exact ⟨blockSize_min hs.toCore _ hne,hs.fits _ _ hown⟩

theorem rep_block (hr : EntryRep P held pending) (id : ℕ) (h : Live P id) :
    cacheEntryBlock P (P.entries id) = some (P.entries id).blockRef := by
  have hsh := hr.shape id h
  obtain ⟨hc,hfit⟩ := rep_class hr id h
  obtain ⟨req,hs,ho⟩ := hr.blocks
  have hne : req (P.entries id).blockRef ≠ none := by simp [ho.own id h]
  have hk := hsh.key
  have hv := hsh.value
  have hb := hsh.block
  unfold cacheEntryBlock
  rw [if_neg, if_neg, if_neg (by omega)]
  · simp only
    rw [if_neg (by omega)]
    exact arenaBlock_live hs.toCore _ hne
  · unfold keyMax at hk
    unfold valueMax at hv
    omega
  · simp only [h.2.2, not_or, Bool.not_true, Bool.false_eq_true, not_false_eq_true, true_and]
    exact ⟨by omega,by omega,fun hn => hn.2 (hsh.negative hn.1)⟩

def matchesKey (P : Partition) (r : EntryRequest) (id : ℕ) : Bool :=
  decide ((P.entries id).databaseOid = r.databaseOid ∧ (P.entries id).relationOid = r.relationOid ∧
    (P.entries id).relationSlot = r.relationSlot ∧
    (P.entries id).slotGeneration = r.slotGeneration ∧ entryKey P id = r.key.take r.keyLen)

theorem entryId_eq_iff (P : Partition) (r : EntryRequest) (id : ℕ) :
    entryId P id = requestId r ↔ hashOf P id = r.hash ∧ matchesKey P r id = true := by
  simp only [entryId, requestId, KeyId.mk.injEq, matchesKey, hashOf, decide_eq_true_eq]
  tauto

theorem live_lookup_guard {id : ℕ} (h : Live P id) :
    ¬(id = 0 ∨ P.capacity < id ∨ !(P.entries id).inUse) := by
  have := h.1
  have := h.2.1
  simp only [h.2.2, Bool.not_true, Bool.false_eq_true, or_false]
  omega

theorem queryCallbacks_faithful (hr : EntryRep P held pending) (q : EntryQuery)
    (hq : RequestOk q.request) :
    Faithful (queryCallbacks P) q (Listed P pending) (hashOf P) (matchesKey P q.request) := by
  rintro id ⟨h,_⟩
  have hg := live_lookup_guard h
  constructor
  · simp only [queryCallbacks, cacheEntryHashById, if_neg hg]
    rfl
  · have hb := rep_block hr id h
    have h1 := h.1
    have h2 := h.2.1
    simp only [queryCallbacks, cacheEntryMatchesQuery, hb, h.2.2]
    rw [if_neg (by omega), if_neg (by simp)]
    by_cases hd : (P.entries id).databaseOid ≠ q.request.databaseOid ∨
        (P.entries id).relationOid ≠ q.request.relationOid ∨
        (P.entries id).relationSlot ≠ q.request.relationSlot ∨
        (P.entries id).slotGeneration ≠ q.request.slotGeneration ∨
        (P.entries id).keyLen ≠ q.request.keyLen
    · rw [if_pos hd]
      have hne : matchesKey P q.request id = false := by
        simp only [matchesKey, decide_eq_false_iff_not]
        rintro ⟨e1,e2,e3,e4,e5⟩
        have hlen := congrArg List.length e5
        simp only [entryKey, read_length, List.length_take, Nat.min_eq_left hq.len] at hlen
        tauto
      rw [hne]
    · rw [if_neg hd]
      simp only [not_or, not_not] at hd
      obtain ⟨e1,e2,e3,e4,e5⟩ := hd
      simp only [matchesKey, entryKey, e1, e2, e3, e4, e5, true_and, beq_eq_decide]

/-- A search by key finds the one live descriptor of that key, or nothing. -/
theorem lookupEntry_cases (hr : EntryRep P held none) (r : EntryRequest) (hq : RequestOk r) :
    (∃ id, lookupEntry P r = (some id,0) ∧ Live P id ∧ entryId P id = requestId r) ∨
    (lookupEntry P r = (none,0) ∧ ∀ id, Live P id → entryId P id ≠ requestId r) := by
  have hv := rep_indexValid hr
  have hf := queryCallbacks_faithful hr ⟨r,0,0,false⟩ hq
  by_cases hex : ∃ id, Live P id ∧ entryId P id = requestId r
  · obtain ⟨id,hl,he⟩ := hex
    obtain ⟨hh,hm⟩ := (entryId_eq_iff P r id).mp he
    have hfind := find_hit hr.indexed hf id ⟨hl,by simp⟩ hm (fun id' hl' h1 h2 =>
      hr.unique id' id hl'.1 hl (((entryId_eq_iff P r id').mpr ⟨h1.trans hh,h2⟩).trans he.symm))
    rw [hh] at hfind
    have hz := hl.1
    have hcap := hl.2.1
    refine Or.inl ⟨id,?_,hl,he⟩
    simp only [lookupEntry, hv, hfind]
    simp [hz, hcap]
  · have hnone : ∀ id, Live P id → entryId P id ≠ requestId r := fun id hl he => hex ⟨id,hl,he⟩
    refine Or.inr ⟨?_,hnone⟩
    have hmiss := find_miss hr.indexed hf r.hash (fun id hl hh => by
      by_contra hm
      exact hnone id hl.1 ((entryId_eq_iff P r id).mpr ⟨hh,by simpa using hm⟩))
    simp only [lookupEntry, hv, hmiss]
    simp [empty]

theorem getCacheEntry_some (hr : EntryRep P held none) (r : EntryRequest) (hq : RequestOk r)
    (id : ℕ) (h : getCacheEntry P r = some id) : Live P id ∧ entryId P id = requestId r := by
  unfold getCacheEntry at h
  split at h
  · simp at h
  · rcases lookupEntry_cases hr r hq with ⟨i,h1,h2⟩ | ⟨h1,_⟩
    · rw [h1] at h
      cases h
      exact h2
    · simp [h1] at h

theorem getCacheEntry_short (r : EntryRequest) {id : ℕ} (h : getCacheEntry P r = some id) :
    r.keyLen ≠ keyMax := by
  unfold getCacheEntry at h
  intro he
  simp [he] at h

theorem getCached_some (hr : EntryRep P held none) (r : EntryRequest) (hq : RequestOk r)
    (id : ℕ) (h : getCacheEntryWithCachedHash P r = some id) :
    Live P id ∧ entryId P id = requestId r := by
  unfold getCacheEntryWithCachedHash at h
  rcases lookupEntry_cases hr r hq with ⟨i,h1,h2⟩ | ⟨h1,_⟩
  · rw [h1] at h
    cases h
    exact h2
  · simp [h1] at h

def SameMarkers (P P' : Partition) : Prop :=
  P'.markers = P.markers ∧ P'.markerIndex = P.markerIndex ∧
    P'.markerKeyArena = P.markerKeyArena ∧ P'.markerKeyFreeNext = P.markerKeyFreeNext ∧
    P'.markerGeneration = P.markerGeneration ∧ P'.markerCapacity = P.markerCapacity ∧
    P'.markerFreeHead = P.markerFreeHead ∧ P'.markerKeyCapacity = P.markerKeyCapacity ∧
    P'.markerKeyFreeHead = P.markerKeyFreeHead ∧ P'.markerCount = P.markerCount

theorem sameMarkers_refl (P : Partition) : SameMarkers P P := by simp [SameMarkers]

theorem sameMarkers_trans {P'' : Partition} (h : SameMarkers P P') (h' : SameMarkers P' P'') :
    SameMarkers P P'' := by
  simp only [SameMarkers] at *
  simp_all

/-- The only error that can leave a section is the exhausted generation counter. -/
def Exhausted (e : Fault) (P : Partition) : Prop :=
  e = .keyGenerationOverflow ∧ P.entryGeneration = 2^64-1

theorem idCallbacks_faithful (q : EntryQuery) :
    Faithful (idCallbacks P) q (Listed P pending) (hashOf P) (fun id => id == q.expectedId) := by
  rintro id ⟨h,_⟩
  have hg := live_lookup_guard h
  have h1 := h.1
  have h2 := h.2.1
  constructor
  · simp only [idCallbacks, cacheEntryHashById, if_neg hg]
    rfl
  · simp only [idCallbacks, cacheEntryMatchesId]
    rw [if_neg (by omega)]

theorem entryRep_reindex (hr : EntryRep P held pending) (pending' : Option ℕ) (ix : Index)
    (hd : ix.allocatedBucketCount = P.index.allocatedBucketCount)
    (hi : Indexed ix (Listed P pending') (hashOf P)) :
    EntryRep { P with index := ix } held pending' :=
  ⟨hr.bound,hd.trans hr.buckets,hi,hr.free,hr.count,by
    obtain ⟨req,hs,ho⟩ := hr.blocks
    exact ⟨req,hs,ho.own,ho.owner,ho.held,ho.inj⟩,hr.shape,hr.unique,hr.versions⟩

end PgLocalCache.EntryInvariant
