import PgLocalCache.EntryAdmission

/-!
# The dirty-marker table of a partition

`MarkerRep P pending` is the representation invariant of the markers, their key
slots and their index. A running reservation may have one marker that is in use
and not yet indexed.
-/

namespace PgLocalCache.MarkerInvariant

open ByteMemory FreeChain CacheIndex IndexInvariant CacheState CacheMarkers EntryInvariant

def Held (P : Partition) (id : ℕ) : Prop :=
  id ≠ 0 ∧ id ≤ P.markerCapacity ∧ (P.markers id).inUse = true

def Spare (P : Partition) (id : ℕ) : Prop :=
  id ≠ 0 ∧ id ≤ P.markerCapacity ∧ (P.markers id).inUse = false

def FreeSlot (P : Partition) (slot : ℕ) : Prop :=
  slot ≠ 0 ∧ slot ≤ P.markerKeyCapacity ∧ ∀ id, Held P id → (P.markers id).keySlot ≠ slot

structure MarkerId where
  relationSlot : ℕ
  relationSlotGeneration : ℕ
  hash : ℕ
  key : List UInt8
  deriving DecidableEq, Repr

def markerKey (P : Partition) (id : ℕ) : List UInt8 :=
  read P.markerKeyArena (((P.markers id).keySlot-1)*keyMax) (P.markers id).keyLen

def markerId (P : Partition) (id : ℕ) : MarkerId where
  relationSlot := (P.markers id).relationSlot
  relationSlotGeneration := (P.markers id).relationSlotGeneration
  hash := (P.markers id).keyHash
  key := markerKey P id

def wantedId (r : MarkerRequest) : MarkerId where
  relationSlot := r.relationSlot
  relationSlotGeneration := r.relationSlotGeneration
  hash := r.hash
  key := r.key.take r.keyLen

structure MarkerShape (P : Partition) (m : DirtyMarker) : Prop where
  slot : m.keySlot ≠ 0 ∧ m.keySlot ≤ P.markerKeyCapacity
  key : m.keyLen ≤ keyMax
  writers : 0 < m.writerCount ∧ m.writerCount < 2^32
  generation : m.generation ≤ P.markerGeneration

def MarkerListed (P : Partition) (pending : Option ℕ) (id : ℕ) : Prop :=
  Held P id ∧ pending ≠ some id

def markerHash (P : Partition) (id : ℕ) : ℕ := (P.markers id).keyHash

structure MarkerRep (P : Partition) (pending : Option ℕ) : Prop where
  bound : P.markerCapacity ≤ 2^30
  buckets : P.markerIndex.allocatedBucketCount = indexBucketsFor P.markerCapacity
  indexed : Indexed P.markerIndex (MarkerListed P pending) (markerHash P)
  free : Lists (fun id => (P.markers id).freeNext) 0 P.markerFreeHead (Spare P)
  slots : Lists P.markerKeyFreeNext 0 P.markerKeyFreeHead (FreeSlot P)
  count : P.markerCount+(if pending = none then 0 else 1) =
    tally (fun i => (P.markers (i+1)).inUse) P.markerCapacity
  shape : ∀ id, Held P id → MarkerShape P (P.markers id)
  apart : ∀ id id', Held P id → Held P id' → (P.markers id).keySlot = (P.markers id').keySlot →
    id = id'
  unique : ∀ id id', Held P id → Held P id' → markerId P id = markerId P id' → id = id'

variable {P P' : Partition} {pending : Option ℕ} {id : ℕ}

theorem spare_not_held (h : Spare P id) : ¬Held P id := fun hl => by
  have := hl.2.2
  rw [h.2.2] at this
  simp at this

theorem markerRep_congr (hm : MarkerRep P pending) (h : SameMarkers P P') :
    MarkerRep P' pending := by
  obtain ⟨h1,h2,h3,h4,h5,h6,h7,h8,h9,h10⟩ := h
  obtain ⟨g1,g2,g3,g4,g5,g6,g7,g8,g9⟩ := hm
  have hheld : Held P' = Held P := by
    funext x
    simp only [Held, h1, h6]
  have hid : markerId P' = markerId P := by
    funext x
    simp only [markerId, markerKey, h1, h3]
  refine ⟨by rw [h6]; exact g1,by rw [h2, h6]; exact g2,?_,?_,?_,by rw [h1, h6, h10]; exact g6,
    fun x hx => ?_,?_,?_⟩
  · have e1 : MarkerListed P' pending = MarkerListed P pending := by
      funext x
      simp only [MarkerListed, hheld]
    have e2 : markerHash P' = markerHash P := by
      funext x
      simp only [markerHash, h1]
    rw [h2, e1, e2]
    exact g3
  · have e1 : Spare P' = Spare P := by
      funext x
      simp only [Spare, h1, h6]
    rw [h1, h7, e1]
    exact g4
  · have e1 : FreeSlot P' = FreeSlot P := by
      funext x
      simp only [FreeSlot, hheld, h1, h8]
    rw [h4, h9, e1]
    exact g5
  · rw [hheld] at hx
    rw [h1]
    have hs := g7 x hx
    exact ⟨by rw [h8]; exact hs.slot,hs.key,hs.writers,by rw [h5]; exact hs.generation⟩
  · rw [hheld, h1]
    exact g8
  · rw [hheld, hid]
    exact g9

theorem rep_markerIndexValid (hm : MarkerRep P pending) : partitionIndexValid P true = true := by
  simp only [partitionIndexValid, if_true]
  rw [← hm.buckets]
  exact hm.indexed.dims

theorem held_bound (hm : MarkerRep P pending) (h : Held P id) : id < tombstone := by
  have := hm.bound
  have := h.2.1
  unfold tombstone
  omega

theorem held_guard (h : Held P id) :
    ¬(id = 0 ∨ P.markerCapacity < id ∨ !(P.markers id).inUse) := by
  have := h.1
  have := h.2.1
  simp only [h.2.2, Bool.not_true, Bool.false_eq_true, or_false]
  omega

def matchesMarker (P : Partition) (r : MarkerRequest) (id : ℕ) : Bool :=
  decide (markerId P id = wantedId r)

theorem markerQuery_faithful (hm : MarkerRep P pending) (q : MarkerQuery)
    (hlen : q.request.keyLen ≤ q.request.key.length) (hmax : q.request.keyLen ≤ keyMax) :
    Faithful (markerQueryCallbacks P) q (MarkerListed P pending) (markerHash P)
      (matchesMarker P q.request) := by
  rintro id ⟨h,_⟩
  have hg := held_guard h
  have hs := hm.shape id h
  have hslot : markerKeyOffset P (P.markers id).keySlot =
      some (((P.markers id).keySlot-1)*keyMax) := by
    have := hs.slot
    unfold markerKeyOffset
    rw [if_neg (by omega)]
  constructor
  · simp only [markerQueryCallbacks, markerHashById, if_neg hg]
    rfl
  · simp only [markerQueryCallbacks, markerMatchesQuery, if_neg hg, hslot]
    rw [if_neg (by have := hs.key; omega)]
    by_cases hd : (P.markers id).keyHash ≠ q.request.hash ∨
        (P.markers id).relationSlot ≠ q.request.relationSlot ∨
        (P.markers id).relationSlotGeneration ≠ q.request.relationSlotGeneration ∨
        (P.markers id).keyLen ≠ q.request.keyLen
    · rw [if_pos hd]
      have hne : matchesMarker P q.request id = false := by
        simp only [matchesMarker, decide_eq_false_iff_not, markerId, wantedId, MarkerId.mk.injEq]
        rintro ⟨e1,e2,e3,e4⟩
        have hl := congrArg List.length e4
        simp only [markerKey, read_length, List.length_take, Nat.min_eq_left hlen] at hl
        tauto
      rw [hne]
    · rw [if_neg hd]
      simp only [not_or, not_not] at hd
      obtain ⟨e1,e2,e3,e4⟩ := hd
      simp only [matchesMarker, markerId, wantedId, markerKey, e1, e2, e3, e4, MarkerId.mk.injEq,
        true_and, beq_eq_decide]

theorem markerIdQuery_faithful (q : MarkerQuery) :
    Faithful (markerIdCallbacks P) q (MarkerListed P pending) (markerHash P)
      (fun id => id == q.expectedId) := by
  rintro id ⟨h,_⟩
  have hg := held_guard h
  have h1 := h.1
  have h2 := h.2.1
  constructor
  · simp only [markerIdCallbacks, markerHashById, if_neg hg]
    rfl
  · simp only [markerIdCallbacks, markerMatchesId]
    rw [if_neg (by omega)]

theorem markerIndexFind_cases (hm : MarkerRep P none) (r : MarkerRequest)
    (hlen : r.keyLen ≤ r.key.length) (hmax : r.keyLen ≤ keyMax) :
    (∃ id, indexFind P.markerIndex (markerQueryCallbacks P) r.hash ⟨r,0,false⟩ = (id,⟨r,0,false⟩) ∧
      Held P id ∧ markerId P id = wantedId r) ∨
    (indexFind P.markerIndex (markerQueryCallbacks P) r.hash ⟨r,0,false⟩ = (0,⟨r,0,false⟩) ∧
      ∀ id, Held P id → markerId P id ≠ wantedId r) := by
  have hf := markerQuery_faithful hm ⟨r,0,false⟩ hlen hmax
  by_cases hex : ∃ id, Held P id ∧ markerId P id = wantedId r
  · obtain ⟨id,hl,he⟩ := hex
    have hh : markerHash P id = r.hash := congrArg MarkerId.hash he
    have hfind := find_hit hm.indexed hf id ⟨hl,by simp⟩ (by simpa [matchesMarker] using he)
      (fun id' hl' _ h2 => hm.unique id' id hl'.1 hl (by
        simp only [matchesMarker, decide_eq_true_eq] at h2
        exact h2.trans he.symm))
    rw [hh] at hfind
    exact Or.inl ⟨id,hfind,hl,he⟩
  · have hnone : ∀ id, Held P id → markerId P id ≠ wantedId r := fun id hl he => hex ⟨id,hl,he⟩
    refine Or.inr ⟨?_,hnone⟩
    exact find_miss hm.indexed hf r.hash (fun id hl _ => by
      simpa [matchesMarker] using hnone id hl.1)

theorem cacheMarkerFind_cases (hm : MarkerRep P none) (r : MarkerRequest)
    (hlen : r.keyLen ≤ r.key.length) (hmax : r.keyLen ≤ keyMax) :
    (∃ id, cacheMarkerFind P r = id ∧ Held P id ∧ markerId P id = wantedId r) ∨
    (cacheMarkerFind P r = 0 ∧ ∀ id, Held P id → markerId P id ≠ wantedId r) := by
  have hv := rep_markerIndexValid hm
  rcases markerIndexFind_cases hm r hlen hmax with ⟨id,h1,h2,h3⟩ | ⟨h1,h2⟩
  · exact Or.inl ⟨id,by simp [cacheMarkerFind, hv, h1],h2,h3⟩
  · exact Or.inr ⟨by simp [cacheMarkerFind, hv, h1],h2⟩

end PgLocalCache.MarkerInvariant
