import PgLocalCache.MarkerTable

/-!
# Reserving and releasing dirty markers

A reservation joins a held marker or takes a spare one with a free key slot. The
exit after a full index puts both back, and a release by the last writer frees
the marker.
-/

namespace PgLocalCache.MarkerReserve

open FreeChain CacheIndex IndexInvariant CacheState CacheMarkers Outcome MarkerInvariant MarkerTable

variable {P P' P'' : Partition} {pending : Option ℕ} {id : ℕ}

def pendingUnless (done : Bool) (id : ℕ) : Option ℕ := if done then none else some id

def Inserting (P : Partition) (id : ℕ) (res : InsertResult) (P' : Partition) : Prop :=
  ∃ ix, P' = { P with markerIndex := ix } ∧
    ix.allocatedBucketCount = P.markerIndex.allocatedBucketCount ∧
    Indexed ix (MarkerListed P (pendingUnless (res == .inserted) id)) (markerHash P)

theorem insertMarker_spec (r : MarkerRequest) (hm : MarkerRep P (some id)) (hl : Held P id)
    (hh : markerHash P id = r.hash) :
    Ensures (insertMarker r id) P (Inserting P id) Never := by
  have hf : Faithful (markerIdCallbacks P) ⟨r,id,false⟩ (MarkerListed P (some id)) (markerHash P)
      (fun x => x == id) := markerIdQuery_faithful ⟨r,id,false⟩
  have hal := indexInsert_allocated P.markerIndex (markerIdCallbacks P) r.hash id ⟨r,id,false⟩
  have hb := held_bound hm hl
  unfold insertMarker
  simp only [ensures_bind, ensures_get]
  rcases insert_new hm.indexed hf r.hash id (fun x hx _ => by simpa using fun e => hx.2 (by rw [e]))
    (fun h => h.2 rfl) hl.1 (by omega) (fun _ _ => rfl) hh with ⟨ix,h,hi⟩ | h
  · rw [h] at hal ⊢
    refine ⟨ix,rfl,hal,indexed_congr hi (fun x => ?_) (fun _ _ => rfl)⟩
    simp only [pendingUnless, MarkerListed]
    constructor
    · rintro ⟨h1,_⟩
      by_cases he : x = id
      · exact Or.inr he
      · exact Or.inl ⟨h1,fun e => he (Option.some.inj e).symm⟩
    · rintro (⟨h1,_⟩ | rfl)
      · exact ⟨h1,by simp⟩
      · exact ⟨hl,by simp⟩
  · rw [h] at hal ⊢
    exact ⟨_,rfl,hal,indexed_rejections hm.indexed _⟩

theorem inserting_rep (hm : MarkerRep P (some id)) (res : InsertResult) (hres : res ≠ .inserted)
    (h : Inserting P id res P') : MarkerRep P' (some id) := by
  obtain ⟨ix,rfl,hal,hi⟩ := h
  have hne : (res == InsertResult.inserted) = false := by simpa using hres
  rw [hne] at hi
  exact markerRep_reindex hm (some id) ix P.markerCount hal hi rfl

theorem settleMarker_spec (r : MarkerRequest) (first : InsertResult) (hm : MarkerRep P (some id))
    (hl : Held P id) (hh : markerHash P id = r.hash) (h : Inserting P id first P') :
    Ensures (settleMarker r id first) P' (Inserting P id) Never := by
  unfold settleMarker
  by_cases hp : first = .probeLimit
  · have hm' := inserting_rep hm first (by rw [hp]; simp) h
    obtain ⟨ix,rfl,hal,hi⟩ := h
    rw [if_pos hp]
    unfold retryMarker
    refine ensures_seq (rebuildMarkerIndex_spec hm') ?_
    rintro ok P1 ⟨h1,ix1,rfl⟩
    have hal1 := h1.buckets.trans hm.buckets.symm
    cases ok with
    | true =>
      refine ensures_imp (insertMarker_spec r h1 hl hh) ?_
      rintro res P2 ⟨ix2,rfl,hal2,hi2⟩
      exact ⟨ix2,rfl,hal2.trans hal1,hi2⟩
    | false => exact ⟨ix1,rfl,hal1,h1.indexed⟩
  · rw [if_neg hp]
    exact h

/-- A reservation that was refused leaves every held marker alone. -/
def Refused (P P' : Partition) : Prop :=
  MarkerRep P' none ∧ ∃ id, MarkersBeside P P' id ∧ ¬Held P id ∧ ¬Held P' id

/-- A reservation that was granted joined a held marker or took a new one. -/
structure Granted (P P' : Partition) (r : MarkerRequest) (id tag : ℕ) : Prop where
  rep : MarkerRep P' none
  beside : MarkersBeside P P' id
  short : r.keyLen < keyMax
  live : Held P' id
  ident : markerId P' id = wantedId r
  generation : (P'.markers id).generation = tag
  writers : (Held P id ∧ markerId P id = wantedId r ∧ P'.markers id =
      { P.markers id with writerCount := (P.markers id).writerCount+1 }) ∨
    (¬Held P id ∧ (P'.markers id).writerCount = 1 ∧ P.markerGeneration < tag ∧
      ∀ x, Held P x → markerId P x ≠ wantedId r)

def Reserved (P : Partition) (r : MarkerRequest) (res : Option (ℕ × ℕ)) (P' : Partition) : Prop :=
  match res with
  | none => Refused P P'
  | some (id,generation) => Granted P P' r id generation

theorem refused_refl (hm : MarkerRep P none) : Refused P P :=
  ⟨hm,0,⟨sameEntries_refl P,rfl,le_refl _,fun _ _ => rfl,fun _ _ _ => rfl⟩,fun h => h.1 rfl,
    fun h => h.1 rfl⟩

theorem takeMarker_spec (r : MarkerRequest) (hm : MarkerRep P none) (hz : P.markerFreeHead ≠ 0)
    (hk : P.markerKeyFreeHead ≠ 0) (hlen : r.keyLen ≤ r.key.length) (hmax : r.keyLen < keyMax)
    (hnew : ∀ x, Held P x → markerId P x ≠ wantedId r) :
    Ensures (takeMarker r) P (Reserved P r) Never := by
  have hv : Spare P P.markerFreeHead := lists_head_free hm.free hz
  have hs : FreeSlot P P.markerKeyFreeHead := lists_head_free hm.slots hk
  have hnext : (P.markers P.markerFreeHead).freeNext ≤ P.markerCapacity := by
    rcases lists_next hm.free _ hv with h | h
    · omega
    · exact h.2.1
  have hnext' : P.markerKeyFreeNext P.markerKeyFreeHead ≤ P.markerKeyCapacity := by
    rcases lists_next hm.slots _ hs with h | h
    · omega
    · exact h.2.1
  have hoffset : markerKeyOffset P P.markerKeyFreeHead = some ((P.markerKeyFreeHead-1)*keyMax) := by
    have := hs.1
    have := hs.2.1
    unfold markerKeyOffset
    rw [if_neg (by omega)]
  have hrep := markerRep_take hm hz hk hlen hmax.le hnew
  have hbes := taken_beside (r := r) hm hs hmax.le
  have hheld : Held (takenState r P) P.markerFreeHead := (taken_held hv _).mpr (Or.inr rfl)
  have hhash : markerHash (takenState r P) P.markerFreeHead = r.hash := by
    rw [markerHash, taken_self]
    rfl
  unfold takeMarker
  simp only [ensures_bind, ensures_get, hoffset, hv.2.2]
  rw [if_neg (by simp only [Bool.false_eq_true, false_or]; omega)]
  rw [if_neg (by omega)]
  rw [ensures_bind, ensures_set]
  change Ensures _ (takenState r P) _ _
  refine ensures_seq (insertMarker_spec r hrep hheld hhash) ?_
  intro first P1 h1
  refine ensures_seq (settleMarker_spec r first hrep hheld hhash h1) ?_
  intro res P2 h2
  by_cases hres : res = .inserted
  · obtain ⟨ix,rfl,hal,hi⟩ := h2
    rw [if_neg (by simpa using hres)]
    simp only [ensures_bind, ensures_modify, ensures_pure]
    rw [hres] at hi
    refine ⟨markerRep_reindex hrep none ix _ hal hi rfl,
      beside_trans hbes (index_beside _ ix _),hmax,hheld,taken_ident hlen,?_,
      Or.inr ⟨spare_not_held hv,?_,Nat.lt_succ_self _,hnew⟩⟩
    · change ((takenState r P).markers P.markerFreeHead).generation = _
      rw [taken_self]
      rfl
    · change ((takenState r P).markers P.markerFreeHead).writerCount = 1
      rw [taken_self]
      rfl
  · have h3 := inserting_rep hrep res hres h2
    obtain ⟨ix,rfl,hal,hi⟩ := h2
    rw [if_pos hres]
    have hslot : ((takenState r P).markers P.markerFreeHead).keySlot = P.markerKeyFreeHead := by
      rw [taken_self]
      rfl
    set Q : Partition := { takenState r P with markerIndex := ix } with hQ
    have hdrop : MarkerRep (droppedState Q P.markerFreeHead
        { Q.markers P.markerFreeHead with inUse := false, freeNext := Q.markerFreeHead } ix
        Q.markerCount) none := by
      refine markerRep_drop h3 hheld rfl rfl (indexed_congr h3.indexed (fun x => ?_)
        (fun _ _ => rfl)) rfl rfl
      exact and_congr_right fun _ => by
        simp only [ne_eq, Option.some.injEq]
        exact not_congr eq_comm
    unfold returnMarker
    simp only [ensures_bind, ensures_modify]
    have hstate : droppedState Q P.markerFreeHead
        { Q.markers P.markerFreeHead with inUse := false, freeNext := Q.markerFreeHead } ix
        Q.markerCount = { Q with
          markers := Function.update Q.markers P.markerFreeHead
            { Q.markers P.markerFreeHead with inUse := false, freeNext := Q.markerFreeHead }
          markerFreeHead := P.markerFreeHead
          markerKeyFreeNext := (Function.update Q.markerKeyFreeNext P.markerKeyFreeHead
            Q.markerKeyFreeHead)
          markerKeyFreeHead := P.markerKeyFreeHead } := by
      simp only [droppedState]
      rw [show (Q.markers P.markerFreeHead).keySlot = P.markerKeyFreeHead from hslot]
    refine ⟨by rw [← hstate]; exact hdrop,P.markerFreeHead,?_,spare_not_held hv,?_⟩
    · rw [← hstate]
      exact beside_trans hbes (beside_trans (index_beside (takenState r P) ix _) dropped_beside)
    · rw [← hstate]
      exact fun h => ((dropped_held rfl _).mp h).2 rfl

theorem reserveCacheMarker_spec (r : MarkerRequest) (hm : MarkerRep P none)
    (hlen : r.keyLen ≤ r.key.length) :
    Ensures (reserveCacheMarker r) P (Reserved P r) Never := by
  have hv := rep_markerIndexValid hm
  unfold reserveCacheMarker
  simp only [ensures_bind, ensures_get]
  split
  · exact refused_refl hm
  rename_i hmax
  simp only [hv, Bool.not_true, Bool.false_eq_true, if_false]
  rcases markerIndexFind_cases hm r hlen (by omega) with ⟨id,h1,h2,h3⟩ | ⟨h1,h2⟩
  · simp only [h1]
    have hcap := h2.2.1
    rw [if_neg (by simp only [Bool.false_eq_true, false_or]; omega), if_pos h2.1]
    split
    · exact refused_refl hm
    · rename_i hw
      have hsh := (hm.shape id h2).writers
      exact ⟨markerRep_counted hm _ (Nat.succ_pos _) (by omega),counted_beside _,
        by omega,(counted_held _ id).mpr h2,(counted_fields _ id).2.2.2.2.trans h3,
        by simp [setMarker],Or.inl ⟨h2,h3,counted_self _⟩⟩
  · simp only [h1]
    rw [if_neg (by simp), if_neg (by simp)]
    split
    · exact refused_refl hm
    rename_i hg
    simp only [not_or] at hg
    split
    · refine ensures_seq (rebuildMarkerIndex_spec hm) ?_
      rintro ok P1 ⟨g1,ix,rfl⟩
      cases ok with
      | false =>
        exact ⟨g1,0,index_beside P ix P.markerCount,fun h => h.1 rfl,fun h => h.1 rfl⟩
      | true =>
        refine ensures_imp (takeMarker_spec r g1 hg.1 hg.2.2.1 hlen (by omega) h2) ?_
        intro res P2 h
        have hb : ∀ x, MarkersBeside P { P with markerIndex := ix } x := fun x =>
          index_beside P ix P.markerCount
        rcases res with _ | ⟨id,generation⟩
        · obtain ⟨k1,x,k2,k3,k4⟩ := h
          exact ⟨k1,x,beside_trans (hb x) k2,k3,k4⟩
        · exact ⟨h.rep,beside_trans (hb id) h.beside,h.short,h.live,h.ident,h.generation,h.writers⟩
    · exact takeMarker_spec r hm hg.1 hg.2.2.1 hlen (by omega) h2

/-- What a release of a standing reservation does. -/
structure Released (P P' : Partition) (id : ℕ) : Prop where
  rep : MarkerRep P' none
  beside : MarkersBeside P P' id
  writers : (1 < (P.markers id).writerCount ∧ Held P' id ∧ markerId P' id = markerId P id ∧
      P'.markers id = { P.markers id with writerCount := (P.markers id).writerCount-1 }) ∨
    ((P.markers id).writerCount = 1 ∧ ¬Held P' id)

def freedMarker (m : DirtyMarker) (freeNext : ℕ) : DirtyMarker :=
  { m with writerCount := 0, inUse := false, keyLen := 0, keySlot := 0, freeNext := freeNext }

theorem lastRelease_spec (hm : MarkerRep P none) (hl : Held P id) :
    ∃ ix, indexRemove (counted P id 0).markerIndex (markerIdCallbacks (counted P id 0))
        (P.markers id).keyHash { blankMarkerQuery with expectedId := id } =
        (id,ix,{ blankMarkerQuery with expectedId := id }) ∧
      MarkerRep (droppedState P id (freedMarker (P.markers id) P.markerFreeHead) ix
        (P.markerCount-1)) none := by
  have hi : Indexed (counted P id 0).markerIndex (MarkerListed (counted P id 0) none)
      (markerHash (counted P id 0)) := counted_indexed hm 0
  have hf : Faithful (markerIdCallbacks (counted P id 0)) { blankMarkerQuery with expectedId := id }
      (MarkerListed (counted P id 0) none) (markerHash (counted P id 0)) (fun x => x == id) :=
    markerIdQuery_faithful _
  obtain ⟨ix,h1,h2⟩ := remove_hit hi hf id ⟨(counted_held 0 id).mpr hl,by simp⟩ (by simp)
    (fun x _ _ h => by simpa using h)
  have hal := indexRemove_allocated P.markerIndex (markerIdCallbacks (counted P id 0))
    (P.markers id).keyHash { blankMarkerQuery with expectedId := id }
  have hhash : markerHash (counted P id 0) id = (P.markers id).keyHash :=
    (counted_fields 0 id).2.2.2.1
  rw [hhash] at h1
  have hal' : ix.allocatedBucketCount = P.markerIndex.allocatedBucketCount := by
    rw [← hal]
    change _ = (indexRemove (counted P id 0).markerIndex _ _ _).2.1.allocatedBucketCount
    rw [h1]
  refine ⟨ix,h1,markerRep_drop hm hl rfl rfl (indexed_congr h2 (fun x => ?_)
    (fun x _ => ((counted_fields 0 x).2.2.2.1).symm)) hal' ?_⟩
  · simp only [MarkerListed, counted_held]
    simp
  · have hc := hm.count
    have hpos := tally_pos (fun i => (P.markers (i+1)).inUse) P.markerCapacity (id-1)
      (by have := hl.1; have := hl.2.1; omega)
      (by rw [Nat.sub_add_cancel (by have := hl.1; omega)]; exact hl.2.2)
    simp only [if_true, Nat.add_zero] at hc ⊢
    omega

theorem releaseCacheMarker_spec (generation : ℕ) (hm : MarkerRep P none) :
    Ensures (releaseCacheMarker id generation) P (fun _ P' =>
      (P' = P ∧ ¬(Held P id ∧ (P.markers id).generation = generation)) ∨
      (Held P id ∧ (P.markers id).generation = generation ∧ Released P P' id)) Never := by
  have hv := rep_markerIndexValid hm
  unfold releaseCacheMarker
  simp only [ensures_bind, ensures_get]
  by_cases h0 : id = 0 ∨ P.markerCapacity < id
  · rw [if_pos h0]
    refine Or.inl ⟨rfl,fun h => ?_⟩
    have := h.1.1
    have := h.1.2.1
    omega
  rw [if_neg h0]
  by_cases hl : Held P id ∧ (P.markers id).generation = generation
  · obtain ⟨hl,hgen⟩ := hl
    have hs := hm.shape id hl
    have hhead : P.markerFreeHead ≤ P.markerCapacity := by
      by_cases h : P.markerFreeHead = 0
      · omega
      · exact (lists_head_free hm.free h).2.1
    have hslots : P.markerKeyFreeHead ≤ P.markerKeyCapacity := by
      by_cases h : P.markerKeyFreeHead = 0
      · omega
      · exact (lists_head_free hm.slots h).2.1
    have hguard : ¬((!(P.markers id).inUse) = true ∨ (P.markers id).generation ≠ generation ∨
        (P.markers id).writerCount = 0 ∨ (P.markers id).keySlot = 0 ∨
        P.markerKeyCapacity < (P.markers id).keySlot ∨ keyMax < (P.markers id).keyLen ∨
        (!partitionIndexValid P true) = true ∨ P.markerCapacity < P.markerFreeHead ∨
        P.markerKeyCapacity < P.markerKeyFreeHead) := by
      have := hs.writers.1
      have := hs.slot.1
      have := hs.slot.2
      have := hs.key
      simp only [hl.2.2, hv, hgen, Bool.not_true, Bool.false_eq_true, false_or, ne_eq,
        not_true_eq_false]
      omega
    rw [if_neg hguard]
    rw [ensures_bind, ensures_set]
    by_cases hone : (P.markers id).writerCount = 1
    · obtain ⟨ix,h1,h2⟩ := lastRelease_spec hm hl
      rw [if_neg (by simp [hone])]
      have hset : setMarker P id { P.markers id with
          writerCount := (P.markers id).writerCount-1 } = counted P id 0 := by
        rw [counted, hone]
      rw [hset]
      simp only [ensures_bind, ensures_get, h1, ensures_set]
      rw [if_neg (fun h => h rfl)]
      have hstate : ({ counted P id 0 with
          markerIndex := ix
          markers := (Function.update (counted P id 0).markers id { P.markers id with
            writerCount := (P.markers id).writerCount-1, inUse := false, keyLen := 0, keySlot := 0,
            freeNext := (counted P id 0).markerFreeHead })
          markerFreeHead := id
          markerKeyFreeNext := (Function.update (counted P id 0).markerKeyFreeNext
            (P.markers id).keySlot (counted P id 0).markerKeyFreeHead)
          markerKeyFreeHead := (P.markers id).keySlot
          markerCount := (counted P id 0).markerCount-1 } : Partition) =
          droppedState P id (freedMarker (P.markers id) P.markerFreeHead) ix (P.markerCount-1) := by
        simp [droppedState, counted, setMarker, freedMarker, hone]
      have hbeside : MarkersBeside P (droppedState P id
          (freedMarker (P.markers id) P.markerFreeHead) ix (P.markerCount-1)) id := dropped_beside
      have hfree : ¬Held (droppedState P id
          (freedMarker (P.markers id) P.markerFreeHead) ix (P.markerCount-1)) id := fun h =>
        ((dropped_held rfl id).mp h).2 rfl
      rw [ensures_bind, ensures_set, hstate]
      split
      · refine ensures_seq (rebuildMarkerIndex_spec h2) ?_
        rintro _ P' ⟨g1,ix',rfl⟩
        exact Or.inr ⟨hl,hgen,g1,beside_trans hbeside (index_beside _ ix' _),Or.inr ⟨hone,hfree⟩⟩
      · exact Or.inr ⟨hl,hgen,h2,hbeside,Or.inr ⟨hone,hfree⟩⟩
    · rw [if_pos (by have := hs.writers.1; simp only [ne_eq]; omega)]
      have hw := hs.writers
      exact Or.inr ⟨hl,hgen,markerRep_counted hm _ (by omega) (by omega),counted_beside _,
        Or.inl ⟨by omega,(counted_held _ id).mpr hl,(counted_fields _ id).2.2.2.2,counted_self _⟩⟩
  · rw [if_pos]
    · exact Or.inl ⟨rfl,hl⟩
    · by_contra h
      simp only [not_or, Bool.not_eq_true', not_not, Bool.not_eq_false] at h h0
      exact hl ⟨⟨h0.1,by omega,h.1⟩,h.2.1⟩

end PgLocalCache.MarkerReserve
