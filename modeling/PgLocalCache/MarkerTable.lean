import PgLocalCache.MarkerInvariant

/-!
# Changes of the dirty-marker table

Taking a spare marker with a free key slot, giving both back, and counting the
writers of a held marker: what each does to the invariant and what it leaves
alone.
-/

namespace PgLocalCache.MarkerTable

open ByteMemory FreeChain CacheIndex IndexInvariant CacheState CacheEntries CacheMarkers
open Outcome EntryInvariant MarkerInvariant
open Function (update update_of_ne update_self)

structure SameEntries (P P' : Partition) : Prop where
  entries : P'.entries = P.entries
  index : P'.index = P.index
  arena : P'.arena = P.arena
  generation : P'.entryGeneration = P.entryGeneration
  count : P'.entryCount = P.entryCount
  capacity : P'.capacity = P.capacity
  head : P'.freeEntryHead = P.freeEntryHead

/-- Everything but one marker is as before. -/
structure MarkersBeside (P P' : Partition) (id : ℕ) : Prop where
  entries : SameEntries P P'
  capacity : P'.markerCapacity = P.markerCapacity
  generation : P.markerGeneration ≤ P'.markerGeneration
  same : ∀ x, x ≠ id → P'.markers x = P.markers x
  key : ∀ x, x ≠ id → Held P x → markerKey P' x = markerKey P x

variable {P P' P'' : Partition} {held : Option (ℕ × ℕ)} {pending : Option ℕ} {id : ℕ}

theorem sameEntries_refl (P : Partition) : SameEntries P P := by constructor <;> rfl

theorem sameEntries_trans (h : SameEntries P P') (h' : SameEntries P' P'') : SameEntries P P'' :=
  ⟨h'.entries.trans h.entries,h'.index.trans h.index,h'.arena.trans h.arena,
    h'.generation.trans h.generation,h'.count.trans h.count,h'.capacity.trans h.capacity,
    h'.head.trans h.head⟩

theorem entryRep_sameEntries (hr : EntryRep P held pending) (h : SameEntries P P') :
    EntryRep P' held pending := by
  refine entryRep_soft hr ⟨fun x => ?_,h.index,h.arena,h.head,h.count,h.capacity⟩ (fun x hx => ?_)
  · rw [h.entries]
    exact hardEq_refl _
  · rw [h.entries, h.generation]
    exact hr.versions x hx

theorem beside_held (h : MarkersBeside P P' id) (x : ℕ) (hx : x ≠ id) : Held P' x ↔ Held P x := by
  rw [Held, Held, h.same x hx, h.capacity]

theorem beside_markerId (h : MarkersBeside P P' id) (x : ℕ) (hx : x ≠ id) (hl : Held P x) :
    markerId P' x = markerId P x := by
  simp only [markerId, h.key x hx hl, h.same x hx]

theorem beside_trans (h : MarkersBeside P P' id) (h' : MarkersBeside P' P'' id) :
    MarkersBeside P P'' id :=
  ⟨sameEntries_trans h.entries h'.entries,h'.capacity.trans h.capacity,
    le_trans h.generation h'.generation,fun x hx => (h'.same x hx).trans (h.same x hx),
    fun x hx hl => (h'.key x hx ((beside_held h x hx).mpr hl)).trans (h.key x hx hl)⟩

theorem markerRep_reindex (hm : MarkerRep P pending) (pending' : Option ℕ) (ix : Index) (count : ℕ)
    (hd : ix.allocatedBucketCount = P.markerIndex.allocatedBucketCount)
    (hi : Indexed ix (MarkerListed P pending') (markerHash P))
    (hc : count+(if pending' = none then 0 else 1) =
      P.markerCount+(if pending = none then 0 else 1)) :
    MarkerRep { P with markerIndex := ix, markerCount := count } pending' :=
  ⟨hm.bound,hd.trans hm.buckets,hi,hm.free,hm.slots,hc.trans hm.count,
    fun id h => ⟨(hm.shape id h).slot,(hm.shape id h).key,(hm.shape id h).writers,
      (hm.shape id h).generation⟩,hm.apart,hm.unique⟩

theorem index_beside (P : Partition) (ix : Index) (count : ℕ) :
    MarkersBeside P { P with markerIndex := ix, markerCount := count } id :=
  ⟨by constructor <;> rfl,rfl,le_refl _,fun _ _ => rfl,fun _ _ _ => rfl⟩

theorem rebuildMarkerIndex_spec (hm : MarkerRep P pending) :
    Ensures rebuildMarkerIndex P (fun _ P' => MarkerRep P' pending ∧
      ∃ ix, P' = { P with markerIndex := ix }) Never := by
  have hv := rep_markerIndexValid hm
  have hal := indexRebuild_allocated P.markerIndex (markerIdCallbacks P) blankMarkerQuery
  unfold rebuildMarkerIndex
  simp only [ensures_bind, ensures_get, hv, Bool.not_true, Bool.false_eq_true, if_false]
  rcases rebuildExisting_cases hm.indexed (markerIdQuery_faithful blankMarkerQuery) with
    ⟨ix,h,hi,_⟩ | h
  · rw [h] at hal ⊢
    exact ⟨markerRep_reindex hm pending ix P.markerCount hal hi rfl,ix,rfl⟩
  · rw [h]
    exact ⟨hm,P.markerIndex,rfl⟩

section Take

variable (r : MarkerRequest)

def takenState (P : Partition) : Partition :=
  { P with
    markerFreeHead := (P.markers P.markerFreeHead).freeNext
    markerKeyFreeHead := P.markerKeyFreeNext P.markerKeyFreeHead
    markerGeneration := P.markerGeneration+1
    markers := update P.markers P.markerFreeHead
      (freshMarker r P.markerKeyFreeHead (P.markerGeneration+1))
    markerKeyArena := write P.markerKeyArena ((P.markerKeyFreeHead-1)*keyMax)
      (r.key.take r.keyLen) }

theorem taken_self : (takenState r P).markers P.markerFreeHead =
    freshMarker r P.markerKeyFreeHead (P.markerGeneration+1) := update_self _ _ _

theorem taken_other (x : ℕ) (h : x ≠ P.markerFreeHead) :
    (takenState r P).markers x = P.markers x := update_of_ne h _ _

variable {r}

theorem taken_held (hv : Spare P P.markerFreeHead) (x : ℕ) :
    Held (takenState r P) x ↔ Held P x ∨ x = P.markerFreeHead := by
  by_cases h : x = P.markerFreeHead
  · rw [Held, h, taken_self]
    simp only [freshMarker, or_true, iff_true]
    exact ⟨hv.1,hv.2.1,trivial⟩
  · rw [Held, taken_other r x h]
    simp only [h, or_false]
    rfl

theorem slot_apart (s s' n n' : ℕ) (hs : s ≠ 0) (hs' : s' ≠ 0) (hne : s ≠ s') (hn : n ≤ keyMax)
    (hn' : n' ≤ keyMax) : (s-1)*keyMax+n ≤ (s'-1)*keyMax ∨ (s'-1)*keyMax+n' ≤ (s-1)*keyMax := by
  unfold keyMax at *
  omega

theorem taken_beside (hm : MarkerRep P none) (hk : FreeSlot P P.markerKeyFreeHead)
    (hmax : r.keyLen ≤ keyMax) : MarkersBeside P (takenState r P) P.markerFreeHead := by
  refine ⟨by constructor <;> rfl,rfl,Nat.le_succ _,fun x hx => taken_other r x hx,fun x hx hl => ?_⟩
  have hs := hm.shape x hl
  rw [markerKey, markerKey, taken_other r x hx]
  refine read_write_disjoint _ _ _ _ _ ?_
  have := slot_apart _ _ _ (r.key.take r.keyLen).length hs.slot.1 hk.1 (hk.2.2 x hl) hs.key
    (by rw [List.length_take]; omega)
  exact this

theorem taken_ident (hlen : r.keyLen ≤ r.key.length) :
    markerId (takenState r P) P.markerFreeHead = wantedId r := by
  have hb : (r.key.take r.keyLen).length = r.keyLen := by
    rw [List.length_take, Nat.min_eq_left hlen]
  have hk : markerKey (takenState r P) P.markerFreeHead = r.key.take r.keyLen := by
    rw [markerKey, taken_self]
    have := read_write_same P.markerKeyArena ((P.markerKeyFreeHead-1)*keyMax) (r.key.take r.keyLen)
    rwa [hb] at this
  simp only [markerId, wantedId, hk, taken_self, freshMarker]

theorem taken_slots (hm : MarkerRep P none) (hv : Spare P P.markerFreeHead)
    (hz : P.markerKeyFreeHead ≠ 0) :
    Lists (takenState r P).markerKeyFreeNext 0 (takenState r P).markerKeyFreeHead
      (FreeSlot (takenState r P)) := by
  refine lists_congr (lists_pop hm.slots hz) (fun s => ?_) (fun _ _ => rfl)
  simp only [FreeSlot, taken_held hv]
  constructor
  · rintro ⟨h1,h2,h3⟩
    refine ⟨⟨h1,h2,fun x hx => ?_⟩,fun he => ?_⟩
    · have := h3 x (Or.inl hx)
      rwa [taken_other r x (fun he => spare_not_held hv (he ▸ hx))] at this
    · have := h3 P.markerFreeHead (Or.inr rfl)
      rw [taken_self] at this
      exact this he.symm
  · rintro ⟨⟨h1,h2,h3⟩,h4⟩
    refine ⟨h1,h2,fun x hx => ?_⟩
    by_cases h : x = P.markerFreeHead
    · rw [h, taken_self]
      exact fun he => h4 he.symm
    · rw [taken_other r x h]
      exact h3 x (hx.resolve_right h)

theorem taken_count (hm : MarkerRep P none) (hv : Spare P P.markerFreeHead) :
    P.markerCount+1 =
      tally (fun i => ((takenState r P).markers (i+1)).inUse) P.markerCapacity := by
  have h1 := hv.1
  have h2 := hv.2.1
  have hc := hm.count
  simp only [if_true, Nat.add_zero] at hc
  rw [hc]
  refine (tally_set _ _ _ (P.markerFreeHead-1) (by omega) (fun i _ hi => ?_) ?_ ?_).symm
  · rw [taken_other r _ (by omega)]
  · rw [Nat.sub_add_cancel (by omega)]
    exact hv.2.2
  · rw [Nat.sub_add_cancel (by omega), taken_self]
    rfl

theorem markerRep_take (hm : MarkerRep P none) (hz : P.markerFreeHead ≠ 0)
    (hk : P.markerKeyFreeHead ≠ 0) (hlen : r.keyLen ≤ r.key.length) (hmax : r.keyLen ≤ keyMax)
    (hnew : ∀ x, Held P x → markerId P x ≠ wantedId r) :
    MarkerRep (takenState r P) (some P.markerFreeHead) := by
  have hv : Spare P P.markerFreeHead := lists_head_free hm.free hz
  have hs : FreeSlot P P.markerKeyFreeHead := lists_head_free hm.slots hk
  have hbes := taken_beside hm hs hmax
  have hother : ∀ x, Held P x → x ≠ P.markerFreeHead := fun x hx he =>
    spare_not_held hv (he ▸ hx)
  have hkey : ∀ x, Held (takenState r P) x → x ≠ P.markerFreeHead → Held P x := fun x hx he =>
    ((taken_held hv x).mp hx).resolve_right he
  refine ⟨hm.bound,hm.buckets,?_,?_,taken_slots hm hv hk,?_,fun x hx => ?_,
    fun x y hx hy he => ?_,fun x y hx hy he => ?_⟩
  · refine indexed_congr hm.indexed (fun x => ?_) (fun x hx => ?_)
    · simp only [MarkerListed, taken_held hv]
      constructor
      · rintro ⟨h | h,h'⟩
        · exact ⟨h,by simp⟩
        · exact absurd (congrArg some h.symm) h'
      · rintro ⟨h,_⟩
        exact ⟨Or.inl h,fun he => hother x h (Option.some.inj he).symm⟩
    · rw [markerHash, markerHash, taken_other r x (hother x hx.1)]
  · refine lists_congr (lists_pop hm.free hz) (fun x => ?_) (fun x hx => ?_)
    · by_cases h : x = P.markerFreeHead
      · rw [Spare, h, taken_self]
        simp [freshMarker]
      · rw [Spare, taken_other r x h]
        simp only [h, ne_eq, not_false_eq_true, and_true]
        rfl
    · simp only [taken_other r x hx.2]
  · simp only [reduceCtorEq, if_false]
    exact taken_count hm hv
  · by_cases h : x = P.markerFreeHead
    · rw [h, taken_self]
      exact ⟨⟨hs.1,hs.2.1⟩,hmax,by simp [freshMarker],le_refl _⟩
    · rw [taken_other r x h]
      have hsh := hm.shape x (hkey x hx h)
      exact ⟨hsh.slot,hsh.key,hsh.writers,Nat.le_succ_of_le hsh.generation⟩
  · by_cases h : x = P.markerFreeHead <;> by_cases h' : y = P.markerFreeHead
    · rw [h, h']
    · rw [h, taken_self, taken_other r y h'] at he
      exact absurd he.symm (hs.2.2 y (hkey y hy h'))
    · rw [h', taken_self, taken_other r x h] at he
      exact absurd he (hs.2.2 x (hkey x hx h))
    · rw [taken_other r x h, taken_other r y h'] at he
      exact hm.apart x y (hkey x hx h) (hkey y hy h') he
  · by_cases h : x = P.markerFreeHead <;> by_cases h' : y = P.markerFreeHead
    · rw [h, h']
    · rw [h, taken_ident hlen, beside_markerId hbes y h' (hkey y hy h')] at he
      exact absurd he.symm (hnew y (hkey y hy h'))
    · rw [h', taken_ident hlen, beside_markerId hbes x h (hkey x hx h)] at he
      exact absurd he (hnew x (hkey x hx h))
    · rw [beside_markerId hbes x h (hkey x hx h), beside_markerId hbes y h' (hkey y hy h')] at he
      exact hm.unique x y (hkey x hx h) (hkey y hy h') he

end Take

section Drop

variable {m : DirtyMarker} {ix : Index} {count : ℕ}

def droppedState (P : Partition) (id : ℕ) (m : DirtyMarker) (ix : Index) (count : ℕ) : Partition :=
  { P with
    markerIndex := ix
    markers := update P.markers id m
    markerFreeHead := id
    markerKeyFreeNext :=
      update P.markerKeyFreeNext (P.markers id).keySlot P.markerKeyFreeHead
    markerKeyFreeHead := (P.markers id).keySlot
    markerCount := count }

theorem dropped_other (x : ℕ) (h : x ≠ id) :
    (droppedState P id m ix count).markers x = P.markers x := update_of_ne h _ _

theorem dropped_self : (droppedState P id m ix count).markers id = m := update_self _ _ _

theorem dropped_held (hu : m.inUse = false) (x : ℕ) :
    Held (droppedState P id m ix count) x ↔ Held P x ∧ x ≠ id := by
  by_cases h : x = id
  · rw [Held, h, dropped_self, hu]
    simp
  · rw [Held, dropped_other x h]
    simp only [h, ne_eq, not_false_eq_true, and_true]
    rfl

theorem dropped_beside : MarkersBeside P (droppedState P id m ix count) id :=
  ⟨by constructor <;> rfl,rfl,le_refl _,fun x hx => dropped_other x hx,fun x hx _ => by
    rw [markerKey, markerKey, dropped_other x hx]
    rfl⟩

theorem dropped_slots (hm : MarkerRep P pending) (hu : m.inUse = false) (hl : Held P id) :
    Lists (droppedState P id m ix count).markerKeyFreeNext 0
      (droppedState P id m ix count).markerKeyFreeHead
      (FreeSlot (droppedState P id m ix count)) := by
  have hs := (hm.shape id hl).slot
  refine lists_congr (lists_push hm.slots (P.markers id).keySlot (fun h => h.2.2 id hl rfl) hs.1)
    (fun s => ?_) (fun _ _ => rfl)
  simp only [FreeSlot, dropped_held hu]
  constructor
  · rintro ⟨h1,h2,h3⟩
    by_cases he : s = (P.markers id).keySlot
    · exact Or.inr he
    · refine Or.inl ⟨h1,h2,fun x hx => ?_⟩
      by_cases hid : x = id
      · rw [hid]
        exact fun e => he e.symm
      · have := h3 x ⟨hx,hid⟩
        rwa [dropped_other x hid] at this
  · rintro (⟨h1,h2,h3⟩ | rfl)
    · refine ⟨h1,h2,fun x hx => ?_⟩
      rw [dropped_other x hx.2]
      exact h3 x hx.1
    · refine ⟨hs.1,hs.2,fun x hx => ?_⟩
      rw [dropped_other x hx.2]
      exact fun he => hx.2 (hm.apart x id hx.1 hl he)

theorem dropped_count (hu : m.inUse = false) (hl : Held P id) :
    tally (fun i => (P.markers (i+1)).inUse) P.markerCapacity =
      tally (fun i => ((droppedState P id m ix count).markers (i+1)).inUse) P.markerCapacity+1 := by
  have h1 := hl.1
  have h2 := hl.2.1
  refine tally_set _ _ _ (id-1) (by omega) (fun i _ hi => ?_) ?_ ?_
  · rw [dropped_other _ (by omega)]
  · rw [Nat.sub_add_cancel (by omega), dropped_self]
    exact hu
  · rw [Nat.sub_add_cancel (by omega)]
    exact hl.2.2

theorem markerRep_drop (hm : MarkerRep P pending) (hl : Held P id) (hu : m.inUse = false)
    (hnext : m.freeNext = P.markerFreeHead)
    (hix : Indexed ix (fun x => Held P x ∧ x ≠ id) (markerHash P))
    (hal : ix.allocatedBucketCount = P.markerIndex.allocatedBucketCount)
    (hc : count+1 = P.markerCount+(if pending = none then 0 else 1)) :
    MarkerRep (droppedState P id m ix count) none := by
  have hbes : MarkersBeside P (droppedState P id m ix count) id := dropped_beside
  refine ⟨hm.bound,hal.trans hm.buckets,?_,?_,dropped_slots hm hu hl,?_,fun x hx => ?_,
    fun x y hx hy he => ?_,fun x y hx hy he => ?_⟩
  · refine indexed_congr hix (fun x => ?_) (fun x hx => ?_)
    · simp only [MarkerListed, dropped_held hu]
      simp
    · rw [markerHash, markerHash, dropped_other x hx.2]
  · have hv : ¬Spare P id := fun h => spare_not_held h hl
    refine lists_congr (lists_push hm.free id hv hl.1) (fun x => ?_) (fun x _ => ?_)
    · by_cases h : x = id
      · rw [Spare, h, dropped_self, hu]
        simp only [or_true, iff_true]
        exact ⟨hl.1,hl.2.1,trivial⟩
      · rw [Spare, dropped_other x h]
        simp only [h, or_false]
        rfl
    · by_cases h : x = id
      · rw [h, dropped_self, update_self, hnext]
      · rw [dropped_other x h, update_of_ne h]
  · have h1 := @dropped_count P id m ix count hu hl
    have h2 := hm.count
    change count+0 = tally _ P.markerCapacity
    rw [h1] at h2
    omega
  · obtain ⟨h1,h2⟩ := (dropped_held hu x).mp hx
    rw [dropped_other x h2]
    have hs := hm.shape x h1
    exact ⟨hs.slot,hs.key,hs.writers,hs.generation⟩
  · obtain ⟨h1,h2⟩ := (dropped_held hu x).mp hx
    obtain ⟨g1,g2⟩ := (dropped_held hu y).mp hy
    rw [dropped_other x h2, dropped_other y g2] at he
    exact hm.apart x y h1 g1 he
  · obtain ⟨h1,h2⟩ := (dropped_held hu x).mp hx
    obtain ⟨g1,g2⟩ := (dropped_held hu y).mp hy
    rw [beside_markerId hbes x h2 h1, beside_markerId hbes y g2 g1] at he
    exact hm.unique x y h1 g1 he

end Drop

def counted (P : Partition) (id n : ℕ) : Partition :=
  setMarker P id { P.markers id with writerCount := n }

theorem counted_other (n x : ℕ) (h : x ≠ id) : (counted P id n).markers x = P.markers x :=
  update_of_ne h _ _

theorem counted_self (n : ℕ) : (counted P id n).markers id =
    { P.markers id with writerCount := n } := update_self _ _ _

/-- The number of writers plays no part in the structure of the table. -/
theorem counted_fields (n x : ℕ) : ((counted P id n).markers x).inUse = (P.markers x).inUse ∧
    ((counted P id n).markers x).keySlot = (P.markers x).keySlot ∧
    ((counted P id n).markers x).freeNext = (P.markers x).freeNext ∧
    ((counted P id n).markers x).keyHash = (P.markers x).keyHash ∧
    markerId (counted P id n) x = markerId P x := by
  by_cases h : x = id
  · subst h
    simp only [markerId, markerKey, counted_self, true_and]
    rfl
  · simp only [markerId, markerKey, counted_other n x h, true_and]
    rfl

theorem counted_held (n x : ℕ) : Held (counted P id n) x ↔ Held P x := by
  rw [Held, (counted_fields n x).1]
  rfl

theorem counted_beside (n : ℕ) : MarkersBeside P (counted P id n) id :=
  ⟨by constructor <;> rfl,rfl,le_refl _,fun x hx => counted_other n x hx,fun x _ _ =>
    congrArg MarkerId.key (counted_fields n x).2.2.2.2⟩

theorem counted_indexed (hm : MarkerRep P pending) (n : ℕ) :
    Indexed (counted P id n).markerIndex (MarkerListed (counted P id n) pending)
      (markerHash (counted P id n)) :=
  indexed_congr hm.indexed (fun x => by rw [MarkerListed, counted_held]; rfl)
    (fun x _ => (counted_fields n x).2.2.2.1)

theorem markerRep_counted (hm : MarkerRep P pending) (n : ℕ) (h0 : 0 < n) (hn : n < 2^32) :
    MarkerRep (counted P id n) pending := by
  refine ⟨hm.bound,hm.buckets,counted_indexed hm n,?_,?_,?_,fun x hx => ?_,fun x y hx hy he => ?_,
    fun x y hx hy he => ?_⟩
  · exact lists_congr hm.free (fun x => by rw [Spare, (counted_fields n x).1]; rfl)
      (fun x _ => (counted_fields n x).2.2.1)
  · refine lists_congr hm.slots (fun s => ?_) (fun _ _ => rfl)
    simp only [FreeSlot, counted_held, (counted_fields n _).2.1]
    rfl
  · refine hm.count.trans (tally_congr _ _ _ (fun i _ => ?_))
    exact ((counted_fields n (i+1)).1).symm
  · have hs := hm.shape x ((counted_held n x).mp hx)
    by_cases h : x = id
    · subst h
      rw [counted_self]
      exact ⟨hs.slot,hs.key,⟨h0,hn⟩,hs.generation⟩
    · rw [counted_other n x h]
      exact ⟨hs.slot,hs.key,hs.writers,hs.generation⟩
  · rw [(counted_fields n x).2.1, (counted_fields n y).2.1] at he
    exact hm.apart x y ((counted_held n x).mp hx) ((counted_held n y).mp hy) he
  · rw [(counted_fields n x).2.2.2.2, (counted_fields n y).2.2.2.2] at he
    exact hm.unique x y ((counted_held n x).mp hx) ((counted_held n y).mp hy) he

end PgLocalCache.MarkerTable
