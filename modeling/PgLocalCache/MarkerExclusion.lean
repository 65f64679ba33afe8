import PgLocalCache.PartitionMap

/-!
# Dirty markers, their holders and the descriptors

The holders of markers are read off the trace: a granted reservation adds one and
a release takes one away. Markers carry no database and relation, so what keeps
them apart from descriptors of the same key is that a relation slot of a given
generation belongs to one relation. The registry hands slots out that way; here it
is a condition on the callers, and both this condition and the runs without an
overflow error are needed.
-/

namespace PgLocalCache.MarkerExclusion

open ByteMemory FreeChain CacheState CacheMarkers
open CacheAdmission PartitionModel Outcome EntryInvariant EntryRemoval
open MarkerInvariant MarkerTable MarkerReserve PartitionInvariant PartitionTables PartitionMap

/-- A reservation that was granted and not yet released. -/
structure Hold where
  relationSlot : ℕ
  slotGeneration : ℕ
  key : List UInt8
  id : ℕ
  tag : ℕ
  deriving DecidableEq, Repr

def holdOf (t : KeyTuple) (id tag : ℕ) : Hold := ⟨t.relationSlot,t.slotGeneration,t.key,id,tag⟩

def named (id tag : ℕ) (h : Hold) : Bool := h.id == id && h.tag == tag

def ledger : List Event → List Hold
  | [] => []
  | e::trace =>
    match e.op, e.result with
    | .reserve t _, .reserved (.marker id tag) => holdOf t id tag::ledger trace
    | .releaseMarker id tag, _ => (ledger trace).eraseP (named id tag)
    | _, _ => ledger trace

def opTuple : PartOp → Option KeyTuple
  | .lookup _ t _ _ _ _ => some t
  | .claim _ t _ _ => some t
  | .store _ t _ _ _ => some t
  | .release _ t _ _ => some t
  | .invalidateKey t _ => some t
  | .retireMalformed _ t _ _ _ => some t
  | .reserve t _ => some t
  | .publish t => some t
  | .finish t => some t
  | _ => none

/-- The relation that a slot of a given generation belongs to. -/
def OwnedBy (owner : ℕ → ℕ → ℕ × ℕ) (t : KeyTuple) : Prop :=
  (t.databaseOid,t.relationOid) = owner t.relationSlot t.slotGeneration

def TraceOwned (owner : ℕ → ℕ → ℕ × ℕ) (trace : List Event) : Prop :=
  ∀ e ∈ trace, ∀ t, opTuple e.op = some t → OwnedBy owner t

def markerWanted (hash : KeyTuple → ℕ) (t : KeyTuple) : MarkerId :=
  wantedId (markerRequestOf (requestOf hash t))

variable {P P' : Partition} {hash : KeyTuple → ℕ} {owner : ℕ → ℕ → ℕ × ℕ} {id : ℕ}
variable {t t' : KeyTuple}

theorem owned_eq (h : OwnedBy owner t) (h' : OwnedBy owner t')
    (hs : t.relationSlot = t'.relationSlot) (hg : t.slotGeneration = t'.slotGeneration)
    (hk : t.key = t'.key) : t = t' := by
  have he : (t.databaseOid,t.relationOid) = (t'.databaseOid,t'.relationOid) := by
    rw [h, h', hs, hg]
  obtain ⟨h1,h2⟩ := Prod.mk.inj he
  cases t
  cases t'
  simp_all

theorem markerWanted_short (ht : t.key.length < keyMax) :
    markerWanted hash t = ⟨t.relationSlot,t.slotGeneration,hash t,t.key⟩ := by
  simp only [markerWanted, wantedId, markerRequestOf, requestOf, Nat.min_eq_left ht.le,
    List.take_length]

theorem requestId_short (ht : t.key.length < keyMax) : requestId (requestOf hash t) =
    ⟨t.databaseOid,t.relationOid,t.relationSlot,t.slotGeneration,hash t,t.key⟩ := by
  simp only [requestId, requestOf, Nat.min_eq_left ht.le, List.take_length]

theorem entry_origin {op : PartOp} {res : OpResult} (hr : PartRep P) (hs : OpStep hash op res P P')
    {x : ℕ} (hl : Live P' x) : (Live P x ∧ entryId P' x = entryId P x) ∨
    ∃ t, opTuple op = some t ∧ markerOp op = false ∧ t.key.length < keyMax ∧
      entryId P' x = requestId (requestOf hash t) ∧
      cacheMarkerFind P (markerRequestOf (requestOf hash t)) = 0 := by
  obtain ⟨target,hframe,htarget⟩ := hs.entry
  by_cases hx : x = target
  · subst hx
    cases htarget with
    | gone _ hdead => exact absurd hl hdead
    | lapse _ hlx hlap => exact Or.inl ⟨hlx,hlap.ident⟩
    | created m t _ _ _ _ hop _ hshort hc hfind =>
      subst hop
      exact Or.inr ⟨t,rfl,rfl,hshort,hc.ident,hfind⟩
    | leased _ _ _ _ _ _ _ _ hlx _ hle => exact Or.inl ⟨hlx,hle.ident⟩
    | filled _ _ _ _ _ _ _ _ hlx _ _ hf => exact Or.inl ⟨hlx,hf.ident⟩
  · have hsurv := hframe.survive x hx hl
    exact Or.inl ⟨hsurv.live,survives_entryId hr.entries hsurv⟩

theorem sameMarkers_markerId (h : SameMarkers P P') (x : ℕ) : markerId P' x = markerId P x := by
  simp only [markerId, markerKey, h.1, h.2.2.1]

theorem sameMarkers_held (h : SameMarkers P P') (x : ℕ) : Held P' x ↔ Held P x := by
  rw [Held, Held, h.1, h.2.2.2.2.2.1]

/-- Markers that are in use on both sides and unchanged. -/
structure Unchanged (P P' : Partition) : Prop where
  held : ∀ x, Held P' x ↔ Held P x
  marker : ∀ x, Held P x → P'.markers x = P.markers x
  ident : ∀ x, Held P x → markerId P' x = markerId P x

theorem unchanged_of_same (h : (∃ id, MarkersBeside P P' id ∧ ¬Held P id ∧ ¬Held P' id) ∨
    SameMarkers P P') : Unchanged P P' := by
  rcases h with ⟨id,hb,hn,hn'⟩ | hsame
  · refine ⟨fun x => ?_,fun x hx => ?_,fun x hx => ?_⟩
    · by_cases he : x = id
      · subst he
        exact iff_of_false hn' hn
      · exact beside_held hb x he
    · exact hb.same x (fun he => hn (he ▸ hx))
    · exact beside_markerId hb x (fun he => hn (he ▸ hx)) hx
  · exact ⟨sameMarkers_held hsame,fun x _ => by rw [hsame.1],
      fun x _ => sameMarkers_markerId hsame x⟩

theorem marker_origin {op : PartOp} {res : OpResult} (hs : OpStep hash op res P P')
    (hl : Held P' id) : (Held P id ∧ markerId P' id = markerId P id) ∨
    ∃ t, opTuple op = some t ∧ markerOp op = true ∧ t.key.length < keyMax ∧
      markerId P' id = markerWanted hash t ∧
      ∀ x, Live P x → entryId P x ≠ requestId (requestOf hash t) := by
  cases hs.marker with
  | same _ _ hsame =>
    have hu := unchanged_of_same hsame
    have hl' := (hu.held id).mp hl
    exact Or.inl ⟨hl',hu.ident id hl'⟩
  | granted t inc x tag hop hres hg hnone =>
    by_cases hx : id = x
    · subst hop hx
      have hshort : (requestOf hash t).keyLen < keyMax := hg.short
      exact Or.inr ⟨t,rfl,rfl,requestOf_short hshort.ne,hg.ident,hnone⟩
    · have hl' := (beside_held hg.beside id hx).mp hl
      exact Or.inl ⟨hl',beside_markerId hg.beside id hx hl'⟩
  | released x tag hop _ hheld hgen hrel =>
    by_cases hx : id = x
    · subst hx
      rcases hrel.writers with ⟨_,_,h3,_⟩ | ⟨_,h2⟩
      · exact Or.inl ⟨hheld,h3⟩
      · exact absurd hl h2
    · have hl' := (beside_held hrel.beside id hx).mp hl
      exact Or.inl ⟨hl',beside_markerId hrel.beside id hx hl'⟩

/-- Every descriptor and every marker belongs to a key, and never both to the same one. -/
structure Exclusion (owner : ℕ → ℕ → ℕ × ℕ) (hash : KeyTuple → ℕ) (P : Partition) : Prop where
  entries : ∀ x, Live P x → ∃ t, OwnedBy owner t ∧ t.key.length < keyMax ∧
    entryId P x = requestId (requestOf hash t)
  markers : ∀ id, Held P id → ∃ t, OwnedBy owner t ∧ t.key.length < keyMax ∧
    markerId P id = markerWanted hash t
  apart : ∀ t, OwnedBy owner t → t.key.length < keyMax → ∀ id x, Held P id → Live P x →
    entryId P x = requestId (requestOf hash t) → markerId P id ≠ markerWanted hash t

theorem markerWanted_inj (h : OwnedBy owner t) (h' : OwnedBy owner t') (hk : t.key.length < keyMax)
    (hk' : t'.key.length < keyMax) (he : markerWanted hash t = markerWanted hash t') : t = t' := by
  rw [markerWanted_short hk, markerWanted_short hk', MarkerId.mk.injEq] at he
  exact owned_eq h h' he.1 he.2.1 he.2.2.2

theorem marker_absent (hr : PartRep P)
    (h : cacheMarkerFind P (markerRequestOf (requestOf hash t)) = 0) :
    ∀ id, Held P id → markerId P id ≠ markerWanted hash t := by
  have hq := requestOf_ok hash t
  rcases cacheMarkerFind_cases hr.markers (markerRequestOf (requestOf hash t)) hq.len hq.max with
    ⟨id,h1,h2,_⟩ | ⟨_,h2⟩
  · exact absurd (h1.symm.trans h) h2.1
  · exact h2

theorem exclusion_step {op : PartOp} {res : OpResult} (hr : PartRep P)
    (hs : OpStep hash op res P P') (hown : ∀ t, opTuple op = some t → OwnedBy owner t)
    (h : Exclusion owner hash P) : Exclusion owner hash P' := by
  refine ⟨fun x hl => ?_,fun id hl => ?_,fun t ht hk id x hm hl hid hw => ?_⟩
  · rcases entry_origin hr hs hl with ⟨hl',he⟩ | ⟨t,hop,_,hk,he,_⟩
    · rw [he]
      exact h.entries x hl'
    · exact ⟨t,hown t hop,hk,he⟩
  · rcases marker_origin hs hl with ⟨hl',he⟩ | ⟨t,hop,_,hk,he,_⟩
    · rw [he]
      exact h.markers id hl'
    · exact ⟨t,hown t hop,hk,he⟩
  · rcases entry_origin hr hs hl with ⟨hl',he⟩ | ⟨t0,hop,hside,hk0,he,hfind⟩ <;>
      rcases marker_origin hs hm with ⟨hm',hf⟩ | ⟨t1,hop1,hside1,hk1,hf,hnone⟩
    · exact h.apart t ht hk id x hm' hl' (he.symm.trans hid) (hf.symm.trans hw)
    · have hsame := markerWanted_inj ht (hown t1 hop1) hk hk1 (hw.symm.trans hf)
      subst hsame
      exact hnone x hl' (he.symm.trans hid)
    · have hsame := requestId_inj hk hk0 (hid.symm.trans he)
      subst hsame
      exact marker_absent hr hfind id hm' (hf.symm.trans hw)
    · rw [hside] at hside1
      simp at hside1

/-- The ledger agrees with the marker table. -/
structure Ledgered (P : Partition) (holds : List Hold) : Prop where
  held : ∀ h ∈ holds, Held P h.id
  tag : ∀ h ∈ holds, (P.markers h.id).generation = h.tag
  ident : ∀ h ∈ holds, (markerId P h.id).relationSlot = h.relationSlot ∧
    (markerId P h.id).relationSlotGeneration = h.slotGeneration ∧ (markerId P h.id).key = h.key
  counted : ∀ id, Held P id →
    (P.markers id).writerCount = holds.countP (named id (P.markers id).generation)

theorem ledgered_unchanged {holds : List Hold} (h : Ledgered P holds) (hu : Unchanged P P') :
    Ledgered P' holds := by
  refine ⟨fun x hx => (hu.held x.id).mpr (h.held x hx),fun x hx => ?_,fun x hx => ?_,
    fun id hid => ?_⟩
  · rw [hu.marker x.id (h.held x hx)]
    exact h.tag x hx
  · rw [hu.ident x.id (h.held x hx)]
    exact h.ident x hx
  · have hl := (hu.held id).mp hid
    rw [hu.marker id hl]
    exact h.counted id hl

theorem ledger_same {op : PartOp} {res : OpResult} {trace : List Event}
    (h : Ledgered P (ledger trace)) (hres : ∀ id tag, res ≠ .reserved (.marker id tag))
    (hrel : ∀ id tag, op = .releaseMarker id tag →
      ¬(Held P id ∧ (P.markers id).generation = tag)) :
    ledger (⟨op,res,P'⟩::trace) = ledger trace := by
  simp only [ledger]
  split
  · exact absurd rfl (hres _ _)
  · rename_i id tag
    refine List.eraseP_of_forall_not (fun x hx hn => hrel id tag rfl ?_)
    simp only [named, Bool.and_eq_true, beq_iff_eq] at hn
    obtain ⟨rfl,rfl⟩ := hn
    exact ⟨h.held x hx,h.tag x hx⟩
  · rfl

theorem ledgered_granted {holds : List Hold} {tag inc : ℕ} (h : Ledgered P holds)
    (hg : Granted P P' (markerRequest hash t inc) id tag) :
    Ledgered P' (holdOf t id tag::holds) := by
  have hshort : t.key.length < keyMax := by
    have hs : (requestOf hash t).keyLen < keyMax := hg.short
    exact requestOf_short hs.ne
  have hident : markerId P' id = ⟨t.relationSlot,t.slotGeneration,hash t,t.key⟩ :=
    hg.ident.trans (markerWanted_short hshort)
  have hsame : Held P id → markerId P' id = markerId P id ∧
      (P'.markers id).generation = (P.markers id).generation := by
    intro hl
    rcases hg.writers with ⟨_,hw,he⟩ | ⟨hn,_⟩
    · exact ⟨hg.ident.trans hw.symm,by rw [he]⟩
    · exact absurd hl hn
  have hmem : ∀ x ∈ holds, x.id = id → (P.markers id).generation = x.tag ∧ Held P id :=
    fun x hx he => ⟨he ▸ h.tag x hx,he ▸ h.held x hx⟩
  refine ⟨fun x hx => ?_,fun x hx => ?_,fun x hx => ?_,fun y hy => ?_⟩
  · rcases List.mem_cons.mp hx with rfl | hx
    · exact hg.live
    · by_cases he : x.id = id
      · rw [he]
        exact hg.live
      · exact (beside_held hg.beside x.id he).mpr (h.held x hx)
  · rcases List.mem_cons.mp hx with rfl | hx
    · exact hg.generation
    · by_cases he : x.id = id
      · rw [he, (hsame (hmem x hx he).2).2]
        exact (hmem x hx he).1
      · rw [hg.beside.same x.id he]
        exact h.tag x hx
  · rcases List.mem_cons.mp hx with rfl | hx
    · rw [show (holdOf t id tag).id = id from rfl, hident]
      exact ⟨rfl,rfl,rfl⟩
    · by_cases he : x.id = id
      · have := h.ident x hx
        rw [he] at this ⊢
        rw [(hsame (hmem x hx he).2).1]
        exact this
      · rw [beside_markerId hg.beside x.id he (h.held x hx)]
        exact h.ident x hx
  · rw [List.countP_cons]
    by_cases he : y = id
    · subst he
      have hn : named y (P'.markers y).generation (holdOf t y tag) = true := by
        simp [named, holdOf, hg.generation]
      rw [if_pos hn]
      rcases hg.writers with ⟨hl,_,heq⟩ | ⟨hn,h1,_,_⟩
      · have := h.counted y hl
        rw [heq]
        simp only
        omega
      · rw [h1]
        have hzero : holds.countP (named y (P'.markers y).generation) = 0 := by
          rw [List.countP_eq_zero]
          intro x hx hnm
          simp only [named, Bool.and_eq_true, beq_iff_eq] at hnm
          exact hn (hnm.1 ▸ h.held x hx)
        omega
    · have hl := (beside_held hg.beside y he).mp hy
      have hn : named y (P'.markers y).generation (holdOf t id tag) = false := by
        have hne : ¬id = y := fun h => he h.symm
        simp [named, holdOf, hne]
      rw [hn, hg.beside.same y he]
      simpa using h.counted y hl

theorem countP_eraseP {holds : List Hold} {tag : ℕ} (hex : ∃ x ∈ holds, named id tag x = true)
    (y n : ℕ) : (holds.eraseP (named id tag)).countP (named y n) =
      holds.countP (named y n)-(if y = id ∧ n = tag then 1 else 0) := by
  obtain ⟨x,hx,hn⟩ := hex
  obtain ⟨a,l1,l2,_,hp,hl,he⟩ := List.exists_of_eraseP hx hn
  rw [he, hl]
  simp only [named, Bool.and_eq_true, beq_iff_eq] at hp
  simp only [List.countP_append, List.countP_cons]
  by_cases hy : y = id ∧ n = tag
  · rw [if_pos hy, if_pos (by simp [named, hp, hy])]
    omega
  · rw [if_neg hy, if_neg]
    · omega
    · simp only [named, Bool.and_eq_true, beq_iff_eq]
      intro h
      exact hy ⟨by rw [← h.1, hp.1],by rw [← h.2, hp.2]⟩

theorem ledgered_released {holds : List Hold} (h : Ledgered P holds) (hl : Held P id)
    (hw : 0 < (P.markers id).writerCount) (hrel : Released P P' id) :
    Ledgered P' (holds.eraseP (named id (P.markers id).generation)) := by
  have hcount := h.counted id hl
  have hex : ∃ x ∈ holds, named id (P.markers id).generation x = true := by
    have hpos : 0 < holds.countP (named id (P.markers id).generation) := by omega
    exact List.countP_pos_iff.mp hpos
  have hsub : ∀ x ∈ holds.eraseP (named id (P.markers id).generation), x ∈ holds :=
    fun x hx => List.mem_of_mem_eraseP hx
  have hkept : ∀ x ∈ holds.eraseP (named id (P.markers id).generation), x.id = id →
      1 < (P.markers id).writerCount := by
    intro x hx he
    have hn : named id (P.markers id).generation x = true := by
      have := h.tag x (hsub x hx)
      rw [he] at this
      simp [named, he, this]
    have hpos := List.countP_pos_iff.mpr ⟨x,hx,hn⟩
    rw [countP_eraseP hex, if_pos ⟨rfl,rfl⟩] at hpos
    omega
  have hstay : 1 < (P.markers id).writerCount → Held P' id ∧ markerId P' id = markerId P id ∧
      P'.markers id = { P.markers id with writerCount := (P.markers id).writerCount-1 } := by
    intro h1
    rcases hrel.writers with ⟨_,h2,h3,h4⟩ | ⟨h2,_⟩
    · exact ⟨h2,h3,h4⟩
    · omega
  refine ⟨fun x hx => ?_,fun x hx => ?_,fun x hx => ?_,fun y hy => ?_⟩
  · by_cases he : x.id = id
    · rw [he]
      exact (hstay (hkept x hx he)).1
    · exact (beside_held hrel.beside x.id he).mpr (h.held x (hsub x hx))
  · have htag := h.tag x (hsub x hx)
    by_cases he : x.id = id
    · rw [he] at htag ⊢
      rw [(hstay (hkept x hx he)).2.2]
      exact htag
    · rw [hrel.beside.same x.id he]
      exact htag
  · have hident := h.ident x (hsub x hx)
    by_cases he : x.id = id
    · rw [he] at hident ⊢
      rw [(hstay (hkept x hx he)).2.1]
      exact hident
    · rw [beside_markerId hrel.beside x.id he (h.held x (hsub x hx))]
      exact hident
  · rw [countP_eraseP hex]
    by_cases he : y = id
    · subst he
      rcases hrel.writers with ⟨_,_,_,h4⟩ | ⟨_,h2⟩
      · rw [h4, if_pos ⟨rfl,rfl⟩, ← hcount]
      · exact absurd hy h2
    · rw [if_neg (fun hc => he hc.1), hrel.beside.same y he]
      exact h.counted y ((beside_held hrel.beside y he).mp hy)

theorem ledgered_step {op : PartOp} {res : OpResult} {trace : List Event} (hr : PartRep P)
    (hs : OpStep hash op res P P') (h : Ledgered P (ledger trace)) :
    Ledgered P' (ledger (⟨op,res,P'⟩::trace)) := by
  cases hs.marker with
  | same hres hrel hsame =>
    rw [ledger_same h hres hrel]
    exact ledgered_unchanged h (unchanged_of_same hsame)
  | granted t inc id tag hop hres hg _ =>
    subst hop hres
    exact ledgered_granted h hg
  | released id tag hop hres hl hgen hrel =>
    subst hop hres hgen
    exact ledgered_released h hl (hr.markers.shape id hl).writers.1 hrel

def heldIds (P : Partition) : Finset ℕ :=
  (Finset.Icc 1 P.markerCapacity).filter (fun id => (P.markers id).inUse = true)

theorem mem_heldIds (P : Partition) (id : ℕ) : id ∈ heldIds P ↔ Held P id := by
  simp only [heldIds, Finset.mem_filter, Finset.mem_Icc, Held]
  constructor
  · rintro ⟨⟨h1,h2⟩,h3⟩
    exact ⟨by omega,h2,h3⟩
  · rintro ⟨h1,h2,h3⟩
    exact ⟨⟨by omega,h2⟩,h3⟩

/-- The marker tables agree with each other, with the holders and with the descriptors. -/
structure MarkersConsistent (owner : ℕ → ℕ → ℕ × ℕ) (hash : KeyTuple → ℕ) (P : Partition)
    (holds : List Hold) : Prop where
  freeList : ∃ ids : List ℕ, Chain (fun id => (P.markers id).freeNext) 0 P.markerFreeHead ids ∧
    ids.Nodup ∧ ∀ id, id ∈ ids ↔ id ∈ Finset.Icc 1 P.markerCapacity ∧ id ∉ heldIds P
  slotList : ∃ slots : List ℕ, Chain P.markerKeyFreeNext 0 P.markerKeyFreeHead slots ∧
    slots.Nodup ∧ ∀ slot, slot ∈ slots ↔ slot ∈ Finset.Icc 1 P.markerKeyCapacity ∧
      ∀ id ∈ heldIds P, (P.markers id).keySlot ≠ slot
  slots : ∀ id ∈ heldIds P, (P.markers id).keySlot ∈ Finset.Icc 1 P.markerKeyCapacity
  distinct : ∀ id ∈ heldIds P, ∀ id' ∈ heldIds P,
    (P.markers id).keySlot = (P.markers id').keySlot → id = id'
  count : P.markerCount = (heldIds P).card
  found : ∀ t, OwnedBy owner t → (cacheMarkerFind P (markerRequestOf (requestOf hash t)) ≠ 0 ↔
    ∃ h ∈ holds, h.relationSlot = t.relationSlot ∧ h.slotGeneration = t.slotGeneration ∧
      h.key = t.key)
  stale : ∀ id tag, (∀ h ∈ holds, ¬(h.id = id ∧ h.tag = tag)) →
    releaseCacheMarker id tag P = .ok () P
  exclusive : ∀ id ∈ heldIds P, ∀ x ∈ inUseIds P,
    ¬((P.markers id).relationSlot = (P.entries x).relationSlot ∧
      (P.markers id).relationSlotGeneration = (P.entries x).slotGeneration ∧
      markerKey P id = entryKey P x)

theorem held_holder {holds : List Hold} (hm : MarkerRep P none) (h : Ledgered P holds)
    (hl : Held P id) : ∃ x ∈ holds, x.id = id ∧ x.tag = (P.markers id).generation := by
  have hw := (hm.shape id hl).writers.1
  rw [h.counted id hl] at hw
  obtain ⟨x,hx,hn⟩ := List.countP_pos_iff.mp hw
  simp only [named, Bool.and_eq_true, beq_iff_eq] at hn
  exact ⟨x,hx,hn⟩

theorem found_iff {holds : List Hold} (hr : PartRep P) (he : Exclusion owner hash P)
    (h : Ledgered P holds) (ht : OwnedBy owner t) :
    cacheMarkerFind P (markerRequestOf (requestOf hash t)) ≠ 0 ↔
    ∃ x ∈ holds, x.relationSlot = t.relationSlot ∧ x.slotGeneration = t.slotGeneration ∧
      x.key = t.key := by
  have hq := requestOf_ok hash t
  constructor
  · intro hfind
    rcases cacheMarkerFind_cases hr.markers (markerRequestOf (requestOf hash t)) hq.len hq.max with
      ⟨id,_,hl,hid⟩ | ⟨hz,_⟩
    · obtain ⟨t',_,hk',hid'⟩ := he.markers id hl
      obtain ⟨x,hx,rfl,_⟩ := held_holder hr.markers h hl
      obtain ⟨h1,h2,h3⟩ := h.ident x hx
      rw [markerWanted_short hk'] at hid'
      have hkey : t.key.take (min t.key.length keyMax) = t'.key :=
        congrArg MarkerId.key (hid.symm.trans hid')
      have hfull : t.key.take (min t.key.length keyMax) = t.key := by
        have hlen := congrArg List.length hkey
        rw [List.length_take] at hlen
        exact List.take_of_length_le (by omega)
      rw [hid] at h1 h2 h3
      exact ⟨x,hx,h1.symm,h2.symm,h3.symm.trans hfull⟩
    · exact absurd hz hfind
  · rintro ⟨x,hx,h1,h2,h3⟩ hzero
    have hl := h.held x hx
    obtain ⟨t',ht',hk',hid'⟩ := he.markers x.id hl
    obtain ⟨g1,g2,g3⟩ := h.ident x hx
    rw [hid', markerWanted_short hk'] at g1 g2 g3
    have hsame : t' = t := owned_eq ht' ht (g1.trans h1) (g2.trans h2) (g3.trans h3)
    subst hsame
    exact marker_absent hr hzero x.id hl hid'

theorem exclusive_of {id x : ℕ} (he : Exclusion owner hash P) (hl : Held P id) (hx : Live P x) :
    ¬((P.markers id).relationSlot = (P.entries x).relationSlot ∧
      (P.markers id).relationSlotGeneration = (P.entries x).slotGeneration ∧
      markerKey P id = entryKey P x) := by
  rintro ⟨h1,h2,h3⟩
  obtain ⟨t,ht,hk,hid⟩ := he.entries x hx
  obtain ⟨t',ht',hk',hid'⟩ := he.markers id hl
  have hid1 := hid
  have hid2 := hid'
  rw [requestId_short hk, entryId, KeyId.mk.injEq] at hid1
  rw [markerWanted_short hk', markerId, MarkerId.mk.injEq] at hid2
  have hsame : t' = t := owned_eq ht' ht (hid2.1.symm.trans (h1.trans hid1.2.2.1))
    (hid2.2.1.symm.trans (h2.trans hid1.2.2.2.1))
    (hid2.2.2.2.symm.trans (h3.trans hid1.2.2.2.2.2))
  subst hsame
  exact he.apart t' ht' hk' id x hl hx hid hid'

theorem stale_release {holds : List Hold} {tag : ℕ} (hm : MarkerRep P none) (h : Ledgered P holds)
    (hn : ∀ x ∈ holds, ¬(x.id = id ∧ x.tag = tag)) : releaseCacheMarker id tag P = .ok () P := by
  have hspec : Ensures (releaseCacheMarker id tag) P (fun _ P' => P' = P) Never := by
    refine ensures_imp (releaseCacheMarker_spec tag hm) ?_
    rintro _ P' (⟨rfl,_⟩ | ⟨hl,hgen,_⟩)
    · rfl
    · obtain ⟨x,hx,h1,h2⟩ := held_holder hm h hl
      exact absurd ⟨h1,h2.trans hgen⟩ (hn x hx)
  cases hx : releaseCacheMarker id tag P with
  | ok a P' => rw [ensures_ok hspec a P' hx]
  | error e P' => exact (ensures_error hspec e P' hx).elim

theorem markersConsistent_of {holds : List Hold} (hr : PartRep P) (he : Exclusion owner hash P)
    (h : Ledgered P holds) : MarkersConsistent owner hash P holds := by
  have hm := hr.markers
  have hmem := mem_heldIds P
  refine ⟨?_,?_,fun id hid => ?_,fun id hid id' hid' hs => ?_,?_,fun t ht => found_iff hr he h ht,
    fun id tag hn => stale_release hm h hn,fun id hid x hx => ?_⟩
  · obtain ⟨ids,h1,h2,h3⟩ := hm.free
    refine ⟨ids,h1,h2,fun id => ?_⟩
    rw [h3, hmem, Spare, Held, Finset.mem_Icc]
    constructor
    · rintro ⟨g1,g2,g3⟩
      exact ⟨⟨by omega,g2⟩,fun hl => by simp [g3] at hl⟩
    · rintro ⟨⟨g1,g2⟩,g3⟩
      refine ⟨by omega,g2,?_⟩
      by_contra hu
      exact g3 ⟨by omega,g2,by simpa using hu⟩
  · obtain ⟨slots,h1,h2,h3⟩ := hm.slots
    refine ⟨slots,h1,h2,fun slot => ?_⟩
    simp only [h3, hmem, FreeSlot, Finset.mem_Icc]
    constructor
    · rintro ⟨g1,g2,g3⟩
      exact ⟨⟨by omega,g2⟩,g3⟩
    · rintro ⟨⟨g1,g2⟩,g3⟩
      exact ⟨by omega,g2,g3⟩
  · have hs := (hm.shape id ((hmem id).mp hid)).slot
    rw [Finset.mem_Icc]
    omega
  · exact hm.apart id id' ((hmem id).mp hid) ((hmem id').mp hid') hs
  · have hc := hm.count
    rw [if_pos rfl, tally_card (fun id => (P.markers id).inUse)] at hc
    exact hc
  · exact exclusive_of he ((hmem id).mp hid) ((mem_inUseIds P x).mp hx)

section Runs

variable (cfg : Settings) (size : PartitionSize) (memory keyMemory : Memory)

/-- After every run the marker tables are consistent and the markers in use are exactly
those that somebody holds. -/
theorem run_markersConsistent (hash : KeyTuple → ℕ) (owner : ℕ → ℕ → ℕ × ℕ) (trace : List Event)
    (h : Run cfg hash (partitionInit size memory keyMemory) trace)
    (hown : TraceOwned owner trace) :
    MarkersConsistent owner hash (finalState (partitionInit size memory keyMemory) trace)
      (ledger trace) := by
  have hinit := partitionInit_rep size memory keyMemory
  have hboth : Exclusion owner hash (finalState (partitionInit size memory keyMemory) trace) ∧
      Ledgered (finalState (partitionInit size memory keyMemory) trace) (ledger trace) := by
    induction h with
    | nil =>
      have hlive : ∀ x, ¬Live (partitionInit size memory keyMemory) x := fun x hl => by
        simpa [partitionInit, blankEntry] using hl.2.2
      have hheld : ∀ x, ¬Held (partitionInit size memory keyMemory) x := fun x hl => by
        simpa [partitionInit, blankMarker] using hl.2.2
      exact ⟨⟨fun x hx => absurd hx (hlive x),fun x hx => absurd hx (hheld x),
        fun _ _ _ id _ hl => absurd hl (hheld id)⟩,
        ⟨by simp [ledger],by simp [ledger],by simp [ledger],fun x hx => absurd hx (hheld x)⟩⟩
    | step op result P' hrun hop ih =>
      have hprev := ih (fun e he => hown e (List.mem_cons_of_mem _ he))
      have hr := run_rep cfg hinit hrun
      have hs := run_step cfg hinit hrun op result P' hop
      exact ⟨exclusion_step hr hs (hown _ (List.mem_cons_self ..)) hprev.1,
        ledgered_step hr hs hprev.2⟩
  exact markersConsistent_of (run_rep cfg hinit h) hboth.1 hboth.2

end Runs

def reservedEvent : Event := nextEvent smallSettings (fun _ => 0) smallInit (.reserve smallTuple 1)

def refusedEvent : Event := nextEvent smallSettings (fun _ => 0) reservedEvent.after calmLookup

theorem small_run_markersConsistent : Run smallSettings (fun _ => 0) smallInit
      [refusedEvent,reservedEvent] ∧ TraceOwned (fun _ _ => (1,1)) [refusedEvent,reservedEvent] ∧
    MarkersConsistent (fun _ _ => (1,1)) (fun _ => 0)
      (finalState smallInit [refusedEvent,reservedEvent])
      (ledger [refusedEvent,reservedEvent]) := by
  have h1 : Run smallSettings (fun _ => 0) smallInit [reservedEvent] :=
    run_next .nil (.reserve smallTuple 1) (by decide +kernel)
  have h2 : Run smallSettings (fun _ => 0) smallInit [refusedEvent,reservedEvent] :=
    run_next h1 calmLookup (by decide +kernel)
  have hown : TraceOwned (fun _ _ => (1,1)) [refusedEvent,reservedEvent] := by
    intro e he t ht
    simp only [List.mem_cons, List.not_mem_nil, or_false] at he
    rcases he with rfl | rfl <;> cases ht <;> rfl
  exact ⟨h2,hown,run_markersConsistent smallSettings smallSize (fun _ => 0) (fun _ => 0)
    (fun _ => 0) _ _ h2 hown⟩

/-- A marker and a descriptor are in use for the same slot, generation and key. -/
def Coexist (P : Partition) : Prop := ∃ id ∈ heldIds P, ∃ x ∈ inUseIds P,
  (P.markers id).relationSlot = (P.entries x).relationSlot ∧
  (P.markers id).relationSlotGeneration = (P.entries x).slotGeneration ∧
  markerKey P id = entryKey P x

instance (P : Partition) : Decidable (Coexist P) :=
  inferInstanceAs (Decidable (∃ id ∈ heldIds P, ∃ x ∈ inUseIds P, _ ∧ _ ∧ _))

/-- A key whose bytes a freed block holds already: the overflow is raised before the key is
copied. -/
def zeroTuple : KeyTuple := ⟨1,1,0,1,[0]⟩

def zeroLookup : PartOp := .lookup smallMapping zeroTuple 100 true
  ⟨fun _ => calmEvict,calmEvict,fun _ => calmEvict,fun _ => true⟩ ⟨calmFence,calmSlot,calmFence,1⟩

def overflowed : Partition := resultState (runOp smallSettings (fun _ => 0) zeroLookup wornOut)

/-- The descriptor that an overflowing creation leaves in use is not indexed, so a writer of
its key is granted a marker; so is a writer that names the slot with another relation than the
descriptor has. -/
theorem marker_beside_entry :
    (∃ trace P' result P'', Run smallSettings (fun _ => 0) smallInit trace ∧
      runOp smallSettings (fun _ => 0) zeroLookup (finalState smallInit trace) =
        .error .keyGenerationOverflow P' ∧
      runOp smallSettings (fun _ => 0) (.reserve zeroTuple 1) P' = .ok result P'' ∧
      Coexist P'') ∧
    ∃ trace, Run smallSettings (fun _ => 0) smallInit trace ∧
      Coexist (finalState smallInit trace) := by
  constructor
  · obtain ⟨trace,hrun,hfinal⟩ : ∃ trace, Run smallSettings (fun _ => 0) smallInit trace ∧
        finalState smallInit trace = wornOut := spent_next (.remove 1) .done (by decide +kernel)
    refine ⟨trace,overflowed,.reserved (.marker 1 1),
      resultState (runOp smallSettings (fun _ => 0) (.reserve zeroTuple 1) overflowed),
      hrun,?_,ok_of_result (by decide +kernel),by decide +kernel⟩
    rw [hfinal]
    apply error_of_fault
    decide +kernel
  · have h1 : Run smallSettings (fun _ => 0) smallInit [createdEvent] :=
      run_next .nil calmLookup (by decide +kernel)
    exact ⟨_,run_next h1 (.reserve ⟨1,2,0,1,[65]⟩ 1) (by decide +kernel),by decide +kernel⟩

end PgLocalCache.MarkerExclusion
