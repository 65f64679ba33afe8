import PgLocalCache.PartitionModel
import PgLocalCache.EntryReads
import PgLocalCache.MarkerReserve

/-!
# The invariant of a partition holds in every run

The initial tables satisfy the representation invariants of descriptors and
markers, and every operation keeps them. What an operation may do to a
descriptor is said once, in `EntryStep`.
-/

namespace PgLocalCache.PartitionInvariant

open ByteMemory FreeChain CacheIndex IndexInvariant CacheArena ArenaPage ArenaInvariant
open CacheState CacheEntries CacheMarkers CacheAdmission CacheOperations PartitionModel Outcome
open EntryInvariant EntryRemoval EntryEviction EntryInstall EntryAdmission EntryStore EntrySections
open EntryRewrite EntryReads MarkerInvariant MarkerTable MarkerReserve

structure PartRep (P : Partition) : Prop where
  entries : EntryRep P none none
  markers : MarkerRep P none

theorem nextPowerOfTwo_pow (requested n k : ℕ) :
    ∃ j, nextPowerOfTwo requested n (2^k) = 2^j := by
  induction n generalizing k with
  | zero => exact ⟨k,rfl⟩
  | succ n ih =>
    unfold nextPowerOfTwo
    split
    · rw [← Nat.pow_succ]
      exact ih (k+1)
    · exact ⟨k,rfl⟩

theorem indexInit_valid (capacity : ℕ) :
    dimensionsValid (indexInit (indexBucketsFor capacity)) = true := by
  obtain ⟨j,hj⟩ := nextPowerOfTwo_pow (max 16 (capacity*2)) 32 0
  have hpos : 0 < 2^j := Nat.pos_of_ne_zero (by positivity)
  have hb : indexBucketsFor capacity = 2^j := hj
  have hand : 2^j &&& (2^j-1) = 0 := by
    rw [Nat.and_two_pow_sub_one_eq_mod, Nat.mod_self]
  simp only [dimensionsValid, indexValid, indexInit, hb, hand, beq_self_eq_true, Bool.and_true,
    bne_iff_ne]
  omega

theorem indexed_init (capacity : ℕ) (live : ℕ → Prop) (hf : ℕ → ℕ) (h : ∀ id, ¬live id) :
    Indexed (indexInit (indexBucketsFor capacity)) live hf :=
  indexed_congr (indexed_blank (indexInit (indexBucketsFor capacity)) hf (indexInit_valid capacity))
    (fun id => by simp [h id]) (fun _ _ => rfl)

theorem lists_init (capacity : ℕ) (free : ℕ → Prop) (hf : ∀ x, free x ↔ x ≠ 0 ∧ x ≤ capacity) :
    Lists (freeNextInit capacity) 0 (freeHeadInit capacity) free := by
  have henum := lists_enum (freeNextInit capacity) 0 capacity (fun i => i+1) (by simp)
    (fun i _ j _ h => by omega) (fun i hi => rfl)
  have hhead : (if capacity = 0 then 0 else 0+1) = freeHeadInit capacity := by
    unfold freeHeadInit
    split <;> split <;> omega
  rw [hhead] at henum
  refine lists_congr henum (fun x => ?_) (fun _ _ => rfl)
  rw [hf]
  constructor
  · rintro ⟨h1,h2⟩
    exact ⟨x-1,by omega,by omega⟩
  · rintro ⟨i,h1,h2⟩
    omega

theorem blankArena_sound (memory : Memory) (pages : ℕ) (hp : pages ≤ 65535) :
    Sound (blankArena memory pages) (fun _ => none) := by
  have hpage : ∀ p, (blankArena memory pages).pages p = blankPage := fun _ => rfl
  refine ⟨⟨hp,Nat.zero_le _,fun p h => absurd h (Nat.not_lt_zero p),fun p _ =>
    pageOk_blank rfl rfl rfl rfl,fun ref => ?_,by simp,?_,?_,?_,?_⟩,fun p _ h => absurd rfl h⟩
  · simp [LiveIn, hpage, blankPage]
  · simp [blankArena, total]
  · simp [blankArena, total, slackOf]
  · simp [blankArena, total, blankPage]
  · simp [blankArena, total, blankPage]

theorem partitionInit_rep (size : PartitionSize) (memory keyMemory : Memory) :
    PartRep (partitionInit size memory keyMemory) := by
  have hpages : size.pages ≤ 65535 := size.pages_le
  have hcap := size.capacity_le
  have hmcap := size.markerCapacity_le
  have hlive : ∀ id, ¬Live (partitionInit size memory keyMemory) id := fun id h => by
    have := h.2.2
    simp [partitionInit, blankEntry] at this
  have hheld : ∀ id, ¬Held (partitionInit size memory keyMemory) id := fun id h => by
    have := h.2.2
    simp [partitionInit, blankMarker] at this
  refine ⟨⟨?_,rfl,indexed_init _ _ _ (fun id h => hlive id h.1),lists_init _ _ (fun x => ?_),?_,
    ⟨fun _ => none,blankArena_sound memory size.pages hpages,?_⟩,fun id h => absurd h (hlive id),
    fun id _ h => absurd h (hlive id),fun id h => absurd h (hlive id)⟩,
    ⟨?_,rfl,indexed_init _ _ _ (fun id h => hheld id h.1),lists_init _ _ (fun x => ?_),
      lists_init _ _ (fun x => ?_),?_,fun id h => absurd h (hheld id),
      fun id _ h => absurd h (hheld id),fun id _ h => absurd h (hheld id)⟩⟩
  · exact le_trans hcap (by norm_num)
  · simp [Vacant, partitionInit, blankEntry]
  · exact (tally_none _ _ (fun i _ => rfl)).symm
  · exact ⟨fun id h => absurd h (hlive id),by simp,by simp,fun id _ h => absurd h (hlive id)⟩
  · exact le_trans hmcap (by norm_num)
  · simp [Spare, partitionInit, blankMarker]
  · simp only [FreeSlot]
    constructor
    · exact fun h => ⟨h.1,h.2.1⟩
    · exact fun h => ⟨h.1,h.2,fun id hid => absurd hid (hheld id)⟩
  · exact (tally_none _ _ (fun i _ => rfl)).symm

theorem requestOf_ok (hash : KeyTuple → ℕ) (t : KeyTuple) : RequestOk (requestOf hash t) :=
  ⟨Nat.min_le_left _ _,Nat.min_le_right _ _⟩

theorem requestOf_short {hash : KeyTuple → ℕ} {t : KeyTuple}
    (h : (requestOf hash t).keyLen ≠ keyMax) : t.key.length < keyMax := by
  simp only [requestOf] at h
  omega

/-- What an operation may do to the descriptors it does not work on. -/
structure EntryFrame (P P' : Partition) (id : ℕ) : Prop where
  generation : P.entryGeneration ≤ P'.entryGeneration
  survive : ∀ x, x ≠ id → Live P' x → Survives P P' x

/-- No value was stored and no lease was granted. -/
def Quiet (res : OpResult) : Prop := res ≠ .stored true ∧ ∀ n, res ≠ .claimed .owner n

/-- What an operation may do to the descriptor it works on. -/
inductive TargetMove (hash : KeyTuple → ℕ) (op : PartOp) (res : OpResult) (P P' : Partition)
    (id : ℕ) : Prop
  | gone : Quiet res → ¬Live P' id → TargetMove hash op res P P' id
  | lapse : Quiet res → Live P id → Lapse P P' id → TargetMove hash op res P P' id
  | created (m : Mapping) (t : KeyTuple) (valueCapacity : ℕ) (create : Bool) (env : AdmissionEnv)
      (reads : LookupReads) : op = .lookup m t valueCapacity create env reads → Quiet res →
      t.key.length < keyMax → Created P P' (requestOf hash t) id →
      cacheMarkerFind P (markerRequestOf (requestOf hash t)) = 0 → TargetMove hash op res P P' id
  | leased (m : Mapping) (t : KeyTuple) (token : ReadToken) (reads : ClaimReads) (loadId : ℕ) :
      op = .claim m t token reads → res = .claimed .owner loadId →
      t.key.length < keyMax → Live P id →
      entryId P id = requestId (requestOf hash t) → Leased P P' id token loadId →
      TargetMove hash op res P P' id
  | filled (m : Mapping) (t : KeyTuple) (args : StoreArgs) (configGeneration : ℕ)
      (reads : StoreReads) :
      op = .store m t args configGeneration reads → res = .stored true →
      t.key.length < keyMax → Live P id →
      entryId P id = requestId (requestOf hash t) →
      ownsLease (P.entries id) args.token args.loadId = true → Filled P P' id args →
      TargetMove hash op res P P' id

def markerRequest (hash : KeyTuple → ℕ) (t : KeyTuple) (relationIncarnation : ℕ) : MarkerRequest :=
  { markerRequestOf (requestOf hash t) with relationIncarnation := relationIncarnation }

/-- What an operation may do to the markers. -/
inductive MarkerMove (hash : KeyTuple → ℕ) (op : PartOp) (res : OpResult) (P P' : Partition) : Prop
  | same : (∀ id tag, res ≠ .reserved (.marker id tag)) →
      (∀ id tag, op = .releaseMarker id tag →
        ¬(Held P id ∧ (P.markers id).generation = tag)) →
      (∃ id, MarkersBeside P P' id ∧ ¬Held P id ∧ ¬Held P' id) ∨ SameMarkers P P' →
      MarkerMove hash op res P P'
  | granted (t : KeyTuple) (relationIncarnation id tag : ℕ) :
      op = .reserve t relationIncarnation → res = .reserved (.marker id tag) →
      Granted P P' (markerRequest hash t relationIncarnation) id tag →
      (∀ x, Live P x → entryId P x ≠ requestId (requestOf hash t)) →
      MarkerMove hash op res P P'
  | released (id tag : ℕ) : op = .releaseMarker id tag → res = .done → Held P id →
      (P.markers id).generation = tag → Released P P' id → MarkerMove hash op res P P'

/-- What one operation of a run does. -/
structure OpStep (hash : KeyTuple → ℕ) (op : PartOp) (res : OpResult) (P P' : Partition) :
    Prop where
  rep : PartRep P'
  entry : ∃ id, EntryFrame P P' id ∧ TargetMove hash op res P P' id
  marker : MarkerMove hash op res P P'

variable {P P' : Partition} {hash : KeyTuple → ℕ} {op : PartOp} {res : OpResult} {id : ℕ}

theorem frame_of_change (h : Change P P' id) : EntryFrame P P' id := ⟨h.generation,h.survive⟩

theorem frame_of_same (h : SameEntries P P') : EntryFrame P P' 0 := by
  refine ⟨le_of_eq h.generation.symm,fun x _ hl => ⟨?_,Or.inl (by rw [h.entries]),fun i _ => ?_⟩⟩
  · rwa [Live, h.entries, h.capacity] at hl
  · rw [h.arena]

theorem not_live_zero (P : Partition) : ¬Live P 0 := fun h => h.1 rfl

def markerOp : PartOp → Bool
  | .reserve _ _ => true
  | .releaseMarker _ _ => true
  | .rebuildMarkers => true
  | _ => false

theorem step_sameMarkers (hm : MarkerRep P none) (hop : markerOp op = false)
    (hres : ∀ x, res ≠ .reserved x) (hr : EntryRep P' none none) (hs : SameMarkers P P')
    (hframe : EntryFrame P P' id) (htarget : TargetMove hash op res P P' id) :
    OpStep hash op res P P' := by
  refine ⟨⟨hr,markerRep_congr hm hs⟩,⟨id,hframe,htarget⟩,.same (fun x tag => hres _)
    (fun x tag he => ?_) (Or.inr hs)⟩
  rw [he] at hop
  simp [markerOp] at hop

theorem step_refl (h : PartRep P) (hop : markerOp op = false) (hq : Quiet res)
    (hres : ∀ x, res ≠ .reserved x) : OpStep hash op res P P :=
  step_sameMarkers h.markers hop hres h.entries (sameMarkers_refl P)
    (frame_of_change (change_refl P 0)) (.gone hq (not_live_zero P))

theorem step_touched (h : PartRep P) (hop : markerOp op = false) (hq : Quiet res)
    (hres : ∀ x, res ≠ .reserved x) (ht : Touched P P' id) : OpStep hash op res P P' :=
  step_sameMarkers h.markers hop hres ht.rep ht.besides.markers
    (frame_of_change (change_of_besides ht.besides)) (.lapse hq ht.live ht.lapse)

theorem step_trimmed (h : PartRep P) (hop : markerOp op = false) (hq : Quiet res)
    (hres : ∀ x, res ≠ .reserved x) {excluded : ℕ} (hr : EntryRep P' none none)
    (ht : Trimmed P P' excluded) : OpStep hash op res P P' :=
  step_sameMarkers h.markers hop hres hr ht.markers (frame_of_change (change_of_trimmed ht 0))
    (.gone hq (not_live_zero P'))

def reservedRecord (e : CacheEntry) (version : ℕ) : CacheEntry :=
  { retiredRecord e version with dirtyWriters := e.dirtyWriters+1 }

theorem reserveKey_spec (r : EntryRequest) (relationIncarnation : ℕ) (h : PartRep P)
    (hq : RequestOk r) :
    Ensures (reserveKey r relationIncarnation) P (fun res P' => match res with
      | .refused => P' = P ∨ Refused P P'
      | .entry => ∃ id, entryId P id = requestId r ∧ Touched P P' id ∧
        P' = bumpedState P id (reservedRecord (P.entries id) (P.entryGeneration+1))
      | .marker id tag => Granted P P'
          { markerRequestOf r with relationIncarnation := relationIncarnation } id tag ∧
        ∀ x, Live P x → entryId P x ≠ requestId r) Exhausted := by
  have hr := h.entries
  unfold reserveKey
  simp only [ensures_bind, ensures_get]
  cases hfind : getCacheEntryWithCachedHash P r with
  | none =>
    have hnone : ∀ x, Live P x → entryId P x ≠ requestId r := by
      rcases lookupEntry_cases hr r hq with ⟨x,h1,_⟩ | ⟨_,h2⟩
      · simp [getCacheEntryWithCachedHash, h1] at hfind
      · exact h2
    simp only [ensures_bind]
    refine ensures_mono (reserveCacheMarker_spec _ h.markers hq.len) ?_ (fun _ _ hf => hf.elim)
    rintro (_ | ⟨id,tag⟩) P' hres
    · exact Or.inr hres
    · exact ⟨hres,hnone⟩
  | some id =>
    obtain ⟨hl,hid⟩ := getCached_some hr r hq id hfind
    simp only
    split
    · exact Or.inl rfl
    · refine ensures_seq (retireEntry_spec P id) ?_
      rintro _ P1 rfl
      rw [ensures_bind, ensures_modify, ensures_pure]
      have hstate : setEntry (bumpedState P id (retiredRecord (P.entries id) (P.entryGeneration+1)))
          id { (bumpedState P id (retiredRecord (P.entries id)
            (P.entryGeneration+1))).entries id with
            dirtyWriters := ((bumpedState P id (retiredRecord (P.entries id)
              (P.entryGeneration+1))).entries id).dirtyWriters+1 } =
          bumpedState P id (reservedRecord (P.entries id) (P.entryGeneration+1)) := by
        simp [setEntry, bumpedState, reservedRecord, retiredRecord]
      rw [hstate]
      exact ⟨id,hid,touched_bumped hr hl _ (fresh_version_lapse _ _ _ (by constructor <;> rfl) rfl
        rfl (Nat.lt_succ_self _) (hr.versions id hl)) (le_refl _),rfl⟩

theorem lookup_step (cfg : Settings) (m : Mapping) (t : KeyTuple) (valueCapacity : ℕ)
    (create : Bool) (env : AdmissionEnv) (reads : LookupReads) (h : PartRep P) :
    Ensures (runOp cfg hash (.lookup m t valueCapacity create env reads)) P
      (fun res P' => OpStep hash (.lookup m t valueCapacity create env reads) res P P')
      Exhausted := by
  unfold runOp
  refine ensures_seq (lookupLocked_spec cfg m (requestOf hash t) reads valueCapacity create env
    h.entries (requestOf_ok hash t)) ?_
  rintro res P' ⟨hstate,_,_⟩
  have hq : Quiet (.looked res) := by simp [Quiet]
  rw [ensures_pure]
  rcases hstate with rfl | ⟨id,_,ht,_⟩ | ⟨made,hadm,hmark⟩
  · exact step_refl h rfl hq (by simp)
  · exact step_touched h rfl hq (by simp) ht
  · obtain ⟨hr,hmade⟩ := hadm
    cases made with
    | none => exact step_trimmed h rfl hq (by simp) hr hmade
    | some id =>
      exact step_sameMarkers h.markers rfl (by simp) hr hmade.change.markers
        (frame_of_change hmade.change) (.created m t valueCapacity create env reads rfl hq
          (requestOf_short (hmark (by simp)).1) hmade (hmark (by simp)).2)

theorem claim_step (cfg : Settings) (m : Mapping) (t : KeyTuple) (token : ReadToken)
    (reads : ClaimReads) (h : PartRep P) :
    Ensures (runOp cfg hash (.claim m t token reads)) P
      (fun res P' => OpStep hash (.claim m t token reads) res P P') Exhausted := by
  unfold runOp
  refine ensures_seq (claimLoad_spec cfg m token reads (requestOf hash t) h.entries
    (requestOf_ok hash t)) ?_
  rintro ⟨claim,loadId⟩ P' hcase
  rw [ensures_pure]
  rcases hcase with ⟨hne,rfl⟩ | ⟨id,hshort,hl,hid,_,_,_,_,hdone⟩
  · exact step_refl h rfl ⟨by simp,fun n he => hne (by simpa using (OpResult.claimed.inj he).1)⟩
      (by simp)
  · have hframe := frame_of_change (change_of_besides hdone.besides)
    by_cases hown : claim = .owner
    · subst hown
      exact step_sameMarkers h.markers rfl (by simp) hdone.rep hdone.besides.markers hframe
        (.leased m t token reads loadId rfl rfl (requestOf_short hshort) hl hid (hdone.owner rfl).1)
    · have hq : Quiet (.claimed claim loadId) :=
        ⟨by simp,fun n he => hown (OpResult.claimed.inj he).1⟩
      exact step_sameMarkers h.markers rfl (by simp) hdone.rep hdone.besides.markers hframe
        (.lapse hq hl (hdone.other hown))

theorem storeAllowed_ok (m : Mapping) (args : StoreArgs) (configGeneration : ℕ)
    (h : storeAllowed m args configGeneration = true) : ArgsOk args := by
  simp only [storeAllowed, Bool.and_eq_true, decide_eq_true_eq] at h
  exact ⟨h.1.1.2⟩

theorem store_step (cfg : Settings) (m : Mapping) (t : KeyTuple) (args : StoreArgs)
    (configGeneration : ℕ) (reads : StoreReads) (h : PartRep P) :
    Ensures (runOp cfg hash (.store m t args configGeneration reads)) P
      (fun res P' => OpStep hash (.store m t args configGeneration reads) res P P')
      Exhausted := by
  have hquiet : Quiet (.stored false) := by simp [Quiet]
  unfold runOp
  simp only [ensures_bind, cacheStore]
  split
  · rename_i hallowed
    refine ensures_imp (cacheStoreLocked_spec cfg m args reads (requestOf hash t) h.entries
      (requestOf_ok hash t) (storeAllowed_ok m args configGeneration hallowed)) ?_
    rintro ok P' (⟨rfl,rfl⟩ | ⟨id,hshort,hl,hid,hown,_,_,_,hdone,_⟩)
    · exact step_refl h rfl hquiet (by simp)
    · have hframe := frame_of_change hdone.change
      cases ok with
      | true =>
        exact step_sameMarkers h.markers rfl (by simp) hdone.rep hdone.change.markers hframe
          (.filled m t args configGeneration reads rfl rfl (requestOf_short hshort) hl hid hown
            (hdone.filled rfl))
      | false =>
        exact step_sameMarkers h.markers rfl (by simp) hdone.rep hdone.change.markers hframe
          (.lapse hquiet hl (hdone.lapsed rfl))
  · exact step_refl h rfl hquiet (by simp)

theorem step_refused (h : PartRep P) (hq : Quiet res)
    (hres : ∀ id tag, res ≠ .reserved (.marker id tag))
    (hop : ∀ id tag, op ≠ .releaseMarker id tag) (hr : Refused P P') :
    OpStep hash op res P P' := by
  obtain ⟨hm,id,hb,h1,h2⟩ := hr
  exact ⟨⟨entryRep_sameEntries h.entries hb.entries,hm⟩,
    ⟨0,frame_of_same hb.entries,.gone hq (not_live_zero P')⟩,
    .same hres (fun id tag he => absurd he (hop id tag)) (Or.inl ⟨id,hb,h1,h2⟩)⟩

theorem reserve_step (cfg : Settings) (t : KeyTuple) (relationIncarnation : ℕ) (h : PartRep P) :
    Ensures (runOp cfg hash (.reserve t relationIncarnation)) P
      (fun res P' => OpStep hash (.reserve t relationIncarnation) res P P') Exhausted := by
  unfold runOp
  refine ensures_seq (reserveKey_spec (requestOf hash t) relationIncarnation h
    (requestOf_ok hash t)) ?_
  rintro (_ | _ | ⟨id,tag⟩) P' hcase
  · refine step_refused h (by simp [Quiet]) (by simp) (by simp) ?_
    rcases hcase with rfl | hcase
    · exact refused_refl h.markers
    · exact hcase
  · obtain ⟨id,_,ht,_⟩ := hcase
    exact ⟨⟨ht.rep,markerRep_congr h.markers ht.besides.markers⟩,
      ⟨id,frame_of_change (change_of_besides ht.besides),
        .lapse (by simp [Quiet]) ht.live ht.lapse⟩,
      .same (by simp) (by simp) (Or.inr ht.besides.markers)⟩
  · obtain ⟨hg,hnone⟩ := hcase
    exact ⟨⟨entryRep_sameEntries h.entries hg.beside.entries,hg.rep⟩,
      ⟨0,frame_of_same hg.beside.entries,.gone (by simp [Quiet]) (not_live_zero P')⟩,
      .granted t relationIncarnation id tag rfl rfl hg hnone⟩

theorem releaseMarker_step (cfg : Settings) (tag : ℕ) (h : PartRep P) :
    Ensures (runOp cfg hash (.releaseMarker id tag)) P
      (fun res P' => OpStep hash (.releaseMarker id tag) res P P') Exhausted := by
  unfold runOp
  rw [ensures_bind]
  refine ensures_mono (releaseCacheMarker_spec tag h.markers) ?_ (fun _ _ hf => hf.elim)
  rintro _ P' (⟨rfl,hn⟩ | ⟨hl,hgen,hrel⟩)
  · refine ⟨h,⟨0,frame_of_same (sameEntries_refl P'),.gone (by simp [Quiet]) (not_live_zero P')⟩,
      .same (by simp) (fun x tag' he => ?_) (Or.inr (sameMarkers_refl P'))⟩
    cases he
    exact hn
  · exact ⟨⟨entryRep_sameEntries h.entries hrel.beside.entries,hrel.rep⟩,
      ⟨0,frame_of_same hrel.beside.entries,.gone (by simp [Quiet]) (not_live_zero P')⟩,
      .released id tag rfl rfl hl hgen hrel⟩

/-- Every operation keeps the invariant, and raises only when the generations are used up. -/
theorem runOp_spec (cfg : Settings) (op : PartOp) (h : PartRep P) :
    Ensures (runOp cfg hash op) P (fun res P' => OpStep hash op res P P') Exhausted := by
  have hr := h.entries
  have hdone : Quiet .done := by simp [Quiet]
  cases op with
  | lookup m t valueCapacity create env reads =>
    exact lookup_step cfg m t valueCapacity create env reads h
  | claim m t token reads => exact claim_step cfg m t token reads h
  | store m t args configGeneration reads => exact store_step cfg m t args configGeneration reads h
  | reserve t relationIncarnation => exact reserve_step cfg t relationIncarnation h
  | releaseMarker id tag => exact releaseMarker_step cfg tag h
  | release m t token loadId =>
    refine ensures_seq (releaseLoad_spec m (requestOf hash t) token loadId hr
      (requestOf_ok hash t)) ?_
    rintro _ P' (rfl | ⟨id,_,ht,_,_⟩)
    · exact step_refl h rfl hdone (by simp)
    · exact step_touched h rfl hdone (by simp) ht
  | invalidateKey t current =>
    refine ensures_seq (invalidateKey_spec cfg (requestOf hash t) current hr
      (requestOf_ok hash t)) ?_
    rintro _ P' (⟨rfl,_⟩ | ⟨id,_,ht,_⟩)
    · exact step_refl h rfl hdone (by simp)
    · exact step_touched h rfl hdone (by simp) ht
  | retireMalformed m t corrupt fence current =>
    refine ensures_seq (retireMalformed_spec cfg m (requestOf hash t) corrupt fence current hr) ?_
    rintro _ P' (rfl | ⟨ht,_⟩)
    · exact step_refl h rfl hdone (by simp)
    · exact step_touched h rfl hdone (by simp) ht
  | publish t =>
    refine ensures_seq (publishKey_spec (requestOf hash t) hr (requestOf_ok hash t)) ?_
    rintro _ P' (⟨rfl,_⟩ | ⟨id,_,ht,_⟩)
    · exact step_refl h rfl hdone (by simp)
    · exact step_touched h rfl hdone (by simp) ht
  | finish t =>
    refine ensures_seq (finishKey_spec (requestOf hash t) hr (requestOf_ok hash t)) ?_
    rintro _ P' (⟨rfl,_⟩ | ⟨id,_,ht,_,_⟩)
    · exact step_refl h rfl hdone (by simp)
    · exact step_touched h rfl hdone (by simp) ht
  | evict required excluded env =>
    refine ensures_seq (evict_spec cfg required env hr) ?_
    rintro _ P' ⟨h1,h2,_⟩
    exact step_trimmed h rfl hdone (by simp) h1 h2
  | remove id =>
    by_cases hl : Live P id
    · refine ensures_seq (remove_spec hr hl) ?_
      rintro _ P' ⟨_,h1,h2,h3,_⟩
      exact step_sameMarkers h.markers rfl (by simp) h1 h2.markers
        (frame_of_change (change_of_besides h2)) (.gone hdone h3)
    · refine ensures_seq (remove_dead hl) ?_
      rintro _ P' ⟨_,rfl⟩
      exact step_refl h rfl hdone (by simp)
  | rebuildEntries =>
    refine ensures_seq (rebuildCacheIndex_spec hr) ?_
    rintro _ P' ⟨h1,ix,rfl⟩
    exact step_trimmed h rfl hdone (by simp) h1 (index_trimmed P ix 0)
  | rebuildMarkers =>
    refine ensures_seq (ensures_mono (rebuildMarkerIndex_spec h.markers) (fun _ _ hq => hq)
      (fun _ _ hf => hf.elim)) ?_
    rintro _ P' ⟨h1,ix,rfl⟩
    exact step_refused h hdone (by simp) (by simp)
      ⟨h1,0,index_beside P ix P.markerCount,fun hl => hl.1 rfl,fun hl => hl.1 rfl⟩

theorem run_rep (cfg : Settings) {P0 : Partition} {trace : List Event} (h0 : PartRep P0)
    (h : Run cfg hash P0 trace) : PartRep (finalState P0 trace) := by
  induction h with
  | nil => exact h0
  | step op result P _ hop ih => exact (ensures_ok (runOp_spec cfg op ih) result P hop).rep

theorem run_step (cfg : Settings) {P0 : Partition} {trace : List Event} (h0 : PartRep P0)
    (h : Run cfg hash P0 trace) (op : PartOp) (result : OpResult) (P : Partition)
    (hop : runOp cfg hash op (finalState P0 trace) = .ok result P) :
    OpStep hash op result (finalState P0 trace) P :=
  ensures_ok (runOp_spec cfg op (run_rep cfg h0 h)) result P hop

end PgLocalCache.PartitionInvariant
