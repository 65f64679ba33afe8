import PgLocalCache.EntryInstall

/-!
# Admission keeps the descriptor table

The four resources of an admission are taken in turn, and every failure exit
gives back what is held. A successful admission adds one descriptor with a new
version; otherwise the table is only trimmed.
-/

namespace PgLocalCache.EntryAdmission

open FreeChain CacheIndex IndexInvariant CacheArena ArenaRelease
open CacheState CacheEntries CacheMarkers CacheAdmission Outcome
open EntryInvariant EntryRemoval EntryBlocks EntryInstall

variable {P P' P'' : Partition} {held : Option (ℕ × ℕ)} {pending : Option ℕ} {id : ℕ}
  {E : Fault → Partition → Prop}

theorem listed_insert (hl : Live P id) (x : ℕ) :
    Listed P none x ↔ Listed P (some id) x ∨ x = id := by
  simp only [Listed]
  constructor
  · rintro ⟨h,_⟩
    by_cases he : x = id
    · exact Or.inr he
    · exact Or.inl ⟨h,fun e => he (Option.some.inj e).symm⟩
  · rintro (⟨h,_⟩ | rfl)
    · exact ⟨h,by simp⟩
    · exact ⟨hl,by simp⟩

def pendingUnless (done : Bool) (id : ℕ) : Option ℕ := if done then none else some id

section insert

variable (r : EntryRequest) (hr : EntryRep P none (some id)) (hq : RequestOk r) (hl : Live P id)
  (hid : entryId P id = requestId r)

include hr hq hl hid

theorem insertDescriptor_spec (n : ℕ) :
    Ensures (insertDescriptor r id ⟨r,n,0,false⟩) P (fun res P' => (res.2 = ⟨r,n,0,false⟩ ∧
      EntryRep P' none (pendingUnless (res.1 == .inserted) id) ∧
      ∃ ix, P' = { P with index := ix }) ∧
      (res.1 = .inserted ∨ FullWindow P.index r.hash)) E := by
  have hf := queryCallbacks_faithful hr ⟨r,n,0,false⟩ hq
  obtain ⟨hh,_⟩ := (entryId_eq_iff P r id).mp hid
  have hu : ∀ x, Listed P (some id) x → hashOf P x = r.hash → matchesKey P r x = false := by
    intro x hx h1
    by_contra hm
    have he := (entryId_eq_iff P r x).mpr ⟨h1,by simpa using hm⟩
    exact hx.2 (congrArg some (hr.unique id x hl hx.1 (hid.trans he.symm)))
  have hb := rep_id_bound hr id hl
  have hal := indexInsert_allocated P.index (queryCallbacks P) r.hash id ⟨r,n,0,false⟩
  unfold insertDescriptor
  simp only [ensures_bind, ensures_get]
  rcases insert_window hr.indexed hf r.hash id hu (fun h => h.2 rfl) hl.1 (by omega)
    (fun _ _ => rfl) hh with ⟨ix,h,hi⟩ | ⟨h,hfull⟩
  · rw [h] at hal ⊢
    refine ⟨⟨rfl,entryRep_reindex hr none ix hal ?_,ix,rfl⟩,Or.inl rfl⟩
    exact indexed_congr hi (listed_insert hl) (fun _ _ => rfl)
  · rw [h] at hal ⊢
    exact ⟨⟨rfl,entryRep_reindex hr (some id) _ hal (indexed_rejections hr.indexed _),_,rfl⟩,
      Or.inr hfull⟩

theorem rebuildThenInsert_spec (n : ℕ) (otherwise : InsertResult) (ho : otherwise ≠ .inserted) :
    Ensures (rebuildThenInsert r id ⟨r,n,0,false⟩ otherwise) P (fun res P' =>
      res.2 = ⟨r,n,0,false⟩ ∧ EntryRep P' none (pendingUnless (res.1 == .inserted) id) ∧
      ∃ ix, P' = { P with index := ix }) E := by
  unfold rebuildThenInsert
  refine ensures_seq (rebuildCacheIndex_spec hr) ?_
  rintro ok P' ⟨h1,ix,rfl⟩
  cases ok with
  | false =>
    have hne : (otherwise == InsertResult.inserted) = false := by simpa using ho
    refine ⟨rfl,?_,ix,rfl⟩
    simp only [hne, pendingUnless]
    exact h1
  | true =>
    refine ensures_imp (insertDescriptor_spec r h1 hq hl hid n) ?_
    rintro res P'' ⟨⟨g1,g2,ix',rfl⟩,_⟩
    exact ⟨g1,g2,ix',rfl⟩

theorem firstInsert_spec (n : ℕ) :
    Ensures (firstInsert r id ⟨r,n,0,false⟩) P (fun res P' =>
      res.2 = ⟨r,n,0,false⟩ ∧ EntryRep P' none (pendingUnless (res.1 == .inserted) id) ∧
      ∃ ix, P' = { P with index := ix }) E := by
  unfold firstInsert
  simp only [ensures_bind, ensures_get]
  by_cases h : indexNeedsRebuild P.index = true
  · rw [if_pos h]
    exact rebuildThenInsert_spec r hr hq hl hid n .probeLimit (by simp)
  · rw [if_neg h]
    exact ensures_imp (insertDescriptor_spec r hr hq hl hid n) (fun _ _ h => h.1)

end insert

theorem retryInsert_spec (r : EntryRequest) (n : ℕ) (first : InsertResult)
    (hr : EntryRep P none (pendingUnless (first == .inserted) id))
    (hq : RequestOk r) (hl : Live P id) (hid : entryId P id = requestId r) :
    Ensures (retryInsert r id (first,⟨r,n,0,false⟩)) P (fun res P' =>
      res.2 = ⟨r,n,0,false⟩ ∧ EntryRep P' none (pendingUnless (res.1 == .inserted) id) ∧
      ∃ ix, P' = { P with index := ix }) E := by
  unfold retryInsert
  by_cases hp : first = .probeLimit
  · subst hp
    exact rebuildThenInsert_spec r hr hq hl hid n .probeLimit (by simp)
  · rw [if_neg hp]
    exact ⟨rfl,hr,P.index,rfl⟩

theorem indexDescriptor_spec (r : EntryRequest) (hr : EntryRep P none (some id))
    (hq : RequestOk r) (hl : Live P id) (hid : entryId P id = requestId r) :
    Ensures (indexDescriptor r id) P (fun ok P' => EntryRep P' none (pendingUnless ok id) ∧
      ∃ ix, P' = { P with index := ix }) E := by
  unfold indexDescriptor
  refine ensures_seq (firstInsert_spec r hr hq hl hid id) ?_
  rintro ⟨first,q⟩ P1 ⟨rfl,h1,ix,rfl⟩
  refine ensures_seq (retryInsert_spec r id first h1 hq hl hid) ?_
  rintro ⟨res,q⟩ P2 ⟨rfl,h2,ix',rfl⟩
  refine ⟨?_,ix',rfl⟩
  simpa using h2

def rejectedEntry (e : CacheEntry) (freeNext : ℕ) : CacheEntry :=
  { e with
    inUse := false
    keyLen := 0
    blockLen := 0
    blockRef := noBlock
    freeNext := freeNext }

theorem rejectDescriptor_spec (ref len : ℕ) (hr : EntryRep P none (some id)) (hl : Live P id)
    (href : (P.entries id).blockRef = ref) (hlen : (P.entries id).blockLen = len) :
    Ensures (rejectDescriptor ref len id) P (fun _ P' => EntryRep P' none none ∧
      Besides P P' id ∧ ¬Live P' id) E := by
  obtain ⟨req,hs,ho⟩ := hr.blocks
  obtain ⟨a,hfr,ha,hk⟩ := arenaFree_live hs _ _ (ho.own id hl)
  rw [href, hlen] at hfr
  have hix : Indexed P.index (fun x => Live P x ∧ x ≠ id) (hashOf P) := by
    refine indexed_congr hr.indexed (fun x => and_congr_right fun _ => ?_) (fun _ _ => rfl)
    simp only [ne_eq, Option.some.injEq]
    exact not_congr eq_comm
  set gone := rejectedEntry (P.entries id) P.freeEntryHead with hgone
  have hrep : EntryRep (removedState P id gone P.index a) none none :=
    entryRep_remove hr rfl rfl hs ho hl hix rfl ha hk
  unfold rejectDescriptor
  simp only [ensures_bind, ensures_get, hfr, ensures_set, Bool.not_true, Bool.false_eq_true,
    if_false, ensures_modify]
  exact ⟨hrep,⟨sameMarkers_refl P,rfl,le_refl _,fun x hx => removed_other x hx,
    fun x hx hlx => removed_bytes hs ho hk hl x hlx hx⟩,
    fun h => ((removed_live (e := gone) rfl id).mp h).2 rfl⟩

/-- What a successful admission does to the table. -/
structure Created (P P' : Partition) (r : EntryRequest) (id : ℕ) : Prop where
  change : Change P P' id
  absent : ∀ x, Live P x → entryId P x ≠ requestId r
  clean : Live P id → (P.entries id).dirtyWriters = 0
  live : Live P' id
  ident : entryId P' id = requestId r
  fresh : FreshAt P' r id P.entryGeneration

theorem trimmed_of_besides (hb : Besides P P' id) (hn : ¬Live P id) (hn' : ¬Live P' id) :
    Trimmed P P' 0 := by
  refine ⟨hb.markers,hb.capacity,hb.generation,fun x hx => ?_,fun x hx _ => ?_⟩
  · have hne : x ≠ id := fun he => hn' (he ▸ hx)
    exact besides_survives hb x hne ((besides_live hb x hne).mp hx)
  · exact hb.entries x (fun he => hn (he ▸ hx))

theorem absent_trimmed {r : EntryRequest} {excluded : ℕ} (hr : EntryRep P held pending)
    (ht : Trimmed P P' excluded) (h : ∀ x, Live P x → entryId P x ≠ requestId r) (x : ℕ)
    (hx : Live P' x) : entryId P' x ≠ requestId r := by
  rw [trimmed_entryId hr ht hx]
  exact h x (ht.survive x hx).live

def Admitted (P : Partition) (r : EntryRequest) (res : Option ℕ) (P' : Partition) : Prop :=
  EntryRep P' none none ∧ match res with
    | none => Trimmed P P' 0
    | some id => Created P P' r id

theorem admitted_trimmed {r : EntryRequest} {res : Option ℕ} (ht : Trimmed P P' 0)
    (habs : ∀ x, Live P x → entryId P x ≠ requestId r) (h : Admitted P' r res P'') :
    Admitted P r res P'' := by
  refine ⟨h.1,?_⟩
  cases res with
  | none => exact trimmed_trans ht h.2
  | some id =>
    have hc := h.2
    have hgen := ht.generation
    refine ⟨change_trans (change_of_trimmed ht id) hc.change,habs,fun hl => ?_,hc.live,
      hc.ident,?_⟩
    · by_contra hd
      have hp : Protected P 0 id := Or.inr hd
      have := hc.clean (trimmed_live ht hl hp)
      rw [ht.kept id hl hp] at this
      exact hd this
    · obtain ⟨ref,v,h1,h2,h3⟩ := hc.fresh
      exact ⟨ref,v,by omega,h2,h3⟩

theorem installed_spec (r : EntryRequest) (ref : ℕ) (hr : EntryRep P (some (ref,r.keyLen)) none)
    (hq : RequestOk r) (hnew : ∀ x, Live P x → entryId P x ≠ requestId r) :
    Ensures (do
      match ← installDescriptor r ref with
      | none => return none
      | some id =>
        let indexed ← indexDescriptor r id
        if indexed then return some id
        else
          rejectDescriptor ref r.keyLen id
          return none) P (Admitted P r) Exhausted := by
  refine ensures_seq (installDescriptor_spec r ref hr hq hnew) ?_
  rintro (_ | id) P1 h
  · exact h
  obtain ⟨h1,h2,h3,h4,h5,h6,h7⟩ := h
  refine ensures_seq (indexDescriptor_spec r h1 hq h4 h5) ?_
  rintro ok P2 ⟨g1,ix,rfl⟩
  cases ok with
  | true =>
    have hb : Besides P { P1 with index := ix } id :=
      ⟨h2.markers,h2.capacity,h2.generation,h2.entries,h2.bytes⟩
    exact ⟨g1,change_of_besides hb,hnew,fun h => absurd h h3,h4,h5,h6⟩
  | false =>
    have hlen : (P1.entries id).blockLen = r.keyLen := by
      obtain ⟨_,_,_,_,he⟩ := h6
      rw [he]
      rfl
    refine ensures_seq (rejectDescriptor_spec ref r.keyLen g1 h4 h7 hlen) ?_
    rintro _ P3 ⟨k1,k2,k3⟩
    have hb : Besides P { P1 with index := ix } id :=
      ⟨h2.markers,h2.capacity,h2.generation,h2.entries,h2.bytes⟩
    exact ⟨k1,trimmed_of_besides (besides_trans hb k2) h3 k3⟩

theorem entryCount_le (hr : EntryRep P held pending) : P.entryCount ≤ P.capacity := by
  rw [hr.count]
  exact tally_le _ _

theorem admitBlock_spec (cfg : Settings) (r : EntryRequest) (env : AdmissionEnv) (ref : ℕ)
    (hr : EntryRep P (some (ref,r.keyLen)) none) (hq : RequestOk r)
    (hnew : ∀ x, Live P x → entryId P x ≠ requestId r) :
    Ensures (admitBlock cfg r env ref) P (Admitted P r) Exhausted := by
  unfold admitBlock
  simp only [ensures_bind, ensures_get]
  refine ensures_imp (ensureDescriptor_spec cfg ref r.keyLen env.headEvict hr) ?_
  rintro (_ | _) P1 ⟨h1,h2⟩
  · exact ⟨h1,h2⟩
  have hcount := entryCount_le h1
  rw [h2.capacity] at hcount
  simp only [Bool.not_true, Bool.false_eq_true, if_false, ensures_bind]
  refine ensures_imp (reserveLoop_spec cfg ref r.keyLen env.reserveEvict env.reserveGrant
    (P.capacity+1) 0 h1 (by omega)) ?_
  rintro (_ | _) P2 ⟨g1,g2⟩
  · exact ⟨g1,trimmed_trans h2 g2⟩
  have ht := trimmed_trans h2 g2
  have hnew' := absent_trimmed hr ht hnew
  refine ensures_imp (installed_spec r ref g1 hq hnew') ?_
  intro res P3 h3
  exact admitted_trimmed ht hnew h3

theorem tidyIndex_spec (hr : EntryRep P held pending) :
    Ensures tidyIndex P (fun _ P' => EntryRep P' held pending ∧ ∃ ix, P' = { P with index := ix })
      E := by
  unfold tidyIndex
  simp only [ensures_bind, ensures_get]
  by_cases h : indexNeedsRebuild P.index
  · rw [if_pos h]
    exact rebuildCacheIndex_spec hr
  · rw [if_neg h]
    exact ⟨hr,P.index,rfl⟩

theorem markerCallbacks_congr (h : SameMarkers P P') :
    markerQueryCallbacks P' = markerQueryCallbacks P ∧
      markerIdCallbacks P' = markerIdCallbacks P := by
  obtain ⟨h1,_,h3,_,_,h6,_,h8,_⟩ := h
  have e1 : markerHashById P' = markerHashById P := by
    unfold markerHashById
    rw [h1, h6]
  have e2 : markerKeyOffset P' = markerKeyOffset P := by
    unfold markerKeyOffset
    rw [h8]
  have e3 : markerMatchesQuery P' = markerMatchesQuery P := by
    unfold markerMatchesQuery
    rw [h1, h3, h6, e2]
  have e4 : markerMatchesId P' = markerMatchesId P := by
    unfold markerMatchesId
    rw [h6]
  exact ⟨by rw [markerQueryCallbacks, e1, e3]; rfl,by rw [markerIdCallbacks, e1, e4]; rfl⟩

theorem cacheMarkerFind_congr (h : SameMarkers P P') (m : MarkerRequest) :
    cacheMarkerFind P' m = cacheMarkerFind P m := by
  obtain ⟨hcb,_⟩ := markerCallbacks_congr h
  obtain ⟨_,h2,_,_,_,h6,_⟩ := h
  simp only [cacheMarkerFind, partitionIndexValid, hcb, h2, h6, if_true]

/-- Admission of a key that has no descriptor: nothing is added while a marker stands. -/
theorem admitEntry_spec (cfg : Settings) (r : EntryRequest) (env : AdmissionEnv)
    (hr : EntryRep P none none) (hq : RequestOk r)
    (hnew : ∀ x, Live P x → entryId P x ≠ requestId r) :
    Ensures (admitEntry cfg r env) P (fun res P' => Admitted P r res P' ∧
      (res ≠ none → cacheMarkerFind P (markerRequestOf r) = 0)) Exhausted := by
  unfold admitEntry
  refine ensures_seq (tidyIndex_spec hr) ?_
  rintro ready P1 ⟨h1,ix,rfl⟩
  have ht : Trimmed P { P with index := ix } 0 := index_trimmed P ix 0
  cases ready with
  | false => exact ⟨⟨h1,ht⟩,by simp⟩
  | true =>
    simp only [Bool.not_true, Bool.false_eq_true, if_false, ensures_bind, ensures_get,
      cacheMarkerFind_congr ht.markers]
    by_cases hm : cacheMarkerFind P (markerRequestOf r) = 0
    · rw [if_neg (by simpa using hm)]
      have hcount := entryCount_le h1
      refine ensures_seq (allocOrEvict_spec cfg r.keyLen env.allocEvict (P.capacity+1) 0 h1
        (Nat.lt_succ_of_le hcount)) ?_
      rintro (_ | ⟨ref,size⟩) P2 ⟨g1,g2⟩
      · exact ⟨⟨g2,trimmed_trans ht g1⟩,by simp⟩
      · have ht2 := trimmed_trans ht g1
        refine ensures_imp (admitBlock_spec cfg r env ref g2.2 hq
          (absent_trimmed hr ht2 hnew)) ?_
        intro res P3 h3
        exact ⟨admitted_trimmed ht2 hnew h3,fun _ => hm⟩
    · rw [if_pos (by simpa using hm)]
      exact ⟨⟨h1,ht⟩,by simp⟩

/-- Looking a key up and creating its descriptor when it is missing. -/
theorem getCacheEntryInternal_spec (cfg : Settings) (r : EntryRequest) (cached create : Bool)
    (env : AdmissionEnv) (hr : EntryRep P none none) (hq : RequestOk r) :
    Ensures (getCacheEntryInternal cfg r cached create env) P (fun res P' => res.2 = 0 ∧
      (res.1 ≠ none → cached = true ∨ r.keyLen ≠ keyMax) ∧
      ((∃ id, res.1 = some id ∧ P' = P ∧ Live P id ∧ entryId P id = requestId r) ∨
      (Admitted P r res.1 P' ∧
        (res.1 ≠ none → create = true ∧ cacheMarkerFind P (markerRequestOf r) = 0))))
      Exhausted := by
  unfold getCacheEntryInternal
  simp only [ensures_bind, ensures_get]
  by_cases hmax : !cached ∧ r.keyLen = keyMax
  · rw [if_pos hmax]
    exact ⟨rfl,by simp,Or.inr ⟨⟨hr,trimmed_refl P 0⟩,by simp⟩⟩
  rw [if_neg hmax]
  have hshort : cached = true ∨ r.keyLen ≠ keyMax := by
    cases cached with
    | true => exact Or.inl rfl
    | false => exact Or.inr (by simpa using hmax)
  rcases lookupEntry_cases hr r hq with ⟨id,h1,h2,h3⟩ | ⟨h1,h2⟩
  · simp only [h1]
    rw [if_pos (by simp)]
    exact ⟨rfl,fun _ => hshort,Or.inl ⟨id,rfl,rfl,h2,h3⟩⟩
  · simp only [h1]
    cases create with
    | false =>
      rw [if_pos (by simp)]
      exact ⟨rfl,by simp,Or.inr ⟨⟨hr,trimmed_refl P 0⟩,by simp⟩⟩
    | true =>
      rw [if_neg (by simp)]
      refine ensures_seq (admitEntry_spec cfg r env hr hq h2) ?_
      rintro res P' ⟨g1,g2⟩
      exact ⟨rfl,fun _ => hshort,Or.inr ⟨g1,fun h => ⟨rfl,g2 h⟩⟩⟩

end PgLocalCache.EntryAdmission
