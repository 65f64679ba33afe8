import PgLocalCache.PartitionTables

/-!
# A partition refines a finite map

`latestStore hash t trace` is the abstract content of the key `t`: the arguments
of the last successful store for it since its descriptor was created. Every valid
descriptor holds exactly that content, however often blocks were moved, evicted
or recycled in between.
-/

namespace PgLocalCache.PartitionMap

open ByteMemory CacheState CacheAdmission CacheOperations PartitionModel Outcome
open EntryInvariant EntryRemoval EntryStore EntryReads PartitionInvariant

def present (hash : KeyTuple → ℕ) (P : Partition) (t : KeyTuple) : Bool :=
  (getCacheEntry P (requestOf hash t)).isSome

def storeOf (t : KeyTuple) (e : Event) : Option StoreArgs :=
  match e.op, e.result with
  | .store _ t' args _ _, .stored true => if t' = t then some args else none
  | _, _ => none

def latestStore (hash : KeyTuple → ℕ) (t : KeyTuple) : List Event → Option StoreArgs
  | [] => none
  | e::trace =>
    if present hash e.after t then (storeOf t e).or (latestStore hash t trace) else none

/-- The content of a descriptor is the abstract content of its key. -/
def Matches (P : Partition) (id : ℕ) (content : Option StoreArgs) : Prop :=
  ∃ args, content = some args ∧ (P.entries id).negative = args.negative ∧
    entryValue P id = storedBytes args

variable {P P' : Partition} {hash : KeyTuple → ℕ} {id : ℕ} {t t' : KeyTuple}

theorem short_request (hash : KeyTuple → ℕ) (h : t.key.length < keyMax) :
    (requestOf hash t).keyLen ≠ keyMax := by
  simp only [requestOf]
  omega

theorem requestId_inj (h : t.key.length < keyMax) (h' : t'.key.length < keyMax)
    (he : requestId (requestOf hash t) = requestId (requestOf hash t')) : t = t' := by
  simp only [requestId, requestOf, KeyId.mk.injEq, Nat.min_eq_left h.le, Nat.min_eq_left h'.le,
    List.take_length] at he
  obtain ⟨h1,h2,h3,h4,_,h6⟩ := he
  cases t
  cases t'
  simp_all

theorem present_of_live (hr : EntryRep P none none) (h : t.key.length < keyMax) (hl : Live P id)
    (hid : entryId P id = requestId (requestOf hash t)) : present hash P t = true := by
  rcases lookupEntry_cases hr (requestOf hash t) (requestOf_ok hash t) with ⟨x,h1,_⟩ | ⟨_,h2⟩
  · simp [present, getCacheEntry, short_request hash h, h1]
  · exact absurd hid (h2 id hl)

/-- Every valid descriptor holds the abstract content of its key. -/
def MapInv (hash : KeyTuple → ℕ) (P : Partition) (trace : List Event) : Prop :=
  ∀ t : KeyTuple, t.key.length < keyMax → ∀ id, Live P id →
    entryId P id = requestId (requestOf hash t) → (P.entries id).valid = true →
    Matches P id (latestStore hash t trace)

theorem matches_lapse {content : Option StoreArgs} (h : Lapse P P' id)
    (hv : (P'.entries id).valid = true) (hm : Matches P id content) : Matches P' id content := by
  obtain ⟨args,h1,h2,h3⟩ := hm
  have hp := (h.valid hv).2
  exact ⟨args,h1,hp.negative.trans h2,hp.value.trans h3⟩

theorem storeOf_quiet (e : Event) (t : KeyTuple) (h : Quiet e.result) : storeOf t e = none := by
  unfold storeOf
  split
  · rename_i hres
    exact absurd hres h.1
  · rfl

theorem mapInv_step {trace : List Event} {op : PartOp} {result : OpResult} (hr : PartRep P)
    (hs : OpStep hash op result P P') (hi : MapInv hash P trace) :
    MapInv hash P' (⟨op,result,P'⟩::trace) := by
  intro t ht x hl hid hv
  obtain ⟨target,hframe,htarget⟩ := hs.entry
  have hpres := present_of_live hs.rep.entries ht hl hid
  have hcons : latestStore hash t (⟨op,result,P'⟩::trace) =
      (storeOf t ⟨op,result,P'⟩).or (latestStore hash t trace) := by
    simp only [latestStore, hpres, if_true]
  have hcarry : Live P x → Lapse P P' x → storeOf t ⟨op,result,P'⟩ = none →
      Matches P' x (latestStore hash t (⟨op,result,P'⟩::trace)) := by
    intro hlx hlap hnone
    rw [hcons, hnone, Option.none_or]
    exact matches_lapse hlap hv (hi t ht x hlx (hlap.ident ▸ hid) (hlap.valid hv).1)
  by_cases hx : x = target
  · subst hx
    cases htarget with
    | gone _ hdead => exact absurd hl hdead
    | lapse hq hlx hlap => exact hcarry hlx hlap (storeOf_quiet _ _ hq)
    | created _ _ _ _ _ _ _ _ _ hc _ =>
      obtain ⟨_,_,_,_,he⟩ := hc.fresh
      rw [he] at hv
      simp [freshEntry, blankEntry] at hv
    | leased _ _ _ _ _ _ _ _ _ _ hle =>
      rw [hle.valid] at hv
      simp at hv
    | filled m t' args g reads hop hres hshort hlx hid' _ hf =>
      have hsame : t' = t := requestId_inj hshort ht
        (hid'.symm.trans (hf.ident.symm.trans hid))
      subst hop hres hsame
      rw [hcons]
      exact ⟨args,by simp [storeOf],hf.negative,hf.value⟩
  · have hsurv := hframe.survive x hx hl
    refine hcarry hsurv.live (survives_lapse hr.entries hsurv) ?_
    cases htarget with
    | gone hq _ => exact storeOf_quiet _ _ hq
    | lapse hq _ _ => exact storeOf_quiet _ _ hq
    | created _ _ _ _ _ _ _ hq _ _ _ => exact storeOf_quiet _ _ hq
    | leased _ _ _ _ _ _ hres _ _ _ _ =>
      subst hres
      simp only [storeOf]
    | filled m t' args g reads hop hres hshort hlx hid' _ hf =>
      subst hop hres
      have hne : t' ≠ t := by
        rintro rfl
        have hxid := survives_entryId hr.entries hsurv
        exact hx (hr.entries.unique x target hsurv.live hlx
          (hxid.symm.trans (hid.trans hid'.symm)))
      simp [storeOf, hne]

section Runs

variable (cfg : Settings) (size : PartitionSize) (memory keyMemory : Memory)

theorem run_mapInv (trace : List Event)
    (h : Run cfg hash (partitionInit size memory keyMemory) trace) :
    MapInv hash (finalState (partitionInit size memory keyMemory) trace) trace := by
  have hinit := partitionInit_rep size memory keyMemory
  induction h with
  | nil =>
    intro t _ id hl
    have := hl.2.2
    simp [finalState, partitionInit, blankEntry] at this
  | step op result P' hrun hop ih =>
    exact mapInv_step (run_rep cfg hinit hrun) (run_step cfg hinit hrun op result P' hop) ih

/-- A hit answers with the content of the latest successful store for the same tuple since
its descriptor was created. -/
theorem lookup_refines_map (hash : KeyTuple → ℕ) (trace : List Event)
    (h : Run cfg hash (partitionInit size memory keyMemory) trace) (m : Mapping) (t : KeyTuple)
    (valueCapacity : ℕ) (create : Bool) (env : AdmissionEnv) (reads : LookupReads)
    (res : LookupResult) (P' : Partition)
    (hop : runOp cfg hash (.lookup m t valueCapacity create env reads)
      (finalState (partitionInit size memory keyMemory) trace) = .ok (.looked res) P')
    (hhit : res.hit = true) :
    ∃ args, latestStore hash t trace = some args ∧ res.negative = args.negative ∧
      res.value = storedBytes args := by
  have hrep := run_rep cfg (partitionInit_rep size memory keyMemory) h
  obtain ⟨id,hf⟩ : ∃ id, HitFrom cfg m (requestOf hash t) reads
      (finalState (partitionInit size memory keyMemory) trace) id res := by
    have hspec := lookupLocked_spec cfg m (requestOf hash t) reads valueCapacity create env
      hrep.entries (requestOf_ok hash t)
    have hlook : Ensures (runOp cfg hash (.lookup m t valueCapacity create env reads))
        (finalState (partitionInit size memory keyMemory) trace)
        (fun result _ => ∀ r, result = .looked r → r.hit = true →
          ∃ id, HitFrom cfg m (requestOf hash t) reads
            (finalState (partitionInit size memory keyMemory) trace) id r) Exhausted := by
      refine ensures_seq hspec (fun a _ ha => ?_)
      rintro r ⟨⟩ hr
      exact ha.2.1 hr
    exact ensures_ok hlook _ P' hop res rfl hhit
  have hvalid : ((finalState (partitionInit size memory keyMemory) trace).entries id).valid =
      true := by
    have := hf.current
    simp only [entryIsCurrentSlot, Bool.and_eq_true] at this
    exact this.1.1.1.1.2
  obtain ⟨args,h1,h2,h3⟩ := run_mapInv cfg size memory keyMemory trace h t
    (requestOf_short hf.short) id hf.live hf.ident hvalid
  refine ⟨args,h1,hf.negative.trans h2,?_⟩
  rw [hf.value, h2, h3]
  by_cases hn : args.negative = true <;> simp [storedBytes, hn]

end Runs

theorem small_lookup_refines : ∃ res P', runOp smallSettings (fun _ => 0) calmLookup
      (finalState smallInit [storedEvent,claimedEvent,createdEvent]) = .ok (.looked res) P' ∧
    res.hit = true ∧ ∃ args, latestStore (fun _ => 0) smallTuple
      [storedEvent,claimedEvent,createdEvent] = some args ∧ res.negative = args.negative ∧
      res.value = storedBytes args := by
  obtain ⟨res,P',h1,h2⟩ : ∃ res P', runOp smallSettings (fun _ => 0) calmLookup
      (finalState smallInit [storedEvent,claimedEvent,createdEvent]) = .ok (.looked res) P' ∧
      res.hit = true := by
    have hres : resultOf (runOp smallSettings (fun _ => 0) calmLookup
        (finalState smallInit [storedEvent,claimedEvent,createdEvent])) = some (.looked
        ⟨true,false,[66,67],7,⟨1,0,0,0,1,1,0,2,9,true,true⟩,true,false,0⟩) := by decide +kernel
    exact ⟨_,_,ok_of_result hres,rfl⟩
  exact ⟨res,P',h1,h2,lookup_refines_map smallSettings smallSize (fun _ => 0) (fun _ => 0)
    (fun _ => 0) _ small_run _ _ _ _ _ _ res P' h1 h2⟩

end PgLocalCache.PartitionMap
