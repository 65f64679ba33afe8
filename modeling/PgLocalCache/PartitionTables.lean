import PgLocalCache.PartitionLimits

/-!
# The tables of a partition stay consistent

`Consistent P` says in the terms of the code what the tables of a partition look
like between two operations. It holds after every run, so the errors that report
an inconsistent table are never raised.
-/

namespace PgLocalCache.PartitionTables

open ByteMemory FreeChain CacheIndex IndexInvariant CacheArena ArenaPage ArenaInvariant
open ArenaRelease CacheState CacheEntries CacheAdmission PartitionModel Outcome EntryInvariant
open PartitionInvariant PartitionLimits

def inUseIds (P : Partition) : Finset ℕ :=
  (Finset.Icc 1 P.capacity).filter (fun id => (P.entries id).inUse = true)

structure Consistent (P : Partition) : Prop where
  freeList : ∃ ids : List ℕ, Chain (fun id => (P.entries id).freeNext) 0 P.freeEntryHead ids ∧
    ids.Nodup ∧ ∀ id, id ∈ ids ↔ id ∈ Finset.Icc 1 P.capacity ∧ (P.entries id).inUse = false
  count : P.entryCount = (inUseIds P).card
  indexedOnce : ∀ id ∈ inUseIds P, ∃! b, b < P.index.bucketCount ∧ P.index.buckets b = id
  found : ∀ id ∈ inUseIds P, ∀ r : EntryRequest, RequestOk r → requestId r = entryId P id →
    lookupEntry P r = (some id,0)
  noFreeId : ∀ b < P.index.bucketCount, P.index.buckets b = empty ∨
    P.index.buckets b = tombstone ∨ P.index.buckets b ∈ inUseIds P
  liveBlock : ∀ id ∈ inUseIds P,
    arenaBlock P.arena (P.entries id).blockRef = some (P.entries id).blockRef
  distinct : ∀ id ∈ inUseIds P, ∀ id' ∈ inUseIds P,
    (P.entries id).blockRef = (P.entries id').blockRef → id = id'
  owned : ∀ ref, arenaBlock P.arena ref ≠ none → ∃ id ∈ inUseIds P, (P.entries id).blockRef = ref
  fits : ∀ id ∈ inUseIds P,
    (P.entries id).blockLen = (P.entries id).keyLen+(P.entries id).valueLen ∧
    (P.entries id).blockLen ≤ arenaBlockClass P.arena (P.entries id).blockRef
  usedBytes : P.arena.usedBytes = ∑ id ∈ inUseIds P, (P.entries id).blockLen

variable {P : Partition}

theorem mem_inUseIds (P : Partition) (id : ℕ) : id ∈ inUseIds P ↔ Live P id := by
  simp only [inUseIds, Finset.mem_filter, Finset.mem_Icc, Live]
  constructor
  · rintro ⟨⟨h1,h2⟩,h3⟩
    exact ⟨by omega,h2,h3⟩
  · rintro ⟨h1,h2,h3⟩
    exact ⟨⟨by omega,h2⟩,h3⟩

theorem tally_card (p : ℕ → Bool) (n : ℕ) :
    tally (fun i => p (i+1)) n = ((Finset.Icc 1 n).filter (fun id => p id = true)).card := by
  unfold tally total
  rw [Finset.card_filter, ← Finset.sum_image (f := fun id => if p id = true then 1 else 0)
    (g := fun i => i+1) (fun i _ j _ h => by simpa using h)]
  refine Finset.sum_congr ?_ (fun _ _ => rfl)
  ext id
  simp only [Finset.mem_image, Finset.mem_range, Finset.mem_Icc]
  constructor
  · rintro ⟨i,h,rfl⟩
    omega
  · rintro ⟨h1,h2⟩
    exact ⟨id-1,by omega,by omega⟩

theorem live_block_request {req : ℕ → Option ℕ} (hs : Sound P.arena req) (ref : ℕ)
    (h : arenaBlock P.arena ref ≠ none) : req ref ≠ none := by
  unfold arenaBlock at h
  cases hinfo : blockInfo P.arena ref true with
  | none => simp [hinfo] at h
  | some info =>
    obtain ⟨h1,h2,h3,h4,_⟩ := blockInfo_some hs.toCore ref true info hinfo
    exact (hs.live ref).mpr ⟨info.pageNo,h1,info.blockNo,h2,h3,h4⟩

theorem used_sum {req : ℕ → Option ℕ} (hs : Sound P.arena req) (ho : Owned P none req) :
    P.arena.usedBytes = ∑ id ∈ inUseIds P, (P.entries id).blockLen := by
  have hown : ∀ id ∈ inUseIds P, (P.entries id).blockLen =
      (req (P.entries id).blockRef).getD 0 := fun id hid => by
    rw [ho.own id ((mem_inUseIds P id).mp hid)]
    rfl
  have hsub : (inUseIds P).image (fun id => (P.entries id).blockRef) ⊆
      (Finset.range (units P.arena)).image (fun u => u*minBlock) := by
    intro ref href
    obtain ⟨id,hid,rfl⟩ := Finset.mem_image.mp href
    have hne : req (P.entries id).blockRef ≠ none := by
      simp [ho.own id ((mem_inUseIds P id).mp hid)]
    obtain ⟨p,k,hp,hk,_,he,_⟩ := live_slot hs.toCore _ hne
    obtain ⟨u,hu,hslot⟩ := slot_unit (pageOk_shaped (hs.page p hp) hk) hk hp
    exact Finset.mem_image.mpr ⟨u,Finset.mem_range.mpr hu,by rw [← hslot, he]⟩
  calc P.arena.usedBytes
      = ∑ u ∈ Finset.range (units P.arena), (req (u*minBlock)).getD 0 := hs.used
    _ = ∑ ref ∈ (Finset.range (units P.arena)).image (fun u => u*minBlock), (req ref).getD 0 := by
        symm
        apply Finset.sum_image
        intro u _ v _ h
        simpa [minBlock] using h
    _ = ∑ ref ∈ (inUseIds P).image (fun id => (P.entries id).blockRef), (req ref).getD 0 := by
        refine (Finset.sum_subset hsub (fun ref _ hout => ?_)).symm
        by_contra hz
        have hne : req ref ≠ none := fun he => hz (by rw [he]; rfl)
        rcases ho.owner ref hne with ⟨id,hl,hid⟩ | ⟨_,h⟩
        · exact hout (Finset.mem_image.mpr ⟨id,(mem_inUseIds P id).mpr hl,hid⟩)
        · simp at h
    _ = ∑ id ∈ inUseIds P, (req (P.entries id).blockRef).getD 0 :=
        Finset.sum_image (fun id hid id' hid' h => ho.inj id id' ((mem_inUseIds P id).mp hid)
          ((mem_inUseIds P id').mp hid') h)
    _ = ∑ id ∈ inUseIds P, (P.entries id).blockLen :=
        Finset.sum_congr rfl (fun id hid => (hown id hid).symm)

theorem consistent_of_rep (hr : EntryRep P none none) : Consistent P := by
  obtain ⟨req,hs,ho⟩ := hr.blocks
  have hlive := mem_inUseIds P
  have hlist : ∀ id, Live P id → Listed P none id := fun id h => ⟨h,by simp⟩
  refine ⟨?_,?_,fun id hid => ?_,fun id hid r hq he => ?_,fun b hb => ?_,fun id hid => ?_,
    fun id hid id' hid' he => ?_,fun ref href => ?_,fun id hid => ?_,used_sum hs ho⟩
  · obtain ⟨ids,h1,h2,h3⟩ := hr.free
    refine ⟨ids,h1,h2,fun id => ?_⟩
    rw [h3, Vacant, Finset.mem_Icc]
    constructor
    · rintro ⟨g1,g2,g3⟩
      exact ⟨⟨by omega,g2⟩,g3⟩
    · rintro ⟨⟨g1,g2⟩,g3⟩
      exact ⟨by omega,g2,g3⟩
  · rw [hr.count, tally_card (fun id => (P.entries id).inUse)]
    rfl
  · have hl := hlist id ((hlive id).mp hid)
    obtain ⟨p,_,hp,_⟩ := hr.indexed.reach id hl
    refine ⟨_,⟨bucketAt_lt hr.indexed.dims _ _,hp⟩,fun b hb => ?_⟩
    refine hr.indexed.once b hb.1 _ (bucketAt_lt hr.indexed.dims _ _) ?_ (hb.2.trans hp.symm)
    rw [hb.2]
    exact hl
  · have hl := (hlive id).mp hid
    rcases lookupEntry_cases hr r hq with ⟨x,h1,h2,h3⟩ | ⟨_,h2⟩
    · rw [h1, hr.unique x id h2 hl (h3.trans he)]
    · exact absurd he.symm (h2 id hl)
  · rw [hlive]
    exact (hr.indexed.content b hb).imp_right (fun h => h.imp_right (fun h => h.1))
  · have hown := ho.own id ((hlive id).mp hid)
    exact arenaBlock_live hs.toCore _ (by simp [hown])
  · exact ho.inj id id' ((hlive id).mp hid) ((hlive id').mp hid') he
  · rcases ho.owner ref (live_block_request hs ref href) with ⟨id,h1,h2⟩ | ⟨_,h⟩
    · exact ⟨id,(hlive id).mpr h1,h2⟩
    · simp at h
  · have hl := (hlive id).mp hid
    exact ⟨(hr.shape id hl).block,(rep_class hr id hl).2⟩

section Runs

variable (cfg : Settings) (hash : KeyTuple → ℕ) (size : PartitionSize) (memory keyMemory : Memory)

/-- After every run the tables are consistent, and the next operation returns or reports
that the generation counter is used up. -/
theorem run_consistent (trace : List Event)
    (h : Run cfg hash (partitionInit size memory keyMemory) trace) :
    Consistent (finalState (partitionInit size memory keyMemory) trace) ∧
    ∀ op e P', runOp cfg hash op (finalState (partitionInit size memory keyMemory) trace) =
      .error e P' → e = .keyGenerationOverflow := by
  have hrep := run_rep cfg (partitionInit_rep size memory keyMemory) h
  refine ⟨consistent_of_rep hrep.entries,fun op e P' herr => ?_⟩
  exact (ensures_error (runOp_spec cfg op hrep) e P' herr).1

end Runs

theorem small_run_consistent : Run smallSettings (fun _ => 0) smallInit
      [storedEvent,claimedEvent,createdEvent] ∧
    Consistent (finalState smallInit [storedEvent,claimedEvent,createdEvent]) :=
  ⟨small_run,(run_consistent smallSettings (fun _ => 0) smallSize (fun _ => 0) (fun _ => 0) _
    small_run).1⟩

def retiredEvent : Event := nextEvent smallSettings (fun _ => 0) createdEvent.after
  (.invalidateKey smallTuple calmSlot)

theorem spent_run : ∃ trace, Run smallSettings (fun _ => 0) smallInit trace ∧
    finalState smallInit trace = aged retiredEvent.after 1 (2^64-3) := by
  have h1 : Run smallSettings (fun _ => 0) smallInit [createdEvent] :=
    run_next .nil calmLookup (by decide +kernel)
  have h2 : Run smallSettings (fun _ => 0) smallInit [retiredEvent,createdEvent] :=
    run_next h1 (.invalidateKey smallTuple calmSlot) (by decide +kernel)
  have hrep := partitionInit_rep smallSize (fun _ => 0) (fun _ => 0)
  have hret : Retired retiredEvent.after 1 := by
    constructor <;> decide +kernel
  have hlive : Live retiredEvent.after 1 := by
    refine ⟨?_,?_,?_⟩ <;> decide +kernel
  have hid : entryId retiredEvent.after 1 = requestId (requestOf (fun _ => 0) smallTuple) := by
    decide +kernel
  obtain ⟨newer,hrun,hfinal⟩ := aged_run hrep h2 rfl hret (by decide) hlive hid calmSlot (2^64-3)
    (by decide +kernel)
  exact ⟨_,hrun,hfinal⟩

theorem spent_next (op : PartOp) (result : OpResult)
    (h : resultOf (runOp smallSettings (fun _ => 0) op (aged retiredEvent.after 1 (2^64-3))) =
      some result) : ∃ trace, Run smallSettings (fun _ => 0) smallInit trace ∧
    finalState smallInit trace =
      resultState (runOp smallSettings (fun _ => 0) op (aged retiredEvent.after 1 (2^64-3))) := by
  obtain ⟨trace,hrun,hfinal⟩ := spent_run
  have hop := ok_of_result h
  rw [← hfinal] at hop
  refine ⟨_,.step _ _ _ hrun hop,?_⟩
  rw [← hfinal]
  rfl

def wornOut : Partition :=
  resultState (runOp smallSettings (fun _ => 0) (.remove 1) (aged retiredEvent.after 1 (2^64-3)))

/-- The creation that finds the version counter used up leaves a descriptor behind that is in
use and not counted. -/
theorem overflow_inconsistent : ∃ trace P', Run smallSettings (fun _ => 0) smallInit trace ∧
    runOp smallSettings (fun _ => 0) calmLookup (finalState smallInit trace) =
      .error .keyGenerationOverflow P' ∧ ¬Consistent P' := by
  obtain ⟨trace,hrun,hfinal⟩ : ∃ trace, Run smallSettings (fun _ => 0) smallInit trace ∧
      finalState smallInit trace = wornOut := spent_next (.remove 1) .done (by decide +kernel)
  refine ⟨trace,resultState (runOp smallSettings (fun _ => 0) calmLookup wornOut),hrun,?_,
    fun h => ?_⟩
  · rw [hfinal]
    apply error_of_fault
    decide +kernel
  · have hcount := h.count
    revert hcount
    decide +kernel

end PgLocalCache.PartitionTables
