import PgLocalCache.TransactionCode

/-!
# The operations of a backend

The end of a transaction leaves every fence that the transaction notes, the vector of
its records tells which ones. An invalidation raises its fence and drops it again; a
fence whose slot got another generation in between stays behind and is counted as such.
-/

namespace PgLocalCache.OperationCode

open KeyCodec DirtySet DirtyRuns Interleaving FenceLedger SharedWorld
open PartitionModel BackendCode FenceDiscipline PlainCode RegistryCode RecordCode FenceCode
open TransactionCode

variable {B : Type} [DecidableEq B] [Fintype B] (env : Env)

/-! The end of a transaction. -/

theorem noted_insensitive : Insensitive (Noted []) :=
  ⟨fun _ address f _ h => ⟨indexed_update h.indexed address f,h.stray,h.fences⟩,
    fun _ _ h => ⟨h.indexed,h.stray,h.fences⟩⟩

/-- The fences noted at an address. -/
def fencesAt (table : List Cell) (address : ℕ) : List (Fence Target) :=
  match entryAt table address with
  | none => []
  | some e => fenceCell (address,e)

theorem fences_by_address {table : List Cell} (hn : (addressesOf table).Nodup) :
    (addressesOf table).flatMap (fencesAt table) = table.flatMap fenceCell := by
  rw [addressesOf, List.flatMap_map]
  refine List.flatMap_congr (fun c hc => ?_)
  rw [fencesAt, entryAt_of_mem hn hc]

theorem moved_fencesAt {table : List Cell} {address : ℕ} {f : Fence Target}
    (hf : f ∈ fencesAt table address) : f.moved = true := by
  rw [fencesAt] at hf
  split at hf
  · cases hf
  · rw [fenceCell] at hf
    split at hf
    · rw [List.mem_singleton.mp hf]
    · cases hf

/-- The fences of the records. -/
def Records (l : Local) : Prop := Noted (l.dirty.table.flatMap fenceCell) l

theorem triple_endGlobalFence (held : Bool) : Triple (fences B) Ready
    (Here (fun l => Noted (fencesOf l) l ∧ l.globalFallback = held)) (endGlobalFence held)
    (fun _ => Here Records) := by
  have hK := lasting_true .outside
  refine .ite (fun hheld => ?_) (fun hheld => .pure () (fun s l h => ⟨h.1,?_,h.2.2⟩))
  · subst hheld
    have hglobal : ∀ l : Local, l.globalFallback = true →
        fencesOf l = ⟨.all,true⟩::l.dirty.table.flatMap fenceCell := by
      intro l hl
      rw [fencesOf, hl]
      rfl
    refine .bind (triple_advance hK .all (fun _ => rfl) (fun l h => (show Noted
      (⟨.all,true⟩::l.dirty.table.flatMap fenceCell) (note (movedFences .all) l) from ?_)))
      (fun _ => triple_leaveGlobal (P := fun l => Noted
        (⟨.all,true⟩::l.dirty.table.flatMap fenceCell) l) hK (fun l h => h.mem) (fun l h => h.left))
    rw [← hglobal l h.2]
    exact h.1.advanced (fun _ => moved_fencesOf)
  · have hnone : fencesOf l = l.dirty.table.flatMap fenceCell := by
      rw [fencesOf, h.2.1.2, globalFences, if_neg hheld, List.nil_append]
    have hnoted := h.2.1.1
    rw [hnone] at hnoted
    exact hnoted

/-- The fences of the records that are still to be visited. -/
def Leaving (rest : List ℕ) (l : Local) : Prop :=
  Noted (rest.flatMap (fencesAt l.dirty.table)) l

theorem leaving_start {l : Local} (h : Records l) : Leaving l.dirty.ordered l := by
  refine ⟨h.indexed,h.stray,h.fences.trans (List.Perm.append_right _ ?_)⟩
  rw [← fences_by_address h.indexed.addresses]
  exact (h.indexed.vector.flatMap_right _).symm

theorem triple_endReserved (address : ℕ) (rest : List ℕ) :
    Triple (fences B) Ready (Here (Leaving (address::rest)))
      (endReserved address) (fun _ => Here (Leaving rest)) := by
  have hK := lasting_true .outside
  -- what is left to be dropped begins with the fence of this record, if it has one
  have hat : ∀ {l : Local} {e : Entry}, entryAt l.dirty.table address = some e →
      (address::rest).flatMap (fencesAt l.dirty.table) =
        fenceCell (address,e)++rest.flatMap (fencesAt l.dirty.table) := by
    intro l e he
    rw [List.flatMap_cons, fencesAt, he]
  refine triple_withRecord hK (fun e => .ite (fun hflag => ?_) (fun hflag => .pure ()
    (fun s l h => ⟨h.1,?_,h.2.2⟩)))
  · have hfence : ∀ {l : Local}, Leaving (address::rest) l →
        entryAt l.dirty.table address = some e → Noted (⟨.slot e.sharedSlot,true⟩::
          rest.flatMap (fencesAt l.dirty.table)) l := by
      intro l h he
      rw [Leaving, hat he, fenceCell, if_pos hflag] at h
      exact h
    refine .bind (triple_advance hK _ (fun _ => rfl) (fun l h => (show Noted
      (⟨.slot e.sharedSlot,true⟩::rest.flatMap (fencesAt l.dirty.table))
      (note (movedFences (.slot e.sharedSlot)) l) from ?_)))
      (fun _ => triple_leave (P := fun l => Noted (⟨.slot e.sharedSlot,true⟩::
        rest.flatMap (fencesAt l.dirty.table)) l) hK (fun l h => h.mem) (fun l h => h.left))
    refine (hfence h.1 h.2).advanced (fun f hf => ?_)
    obtain rfl | hf := List.mem_cons.mp hf
    · rfl
    · obtain ⟨a,_,ha⟩ := List.mem_flatMap.mp hf
      exact moved_fencesAt ha
  · have hleft := h.2.1.1
    rw [Leaving, hat h.2.1.2, fenceCell, if_neg hflag, List.nil_append] at hleft
    exact hleft

theorem mild_clearReservation : Mild clearReservation := fun _ h => h

theorem plain_finishRecord {ready : Shared → Local → Prop} {mode : Mode} {known : Shared → Prop}
    (address : ℕ) : Plain B ready mode known (finishRecord address) := by
  refine plain_section _ (fun s l a s' l' hf => ?_)
  rw [finishStep] at hf
  split at hf
  · cases hf
    exact .inl ⟨rfl,rfl⟩
  · split at hf
    · cases hf
      exact .inl ⟨rfl,rfl⟩
    · split at hf
      · cases hf
        exact .inr ⟨_,_,address,_,mild_clearReservation,rfl,rfl⟩
      · cases hf
        exact .inl ⟨rfl,rfl⟩

theorem plain_closing {ready : Shared → Local → Prop} (committed : Bool) :
    Plain B ready .outside (fun _ => True) (do
      let keys ← readLocal (fun l => keyAddresses l.dirty)
      forEach finishRecord keys
      lockRegistry
      releaseRelationHandlesLocked env committed
      unlockRegistry) :=
  .bind (plain_read _) (fun keys => .bind (plain_forEach plain_finishRecord keys)
    (fun _ => plain_locked (plain_releaseRelationHandlesLocked env committed)))

theorem triple_dropFences (published committed : Bool) :
    Triple (fences B) Ready (Here (fun l => Noted (fencesOf l) l))
      (dropFences env published committed) (fun _ => Here (Noted [])) := by
  have hK := lasting_true .outside
  have hordered : ∀ l : Local, Noted (fencesOf l) l → Noted (fencesOf
      { l with dirty := orderedLocalDirtyEntries env.server l.dirty })
      { l with dirty := orderedLocalDirtyEntries env.server l.dirty } := by
    intro l h
    refine ⟨indexed_ordered h.indexed,h.stray,?_⟩
    rw [fencesOf, table_ordered]
    exact h.fences
  have hloop : ∀ ordered, Triple (fences B) Ready
      (Here (fun l => Records l ∧ l.dirty.ordered = ordered)) (forEach endReserved ordered)
      (fun _ => Here (Noted [])) := by
    intro ordered
    refine (Triple.forEach (g := fun rest => Here (Leaving rest)) ordered
      triple_endReserved).conseq ?_ (fun _ _ _ h => h)
    rintro s l ⟨hreg,⟨hrecords,rfl⟩,hk⟩
    exact ⟨hreg,leaving_start hrecords,hk⟩
  exact .bind (triple_modifyLocal hK (fun _ => rfl) hordered) (fun _ => .bind
    (triple_readLocal hK _) (fun held => .bind (triple_endGlobalFence held) (fun _ => .bind
    (triple_readLocal hK _) (fun ordered => .bind (hloop ordered) (fun _ =>
    (plain_closing env (published && committed)).here noted_insensitive)))))

theorem triple_resetLocal : Triple (fences B) Ready (Here (Noted []))
    resetLocal (fun _ => Ready) := by
  have hreset : Triple (fences B) Ready (Here (Noted [])) resetLocal
      (fun _ => Here Settled) := by
    refine triple_edit (Q := fun _ => Settled) (lasting_true _) _ (fun s l a s' l' hw hp hf => ?_)
    obtain ⟨d,hd,heq⟩ := Option.map_eq_some_iff.mp hf
    cases heq
    obtain ⟨hempty,hindexed⟩ := reset_empty hp.2.1.indexed hd
    have hflags : Unflagged d := by
      rw [Unflagged, hempty]
      exact fun _ hc => (by cases hc)
    refine ⟨edit_refl hw,fun _ => sameRegistry_refl s,rfl,⟨hindexed,hp.2.1.stray,?_⟩,
      fun _ _ => ⟨rfl,hflags⟩⟩
    rw [fencesOf_clean rfl hflags]
    exact hp.2.1.fences
  exact hreset.conseq (fun _ _ h => h) (fun _ _ _ h => ⟨h.1,h.2.1⟩)

theorem triple_bumpWhen {P : Local → Prop} (bump : Bool) :
    Triple (fences B) Ready (Here P) (bumpWhen bump)
      (fun _ => Here P) :=
  .ite (fun _ => triple_advanceConfigGeneration (lasting_true _))
    (fun _ => .pure () (fun _ _ h => h))

/-- A transaction at its end; one that commits without a publication has no fence. -/
def Ending (committed : Bool) (l : Local) : Prop :=
  Settled l ∧ (committed = true → l.aborting = false)

theorem triple_dropWhen (published committed : Bool) :
    Triple (fences B) Ready
      (Here (fun l => Ending committed l ∧ l.published = published))
      (dropWhen env published committed) (fun _ => Here (Noted [])) := by
  refine .ite (fun _ => (triple_dropFences env published committed).conseq
    (fun _ _ h => ⟨h.1,h.2.1.1.1.toNoted,h.2.2⟩) (fun _ _ _ h => h)) (fun hno => .pure ()
    (fun s l h => ⟨h.1,?_,h.2.2⟩))
  obtain ⟨⟨hsettled,hrunning⟩,rfl⟩ := h.2.1
  rw [Bool.or_eq_true, not_or, Bool.not_eq_true, Bool.not_eq_true, Bool.not_eq_false'] at hno
  exact (resting_of_settled hsettled hno.1 (hrunning hno.2)).toNoted

theorem triple_finishDirty (committed : Bool) : Triple (fences B) Ready
    (Here (Ending committed)) (finishDirty env committed) (fun _ => Ready) := by
  have hK := lasting_true .outside
  refine .bind (triple_readLocal hK _) (fun nothing => .ite (fun hnone => ?_) (fun _ => .bind
    ((triple_readLocal (P := Ending committed) hK _).conseq (fun _ _ h => ⟨h.1,h.2.1.1,h.2.2⟩)
      (fun _ _ _ h => ⟨h.1,h.2.1.1,h.2.2⟩)) (fun bump => .bind (triple_readLocal hK _)
    (fun published => .bind (triple_bumpWhen _) (fun _ => .bind
    (triple_dropWhen env published committed) (fun _ => .bind (triple_bumpWhen _)
    (fun _ => triple_resetLocal)))))))
  refine triple_resetLocal.conseq (fun s l h => ⟨h.1,?_,h.2.2⟩) (fun _ _ _ h => h)
  obtain ⟨⟨hsettled,_⟩,htest⟩ := h.2.1
  rw [← htest] at hnone
  simp only [Bool.and_eq_true, beq_iff_eq, Bool.not_eq_true'] at hnone
  obtain ⟨⟨hcount,hglobal⟩,_⟩ := hnone
  have hempty : l.dirty.table = [] :=
    List.eq_nil_of_length_eq_zero (hsettled.indexed.count.symm.trans hcount)
  refine ⟨hsettled.indexed,hsettled.stray,?_⟩
  have hfences := hsettled.fences
  rw [fencesOf, hglobal, hempty] at hfences
  exact hfences

/-! Invalidation. -/

theorem resting_moved : AllMoved Resting := fun _ h => h.allMoved (fun _ hf => (by cases hf))

theorem finds_pinNamespace {ready : Shared → Local → Prop} (databaseOid : ℕ) (nspace : Bytes) :
    Finds B ready .inside (pinNamespace env databaseOid nspace) := by
  intro P K hP hK
  refine .bind (finds_getRelationState env _ _ _ false P K hP hK) (fun found => ?_)
  have hfound : Lasting .inside (fun s => ∀ st, found = some st → Dated s (handedOf st)) :=
    lasting_found found
  cases found with
  | none => exact .pure none (fun _ _ h => h)
  | some st =>
    have hpin : Plain B ready .inside (fun s => True ∧ Dated s (handedOf st)) (pinState st id) :=
      plain_pinState st (.inl rfl)
    refine .ite (fun _ => .pure none (fun _ _ h => ⟨h.1,h.2.1,h.2.2.1,fun _ heq => (by cases heq)⟩))
      (fun _ => .bind (hpin P _ hP (lasting_and hK hfound) ?_)
      (fun _ => .pure _ (fun _ _ h => h)))
    exact fun s hs => ⟨trivial,hs.2 st rfl⟩

/-- The fence of an invalidation is held. -/
def RaisedFor (st : RelationState) (raised : Bool) (l : Local) : Prop :=
  if raised then Ahead ⟨.slot st.slot,true⟩ Resting l else Resting l

/-- Or the slot has another generation for good. -/
def PassedUnless (st : RelationState) (raised : Bool) (s : Shared) : Prop :=
  raised = true ∨ st.slotGeneration < (s.slots st.slot).generation

theorem lasting_passed (st : RelationState) (raised : Bool) :
    Lasting .outside (PassedUnless st raised) := by
  rintro s s' hp - (hraised | hlt)
  · exact .inl hraised
  · exact .inr (hlt.trans_le (hp.generation st.slot))

theorem triple_raiseNamespaceFence (st : RelationState) :
    Triple (fences B) Ready
      (In .outside Resting (fun s => Dated s (handedOf st))) (raiseNamespaceFence st)
      (fun _ s l => ∃ raised, In .outside (RaisedFor st raised) (PassedUnless st raised) s l) := by
  have hread : Triple (fences B) Ready
      (In .outside Resting (fun s => Dated s (handedOf st)))
      (readSlot st.slot RelationSlot.generation)
      (fun g => In .outside Resting (PassedUnless st (decide (g = st.slotGeneration)))) := by
    refine triple_read (lasting_dated _ _) _ (fun s _ hd => ?_)
    by_cases hg : (s.slots st.slot).generation = st.slotGeneration
    · exact .inl (decide_eq_true hg)
    · exact .inr (lt_of_le_of_ne hd (Ne.symm hg))
  refine .bind hread (fun g => .ite (fun hg => ?_) (fun hg => .pure () (fun s l h => ⟨false,?_⟩)))
  · have hK := lasting_passed st (decide (g = st.slotGeneration))
    refine .bind (triple_enter_ahead hK _) (fun _ =>
      (triple_advance_ahead hK resting_moved).conseq (fun _ _ h => h) (fun _ s l h => ⟨true,?_⟩))
    exact ⟨h.1,h.2.1,.inl rfl⟩
  · rw [decide_eq_false hg] at h
    exact h

theorem resting_left {st : RelationState} {raised : Bool} {l : Local} (h : RaisedFor st raised l) :
    Resting { l with stray := l.held.fences } := by
  have hfields : Resting l ∨ Ahead ⟨.slot st.slot,true⟩ Resting l := by
    rw [RaisedFor] at h
    split at h
    · exact .inr h
    · exact .inl h
  obtain h | ⟨held,hheld,h⟩ := hfields
  · exact ⟨⟨h.indexed,resting_moved l h,.refl _⟩,h.running,h.global,h.flags⟩
  · refine ⟨⟨h.indexed,fun f hf => ?_,.refl _⟩,h.running,h.global,h.flags⟩
    obtain rfl | hf := List.mem_cons.mp (hheld ▸ hf)
    · rfl
    · exact resting_moved _ h f hf

theorem triple_dropNamespaceFence (st : RelationState) :
    Triple (fences B) Ready
      (fun s l => ∃ raised, In .outside (RaisedFor st raised) (PassedUnless st raised) s l)
      (dropNamespaceFence st) (fun _ => Here Resting) := by
  refine .exists (fun raised => ?_)
  have hK := lasting_passed st raised
  -- the generations differ where no fence was raised
  have hread : Triple (fences B) Ready
      (In .outside (RaisedFor st raised) (PassedUnless st raised))
      (readSlot st.slot RelationSlot.generation) (fun g => In .outside (RaisedFor st raised)
        (fun _ => g = st.slotGeneration → raised = true)) := by
    refine triple_read hK _ (fun s _ hk hg => ?_)
    exact hk.resolve_right (fun hlt => absurd hg hlt.ne')
  refine .bind hread (fun g => .ite (fun hg => .given (fun _ _ h => h.2.2 hg) (fun hraised => ?_))
    (fun _ => ?_))
  · subst hraised
    have hdrop : Triple (fences B) Ready
        (Here (Ahead ⟨.slot st.slot,true⟩ Resting))
        (do advance (.slot st.slot) id; leave (.slot st.slot)) (fun _ => Here Resting) :=
      .bind (triple_advance_ahead (lasting_true _) resting_moved)
        (fun _ => triple_leave_ahead (lasting_true _))
    exact hdrop.conseq (fun _ _ h => ⟨h.1,h.2.1,trivial⟩) (fun _ _ _ h => h)
  · have hleft : Triple (fences B) Ready (Here (RaisedFor st raised))
        (modifyLocal (fun l => { l with stray := l.held.fences })) (fun _ => Here Resting) :=
      triple_modifyLocal (lasting_true _) (fun _ => rfl) (fun _ => resting_left)
    exact hleft.conseq (fun _ _ h => ⟨h.1,h.2.1,trivial⟩) (fun _ _ _ h => h)

theorem triple_cacheInvalidateNamespace (databaseOid : ℕ) (nspace : Bytes) :
    Triple (fences B) Ready (Here Resting)
      (cacheInvalidateNamespace env databaseOid nspace) (fun _ => Here Resting) := by
  have hrest := resting_insensitive
  have hfound : ∀ pinned : Option RelationState, Lasting .outside (fun s => True ∧
      ∀ st, pinned = some st → Dated s (handedOf st)) :=
    fun pinned => lasting_and (lasting_true _) (lasting_found pinned)
  refine .bind (triple_lockRegistry hrest (lasting_true _)) (fun _ => .bind
    (finds_pinNamespace env databaseOid nspace _ _ hrest (lasting_true _)) (fun pinned => .bind
    (triple_unlockRegistry hrest (hfound pinned)) (fun _ => ?_)))
  cases pinned with
  | none => exact .pure () (fun _ _ h => ⟨h.1,h.2.1,trivial⟩)
  | some st =>
    refine .bind ((triple_raiseNamespaceFence st).conseq
      (fun _ _ h => ⟨h.1,h.2.1,h.2.2.2 st rfl⟩) (fun _ _ _ h => h)) (fun _ => .bind
      (triple_dropNamespaceFence st) (fun _ => ?_))
    exact (plain_locked (plain_unpinNamespace env databaseOid nspace st)).here hrest

theorem triple_sweepState (databaseOid : ℕ) (st : RelationState) :
    Triple (fences B) Ready (In .inside Resting (fun _ => True))
      (sweepState databaseOid st) (fun _ => In .inside Resting (fun _ => True)) := by
  have hK := lasting_true .inside
  exact .ite (fun _ => .bind (triple_enter_ahead hK _) (fun _ => .bind
    (triple_advance_ahead hK resting_moved) (fun _ => .bind
    (triple_advance_ahead hK resting_moved) (fun _ => triple_leave_ahead hK))))
    (fun _ => .pure () (fun _ _ h => h))

theorem triple_cacheInvalidateDatabase (databaseOid : ℕ) :
    Triple (fences B) Ready (Here Resting)
      (cacheInvalidateDatabase databaseOid) (fun _ => Here Resting) := by
  have hK := lasting_true .outside
  exact .bind (triple_lockRegistry resting_insensitive hK) (fun _ => .bind
    (plain_read _ _ _ resting_insensitive (lasting_true _) (fun _ h => h)) (fun states => .bind
    (Triple.forEach (g := fun _ => In .inside Resting (fun _ => True)) states
      (fun st _ => triple_sweepState databaseOid st)) (fun _ =>
    triple_unlockRegistry resting_insensitive hK)))

theorem triple_cacheInvalidateAll : Triple (fences B) Ready
    (Here Resting) cacheInvalidateAll (fun _ => Here Resting) := by
  have hK := lasting_true .outside
  exact .bind (triple_enter_ahead hK _) (fun _ => .bind (triple_advance_ahead hK resting_moved)
    (fun _ => .bind (triple_advanceGlobalEpoch hK) (fun _ => .bind
    (triple_advance_ahead hK resting_moved) (fun _ => triple_leave_ahead hK))))

/-! All operations. -/

theorem triple_visitPartition (p : ℕ) (hash : KeyTuple → ℕ) (op : PartOp) :
    Triple (fences B) Ready (Here Resting)
      (visitPartition env p hash op) (fun _ => Here Resting) := by
  refine triple_edit (Q := fun _ => Resting) (lasting_true _) _ (fun s l a s' l' hw hp hf => ?_)
  cases hf
  exact ⟨edit_partition hw p _,fun _ => ⟨rfl,fun _ => rfl⟩,rfl,hp.2.1⟩

theorem triple_collect (call : Call) : Triple (fences B) Ready
    (Here Resting) (modifyLocal (fun l => { l with dirty := perform env.server call l.dirty }))
    (fun _ => Here Resting) :=
  triple_modifyLocal (lasting_true _) (fun _ => rfl) (fun _ h =>
    ⟨⟨indexed_perform call h.indexed,h.stray,h.fences⟩,h.running,h.global,
      unflagged_perform call h.flags⟩)

theorem menu_safe : MenuSafe (fences B) Ready (menu env) := by
  have hrest : ∀ {c : Act Unit}, Triple (fences B) Ready (Here Resting) c
      (fun _ => Here Resting) → ∀ s l, Ready s l → l.aborting = false ∧ l.published = false →
      Safe (fences B) Ready (run c) s l := by
    intro c hc s l hready hopen
    refine hc.safe (fun _ _ h => ⟨h.1,h.2.1.settled⟩) (in_stable (lasting_true _)) ?_
    exact ⟨hready.1,resting_of_settled hready.2 hopen.2 hopen.1,trivial⟩
  intro op s l hready hallowed
  cases op with
  | collect call => exact hrest (triple_collect env call) s l hready hallowed
  | publish =>
    refine triple_publishDirty.safe (fun _ _ h => h) ready_stable ?_
    exact ⟨hready.1,resting_of_settled hready.2 hallowed.2 hallowed.1,trivial⟩
  | finish committed =>
    refine (triple_finishDirty env committed).safe (fun _ _ h => h) ready_stable
      ⟨hready.1,⟨hready.2,fun hcommitted => ?_⟩,trivial⟩
    subst hcommitted
    exact hallowed.1
  | resolve databaseOid relationOid nspace =>
    exact hrest ((plain_resolveMappingSlot env databaseOid relationOid nspace).here
      resting_insensitive) s l hready hallowed
  | invalidateNamespace databaseOid nspace =>
    exact hrest (triple_cacheInvalidateNamespace env databaseOid nspace) s l hready hallowed
  | invalidateDatabase databaseOid =>
    exact hrest (triple_cacheInvalidateDatabase databaseOid) s l hready hallowed
  | invalidateAll => exact hrest triple_cacheInvalidateAll s l hready hallowed
  | visit p hash op => exact hrest (triple_visitPartition env p hash op) s l hready hallowed

end PgLocalCache.OperationCode
