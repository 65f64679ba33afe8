import PgLocalCache.RegistryCode

/-!
# Dirty records and their handles

Pins and reservations of dirty records are taken and given back by plain code. The
parts of it that lock the registry themselves keep the same facts.
-/

namespace PgLocalCache.RecordCode

open CacheOperations KeyCodec DirtySet Interleaving FenceLedger SharedWorld BackendCode
open FenceDiscipline PlainCode RegistryCode

variable {B : Type} [DecidableEq B] [Fintype B] {ready : Shared → Local → Prop}
variable {α : Type} {mode : Mode} {known : Shared → Prop} (env : Env)

/-! The registry lock. -/

theorem lock_move {s : Shared} {l : Local} (ho : Own s l) {value : Bool}
    (hlock : lockBit { s with registryLocked := value }+lockCount l.held =
      lockBit s+lockCount (setRegistry value l.held)) :
    Move s l (exchange l.held (setRegistry value l.held) { s with registryLocked := value })
      (note (setRegistry value) l) := by
  refine ⟨rfl,change_of_tags ⟨⟨rfl,fun _ => rfl⟩,rfl,rfl,fun _ => rfl,rfl⟩ ho.world.grounded hlock
    (fun t => ?_) (fun t rest => ?_)⟩
  · cases t <;> rfl
  · have hsame : (countersOf (exchange l.held (setRegistry value l.held)
        { s with registryLocked := value }) t).version = (countersOf s t).version := by
      cases t <;> rfl
    rw [hsame]
    exact progress_same (le_refl _) rfl

variable {P : Local → Prop} {K : Shared → Prop}

theorem triple_lockRegistry (hP : Insensitive P) (hK : Lasting .outside K) :
    Triple (fences B) ready (In .outside P K) lockRegistry
      (fun _ => In .inside P K) := by
  have hmove : ∀ s l a s' l', In .outside P K s l → Own s l → (if s.registryLocked then none
      else some ((),exchange l.held (setRegistry true l.held) { s with registryLocked := true },
        note (setRegistry true) l)) = some (a,s',l') → Move s l s' l' ∧
      l' = note (setRegistry true) l := by
    intro s l a s' l' hp ho hf
    split at hf
    · cases hf
    · rename_i hfree
      cases hf
      refine ⟨lock_move ho ?_,rfl⟩
      rw [lockBit, lockBit, lockCount, lockCount, if_neg hfree, hp.1]
      rfl
  refine .atomic _ (in_stable hK) (fun s l a s' l' hp ho hf => (hmove s l a s' l' hp ho hf).1)
    (fun s l a s' l' hp ho hf _ => ?_)
  obtain ⟨hm,rfl⟩ := hmove s l a s' l' hp ho hf
  exact ⟨rfl,hP.registry l true hp.2.1,hK.after ho hm (fun hno => (by cases hno)) hp.2.2⟩

theorem triple_unlockRegistry (hP : Insensitive P) (hK : Lasting .outside K) :
    Triple (fences B) ready (In .inside P K) unlockRegistry
      (fun _ => In .outside P K) := by
  have hlast : Lasting .inside K := fun s s' hp _ => hK s s' hp (fun hno => (by cases hno))
  have hmove : ∀ s l, In .inside P K s l → Own s l → Move s l
      (exchange l.held (setRegistry false l.held) { s with registryLocked := false })
      (note (setRegistry false) l) := by
    intro s l hp ho
    refine lock_move ho ?_
    have hle := le_total lockCount ho.mem
    rw [← ho.world.lock, lockCount, hp.1] at hle
    have hset : s.registryLocked = true := by
      by_contra hno
      rw [lockBit, if_neg hno] at hle
      cases hle
    rw [lockBit, lockBit, lockCount, lockCount, if_pos hset, hp.1]
    rfl
  refine .atomic _ (in_stable hlast) (fun s l a s' l' hp ho hf => ?_)
    (fun s l a s' l' hp ho hf _ => ?_)
  · cases hf
    exact hmove s l hp ho
  · cases hf
    exact ⟨rfl,hP.registry l false hp.2.1,
      hK.after ho (hmove s l hp ho) (fun hno => (by cases hno)) hp.2.2⟩

theorem plain_locked {c : Act α} (hc : Plain B ready .inside known c) :
    Plain B ready .outside known (do lockRegistry; let a ← c; unlockRegistry; pure a) := by
  intro P K hP hK hk
  have hlast : Lasting .inside K := fun s s' hp _ => hK s s' hp (fun hno => (by cases hno))
  exact .bind (triple_lockRegistry hP hK) (fun _ => .bind (hc P K hP hlast hk) (fun _ => .bind
    (triple_unlockRegistry hP hK) (fun _ => .pure _ (fun _ _ h => h))))

/-! Handles. -/

theorem plain_recordState (e : Entry) : Finds B ready mode (recordState e) := finds_findState _

theorem mild_reserved : Mild (fun e => { e with sharedRelationReserved := true }) := fun _ h => h

theorem plain_reserveRelationHandleLocked (address : ℕ) :
    Plain B ready mode known (reserveRelationHandleLocked env address) := by
  refine plain_withRecord (fun e => .bind (plain_read _) (fun found => ?_))
  cases found with
  | none => exact plain_pure false
  | some st =>
    exact .ite (plain_pure false) (.bind (plain_read _) (fun _ => .ite (plain_pure false)
      (.bind (plain_read _) (fun _ => .ite (plain_pure false)
      (.bind (plain_record mild_reserved) (fun _ => plain_pure true))))))

theorem plain_retireForgotten (address : ℕ) :
    Plain B ready mode known (retireForgotten address) := by
  refine plain_withRecord (fun e => .ite (plain_pure ()) (.bind (plain_read _) (fun found => ?_)))
  cases found with
  | none => exact plain_pure ()
  | some st =>
    exact .ite (.bind (plain_read _) (fun _ => .ite
      (plain_updateState _ (fun _ _ _ h => h)) (plain_pure ()))) (plain_pure ())

theorem plain_removeIfUnused (key : RelationKey) :
    Plain B ready .inside known (removeIfUnused env key) := by
  refine .bind (plain_read _) (fun found => ?_)
  cases found with
  | none => exact plain_pure ()
  | some st =>
    exact .ite (plain_pure ()) (.bind (plain_read _) (fun _ => .ite
      (.bind (plain_releaseRelationSlot env st) (fun _ => plain_removeState _)) (plain_pure ())))

theorem plain_mismatched (e : Entry) : Plain B ready mode known (mismatched e) :=
  .ite plain_faulty (plain_pure ())

theorem plain_releaseMatching (e : Entry) :
    Plain B ready .inside known (releaseMatching env e) := by
  refine .bind (plain_read _) (fun found => ?_)
  cases found with
  | none => exact plain_mismatched e
  | some st =>
    exact .ite (.bind (plain_read _) (fun _ => .ite (.bind
      (.ite (plain_releaseRelationIdentityPin st) (plain_pure ()))
      (fun _ => plain_removeIfUnused env _)) (plain_mismatched e))) (plain_mismatched e)

theorem mild_clearHandle : Mild clearHandle := fun _ _ => rfl

theorem plain_releaseRelationHandlesLocked (committed : Bool) :
    Plain B ready .inside known (releaseRelationHandlesLocked env committed) := by
  refine .bind (plain_read _) (fun ordered => .bind (.ite (plain_forEach plain_retireForgotten _)
    (plain_pure ())) (fun _ => plain_forEach (fun address => plain_withRecord (fun e => ?_)) _))
  exact .ite (plain_pure ()) (.bind (plain_releaseMatching env e)
    (fun _ => plain_record mild_clearHandle))

theorem mild_pinnedTo (st : RelationState) : Mild (pinnedTo st) := fun _ h => h

theorem plain_noteIncarnation (address i : ℕ) (target : Bool) :
    Plain B ready mode known (noteIncarnation address i target) := by
  refine plain_atomic _ (fun s l a s' l' hw _ hf => ?_)
  cases hf
  refine ⟨edit_refl hw,fun _ => sameRegistry_refl s,.inr ⟨address,_,?_,rfl⟩⟩
  exact fun _ h => h

theorem plain_resolveRecord (address : ℕ) :
    Plain B ready .inside known (resolveRecord env address) := by
  refine plain_withRecord (fun e => .ite (plain_pure true) (Plain.find
    (finds_getRelationState env _ _ _ true) (plain_pure false) (fun st => .ite (plain_pure false)
    (.bind (plain_pinState st (.inr ⟨address,_,mild_pinnedTo st,rfl⟩)) (fun _ => .bind
    (plain_noteIncarnation address _ false) (fun _ => .ite
    (plain_reserveRelationHandleLocked env address) (plain_pure true)))))))

theorem plain_resolveAndPinRelations :
    Plain B ready .outside known (resolveAndPinRelations env) := by
  refine .bind (plain_read _) (fun ordered => ?_)
  have hbody : Plain B ready .inside known (do
      let ok ← forAll (resolveRecord env) ordered
      releaseUnless env ok
      pure ok) :=
    (plain_forAll (plain_resolveRecord env) ordered).bind (fun ok => .bind
      (.ite (plain_pure ()) (plain_releaseRelationHandlesLocked env false))
      (fun _ => plain_pure ok))
  exact plain_locked hbody

theorem plain_resolveForgetRecord (address : ℕ) :
    Plain B ready .inside known (resolveForgetRecord env address) := by
  refine plain_withRecord (fun e => .ite (plain_pure ()) (Plain.find (plain_recordState e)
    (plain_pure ()) (fun st => .ite (plain_pure ()) (.ite plain_faulty (.ite plain_exhausted
    (.bind (plain_pinState st (.inr ⟨address,_,mild_pinnedTo st,rfl⟩)) (fun _ => .bind
    (plain_noteIncarnation address _ true) (fun _ => .bind
    (plain_reserveRelationHandleLocked env address) (fun _ => .ite (plain_pure ())
    plain_faulty)))))))))

theorem plain_resolveAndPinForgetRelations :
    Plain B ready .outside known (resolveAndPinForgetRelations env) :=
  .bind (plain_read _) (fun ordered =>
    plain_locked (plain_forEach (plain_resolveForgetRecord env) ordered))

theorem plain_widenToRelations : Plain B ready .outside known (widenToRelations env) := by
  refine .bind (plain_read _) (fun ordered => plain_locked (plain_forAll (fun address =>
    plain_withRecord (fun e => .ite (plain_reserveRelationHandleLocked env address)
    (plain_pure true))) ordered))

theorem plain_resolveMappingSlot (databaseOid relationOid : ℕ) (nspace : Bytes) :
    Plain B ready .outside known (resolveMappingSlot env databaseOid relationOid nspace) :=
  plain_locked (Plain.find (finds_getRelationState env _ _ _ true) (plain_pure ())
    (fun st => .ite (plain_handOut st) (plain_pure ())))

theorem plain_unpinNamespace (databaseOid : ℕ) (nspace : Bytes) (st : RelationState) :
    Plain B ready .inside known (unpinNamespace env databaseOid nspace st) :=
  Plain.find (finds_getRelationState env _ _ _ false) (plain_pure ()) (fun x => .ite
    (.bind (plain_releaseRelationIdentityPin x) (fun _ => plain_removeIfUnused env _))
    (plain_pure ()))

/-! Sections in a partition. -/

theorem mild_reservedAs (r : Reservation) : Mild (reservedAs r) := by
  intro e he
  cases r <;> exact he

theorem plain_consistent (answer : Option α) : Plain B ready mode known (consistent answer) := by
  cases answer with
  | none => exact plain_faulty
  | some a => exact plain_pure a

theorem plain_section (step : Shared → Local → Answer α)
    (h : ∀ s l a s' l', step s l = some (a,s',l') → (s' = s ∧ l' = l) ∨
      ∃ p Q address f, Mild f ∧ s' = setPartition s p Q ∧ l' = setEntryAt address f l) :
    Plain B ready mode known (do let answer ← atomic step; consistent answer) := by
  refine .bind (plain_atomic _ (fun s l a s' l' hw _ hf => ?_)) plain_consistent
  obtain ⟨rfl,rfl⟩ | ⟨p,Q,address,f,hmild,rfl,rfl⟩ := h s l a s' l' hf
  · exact ⟨edit_refl hw,fun _ => sameRegistry_refl _,.inl rfl⟩
  · exact ⟨edit_partition hw p Q,fun _ => ⟨rfl,fun _ => rfl⟩,.inr ⟨address,f,hmild,rfl⟩⟩

end PgLocalCache.RecordCode
