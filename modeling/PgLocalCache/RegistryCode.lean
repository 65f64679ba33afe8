import PgLocalCache.PlainCode

/-!
# The registry and the partitions

The functions that work on relation states and on partitions are plain. A state that
they find carries a generation its slot has reached. `initialize_relation_slot` resets
the version of a slot behind the step that gave it a new generation, so that nobody
has received that generation yet.
-/

namespace PgLocalCache.RegistryCode

open KeyCodec Interleaving SharedWorld BackendCode FenceDiscipline PlainCode

variable {B : Type} [DecidableEq B] [Fintype B] {ready : Shared → Local → Prop}
variable {α β : Type} {mode : Mode} {known : Shared → Prop} (env : Env)

/-! Edits. -/

theorem edit_slot {s : Shared} (hw : World s) (i : ℕ) (f : RelationSlot → RelationSlot)
    (hversion : (∀ x, (f x).version = x.version) ∨ Fresh s i)
    (hf : ∀ x, (f x).dirtyWriters = x.dirtyWriters ∧ x.generation ≤ (f x).generation ∧
      x.incarnation ≤ (f x).incarnation) : Edit s (setSlot s i f) := by
  have hslot : ∀ j, ((setSlot s i f).slots j).dirtyWriters = (s.slots j).dirtyWriters ∧
      (s.slots j).generation ≤ ((setSlot s i f).slots j).generation ∧
      (s.slots j).incarnation ≤ ((setSlot s i f).slots j).incarnation := by
    intro j
    by_cases hj : j = i
    · subst hj
      simp only [setSlot, Function.update_self]
      exact hf _
    · simp [setSlot, hj]
  refine ⟨rfl,rfl,fun t => ?_,fun t => ?_,le_refl _,le_refl _,fun j => (hslot j).2.1,
    fun j => (hslot j).2.2,fun _ h => h,fun st hst => ?_,fun x hx => ?_⟩
  · cases t with
    | all => rfl
    | slot j => exact (hslot j).1
  · cases t with
    | all => exact .inl rfl
    | slot j =>
      by_cases hj : j = i
      · subst hj
        exact hversion.imp (fun h => by simp [countersOf, setSlot, h]) (fun h => ⟨j,rfl,h⟩)
      · exact .inl (by simp [countersOf, setSlot, hj])
  · exact (hw.grounded.states st hst).trans (hslot st.slot).2.1
  · exact (hw.grounded.handed x hx).trans (hslot x.slot).2.1

theorem sameRegistry_slot (s : Shared) (i : ℕ) (f : RelationSlot → RelationSlot)
    (hsame : ∀ x, (f x).generation = x.generation) : SameRegistry s (setSlot s i f) := by
  refine ⟨rfl,fun j => ?_⟩
  by_cases hj : j = i
  · subst hj
    simp [setSlot, hsame]
  · simp [setSlot, hj]

theorem edit_states {s : Shared} (hw : World s) (states : List RelationState) (more : List Handed)
    (hstates : ∀ st ∈ states, Dated s (handedOf st)) (hmore : ∀ x ∈ more, Dated s x) :
    Edit s { s with states := states, handed := more++s.handed } := by
  refine ⟨rfl,rfl,fun t => (by cases t <;> rfl),fun t => .inl (by cases t <;> rfl),le_refl _,
    le_refl _,fun _ => le_refl _,fun _ => le_refl _,fun x hx => List.mem_append_right _ hx,hstates,
    fun x hx => ?_⟩
  obtain hx | hx := List.mem_append.mp hx
  · exact hmore x hx
  · exact hw.grounded.handed x hx

theorem dated_update {s : Shared} (hw : World s) (key : RelationKey)
    {f : RelationState → RelationState}
    (hf : ∀ st, Dated s (handedOf st) → Dated s (handedOf (f st))) :
    ∀ st ∈ stateUpdate s.states key f, Dated s (handedOf st) := by
  intro st hst
  obtain ⟨x,hx,rfl⟩ := List.mem_map.mp hst
  split
  · exact hf x (hw.grounded.states x hx)
  · exact hw.grounded.states x hx

/-! Steps inside the registry lock. -/

theorem plain_registry (f : Shared → α × Shared)
    (h : ∀ s, World s → known s → Edit s (f s).2 ∧ SameRegistry s (f s).2) :
    Plain B ready mode known (registry f) := by
  refine plain_atomic _ (fun s l a s' l' hw hk hf => ?_)
  cases hf
  exact ⟨(h s hw hk).1,fun _ => (h s hw hk).2,.inl rfl⟩

theorem plain_updateState (key : RelationKey)
    {f : RelationState → RelationState}
    (hf : ∀ s st, known s → Dated s (handedOf st) → Dated s (handedOf (f st))) :
    Plain B ready mode known (updateState key f) := by
  refine plain_registry _ (fun s hw hk => ⟨?_,rfl,fun _ => rfl⟩)
  exact edit_states hw _ [] (dated_update hw key (hf s · hk)) (fun _ hx => (by cases hx))

theorem plain_removeState (key : RelationKey) :
    Plain B ready mode known (removeState key) := by
  refine plain_registry _ (fun s hw _ => ⟨?_,rfl,fun _ => rfl⟩)
  exact edit_states hw _ [] (fun st hst => hw.grounded.states st (List.mem_of_mem_filter hst))
    (fun _ hx => (by cases hx))

theorem plain_enterState (key : RelationKey) (relationOid : ℕ) :
    Plain B ready mode known (enterState (blankState key relationOid)) := by
  refine plain_registry _ (fun s hw _ => ⟨edit_states hw _ [] (fun st hst => ?_)
    (fun _ hx => (by cases hx)),rfl,fun _ => rfl⟩)
  obtain hst | hst := List.mem_append.mp hst
  · exact hw.grounded.states st hst
  · rw [List.mem_singleton.mp hst]
    exact Nat.zero_le _

theorem plain_slot (i : ℕ) (f : RelationSlot → RelationSlot)
    (hf : ∀ x, (f x).version = x.version ∧ (f x).dirtyWriters = x.dirtyWriters ∧
      (f x).generation = x.generation ∧ x.incarnation ≤ (f x).incarnation) :
    Plain B ready mode known (registry (fun s => ((),setSlot s i f))) := by
  refine plain_registry _ (fun s hw _ => ⟨?_,sameRegistry_slot s i f (fun x => (hf x).2.2.1)⟩)
  exact edit_slot hw i f (.inl (fun x => (hf x).1))
    (fun x => ⟨(hf x).2.1,(hf x).2.2.1.ge,(hf x).2.2.2⟩)

theorem plain_setInUse (i : ℕ) (value : Bool) : Plain B ready mode known (setInUse i value) :=
  plain_slot i _ (fun _ => ⟨rfl,rfl,rfl,le_refl _⟩)

/-- Code that finds a state: the state carries a generation its slot has reached. -/
def Finds (B : Type) [DecidableEq B] [Fintype B] (ready : Shared → Local → Prop) (mode : Mode)
    (c : Act (Option RelationState)) : Prop :=
  ∀ P K, Insensitive P → Lasting mode K → Triple (fences B) ready
    (In mode P K) c (fun found => In mode P (fun s => K s ∧ ∀ st, found = some st →
      Dated s (handedOf st)))

theorem lasting_found (found : Option RelationState) :
    Lasting mode (fun s => ∀ st, found = some st → Dated s (handedOf st)) :=
  fun _ _ hp _ h st heq => (h st heq).mono hp

theorem Plain.find {c : Act (Option RelationState)} {d : Option RelationState → Act β}
    (hc : Finds B ready mode c) (hnone : Plain B ready mode known (d none))
    (hsome : ∀ st, Plain B ready mode (fun s => known s ∧ Dated s (handedOf st)) (d (some st))) :
    Plain B ready mode known (c >>= d) := by
  intro P K hP hK hk
  refine .bind (hc P K hP hK) (fun found => ?_)
  have hlast := lasting_and hK (lasting_found found)
  cases found with
  | none =>
    exact (hnone P _ hP hlast (fun s hs => hk s hs.1)).conseq (fun _ _ h => h)
      (fun _ _ _ h => ⟨h.1,h.2.1,h.2.2.1⟩)
  | some st =>
    exact (hsome st P _ hP hlast (fun s hs => ⟨hk s hs.1,hs.2 st rfl⟩)).conseq (fun _ _ h => h)
      (fun _ _ _ h => ⟨h.1,h.2.1,h.2.2.1⟩)

theorem Plain.finds {c : Act α} {d : α → Act (Option RelationState)}
    (hc : Plain B ready mode (fun _ => True) c) (hd : ∀ a, Finds B ready mode (d a)) :
    Finds B ready mode (c >>= d) :=
  fun P K hP hK => .bind (hc P K hP hK (fun _ _ => trivial)) (fun a => hd a P K hP hK)

theorem finds_none : Finds B ready mode (pure none) :=
  fun _ _ _ _ => .pure none (fun _ _ h => ⟨h.1,h.2.1,h.2.2,fun _ heq => (by cases heq)⟩)

theorem finds_ite {p : Prop} [Decidable p] {c d : Act (Option RelationState)}
    (hc : Finds B ready mode c) (hd : Finds B ready mode d) :
    Finds B ready mode (if p then c else d) := by
  split
  · exact hc
  · exact hd

theorem finds_findState (key : RelationKey) : Finds B ready mode (findState key) := by
  intro P K hP hK
  refine .atomic _ (in_stable hK) (fun s l a s' l' hp ho hf => ?_)
    (fun s l a s' l' hp ho hf _ => ?_)
  · cases hf
    exact (edit_refl ho.world).move ho rfl (fun _ => sameRegistry_refl s)
  · cases hf
    exact ⟨hp.1,hp.2.1,hp.2.2,
      fun st heq => ho.world.grounded.states st (List.mem_of_find?_eq_some heq)⟩

/-! Generations. -/

theorem advanced_generation (s : Shared) (i : ℕ) :
    ((setSlot s i (fun x => { x with generation := x.generation+1 })).slots i).generation =
      (s.slots i).generation+1 := by
  simp [setSlot]

theorem edit_generation {s : Shared} (hw : World s) (i : ℕ) :
    Edit s (setSlot s i (fun x => { x with generation := x.generation+1 })) :=
  edit_slot hw i _ (.inl (fun _ => rfl)) (fun _ => ⟨rfl,Nat.le_succ _,le_refl _⟩)

theorem plain_advanceGeneration (i : ℕ) : Plain B ready .inside known (advanceGeneration i) := by
  refine plain_atomic _ (fun s l a s' l' hw _ hf => ?_)
  cases checked_eq hf
  exact ⟨edit_generation hw i,fun hno => absurd rfl hno,.inl rfl⟩

/-- The slot has a generation that nobody has received. -/
def Renewed (i generation : ℕ) (s : Shared) : Prop := Fresh s i ∧ Dated s ⟨i,generation⟩

theorem lasting_renewed (i generation : ℕ) : Lasting .steady (Renewed i generation) := by
  intro s s' hp hsame h
  refine ⟨fun x hx hslot => ?_,h.2.mono hp⟩
  rw [(hsame rfl).handed] at hx
  rw [(hsame rfl).generation]
  exact h.1 x hx hslot

theorem triple_advanceGeneration {P : Local → Prop} {K : Shared → Prop}
    (hK : Lasting .inside K) (i : ℕ) :
    Triple (fences B) ready (In .inside P K) (advanceGeneration i)
      (fun previous => In .steady P (fun s => K s ∧ Renewed i (previous+1) s)) := by
  refine .atomic _ (in_stable hK) (fun s l a s' l' hp ho hf => ?_)
    (fun s l a s' l' hp ho hf _ => ?_)
  · cases checked_eq hf
    exact (edit_generation ho.world i).move ho rfl (fun hno => (by rw [hp.1] at hno; cases hno))
  · cases checked_eq hf
    obtain ⟨rest,hrest⟩ := Multiset.exists_cons_of_mem ho.mem
    have hmove : Move s l _ l := (edit_generation ho.world i).move ho rfl
      (fun hno => (by rw [hp.1] at hno; cases hno))
    refine ⟨hp.1,hp.2.1,
      hK s _ (hmove.change.progress hrest hrest) (fun hno => (by cases hno)) hp.2.2,
      fun x hx hslot => ?_,(advanced_generation s i).ge⟩
    have hold := ho.world.grounded.handed x hx
    rw [Dated, hslot] at hold
    rw [advanced_generation]
    omega

theorem plain_renewIncarnation (i : ℕ) : Plain B ready mode known (renewIncarnation i) := by
  have hcounter : Plain B ready mode known advanceIncarnationCounter := by
    refine plain_atomic _ (fun s l a s' l' hw _ hf => ?_)
    cases checked_eq hf
    exact ⟨⟨rfl,rfl,fun t => (by cases t <;> rfl),fun t => .inl (by cases t <;> rfl),le_refl _,
      le_refl _,fun _ => le_refl _,fun _ => le_refl _,fun _ h => h,hw.grounded.states,
      hw.grounded.handed⟩,fun _ => ⟨rfl,fun _ => rfl⟩,.inl rfl⟩
  refine hcounter.bind (fun _ => .bind (plain_read _) (fun _ => .ite plain_faulty (.bind ?_
    (fun _ => plain_pure _))))
  exact plain_slot i _ (fun _ => ⟨rfl,rfl,rfl,Nat.le_add_right _ _⟩)

theorem plain_poisonSlot (i : ℕ) : Plain B ready mode known (poisonSlot i) :=
  (plain_setInUse i true).bind (fun _ => plain_pure false)

theorem plain_subVersion (i version generation : ℕ) :
    Plain B ready mode (Renewed i generation) (subVersion i version) := by
  refine .bind (plain_registry _ (fun s hw hk => ?_)) (fun _ => .ite (plain_pure ()) plain_faulty)
  split
  · exact ⟨edit_refl hw,sameRegistry_refl s⟩
  · have hreset := edit_slot hw i (fun x => { x with version := x.version-version }) (.inr hk.1)
      (fun _ => ⟨rfl,le_refl _,le_refl _⟩)
    exact ⟨hreset,sameRegistry_slot s i (fun x => { x with version := x.version-version })
      (fun _ => rfl)⟩

theorem plain_settleSlot (key : RelationKey) (i generation : ℕ) :
    Plain B ready mode (Renewed i generation) (settleSlot key i generation) := by
  refine .bind (plain_read _) (fun version => .bind (plain_read _) (fun _ => .ite
    (plain_poisonSlot i) (.bind (.ite (plain_subVersion i version generation) (plain_pure ()))
    (fun _ => .bind (plain_updateState key ?_) (fun _ => plain_pure true)))))
  exact fun s st hk _ => hk.2

theorem plain_initializeRelationSlot (st : RelationState) (reuse : Bool) :
    Plain B ready .inside known (initializeRelationSlot env st reuse) := by
  intro P K hP hK hk
  have hchoose : Plain B ready .inside known (chooseSlot env st reuse) :=
    .ite (plain_pure _) (plain_read _)
  refine .bind (hchoose P K hP hK hk) (fun index => ?_)
  cases index with
  | none => exact plain_pure false P K hP hK hk
  | some i =>
    refine .bind (triple_advanceGeneration hK i) (fun previous => ?_)
    have hrest : Plain B ready .steady (Renewed i (previous+1)) (do
        let incarnation ← renewIncarnation i
        occupySlot i reuse
        if previous+1 = 0 ∨ incarnation = 0 then poisonSlot i
        else settleSlot st.key i (previous+1)) :=
      (plain_renewIncarnation i).bind (fun _ => .bind (.ite (plain_pure ()) (plain_setInUse i true))
        (fun _ => .ite (plain_poisonSlot i) (plain_settleSlot st.key i (previous+1))))
    have hlast : Lasting .steady (fun s => K s ∧ Renewed i (previous+1) s) :=
      lasting_and (fun s s' hp _ => hK s s' hp (fun hno => (by cases hno))) (lasting_renewed i _)
    exact (hrest P _ hP hlast (fun _ hs => hs.2)).conseq (fun _ _ h => h)
      (fun _ _ _ h => ⟨h.1,h.2.1,h.2.2.1⟩)

theorem plain_releaseRelationSlot (st : RelationState) :
    Plain B ready .inside known (releaseRelationSlot env st) :=
  .ite ((plain_advanceGeneration st.slot).bind (fun _ => plain_setInUse _ _)) (plain_pure ())

/-! Relation states. -/

theorem finds_createState (key : RelationKey) (relationOid : ℕ) :
    Finds B ready .inside (createState env key relationOid) := by
  refine Plain.finds (plain_read _) (fun _ => finds_ite finds_none (Plain.finds plain_either
    (fun _ => finds_ite finds_none (Plain.finds (plain_enterState key relationOid) (fun _ =>
    Plain.finds (plain_initializeRelationSlot env _ false) (fun _ => finds_ite
    (finds_findState key) (Plain.finds (plain_removeState key) (fun _ => finds_none))))))))

theorem finds_getRelationState (databaseOid relationOid : ℕ) (nspace : Bytes) (create : Bool) :
    Finds B ready .inside (getRelationState env databaseOid relationOid nspace create) := by
  intro P K hP hK
  refine .bind (finds_findState _ P K hP hK) (fun found => ?_)
  cases found with
  | none =>
    refine Triple.conseq (finds_ite (finds_createState env _ relationOid) finds_none P K hP hK)
      (fun _ _ h => ⟨h.1,h.2.1,h.2.2.1⟩) (fun _ _ _ h => h)
  | some st =>
    have hkept : ∀ c, Finds B ready .inside c → Triple (fences B) ready
        (In .inside P (fun s => K s ∧ ∀ x, some st = some x → Dated s (handedOf x))) c
        (fun found => In .inside P (fun s => K s ∧ ∀ x, found = some x → Dated s (handedOf x))) :=
      fun c hc => (hc P K hP hK).conseq (fun _ _ h => ⟨h.1,h.2.1,h.2.2.1⟩) (fun _ _ _ h => h)
    refine .ite (fun _ => hkept _ ?_) (fun _ => .ite (fun _ => hkept _ ?_) (fun _ => ?_))
    · exact finds_ite finds_none (Plain.finds (plain_read _) (fun _ => finds_ite finds_none
        (Plain.finds (plain_releaseRelationSlot env st) (fun _ => Plain.finds
        (plain_removeState _) (fun _ => finds_createState env _ relationOid)))))
    · refine finds_ite finds_none (Plain.finds (plain_initializeRelationSlot env st true)
        (fun _ => finds_ite (Plain.finds (plain_updateState _ ?_) (fun _ => finds_findState _))
        finds_none))
      exact fun _ _ _ h => h
    · exact .pure _ (fun _ _ h => h)

theorem plain_pinState (st : RelationState) {after : Local → Local}
    (hafter : after = id ∨ ∃ address g, Mild g ∧ after = setEntryAt address g) :
    Plain B ready .inside (fun s => known s ∧ Dated s (handedOf st)) (pinState st after) := by
  refine plain_atomic _ (fun s l a s' l' hw hk hf => ?_)
  cases hf
  refine ⟨edit_states hw _ [handedOf st] (dated_update hw st.key (fun _ h => h)) (fun x hx => ?_),
    fun hno => absurd rfl hno,?_⟩
  · rw [List.mem_singleton.mp hx]
    exact hk.2
  · obtain rfl | ⟨address,g,hg,rfl⟩ := hafter
    · exact .inl rfl
    · exact .inr ⟨address,g,hg,rfl⟩

theorem plain_handOut (st : RelationState) :
    Plain B ready .inside (fun s => known s ∧ Dated s (handedOf st)) (handOut st) := by
  refine plain_atomic _ (fun s l a s' l' hw hk hf => ?_)
  cases hf
  refine ⟨edit_states hw _ [handedOf st] hw.grounded.states (fun x hx => ?_),
    fun hno => absurd rfl hno,.inl rfl⟩
  rw [List.mem_singleton.mp hx]
  exact hk.2

theorem plain_releaseRelationIdentityPin (st : RelationState) :
    Plain B ready mode known (releaseRelationIdentityPin st) := by
  refine .bind (plain_read _) (fun found => ?_)
  cases found with
  | none => exact plain_faulty
  | some x => exact .ite plain_faulty (plain_updateState _ (fun _ _ _ h => h))

end PgLocalCache.RegistryCode
