import PgLocalCache.FenceDiscipline

/-!
# Code that leaves the fences alone

Most functions read counters, edit the registry or a partition and write flags of dirty
records, and neither enter nor leave a fence. `Plain` code keeps what is known about
the fences of its backend and about the tags; it is closed under the constructs of
programs, so that a function is plain when its steps are.
-/

namespace PgLocalCache.PlainCode

open CacheState DirtySet Interleaving FenceLedger SharedWorld BackendCode FenceDiscipline

variable {B : Type} [DecidableEq B] [Fintype B] {ready : Shared → Local → Prop}
variable {α β : Type}

/-! Assertions. -/

/-- A record without a published fence gets none. -/
def Mild (f : Entry → Entry) : Prop :=
  ∀ e, e.sharedRelationFencePublished = false → (f e).sharedRelationFencePublished = false

/-- A fact about a backend that mild updates of its records and the registry lock keep. -/
structure Insensitive (P : Local → Prop) : Prop where
  records : ∀ l address f, Mild f → P l → P (setEntryAt address f l)
  registry : ∀ l value, P l → P (note (setRegistry value) l)

/-- Code outside of the registry lock, inside of it, and inside of it while nothing is handed out
and no generation changes. -/
inductive Mode where
  | outside
  | inside
  | steady
  deriving DecidableEq

def Mode.locked : Mode → Bool
  | .outside => false
  | _ => true

/-- A fact about the shared state that the steps of a mode keep. -/
def Lasting (mode : Mode) (K : Shared → Prop) : Prop :=
  ∀ s s', Progress s s' → (mode = .steady → SameRegistry s s') → K s → K s'

def In (mode : Mode) (P : Local → Prop) (K : Shared → Prop) (s : Shared) (l : Local) : Prop :=
  l.held.registry = mode.locked ∧ P l ∧ K s

theorem in_stable {mode : Mode} {P : Local → Prop} {K : Shared → Prop} (hK : Lasting mode K) :
    Stable (fences B) (In mode P K) := by
  intro s s' l hp hr
  refine ⟨hp.1,hp.2.1,hK s s' hr.progress (fun hsteady => hr.registry ?_) hp.2.2⟩
  rw [hp.1, hsteady]
  rfl

theorem lasting_dated (mode : Mode) (x : Handed) : Lasting mode (fun s => Dated s x) :=
  fun _ _ hp _ h => h.mono hp

theorem lasting_and {mode : Mode} {K K' : Shared → Prop} (h : Lasting mode K)
    (h' : Lasting mode K') : Lasting mode (fun s => K s ∧ K' s) :=
  fun s s' hp hr hk => ⟨h s s' hp hr hk.1,h' s s' hp hr hk.2⟩

/-- Code that keeps every insensitive fact and every lasting fact, given `known`. -/
def Plain (B : Type) [DecidableEq B] [Fintype B] (ready : Shared → Local → Prop) (mode : Mode)
    (known : Shared → Prop) (c : Act α) : Prop :=
  ∀ P K, Insensitive P → Lasting mode K → (∀ s, K s → known s) →
    Triple (fences B) ready (In mode P K) c (fun _ => In mode P K)

variable {mode : Mode} {known : Shared → Prop}

/-! Constructs. -/

theorem plain_pure (a : α) : Plain B ready mode known (pure a) :=
  fun _ _ _ _ _ => .pure a (fun _ _ h => h)

theorem Plain.bind {c : Act α} {d : α → Act β} (hc : Plain B ready mode known c)
    (hd : ∀ a, Plain B ready mode known (d a)) : Plain B ready mode known (c >>= d) :=
  fun P K hP hK hk => .bind (hc P K hP hK hk) (fun a => hd a P K hP hK hk)

theorem Plain.ite {p : Prop} [Decidable p] {c d : Act α} (hc : Plain B ready mode known c)
    (hd : Plain B ready mode known d) : Plain B ready mode known (if p then c else d) := by
  split
  · exact hc
  · exact hd

theorem plain_faulty : Plain B ready mode known (faulty : Act α) :=
  fun _ _ _ _ _ _ _ s l _ => .fault s l

theorem plain_exhausted : Plain B ready mode known (exhausted : Act α) :=
  fun _ _ _ _ _ _ _ s l _ => .act _ s l (fun _ _ _ _ _ _ h => (by cases h))
    (fun _ _ _ _ _ _ h => (by cases h))

theorem plain_either : Plain B ready mode known (either : Act Bool) :=
  fun _ _ _ _ _ => .either (fun _ _ _ h => h)

theorem plain_forAll {visit : α → Act Bool} (h : ∀ a, Plain B ready mode known (visit a))
    (l : List α) : Plain B ready mode known (forAll visit l) := by
  induction l with
  | nil => exact plain_pure true
  | cons a l ih => exact (h a).bind (fun _ => .ite ih (plain_pure false))

theorem plain_forEach {visit : α → Act Unit} (h : ∀ a, Plain B ready mode known (visit a))
    (l : List α) : Plain B ready mode known (forEach visit l) := by
  induction l with
  | nil => exact plain_pure ()
  | cons a l ih => exact (h a).bind (fun _ => ih)

/-! Steps. -/

theorem Lasting.after {K : Shared → Prop} (hK : Lasting mode K) {s s' : Shared} {l l' : Local}
    (ho : Own s l) (hm : Move s l s' l') (hsame : mode = .steady → SameRegistry s s') (hk : K s) :
    K s' := by
  obtain ⟨rest,hrest⟩ := Multiset.exists_cons_of_mem ho.mem
  have hbehind : s'.holders = l'.held ::ₘ rest := by
    rw [hm.holders, hrest, Multiset.erase_cons_head]
  exact hK s s' (hm.change.progress hrest hbehind) hsame hk

theorem triple_move {P : Local → Prop} {Q : α → Local → Prop} {K : Shared → Prop}
    (hK : Lasting mode K) (f : Shared → Local → Option (α × Shared × Local))
    (h : ∀ s l a s' l', In mode P K s l → Own s l → f s l = some (a,s',l') → Move s l s' l' ∧
      (mode = .steady → SameRegistry s s') ∧ l'.held.registry = l.held.registry ∧ Q a l') :
    Triple (fences B) ready (In mode P K) (atomic f)
      (fun a => In mode (Q a) K) := by
  refine .atomic f (in_stable hK) (fun s l a s' l' hp ho hf => (h s l a s' l' hp ho hf).1)
    (fun s l a s' l' hp ho hf _ => ?_)
  obtain ⟨hm,hsame,hreg,hq⟩ := h s l a s' l' hp ho hf
  exact ⟨hreg.trans hp.1,hq,hK.after ho hm hsame hp.2.2⟩

theorem triple_edit {P : Local → Prop} {Q : α → Local → Prop} {K : Shared → Prop}
    (hK : Lasting mode K) (f : Shared → Local → Option (α × Shared × Local))
    (h : ∀ s l a s' l', World s → In mode P K s l → f s l = some (a,s',l') → Edit s s' ∧
      (mode ≠ .inside → SameRegistry s s') ∧ l'.held = l.held ∧ Q a l') :
    Triple (fences B) ready (In mode P K) (atomic f)
      (fun a => In mode (Q a) K) := by
  refine triple_move hK f (fun s l a s' l' hp ho hf => ?_)
  obtain ⟨he,hsame,hl,hq⟩ := h s l a s' l' ho.world hp hf
  refine ⟨he.move ho hl (fun hreg => hsame (fun hmode => ?_)),fun hmode => hsame ?_,
    congrArg Held.registry hl,hq⟩
  · rw [hp.1, hmode] at hreg
    cases hreg
  · rw [hmode]
    intro hno
    cases hno

theorem plain_atomic (f : Shared → Local → Option (α × Shared × Local))
    (h : ∀ s l a s' l', World s → known s → f s l = some (a,s',l') → Edit s s' ∧
      (mode ≠ .inside → SameRegistry s s') ∧
        (l' = l ∨ ∃ address g, Mild g ∧ l' = setEntryAt address g l)) :
    Plain B ready mode known (atomic f) := by
  intro P K hP hK hk
  refine triple_edit hK f (fun s l a s' l' hw hp hf => ?_)
  obtain ⟨he,hsame,rfl | ⟨address,g,hg,rfl⟩⟩ := h s l a s' l' hw (hk s hp.2.2) hf
  · exact ⟨he,hsame,rfl,hp.2.1⟩
  · exact ⟨he,hsame,rfl,hP.records l address g hg hp.2.1⟩

theorem edit_refl {s : Shared} (hw : World s) : Edit s s :=
  ⟨rfl,rfl,fun _ => rfl,fun _ => .inl rfl,le_refl _,le_refl _,fun _ => le_refl _,
    fun _ => le_refl _,fun _ h => h,hw.grounded⟩

theorem sameRegistry_refl (s : Shared) : SameRegistry s s := ⟨rfl,fun _ => rfl⟩

theorem plain_read (f : Shared → Local → α) :
    Plain B ready mode known (atomic (fun s l => some (f s l,s,l))) := by
  refine plain_atomic _ (fun s l a s' l' hw _ hf => ?_)
  cases hf
  exact ⟨edit_refl hw,fun _ => sameRegistry_refl s,.inl rfl⟩

theorem plain_record {address : ℕ} {f : Entry → Entry} (hf : Mild f) :
    Plain B ready mode known (modifyLocal (setEntryAt address f)) := by
  refine plain_atomic _ (fun s l a s' l' hw _ heq => ?_)
  cases heq
  exact ⟨edit_refl hw,fun _ => sameRegistry_refl s,.inr ⟨address,f,hf,rfl⟩⟩

theorem plain_withRecord {address : ℕ} {f : Entry → Act α}
    (h : ∀ e, Plain B ready mode known (f e)) :
    Plain B ready mode known (withRecord address f) := by
  refine .bind (plain_read _) (fun found => ?_)
  cases found with
  | none => exact plain_faulty
  | some e => exact h e

/-! Outside of the lock. -/

abbrev Here (P : Local → Prop) : Shared → Local → Prop := In .outside P (fun _ => True)

theorem lasting_true (mode : Mode) : Lasting mode (fun _ => True) := fun _ _ _ _ _ => trivial

theorem Plain.here {c : Act α} {P : Local → Prop} (h : Plain B ready .outside (fun _ => True) c)
    (hP : Insensitive P) :
    Triple (fences B) ready (Here P) c (fun _ => Here P) :=
  h P _ hP (lasting_true _) (fun _ h => h)

/-! Steps in a partition. -/

theorem edit_partition {s : Shared} (hw : World s) (p : ℕ) (P : Partition) :
    Edit s (setPartition s p P) :=
  ⟨rfl,rfl,fun t => (by cases t <;> rfl),fun t => .inl (by cases t <;> rfl),le_refl _,le_refl _,
    fun _ => le_refl _,fun _ => le_refl _,fun _ h => h,hw.grounded.states,hw.grounded.handed⟩

end PgLocalCache.PlainCode
