import PgLocalCache.RecordCode
import PgLocalCache.DirtyRuns

/-!
# Code that raises and drops fences

A backend holds the fence of its global fallback, one fence for each record whose fence
is published, and what it left behind. Raising enters a fence, moves the version and
writes the note; dropping moves the version again and leaves.
-/

namespace PgLocalCache.FenceCode

open DirtySet Interleaving FenceLedger SharedWorld BackendCode FenceDiscipline PlainCode

variable {B : Type} [DecidableEq B] [Fintype B] {ready : Shared → Local → Prop}
variable {α : Type} {mode : Mode} {P Q : Local → Prop} {K : Shared → Prop}

/-! Steps on a fence. -/

theorem move_exchange {s g : Shared} {l l' : Local} {h : Held} (hl : l'.held = h)
    (hg : g.holders = s.holders)
    (hc : Change s l.held { g with holders := h ::ₘ s.holders.erase l.held } h) :
    Move s l (exchange l.held h g) l' := by
  subst hl
  rw [exchange, hg]
  exact ⟨rfl,hc⟩

theorem holders_setCounters (s : Shared) (t : Target) (f : Counters → Counters) :
    (setCounters s t f).holders = s.holders := by
  cases t <;> rfl

theorem sameRegistry_exchange (s : Shared) (t : Target) (f : Counters → Counters) (h h' : Held) :
    SameRegistry s (exchange h h' (setCounters s t f)) :=
  (sameTags_setCounters s t f _).toSameRegistry

theorem triple_enter (hK : Lasting mode K) (t : Target)
    (hQ : ∀ l, P l → Q (note (enteredFence t) l)) :
    Triple (fences B) ready (In mode P K) (enter t)
      (fun _ => In mode Q K) := by
  refine triple_move (Q := fun _ => Q) hK _ (fun s l a s' l' hp ho hf => ?_)
  cases checked_eq hf
  exact ⟨move_exchange rfl (holders_setCounters s t _) (change_enter ho.world.grounded t _),
    fun _ => sameRegistry_exchange s t _ _ _,rfl,hQ l hp.2.1⟩

theorem triple_advance (hK : Lasting mode K) (t : Target) {after : Local → Local}
    (hafter : ∀ l, (after l).held = l.held) (hQ : ∀ l, P l → Q (after (note (movedFences t) l))) :
    Triple (fences B) ready (In mode P K) (advance t after)
      (fun _ => In mode Q K) := by
  refine triple_move (Q := fun _ => Q) hK _ (fun s l a s' l' hp ho hf => ?_)
  cases checked_eq hf
  refine ⟨move_exchange (hafter _) (holders_setCounters s t _)
    (change_advance ho.world.grounded t _),fun _ => sameRegistry_exchange s t _ _ _,?_,hQ l hp.2.1⟩
  rw [hafter]
  rfl

theorem leave_move {s : Shared} {l : Local} {t : Target} (ho : Own s l)
    (hmem : ⟨t,true⟩ ∈ l.held.fences) : Move s l (exchange l.held (leftFence t l.held)
      (setCounters s t dropWriter)) (note (leftFence t) l) :=
  move_exchange rfl (holders_setCounters s t _)
    (change_leave ho.world.grounded _ hmem (ho.writers_pos hmem))

theorem triple_leave (hK : Lasting mode K) {t : Target} (hmem : ∀ l, P l → ⟨t,true⟩ ∈ l.held.fences)
    (hQ : ∀ l, P l → Q (note (leftFence t) l)) :
    Triple (fences B) ready (In mode P K) (leave t)
      (fun _ => In mode Q K) := by
  have htest : ∀ s l, In mode P K s l → Own s l → ((countersOf s t).writers != 0) = true :=
    fun s l hp ho => bne_iff_ne.mpr (ho.writers_pos (hmem l hp.2.1))
  refine .bind (m := fun ok => In mode (fun l => ok = true ∧ Q l) K)
    (triple_move (Q := fun ok l => ok = true ∧ Q l) hK _ (fun s l a s' l' hp ho hf => ?_))
    (fun ok => .given (fun _ _ h => h.2.1.1) (fun hok => ?_))
  · rw [if_pos (htest s l hp ho)] at hf
    cases hf
    exact ⟨leave_move ho (hmem l hp.2.1),fun _ => sameRegistry_exchange s t _ _ _,rfl,rfl,
      hQ l hp.2.1⟩
  · rw [hok]
    exact .pure () (fun _ _ h => ⟨h.1,h.2.1.2,h.2.2⟩)

theorem triple_leaveGlobal (hK : Lasting mode K)
    (hmem : ∀ l, P l → ⟨.all,true⟩ ∈ l.held.fences) (hQ : ∀ l, P l → Q (note (leftFence .all) l)) :
    Triple (fences B) ready (In mode P K) leaveGlobal
      (fun _ => In mode Q K) := by
  -- a writer is counted, so that the subtraction does not wrap
  have hsame : ∀ s l, In mode P K s l → Own s l →
      setCounters s .all dropWriter64 = setCounters s .all dropWriter := by
    intro s l hp ho
    have hpos := ho.writers_pos (hmem l hp.2.1)
    simp only [setCounters, dropWriter64, dropWriter, minusOne64, if_pos (Nat.pos_of_ne_zero hpos)]
  refine triple_move (Q := fun _ => Q) hK _ (fun s l a s' l' hp ho hf => ?_)
  simp only [hsame s l hp ho] at hf
  cases hf
  exact ⟨leave_move ho (hmem l hp.2.1),fun _ => sameRegistry_exchange s .all _ _ _,rfl,
    hQ l hp.2.1⟩

theorem triple_modifyLocal (hK : Lasting mode K) {f : Local → Local}
    (hf : ∀ l, (f l).held = l.held) (hQ : ∀ l, P l → Q (f l)) :
    Triple (fences B) ready (In mode P K) (modifyLocal f)
      (fun _ => In mode Q K) := by
  refine triple_edit hK _ (fun s l a s' l' hw hp heq => ?_)
  cases heq
  exact ⟨edit_refl hw,fun _ => sameRegistry_refl s,hf l,hQ l hp.2.1⟩

theorem triple_readLocal (hK : Lasting mode K) (f : Local → α) :
    Triple (fences B) ready (In mode P K) (readLocal f)
      (fun a => In mode (fun l => P l ∧ f l = a) K) := by
  refine triple_edit (Q := fun a l => P l ∧ f l = a) hK _ (fun s l a s' l' hw hp heq => ?_)
  cases heq
  exact ⟨edit_refl hw,fun _ => sameRegistry_refl s,rfl,hp.2.1,rfl⟩

theorem triple_withRecord {address : ℕ} {f : Entry → Act α} {post : α → Shared → Local → Prop}
    (hK : Lasting mode K) (h : ∀ e, Triple (fences B) ready
      (In mode (fun l => P l ∧ entryAt l.dirty.table address = some e) K) (f e) post) :
    Triple (fences B) ready (In mode P K) (withRecord address f)
      post := by
  refine .bind (triple_readLocal hK _) (fun found => ?_)
  cases found with
  | none => exact fun _ _ s l _ => .fault s l
  | some e => exact h e

/-! A fence that is not noted yet. -/

def withFences (fences : List (Fence Target)) (l : Local) : Local :=
  { l with held := { l.held with fences := fences } }

/-- The backend holds one more fence than it notes. -/
def Ahead (f : Fence Target) (P : Local → Prop) (l : Local) : Prop :=
  ∃ fences, l.held.fences = f::fences ∧ P (withFences fences l)

/-- The versions have changed since the fences were entered. -/
def AllMoved (P : Local → Prop) : Prop := ∀ l, P l → ∀ f ∈ l.held.fences, f.moved = true

theorem moveFences_moved {t : Target} {fs : List (Fence Target)} (h : ∀ f ∈ fs, f.moved = true) :
    moveFences t fs = fs := by
  refine (List.map_congr_left (fun f hf => ?_)).trans (List.map_id _)
  split
  · rename_i ht
    have hmoved := h f hf
    rw [id, ← ht, ← hmoved]
  · rfl

theorem ahead_moved {t : Target} {moved : Bool} {l : Local} (hP : AllMoved P)
    (h : Ahead ⟨t,moved⟩ P l) : Ahead ⟨t,true⟩ P (note (movedFences t) l) := by
  obtain ⟨fences,hf,hl⟩ := h
  refine ⟨fences,?_,hl⟩
  show moveFences t l.held.fences = _
  have hrest := moveFences_moved (t := t) (hP _ hl)
  rw [hf, moveFences, List.map_cons, if_pos rfl]
  exact congrArg _ hrest

theorem triple_enter_ahead (hK : Lasting mode K) (t : Target) :
    Triple (fences B) ready (In mode P K) (enter t)
      (fun _ => In mode (Ahead ⟨t,false⟩ P) K) :=
  triple_enter hK t (fun l hl => ⟨l.held.fences,rfl,hl⟩)

theorem triple_advance_ahead {t : Target} {moved : Bool} (hK : Lasting mode K) (hP : AllMoved P) :
    Triple (fences B) ready (In mode (Ahead ⟨t,moved⟩ P) K)
      (advance t id) (fun _ => In mode (Ahead ⟨t,true⟩ P) K) :=
  triple_advance hK t (fun _ => rfl) (fun _ hl => ahead_moved hP hl)

theorem triple_leave_ahead {t : Target} (hK : Lasting mode K) :
    Triple (fences B) ready (In mode (Ahead ⟨t,true⟩ P) K) (leave t)
      (fun _ => In mode P K) := by
  refine triple_leave hK ?_ ?_
  · rintro l ⟨fences,hf,_⟩
    rw [hf]
    exact .head _
  · rintro l ⟨fences,hf,hl⟩
    have hout : note (leftFence t) l = withFences fences l := by
      rw [note, leftFence, hf, List.erase_cons_head, withFences]
    rw [hout]
    exact hl

/-! Steps that no fence guards. -/

theorem triple_tag (hK : Lasting mode K) (counter : Shared → ℕ) (f : Shared → Shared)
    (h : ∀ s, World s → Edit s (f s) ∧ SameRegistry s (f s)) :
    Triple (fences B) ready (In mode P K)
      (atomic (fun s l => checked (counter s) ((),f s,l))) (fun _ => In mode P K) := by
  refine triple_edit hK _ (fun s l a s' l' hw hp hf => ?_)
  cases checked_eq hf
  exact ⟨(h s hw).1,fun _ => (h s hw).2,rfl,hp.2.1⟩

theorem triple_advanceGlobalEpoch (hK : Lasting mode K) :
    Triple (fences B) ready (In mode P K) advanceGlobalEpoch
      (fun _ => In mode P K) :=
  triple_tag hK _ _ (fun s hw => ⟨⟨rfl,rfl,fun t => (by cases t <;> rfl),
    fun t => .inl (by cases t <;> rfl),le_refl _,Nat.le_succ _,fun _ => le_refl _,
    fun _ => le_refl _,fun _ h => h,hw.grounded.states,hw.grounded.handed⟩,rfl,fun _ => rfl⟩)

theorem triple_advanceConfigGeneration (hK : Lasting mode K) :
    Triple (fences B) ready (In mode P K) advanceConfigGeneration
      (fun _ => In mode P K) :=
  triple_tag hK _ _ (fun s hw => ⟨⟨rfl,rfl,fun t => (by cases t <;> rfl),
    fun t => .inl (by cases t <;> rfl),Nat.le_succ _,le_refl _,fun _ => le_refl _,
    fun _ => le_refl _,fun _ h => h,hw.grounded.states,hw.grounded.handed⟩,rfl,fun _ => rfl⟩)

theorem triple_read (hK : Lasting mode K) (f : Shared → α) {K' : α → Shared → Prop}
    (h : ∀ s, World s → K s → K' (f s) s) :
    Triple (fences B) ready (In mode P K)
      (atomic (fun s l => some (f s,s,l))) (fun a => In mode P (K' a)) := by
  refine .atomic _ (in_stable hK) (fun s l a s' l' hp ho hf => ?_)
    (fun s l a s' l' hp ho hf _ => ?_)
  · cases hf
    exact (edit_refl ho.world).move ho rfl (fun _ => sameRegistry_refl s)
  · cases hf
    exact ⟨hp.1,hp.2.1,h s ho.world hp.2.2⟩

end PgLocalCache.FenceCode
