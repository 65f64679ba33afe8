import Mathlib.Tactic

/-!
# Postconditions of programs that change a state and may raise

A program of type `EStateM ε σ α` keeps the state it has reached when it raises.
`Ensures x s Q E` says that `x`, started in `s`, returns with `Q` or raises with
`E`. The rules below run a program symbolically, one action at a time.
-/

namespace PgLocalCache.Outcome

variable {ε σ α β : Type}

def Ensures (x : EStateM ε σ α) (s : σ) (Q : α → σ → Prop) (E : ε → σ → Prop) : Prop :=
  match x s with
  | .ok a s' => Q a s'
  | .error e s' => E e s'

abbrev Never (_ : ε) (_ : σ) : Prop := False

variable {x : EStateM ε σ α} {s : σ} {Q Q' : α → σ → Prop} {E E' : ε → σ → Prop}

@[simp] theorem ensures_pure (a : α) : Ensures (pure a) s Q E ↔ Q a s := Iff.rfl

@[simp] theorem ensures_bind (f : α → EStateM ε σ β) (R : β → σ → Prop) :
    Ensures (x >>= f) s R E ↔ Ensures x s (fun a s' => Ensures (f a) s' R E) E := by
  simp only [Ensures, bind, EStateM.bind]
  cases x s <;> rfl

theorem get_bind_apply (f : σ → EStateM ε σ α) : (get >>= f : EStateM ε σ α) s = f s s := rfl

@[simp] theorem ensures_get (R : σ → σ → Prop) :
    Ensures (get : EStateM ε σ σ) s R E ↔ R s s := Iff.rfl

@[simp] theorem ensures_set (t : σ) (R : PUnit → σ → Prop) :
    Ensures (set t : EStateM ε σ PUnit) s R E ↔ R ⟨⟩ t := Iff.rfl

@[simp] theorem ensures_modify (f : σ → σ) (R : PUnit → σ → Prop) :
    Ensures (modify f : EStateM ε σ PUnit) s R E ↔ R ⟨⟩ (f s) := Iff.rfl

theorem ensures_ite {p : Prop} [Decidable p] {y : EStateM ε σ α} :
    Ensures (if p then x else y) s Q E ↔ (p → Ensures x s Q E) ∧ (¬p → Ensures y s Q E) := by
  by_cases h : p <;> simp [h]

theorem ensures_mono (h : Ensures x s Q E) (hq : ∀ a t, Q a t → Q' a t)
    (he : ∀ e t, E e t → E' e t) : Ensures x s Q' E' := by
  unfold Ensures at *
  cases hx : x s with
  | ok a t => rw [hx] at h; exact hq a t h
  | error e t => rw [hx] at h; exact he e t h

theorem ensures_imp (h : Ensures x s Q E) (hq : ∀ a t, Q a t → Q' a t) : Ensures x s Q' E :=
  ensures_mono h hq (fun _ _ he => he)

theorem ensures_always (hq : ∀ a t, Q a t) (he : ∀ e t, E e t) : Ensures x s Q E := by
  unfold Ensures
  cases x s with
  | ok a t => exact hq a t
  | error e t => exact he e t

theorem ensures_seq {f : α → EStateM ε σ β} {R : β → σ → Prop} (h : Ensures x s Q E)
    (hf : ∀ a t, Q a t → Ensures (f a) t R E) : Ensures (x >>= f) s R E :=
  (ensures_bind f R).mpr (ensures_imp h hf)

theorem ensures_tryCatch {handle : ε → EStateM ε σ α} (h : Ensures x s Q E')
    (hh : ∀ e t, E' e t → Ensures (handle e) t Q E) : Ensures (tryCatch x handle) s Q E := by
  unfold Ensures at h
  simp only [Ensures, tryCatch, tryCatchThe, MonadExceptOf.tryCatch, EStateM.tryCatch]
  cases hx : x s with
  | ok a t =>
    rw [hx] at h
    exact h
  | error e t =>
    rw [hx] at h
    exact hh e t h

theorem ensures_and (h : Ensures x s Q E) (h' : Ensures x s Q' E') :
    Ensures x s (fun a t => Q a t ∧ Q' a t) (fun e t => E e t ∧ E' e t) := by
  unfold Ensures at *
  cases hx : x s with
  | ok a t =>
    rw [hx] at h h'
    exact ⟨h,h'⟩
  | error e t =>
    rw [hx] at h h'
    exact ⟨h,h'⟩

theorem ensures_ok (h : Ensures x s Q E) (a : α) (t : σ) (hx : x s = .ok a t) : Q a t := by
  unfold Ensures at h
  rwa [hx] at h

theorem ensures_error (h : Ensures x s Q E) (e : ε) (t : σ) (hx : x s = .error e t) : E e t := by
  unfold Ensures at h
  rwa [hx] at h

theorem ensures_run (h : Ensures x s Q Never) : ∃ a t, x s = .ok a t ∧ Q a t := by
  cases hx : x s with
  | ok a t => exact ⟨a,t,rfl,ensures_ok h a t hx⟩
  | error e t => exact (ensures_error h e t hx).elim

theorem ensures_eq {a0 : α} {t0 : σ}
    (h : Ensures x s (fun a t => a = a0 ∧ t = t0) Never) : x s = .ok a0 t0 := by
  cases hx : x s with
  | ok a t =>
    obtain ⟨rfl,rfl⟩ := ensures_ok h a t hx
    rfl
  | error e t => exact (ensures_error h e t hx).elim

section Projections

variable {γ : Type} {π : σ → γ}

/-- From `s` the program leaves the projection as it is, whether it returns or raises. -/
def KeepsAt (π : σ → γ) (s : σ) (x : EStateM ε σ α) : Prop :=
  Ensures x s (fun _ t => π t = π s) (fun _ t => π t = π s)

theorem keepsAt_pure (a : α) : KeepsAt π s (pure a : EStateM ε σ α) := rfl

theorem keepsAt_throw (e : ε) : KeepsAt π s (throw e : EStateM ε σ α) := rfl

theorem keepsAt_seq {f : α → EStateM ε σ β} (h : KeepsAt π s x)
    (hf : ∀ a t, KeepsAt π t (f a)) : KeepsAt π s (x >>= f) := by
  refine ensures_seq h (fun a t ht => ?_)
  refine ensures_mono (hf a t) (fun _ _ h => h.trans ht) (fun _ _ h => h.trans ht)

theorem keepsAt_get {f : σ → EStateM ε σ β} (h : KeepsAt π s (f s)) :
    KeepsAt π s (get >>= f) := (ensures_bind f _).mpr h

theorem keepsAt_set (t : σ) (ht : π t = π s) : KeepsAt π s (set t : EStateM ε σ PUnit) := ht

theorem keepsAt_store {f : PUnit → EStateM ε σ β} (t : σ) (ht : π t = π s)
    (h : KeepsAt π t (f ⟨⟩)) : KeepsAt π s (set t >>= f) := by
  rw [KeepsAt, ensures_bind, ensures_set]
  exact ensures_mono h (fun _ _ h => h.trans ht) (fun _ _ h => h.trans ht)

theorem keepsAt_modify (g : σ → σ) (hg : π (g s) = π s) :
    KeepsAt π s (modify g : EStateM ε σ PUnit) := hg

theorem keepsAt_ite {p : Prop} [Decidable p] {y : EStateM ε σ α} (h : p → KeepsAt π s x)
    (h' : ¬p → KeepsAt π s y) : KeepsAt π s (if p then x else y) := ensures_ite.mpr ⟨h,h'⟩

theorem keepsAt_unless {p : Prop} [Decidable p] {a : α} (h : ¬p → KeepsAt π s x) :
    KeepsAt π s (if p then pure a else x) := keepsAt_ite (fun _ => keepsAt_pure a) h

/-- From every state the program leaves the projection as it is. -/
def Leaves (π : σ → γ) (x : EStateM ε σ α) : Prop := ∀ s, KeepsAt π s x

theorem leaves_pure (a : α) : Leaves π (pure a : EStateM ε σ α) := fun _ => rfl

theorem leaves_throw (e : ε) : Leaves π (throw e : EStateM ε σ α) := fun _ => rfl

theorem leaves_get : Leaves π (get : EStateM ε σ σ) := fun _ => rfl

theorem leaves_modify (g : σ → σ) (hg : ∀ s, π (g s) = π s) :
    Leaves π (modify g : EStateM ε σ PUnit) := hg

theorem leaves_bind {f : α → EStateM ε σ β} (h : Leaves π x) (hf : ∀ a, Leaves π (f a)) :
    Leaves π (x >>= f) := fun s => keepsAt_seq (h s) (fun a => hf a)

theorem leaves_ite {p : Prop} [Decidable p] {y : EStateM ε σ α} (h : Leaves π x)
    (h' : Leaves π y) : Leaves π (if p then x else y) :=
  fun s => keepsAt_ite (fun _ => h s) (fun _ => h' s)

theorem leaves_tryCatch {handle : ε → EStateM ε σ α} (h : Leaves π x)
    (hh : ∀ e, Leaves π (handle e)) : Leaves π (tryCatch x handle) := by
  intro s
  refine ensures_tryCatch (h s) (fun e t ht => ?_)
  exact ensures_mono (hh e t) (fun _ _ h => h.trans ht) (fun _ _ h => h.trans ht)

end Projections

end PgLocalCache.Outcome
