import PgLocalCache.Outcome

/-!
# Programs that log their accesses to a shared state

A section works on a state of its own and now and then makes one atomic access
to a state it shares with others. The log of such a section holds its accesses
in order, each with the section's own state at that moment. `Erases x y` says
that `x` is `y` with accesses added.
-/

namespace PgLocalCache.EventLog

open Outcome

variable {ε σ κ α β : Type}

abbrev Logged (σ κ : Type) : Type := σ × List (κ × σ)

def quiet (x : EStateM ε σ α) : EStateM ε (Logged σ κ) α := fun s =>
  match x s.1 with
  | .ok a t => .ok a (t,s.2)
  | .error e t => .error e (t,s.2)

def emit (k : κ) : EStateM ε (Logged σ κ) Unit := modify (fun s => (s.1,s.2++[(k,s.1)]))

variable {s : Logged σ κ} {Q : α → Logged σ κ → Prop} {E : ε → Logged σ κ → Prop}

@[simp] theorem ensures_quiet (x : EStateM ε σ α) :
    Ensures (quiet x) s Q E ↔
      Ensures x s.1 (fun a t => Q a (t,s.2)) (fun e t => E e (t,s.2)) := by
  unfold Ensures quiet
  cases x s.1 <;> rfl

@[simp] theorem ensures_emit (k : κ) (Q : Unit → Logged σ κ → Prop) :
    Ensures (emit k) s Q E ↔ Q () (s.1,s.2++[(k,s.1)]) := Iff.rfl

/-- The outcome of a section beside what its log has become. -/
def relog (log : List (κ × σ)) : EStateM.Result ε σ α → EStateM.Result ε (Logged σ κ) α
  | .ok a t => .ok a (t,log)
  | .error e t => .error e (t,log)

def Erases (x : EStateM ε (Logged σ κ) α) (y : EStateM ε σ α) : Prop :=
  ∀ s, ∃ new, x s = relog (s.2++new) (y s.1)

theorem erases_quiet (y : EStateM ε σ α) : Erases (κ := κ) (quiet y) y := by
  intro s
  refine ⟨[],?_⟩
  rw [List.append_nil, quiet]
  cases y s.1 <;> rfl

theorem erases_pure (a : α) : Erases (κ := κ) (ε := ε) (σ := σ) (pure a) (pure a) :=
  fun s => ⟨[],by rw [List.append_nil]; rfl⟩

theorem erases_bind {x : EStateM ε (Logged σ κ) α} {y : EStateM ε σ α}
    {f : α → EStateM ε (Logged σ κ) β} {g : α → EStateM ε σ β} (h : Erases x y)
    (hf : ∀ a, Erases (f a) (g a)) : Erases (x >>= f) (y >>= g) := by
  intro s
  obtain ⟨new,hx⟩ := h s
  cases hy : y s.1 with
  | ok a t =>
    obtain ⟨new',hf'⟩ := hf a (t,s.2++new)
    refine ⟨new++new',?_⟩
    simp only [bind, EStateM.bind, hx, hy, relog, hf', List.append_assoc]
  | error e t =>
    refine ⟨new,?_⟩
    simp only [bind, EStateM.bind, hx, hy, relog]

theorem erases_emit {x : EStateM ε (Logged σ κ) α} {y : EStateM ε σ α} (k : κ)
    (h : Erases x y) : Erases (emit k >>= fun _ => x) y := by
  intro s
  obtain ⟨new,hx⟩ := h (s.1,s.2++[(k,s.1)])
  exact ⟨(k,s.1)::new,hx.trans (by rw [List.append_assoc]; rfl)⟩

theorem erases_access (k : κ) : Erases (ε := ε) (σ := σ) (emit k) (pure ()) :=
  fun s => ⟨[(k,s.1)],rfl⟩

theorem erases_ite {p : Prop} [Decidable p] {x x' : EStateM ε (Logged σ κ) α}
    {y y' : EStateM ε σ α} (h : p → Erases x y) (h' : ¬p → Erases x' y') :
    Erases (if p then x else x') (if p then y else y') := by
  by_cases hp : p
  · rw [if_pos hp, if_pos hp]
    exact h hp
  · rw [if_neg hp, if_neg hp]
    exact h' hp

theorem erases_unless {p : Prop} [Decidable p] {a : α} {x : EStateM ε (Logged σ κ) α}
    {y : EStateM ε σ α} (h : ¬p → Erases x y) :
    Erases (if p then pure a else x) (if p then pure a else y) :=
  erases_ite (fun _ => erases_pure a) h

theorem erases_then {x : EStateM ε σ α} {f : α → EStateM ε (Logged σ κ) β}
    {g : α → EStateM ε σ β} (h : ∀ a, Erases (f a) (g a)) :
    Erases (quiet x >>= f) (x >>= g) := erases_bind (erases_quiet x) h

/-- What holds of a program holds of it with accesses added. -/
theorem ensures_erases {x : EStateM ε (Logged σ κ) α} {y : EStateM ε σ α} (h : Erases x y)
    {Q : α → σ → Prop} {E : ε → σ → Prop} (hy : Ensures y s.1 Q E) :
    Ensures x s (fun a t => Q a t.1) (fun e t => E e t.1) := by
  obtain ⟨new,hx⟩ := h s
  unfold Ensures at hy ⊢
  rw [hx]
  cases hr : y s.1 with
  | ok a t =>
    rw [hr] at hy
    exact hy
  | error e t =>
    rw [hr] at hy
    exact hy

end PgLocalCache.EventLog
