import Mathlib.Tactic
import Mathlib.Logic.Function.Basic

/-!
# Interleaved programs and what their steps may rely on

A program is a tree of atomic actions on a shared and a local state. A pool runs any
number of programs in any order of their actions. A discipline says what one action
may do and what it may rely on while others act; `Safe` programs follow it, and the
triples below derive safety from the text of a program.
-/

namespace PgLocalCache.Interleaving

open Function (update update_eq_self update_of_ne update_self)

/-- An action that gives no result waits; `fault` never goes on. -/
inductive Prog (S L : Type) where
  | halt
  | fault
  | act (step : S → L → Option (S × L × Prog S L))
  | choose (next : Bool → Prog S L)

def Code (S L α : Type) : Type := (α → Prog S L) → Prog S L

variable {B S L α β : Type}

instance : Monad (Code S L) where
  pure a := fun k => k a
  bind c d := fun k => c (fun a => d a k)

def atomic (f : S → L → Option (α × S × L)) : Code S L α :=
  fun k => .act (fun s l => (f s l).map (fun r => (r.2.1,r.2.2,k r.1)))

def either : Code S L Bool := fun k => .choose k

def faulty : Code S L α := fun _ => .fault

def run (c : Code S L Unit) : Prog S L := c (fun _ => .halt)

/-- Visits the elements of a list until a visit answers false. -/
def forAll (visit : α → Code S L Bool) : List α → Code S L Bool
  | [] => pure true
  | a::l => do
    let ok ← visit a
    if ok then forAll visit l else pure false

def forEach (visit : α → Code S L Unit) : List α → Code S L Unit
  | [] => pure ()
  | a::l => do
    visit a
    forEach visit l

/-! Pools. -/

structure Pool (B S L : Type) where
  shared : S
  locals : B → L
  progs : B → Prog S L

/-- The operations a party may start, and in which local states. -/
structure Menu (S L : Type) where
  Op : Type
  allowed : Op → L → Prop
  code : Op → Prog S L

inductive Step [DecidableEq B] (menu : Menu S L) : Pool B S L → Pool B S L → Prop
  | start (w : Pool B S L) (b : B) (op : menu.Op) : w.progs b = .halt →
      menu.allowed op (w.locals b) →
      Step menu w { w with progs := update w.progs b (menu.code op) }
  | act (w : Pool B S L) (b : B) (step : S → L → Option (S × L × Prog S L)) (s : S) (l : L)
      (p : Prog S L) : w.progs b = .act step → step w.shared (w.locals b) = some (s,l,p) →
      Step menu w ⟨s,update w.locals b l,update w.progs b p⟩
  | choose (w : Pool B S L) (b : B) (next : Bool → Prog S L) (answer : Bool) :
      w.progs b = .choose next →
      Step menu w { w with progs := update w.progs b (next answer) }

inductive Steps [DecidableEq B] (menu : Menu S L) (w0 : Pool B S L) : Pool B S L → Prop
  | refl : Steps menu w0 w0
  | tail {w w' : Pool B S L} : Steps menu w0 w → Step menu w w' → Steps menu w0 w'

/-! Executions. -/

variable [DecidableEq B]

/-- Runs a program alone for some steps; a choice takes the given answer. -/
def drive (answer : Bool) : ℕ → Prog S L → S → L → S × L × Prog S L
  | 0, p, s, l => (s,l,p)
  | _+1, .halt, s, l => (s,l,.halt)
  | _+1, .fault, s, l => (s,l,.fault)
  | n+1, .act step, s, l =>
    match step s l with
    | none => (s,l,.act step)
    | some (s',l',p) => drive answer n p s' l'
  | n+1, .choose next, s, l => drive answer n (next answer) s l

/-- The pool after one party has run some steps of an operation. -/
def Pool.after (menu : Menu S L) (w : Pool B S L) (b : B) (op : menu.Op) (answer : Bool) (n : ℕ) :
    Pool B S L :=
  let r := drive answer n (menu.code op) w.shared (w.locals b)
  ⟨r.1,update w.locals b r.2.1,update w.progs b r.2.2⟩

theorem steps_drive {menu : Menu S L} {w0 : Pool B S L} (locals : B → L) (progs : B → Prog S L)
    (b : B) (answer : Bool) (n : ℕ) (p : Prog S L) (s : S) (l : L)
    (h : Steps menu w0 ⟨s,update locals b l,update progs b p⟩) :
    Steps menu w0 ⟨(drive answer n p s l).1,update locals b (drive answer n p s l).2.1,
      update progs b (drive answer n p s l).2.2⟩ := by
  induction n generalizing p s l with
  | zero => exact h
  | succ n ih =>
    cases p with
    | halt => exact h
    | fault => exact h
    | act step =>
      rw [drive]
      cases hstep : step s l with
      | none => exact h
      | some r =>
        obtain ⟨s',l',p'⟩ := r
        refine ih p' s' l' (.tail h ?_)
        have hact : Step menu _ _ := .act ⟨s,update locals b l,
          update progs b (.act step)⟩ b step s' l' p' (update_self _ _ _)
          (by simpa using hstep)
        simpa using hact
    | choose next =>
      refine ih (next answer) s l (.tail h ?_)
      have hchoose : Step menu _ _ := .choose ⟨s,update locals b l,
        update progs b (.choose next)⟩ b next answer (update_self _ _ _)
      simpa using hchoose

theorem steps_after {menu : Menu S L} {w0 w : Pool B S L} (h : Steps menu w0 w) (b : B)
    (op : menu.Op) (answer : Bool) (n : ℕ) (hhalt : w.progs b = .halt)
    (hallowed : menu.allowed op (w.locals b)) : Steps menu w0 (w.after menu b op answer n) := by
  refine steps_drive w.locals w.progs b answer n _ _ _ ?_
  rw [update_eq_self]
  exact .tail h (.start w b op hhalt hallowed)

/-! Disciplines. -/

/-- `inv` is kept by every move, `own` is what one party sees of it, and `rely` covers the moves
of the others. -/
structure Discipline (B S L : Type) [DecidableEq B] where
  inv : S → (B → L) → Prop
  own : S → L → Prop
  move : S → L → S → L → Prop
  rely : L → S → S → Prop
  own_of_inv : ∀ s ls b, inv s ls → own s (ls b)
  inv_move : ∀ s ls b s' l', inv s ls → move s (ls b) s' l' → inv s' (update ls b l')
  rely_move : ∀ s ls b s' l' c, inv s ls → move s (ls b) s' l' → c ≠ b → rely (ls c) s s'
  rely_refl : ∀ l s, rely l s s
  rely_trans : ∀ l s s' s'', rely l s s' → rely l s' s'' → rely l s s''

variable (D : Discipline B S L) (ready : S → L → Prop)

/-- Every action of the program is a move of the discipline, and it ends ready. -/
inductive Safe : Prog S L → S → L → Prop
  | halt (s : S) (l : L) : (∀ s', D.rely l s s' → ready s' l) → Safe .halt s l
  | fault (s : S) (l : L) : Safe .fault s l
  | act (step : S → L → Option (S × L × Prog S L)) (s : S) (l : L) :
      (∀ s1 s' l' p, D.rely l s s1 → D.own s1 l → step s1 l = some (s',l',p) →
        D.move s1 l s' l') →
      (∀ s1 s' l' p, D.rely l s s1 → D.own s1 l → step s1 l = some (s',l',p) → D.own s' l' →
        Safe p s' l') →
      Safe (.act step) s l
  | choose (next : Bool → Prog S L) (s : S) (l : L) : (∀ answer, Safe (next answer) s l) →
      Safe (.choose next) s l

variable {D ready}

theorem Safe.rely {p : Prog S L} {s s' : S} {l : L} (h : Safe D ready p s l)
    (hr : D.rely l s s') : Safe D ready p s' l := by
  induction h with
  | halt s l hready => exact .halt s' l (fun s'' hr' => hready s'' (D.rely_trans _ _ _ _ hr hr'))
  | fault s l => exact .fault s' l
  | act step s l hmove hnext _ =>
    exact .act step s' l
      (fun s1 s2 l' p hr' => hmove s1 s2 l' p (D.rely_trans _ _ _ _ hr hr'))
      (fun s1 s2 l' p hr' => hnext s1 s2 l' p (D.rely_trans _ _ _ _ hr hr'))
  | choose next s l _ ih => exact .choose next s' l (fun answer => ih answer hr)

/-- Started operations are safe. -/
def MenuSafe (D : Discipline B S L) (ready : S → L → Prop) (menu : Menu S L) : Prop :=
  ∀ op s l, ready s l → menu.allowed op l → Safe D ready (menu.code op) s l

structure Disciplined (D : Discipline B S L) (ready : S → L → Prop) (w : Pool B S L) : Prop where
  inv : D.inv w.shared w.locals
  safe : ∀ b, Safe D ready (w.progs b) w.shared (w.locals b)

theorem disciplined_step {menu : Menu S L} (hm : MenuSafe D ready menu) {w w' : Pool B S L}
    (h : Disciplined D ready w) (hs : Step menu w w') : Disciplined D ready w' ∧
      ((w'.shared = w.shared ∧ w'.locals = w.locals) ∨
        ∃ b l', D.move w.shared (w.locals b) w'.shared l' ∧
          w'.locals = update w.locals b l') := by
  cases hs with
  | start b op hhalt hallowed =>
    refine ⟨⟨h.inv,fun c => ?_⟩,.inl ⟨rfl,rfl⟩⟩
    by_cases hc : c = b
    · subst hc
      have hsafe := h.safe c
      rw [hhalt] at hsafe
      cases hsafe with
      | halt _ _ hready =>
        simp only [update_self]
        exact hm op _ _ (hready _ (D.rely_refl _ _)) hallowed
    · simp only [update_of_ne hc]
      exact h.safe c
  | act b step s l p hact hstep =>
    have hsafe := h.safe b
    rw [hact] at hsafe
    cases hsafe with
    | act _ _ _ hmove hnext =>
      have hown := D.own_of_inv _ _ b h.inv
      have hmv := hmove _ _ _ _ (D.rely_refl _ _) hown hstep
      have hinv := D.inv_move _ _ _ _ _ h.inv hmv
      refine ⟨⟨hinv,fun c => ?_⟩,.inr ⟨b,l,hmv,rfl⟩⟩
      by_cases hc : c = b
      · subst hc
        have hown' := D.own_of_inv _ _ c hinv
        simp only [update_self] at hown' ⊢
        exact hnext _ _ _ _ (D.rely_refl _ _) hown hstep hown'
      · simp only [update_of_ne hc]
        exact (h.safe c).rely (D.rely_move _ _ _ _ _ c h.inv hmv hc)
  | choose b next answer hchoose =>
    refine ⟨⟨h.inv,fun c => ?_⟩,.inl ⟨rfl,rfl⟩⟩
    by_cases hc : c = b
    · subst hc
      have hsafe := h.safe c
      rw [hchoose] at hsafe
      cases hsafe with
      | choose _ _ _ hnext =>
        simp only [update_self]
        exact hnext answer
    · simp only [update_of_ne hc]
      exact h.safe c

theorem disciplined_steps {menu : Menu S L} (hm : MenuSafe D ready menu) {w0 w : Pool B S L}
    (h : Disciplined D ready w0) (hs : Steps menu w0 w) : Disciplined D ready w := by
  induction hs with
  | refl => exact h
  | tail _ hstep ih => exact (disciplined_step hm ih hstep).1

/-! Triples. -/

def Triple (D : Discipline B S L) (ready : S → L → Prop) (pre : S → L → Prop) (c : Code S L α)
    (post : α → S → L → Prop) : Prop :=
  ∀ k, (∀ a s l, post a s l → Safe D ready (k a) s l) → ∀ s l, pre s l → Safe D ready (c k) s l

variable {pre pre' : S → L → Prop} {post post' : α → S → L → Prop}

theorem Triple.pure (a : α) (h : ∀ s l, pre s l → post a s l) :
    Triple D ready pre (pure a) post :=
  fun _ hk s l hp => hk a s l (h s l hp)

theorem Triple.bind {c : Code S L α} {d : α → Code S L β} {m : α → S → L → Prop}
    {last : β → S → L → Prop} (hc : Triple D ready pre c m)
    (hd : ∀ a, Triple D ready (m a) (d a) last) : Triple D ready pre (c >>= d) last :=
  fun k hk s l hp => hc _ (fun a s' l' hm => hd a k hk s' l' hm) s l hp

theorem Triple.conseq {q : S → L → Prop} {c : Code S L α} (h : Triple D ready q c post')
    (hpre : ∀ s l, pre s l → q s l) (hpost : ∀ a s l, post' a s l → post a s l) :
    Triple D ready pre c post :=
  fun k hk s l hp => h k (fun a s' l' hq => hk a s' l' (hpost a s' l' hq)) s l (hpre s l hp)

theorem Triple.ite {p : Prop} [Decidable p] {c d : Code S L α}
    (hc : p → Triple D ready pre c post) (hd : ¬p → Triple D ready pre d post) :
    Triple D ready pre (if p then c else d) post := by
  by_cases h : p
  · rw [if_pos h]
    exact hc h
  · rw [if_neg h]
    exact hd h

/-- A fact that the condition implies may be used for the rest of the program. -/
theorem Triple.given {p : Prop} {c : Code S L α} (h : ∀ s l, pre s l → p)
    (hc : p → Triple D ready pre c post) : Triple D ready pre c post :=
  fun k hk s l hp => hc (h s l hp) k hk s l hp

theorem Triple.exists {ι : Type} {pre : ι → S → L → Prop} {c : Code S L α}
    (h : ∀ i, Triple D ready (pre i) c post) :
    Triple D ready (fun s l => ∃ i, pre i s l) c post :=
  fun k hk s l hp => hp.elim (fun i hi => h i k hk s l hi)

/-- A condition that the moves of others keep. -/
def Stable (D : Discipline B S L) (pre : S → L → Prop) : Prop :=
  ∀ s s' l, pre s l → D.rely l s s' → pre s' l

theorem Triple.atomic (f : S → L → Option (α × S × L)) (hstable : Stable D pre)
    (hmove : ∀ s l a s' l', pre s l → D.own s l → f s l = some (a,s',l') → D.move s l s' l')
    (hpost : ∀ s l a s' l', pre s l → D.own s l → f s l = some (a,s',l') → D.own s' l' →
      post a s' l') : Triple D ready pre (atomic f) post := by
  intro k hk s l hp
  refine .act _ s l ?_ ?_
  · intro s1 s' l' p hr hown hstep
    obtain ⟨⟨a,s2,l2⟩,hf,heq⟩ := Option.map_eq_some_iff.mp hstep
    cases heq
    exact hmove s1 l a _ _ (hstable s s1 l hp hr) hown hf
  · intro s1 s' l' p hr hown hstep hown'
    obtain ⟨⟨a,s2,l2⟩,hf,heq⟩ := Option.map_eq_some_iff.mp hstep
    cases heq
    exact hk a _ _ (hpost s1 l a _ _ (hstable s s1 l hp hr) hown hf hown')

theorem Triple.either {post : Bool → S → L → Prop}
    (h : ∀ answer s l, pre s l → post answer s l) : Triple D ready pre either post :=
  fun k hk s l hp => .choose k s l (fun answer => hk answer s l (h answer s l hp))

/-- A loop whose condition says what is still to be visited, and that may end early. -/
theorem Triple.forAll {visit : α → Code S L Bool} {g : List α → S → L → Prop}
    {b : S → L → Prop} (l : List α)
    (h : ∀ a rest, Triple D ready (g (a::rest)) (visit a)
      (fun ok s l => if ok then g rest s l else b s l)) :
    Triple D ready (g l) (forAll visit l)
      (fun ok s l => if ok then g [] s l else b s l) := by
  induction l with
  | nil => exact .pure true (fun _ _ hp => hp)
  | cons a l ih =>
    refine .bind (h a l) (fun ok => ?_)
    cases ok with
    | true => exact ih
    | false => exact .pure false (fun _ _ hp => hp)

theorem Triple.forEach {visit : α → Code S L Unit} {g : List α → S → L → Prop} (l : List α)
    (h : ∀ a rest, Triple D ready (g (a::rest)) (visit a) (fun _ => g rest)) :
    Triple D ready (g l) (Interleaving.forEach visit l) (fun _ => g []) := by
  induction l with
  | nil => exact .pure () (fun _ _ hp => hp)
  | cons a l ih => exact .bind (h a l) (fun _ => ih)

theorem Triple.safe {c : Code S L Unit} (h : Triple D ready pre c (fun _ => pre'))
    (hready : ∀ s l, pre' s l → ready s l) (hstable : Stable D pre') {s : S} {l : L}
    (hp : pre s l) : Safe D ready (run c) s l :=
  h _ (fun _ s' l' hq => .halt s' l' (fun s'' hr => hready s'' l' (hstable s' s'' l' hq hr))) s l hp

end PgLocalCache.Interleaving
