import Mathlib.Tactic

/-!
# Parsers that restart on a growing input

A parser looks at the tokens received so far and completes with a value and the
tokens behind it, fails, or asks for more. It is stable when more input changes
neither a completion nor a failure. Stable parsers compose, and parsing a stream
again and again as it arrives finds the same values and the same first failure
whatever the pieces it arrives in.
-/

namespace PgLocalCache.PrefixParser

inductive Parsed (ε α : Type) where
  | incomplete
  | error (e : ε)
  | complete (a : α)
  deriving DecidableEq, Repr

abbrev Parser (τ ε α : Type) := List τ → Parsed ε (α × List τ)

structure StableAt {τ ε α : Type} (p : Parser τ ε α) (s : List τ) : Prop where
  complete : ∀ v r, p s = .complete (v,r) → ∀ t, p (s++t) = .complete (v,r++t)
  error : ∀ e, p s = .error e → ∀ t, p (s++t) = .error e
  suffix : ∀ v r, p s = .complete (v,r) → ∃ used, s = used++r

def Stable {τ ε α : Type} (p : Parser τ ε α) : Prop := ∀ s, StableAt p s

variable {τ ε α β : Type}

def accept (v : α) : Parser τ ε α := fun s => .complete (v,s)

def reject (e : ε) : Parser τ ε α := fun _ => .error e

def andThen (p : Parser τ ε α) (f : α → Parser τ ε β) : Parser τ ε β := fun s =>
  match p s with
  | .incomplete => .incomplete
  | .error e => .error e
  | .complete (v,r) => f v r

def token (f : τ → Parser τ ε α) : Parser τ ε α
  | [] => .incomplete
  | c::s => f c s

/-- The next `n` tokens, all of which must have arrived. -/
def window (n : ℕ) : Parser τ ε (List τ) := fun s =>
  if s.length < n then .incomplete else .complete (s.take n,s.drop n)

def times (p : Parser τ ε α) : ℕ → Parser τ ε (List α)
  | 0 => accept []
  | n+1 => andThen p (fun v => andThen (times p n) (fun vs => accept (v::vs)))

variable (p : Parser τ ε α)

theorem stableAt_incomplete (s : List τ) (h : p s = .incomplete) :
    StableAt p s := by
  constructor
  · intro v r h'
    rw [h] at h'
    cases h'
  · intro e h'
    rw [h] at h'
    cases h'
  · intro v r h'
    rw [h] at h'
    cases h'

theorem stable_accept (v : α) : Stable (accept v : Parser τ ε α) := by
  intro s
  constructor
  · intro w r h t
    cases h
    rfl
  · intro e h
    cases h
  · intro w r h
    cases h
    exact ⟨[],rfl⟩

theorem stable_reject (e : ε) : Stable (reject e : Parser τ ε α) := by
  intro s
  constructor
  · intro w r h
    cases h
  · intro e' h t
    exact h
  · intro w r h
    cases h

theorem andThen_complete (f : α → Parser τ ε β) (s : List τ) (w : β) (r : List τ)
    (h : andThen p f s = .complete (w,r)) :
    ∃ v q, p s = .complete (v,q) ∧ f v q = .complete (w,r) := by
  unfold andThen at h
  cases hp : p s with
  | incomplete => simp [hp] at h
  | error e => simp [hp] at h
  | complete x => exact ⟨x.1,x.2,rfl,by simpa [hp] using h⟩

theorem stable_andThen (f : α → Parser τ ε β) (hp : Stable p) (hf : ∀ v, Stable (f v)) :
    Stable (andThen p f) := by
  intro s
  constructor
  · intro w r h t
    obtain ⟨v,q,h1,h2⟩ := andThen_complete p f s w r h
    simp only [andThen, (hp s).complete v q h1 t]
    exact (hf v q).complete w r h2 t
  · intro e h t
    unfold andThen at h
    cases hs : p s with
    | incomplete => simp [hs] at h
    | error e' =>
      simp only [hs, Parsed.error.injEq] at h
      subst h
      simp only [andThen, (hp s).error e' hs t]
    | complete x =>
      simp only [hs] at h
      simp only [andThen, (hp s).complete x.1 x.2 hs t]
      exact (hf x.1 x.2).error e h t
  · intro w r h
    obtain ⟨v,q,h1,h2⟩ := andThen_complete p f s w r h
    obtain ⟨a,ha⟩ := (hp s).suffix v q h1
    obtain ⟨b,hb⟩ := (hf v q).suffix w r h2
    exact ⟨a++b,by rw [ha, hb, List.append_assoc]⟩

theorem stableAt_cons (c : τ) (s : List τ) (h : StableAt (fun t => p (c::t)) s) :
    StableAt p (c::s) := by
  constructor
  · exact h.complete
  · exact h.error
  · intro w r hw
    obtain ⟨used,hu⟩ := h.suffix w r hw
    exact ⟨c::used,by rw [hu, List.cons_append]⟩

theorem stable_token (f : τ → Parser τ ε α) (hf : ∀ c, Stable (f c)) : Stable (token f) := by
  intro s
  cases s with
  | nil => exact stableAt_incomplete _ _ rfl
  | cons c s => exact stableAt_cons _ c s (hf c s)

theorem stable_window (n : ℕ) : Stable (window n : Parser τ ε (List τ)) := by
  intro s
  constructor
  · intro w r h t
    unfold window at h ⊢
    split at h
    · cases h
    · rename_i hn
      cases h
      rw [if_neg (by rw [List.length_append]; omega), List.take_append_of_le_length (by omega),
        List.drop_append_of_le_length (by omega)]
  · intro e h
    unfold window at h
    split at h <;> cases h
  · intro w r h
    unfold window at h
    split at h
    · cases h
    · cases h
      exact ⟨s.take n,(List.take_append_drop n s).symm⟩

theorem stable_times (hp : Stable p) (n : ℕ) : Stable (times p n) := by
  induction n with
  | zero => exact stable_accept []
  | succ n ih =>
    apply stable_andThen p _ hp
    intro v
    apply stable_andThen _ _ ih
    intro vs
    exact stable_accept _

/-- A completion that reaches beyond `s` was not yet visible in `s`. -/
theorem stable_incomplete (hp : Stable p) (s t : List τ) (v : α) (r : List τ)
    (h : p (s++t) = .complete (v,r)) (hr : r.length < t.length) : p s = .incomplete := by
  cases hs : p s with
  | incomplete => rfl
  | error e =>
    rw [(hp s).error e hs t] at h
    cases h
  | complete x =>
    rw [(hp s).complete x.1 x.2 hs t] at h
    cases h
    rw [List.length_append] at hr
    omega

/-! Reading a stream to its end. -/

def Progress : Prop :=
  ∀ s v r, p s = .complete (v,r) → r.length < s.length

theorem progress_token (f : τ → Parser τ ε α) (hf : ∀ c, Stable (f c)) : Progress (token f) := by
  intro s v r h
  cases s with
  | nil => cases h
  | cons c s =>
    obtain ⟨used,hu⟩ := (hf c s).suffix v r h
    rw [hu, List.length_cons, List.length_append]
    omega

/-! Exact recognition: what a parser accepts, as a relation between words and values. -/

def Recognizes (G : List τ → α → Prop) : Prop :=
  ∀ s v r, p s = .complete (v,r) ↔ ∃ w, s = w++r ∧ G w v

theorem recognizes_congr (G H : List τ → α → Prop) (hp : Recognizes p G)
    (h : ∀ w v, G w v ↔ H w v) : Recognizes p H := by
  intro s v r
  rw [hp s v r]
  exact exists_congr (fun w => and_congr_right (fun _ => h w v))

theorem recognizes_accept (v : α) :
    Recognizes (accept v : Parser τ ε α) (fun w u => w = [] ∧ u = v) := by
  intro s u r
  simp only [accept, Parsed.complete.injEq, Prod.mk.injEq]
  constructor
  · rintro ⟨rfl,rfl⟩
    exact ⟨[],rfl,rfl,rfl⟩
  · rintro ⟨w,rfl,rfl,rfl⟩
    exact ⟨rfl,rfl⟩

theorem recognizes_reject (e : ε) : Recognizes (reject e : Parser τ ε α) (fun _ _ => False) := by
  intro s u r
  simp [reject]

theorem recognizes_ite (c : Prop) [Decidable c] (p q : Parser τ ε α) (G H : List τ → α → Prop)
    (hp : c → Recognizes p G) (hq : ¬c → Recognizes q H) :
    Recognizes (if c then p else q) (fun w v => if c then G w v else H w v) := by
  by_cases h : c
  · simpa only [h, if_true] using hp h
  · simpa only [h, if_false] using hq h

theorem recognizes_andThen (f : α → Parser τ ε β) (G : List τ → α → Prop)
    (H : α → List τ → β → Prop) (hp : Recognizes p G) (hf : ∀ v, Recognizes (f v) (H v)) :
    Recognizes (andThen p f) (fun w b => ∃ v x y, w = x++y ∧ G x v ∧ H v y b) := by
  intro s b r
  constructor
  · intro h
    obtain ⟨v,q,h1,h2⟩ := andThen_complete p f s b r h
    obtain ⟨x,hx,hG⟩ := (hp s v q).mp h1
    obtain ⟨y,hy,hH⟩ := (hf v q b r).mp h2
    exact ⟨x++y,by rw [hx, hy, List.append_assoc],v,x,y,rfl,hG,hH⟩
  · rintro ⟨w,hs,v,x,y,rfl,hG,hH⟩
    rw [List.append_assoc] at hs
    simp only [andThen, (hp s v (y++r)).mpr ⟨x,hs,hG⟩]
    exact (hf v (y++r) b r).mpr ⟨y,rfl,hH⟩

theorem recognizes_token (f : τ → Parser τ ε α) (H : τ → List τ → α → Prop)
    (hf : ∀ c, Recognizes (f c) (H c)) :
    Recognizes (token f) (fun w v => ∃ c x, w = c::x ∧ H c x v) := by
  intro s v r
  cases s with
  | nil =>
    simp only [token, reduceCtorEq, false_iff]
    rintro ⟨w,hs,c,x,rfl,_⟩
    cases hs
  | cons c s =>
    rw [token, hf c s v r]
    constructor
    · rintro ⟨x,rfl,hH⟩
      exact ⟨c::x,rfl,c,x,rfl,hH⟩
    · rintro ⟨w,hs,c',x,rfl,hH⟩
      simp only [List.cons_append, List.cons.injEq] at hs
      obtain ⟨rfl,rfl⟩ := hs
      exact ⟨x,rfl,hH⟩

theorem recognizes_window (n : ℕ) :
    Recognizes (window n : Parser τ ε (List τ)) (fun w v => w.length = n ∧ v = w) := by
  intro s v r
  unfold window
  by_cases h : s.length < n
  · simp only [h, if_true, reduceCtorEq, false_iff]
    rintro ⟨w,rfl,hw,_⟩
    rw [List.length_append] at h
    omega
  · simp only [h, if_false, Parsed.complete.injEq, Prod.mk.injEq]
    constructor
    · rintro ⟨rfl,rfl⟩
      exact ⟨s.take n,(List.take_append_drop n s).symm,by
        rw [List.length_take]
        omega,rfl⟩
    · rintro ⟨w,rfl,hw,rfl⟩
      exact ⟨List.take_left' hw,List.drop_left' hw⟩

theorem recognizes_times (G : List τ → α → Prop) (hp : Recognizes p G) (n : ℕ) :
    Recognizes (times p n)
      (fun w vs => vs.length = n ∧ ∃ ws, w = ws.flatten ∧ List.Forall₂ G ws vs) := by
  induction n with
  | zero =>
    refine recognizes_congr _ _ _ (recognizes_accept []) (fun w vs => ⟨?_,?_⟩)
    · rintro ⟨rfl,rfl⟩
      exact ⟨rfl,[],rfl,.nil⟩
    · rintro ⟨hl,ws,rfl,hall⟩
      obtain rfl := List.length_eq_zero_iff.mp hl
      obtain rfl := List.forall₂_nil_right_iff.mp hall
      exact ⟨rfl,rfl⟩
  | succ n ih =>
    refine recognizes_congr _ _ _ (recognizes_andThen p _ G _ hp (fun v =>
      recognizes_andThen _ _ _ _ ih (fun vs => recognizes_accept (v::vs)))) (fun w us => ⟨?_,?_⟩)
    · rintro ⟨v,x,_,rfl,hG,vs,_,_,rfl,⟨hl,ws,rfl,hall⟩,rfl,rfl⟩
      exact ⟨by rw [List.length_cons, hl],x::ws,by simp,.cons hG hall⟩
    · rintro ⟨hl,ws,rfl,hall⟩
      cases hall with
      | nil => cases hl
      | @cons x v ws vs hG hall =>
        refine ⟨v,x,ws.flatten,rfl,hG,vs,ws.flatten,[],(List.append_nil _).symm,?_,rfl,rfl⟩
        exact ⟨by simpa using hl,ws,rfl,hall⟩

structure Drained (τ ε α : Type) where
  values : List α
  failure : Option ε
  rest : List τ
  deriving DecidableEq, Repr

def Drained.after (vs : List α) (d : Drained τ ε α) : Drained τ ε α :=
  ⟨vs++d.values,d.failure,d.rest⟩

def drainLoop (p : Parser τ ε α) : ℕ → List τ → Drained τ ε α
  | 0, s => ⟨[],none,s⟩
  | n+1, s =>
    match p s with
    | .incomplete => ⟨[],none,s⟩
    | .error e => ⟨[],some e,s⟩
    | .complete (v,r) => (drainLoop p n r).after [v]

/-- Parse and drop the consumed tokens until the parser fails or asks for more. -/
def drain (s : List τ) : Drained τ ε α := drainLoop p (s.length+1) s

def feed (p : Parser τ ε α) : List (List τ) → List τ → Drained τ ε α
  | [], s => ⟨[],none,s⟩
  | chunk::chunks, s =>
    match (drain p (s++chunk)).failure with
    | some _ => drain p (s++chunk)
    | none => (feed p chunks (drain p (s++chunk)).rest).after (drain p (s++chunk)).values

theorem drainLoop_enough (hg : Progress p) (n m : ℕ) (s : List τ) (hn : s.length < n)
    (hm : s.length < m) : drainLoop p n s = drainLoop p m s := by
  induction n generalizing m s with
  | zero => omega
  | succ n ih =>
    obtain ⟨m,rfl⟩ : ∃ k, m = k+1 := ⟨m-1,by omega⟩
    unfold drainLoop
    cases hs : p s with
    | incomplete => rfl
    | error e => rfl
    | complete x =>
      have hlt := hg s x.1 x.2 hs
      simp only
      rw [ih m x.2 (by omega) (by omega)]

theorem drain_incomplete (s : List τ) (h : p s = .incomplete) :
    drain p s = ⟨[],none,s⟩ := by
  simp [drain, drainLoop, h]

theorem drain_error (s : List τ) (e : ε) (h : p s = .error e) :
    drain p s = ⟨[],some e,s⟩ := by
  simp [drain, drainLoop, h]

theorem drain_complete (hg : Progress p) (s : List τ) (v : α) (r : List τ)
    (h : p s = .complete (v,r)) : drain p s = (drain p r).after [v] := by
  have hlt := hg s v r h
  have hloop := drainLoop_enough p hg s.length (r.length+1) r (by omega) (by omega)
  simp only [drain, drainLoop, h]
  rw [hloop]
  rfl

theorem drain_induction (hg : Progress p) (motive : List τ → Prop)
    (hi : ∀ s, p s = .incomplete → motive s) (he : ∀ s e, p s = .error e → motive s)
    (hc : ∀ s v r, p s = .complete (v,r) → motive r → motive s) (s : List τ) : motive s := by
  induction hn : s.length using Nat.strong_induction_on generalizing s with
  | _ n ih =>
    cases hs : p s with
    | incomplete => exact hi s hs
    | error e => exact he s e hs
    | complete x =>
      have hlt := hg s x.1 x.2 hs
      exact hc s x.1 x.2 hs (ih x.2.length (by omega) x.2 rfl)

theorem drain_rest (hg : Progress p) (s : List τ) (h : (drain p s).failure = none) :
    p (drain p s).rest = .incomplete := by
  induction s using drain_induction p hg with
  | hi s hs => rw [drain_incomplete p s hs]; exact hs
  | he s e hs =>
    rw [drain_error p s e hs] at h
    cases h
  | hc s v r hs ih =>
    rw [drain_complete p hg s v r hs] at h ⊢
    exact ih h

theorem drain_append (hp : Stable p) (hg : Progress p) (s t : List τ)
    (h : (drain p s).failure = none) :
    drain p (s++t) = (drain p ((drain p s).rest++t)).after (drain p s).values := by
  induction s using drain_induction p hg with
  | hi s hs =>
    rw [drain_incomplete p s hs]
    rfl
  | he s e hs =>
    rw [drain_error p s e hs] at h
    cases h
  | hc s v r hs ih =>
    rw [drain_complete p hg s v r hs] at h ⊢
    rw [drain_complete p hg (s++t) v (r++t) ((hp s).complete v r hs t), ih h]
    simp [Drained.after]

theorem drain_append_failed (hp : Stable p) (hg : Progress p) (s t : List τ) (e : ε)
    (h : (drain p s).failure = some e) :
    (drain p (s++t)).values = (drain p s).values ∧ (drain p (s++t)).failure = some e := by
  induction s using drain_induction p hg with
  | hi s hs =>
    rw [drain_incomplete p s hs] at h
    cases h
  | he s e' hs =>
    rw [drain_error p s e' hs] at h ⊢
    rw [drain_error p (s++t) e' ((hp s).error e' hs t)]
    exact ⟨rfl,h⟩
  | hc s v r hs ih =>
    rw [drain_complete p hg s v r hs] at h ⊢
    rw [drain_complete p hg (s++t) v (r++t) ((hp s).complete v r hs t)]
    obtain ⟨h1,h2⟩ := ih h
    exact ⟨by simp [Drained.after, h1],h2⟩

theorem feed_drain (hp : Stable p) (hg : Progress p) (chunks : List (List τ)) (s : List τ)
    (hs : p s = .incomplete) :
    (feed p chunks s).values = (drain p (s++chunks.flatten)).values ∧
      (feed p chunks s).failure = (drain p (s++chunks.flatten)).failure := by
  induction chunks generalizing s with
  | nil =>
    simp [feed, drain_incomplete p s hs]
  | cons chunk chunks ih =>
    have hsplit : s++(chunk::chunks).flatten = s++chunk++chunks.flatten := by simp
    rw [hsplit]
    cases hf : (drain p (s++chunk)).failure with
    | some e =>
      obtain ⟨h1,h2⟩ := drain_append_failed p hp hg (s++chunk) chunks.flatten e hf
      simp only [feed, hf]
      exact ⟨h1.symm,h2.symm⟩
    | none =>
      obtain ⟨h1,h2⟩ := ih _ (drain_rest p hg (s++chunk) hf)
      rw [drain_append p hp hg (s++chunk) chunks.flatten hf]
      simp [feed, hf, Drained.after, h1, h2]

end PgLocalCache.PrefixParser
