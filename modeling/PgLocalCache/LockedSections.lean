import Mathlib.Logic.Relation
import Mathlib.Logic.Function.Basic
import Mathlib.Tactic

/-!
# Locked sections around one shared state

Each party has a state of its own behind its own lock and runs one section at a
time. What a section will do is a script, drawn when it starts: its accesses to
the shared state in order, with its own state after each. An access whose
answer the shared state does not give cannot happen, so a run with a wrong
script gets stuck and every real run has its script. A section that raises
leaves its party halted. Books are kept for each party along its accesses.
-/

namespace PgLocalCache.LockedSections

open Function (update update_of_ne update_self)

variable {ι σ τ κ β : Type}

structure Script (σ κ : Type) where
  rest : List (κ × σ)
  final : σ
  returned : Bool

inductive Phase (σ κ : Type) where
  | free
  | busy (script : Script σ κ)
  | halted

structure System (ι σ τ κ β : Type) where
  shared : τ
  own : ι → σ
  books : ι → β
  phase : ι → Phase σ κ

/-- How accesses act on the shared state and on the books, and which sections there are. -/
structure Protocol (σ τ κ β : Type) where
  fire : κ → τ → Option τ
  note : κ → β → β
  begins : σ → Script σ κ → Prop

section Steps

variable [DecidableEq ι] (R : Protocol σ τ κ β)

def started (S : System ι σ τ κ β) (p : ι) (script : Script σ κ) : System ι σ τ κ β :=
  { S with phase := update S.phase p (.busy script) }

def accessed (S : System ι σ τ κ β) (p : ι) (k : κ) (s : σ) (shared : τ) (script : Script σ κ) :
    System ι σ τ κ β where
  shared := shared
  own := update S.own p s
  books := update S.books p (R.note k (S.books p))
  phase := update S.phase p (.busy script)

def ended (S : System ι σ τ κ β) (p : ι) (script : Script σ κ) : System ι σ τ κ β :=
  { S with
    own := update S.own p script.final
    phase := update S.phase p (if script.returned then .free else .halted) }

inductive Step : System ι σ τ κ β → System ι σ τ κ β → Prop
  | start (S : System ι σ τ κ β) (p : ι) (script : Script σ κ) :
      S.phase p = .free → R.begins (S.own p) script → Step S (started S p script)
  | access (S : System ι σ τ κ β) (p : ι) (k : κ) (s : σ) (rest : List (κ × σ)) (final : σ)
      (returned : Bool) (shared : τ) : S.phase p = .busy ⟨(k,s)::rest,final,returned⟩ →
      R.fire k S.shared = some shared → Step S (accessed R S p k s shared ⟨rest,final,returned⟩)
  | ending (S : System ι σ τ κ β) (p : ι) (script : Script σ κ) :
      S.phase p = .busy script → script.rest = [] → Step S (ended S p script)

def Reach : System ι σ τ κ β → System ι σ τ κ β → Prop := Relation.ReflTransGen (Step R)

end Steps

section Playing

variable [DecidableEq ι]

/-- The shared state after a list of accesses in a row. -/
def plays (R : Protocol σ τ κ β) : List κ → τ → Option τ
  | [], t => some t
  | k::ks, t => (R.fire k t).bind (plays R ks)

variable {R : Protocol σ τ κ β} {ks : List κ} {t : τ}

theorem reach_plays (S : System ι σ τ κ β) (p : ι) (es rest : List (κ × σ)) (final : σ)
    (returned : Bool) (hbusy : S.phase p = .busy ⟨es++rest,final,returned⟩)
    (hks : es.map Prod.fst = ks) (hplays : plays R ks S.shared = some t) :
    ∃ S', Reach R S S' ∧ S'.shared = t ∧ S'.phase p = .busy ⟨rest,final,returned⟩ ∧
      S'.books p = ks.foldl (fun b k => R.note k b) (S.books p) := by
  induction es generalizing S ks with
  | nil =>
    subst hks
    cases hplays
    exact ⟨S,.refl,rfl,hbusy,rfl⟩
  | cons e es ih =>
    subst hks
    obtain ⟨t',hfire,hrest⟩ := Option.bind_eq_some_iff.mp hplays
    have hstep := Step.access S p e.1 e.2 (es++rest) final returned t' hbusy hfire
    obtain ⟨S',hreach,hshared,hphase,hbooks⟩ :=
      ih (accessed R S p e.1 e.2 t' ⟨es++rest,final,returned⟩) (by simp [accessed]) rfl hrest
    refine ⟨S',Relation.ReflTransGen.head hstep hreach,hshared,hphase,?_⟩
    rw [hbooks]
    simp [accessed]

theorem reach_section (S : System ι σ τ κ β) (p : ι) (sc : Script σ κ) (hfree : S.phase p = .free)
    (hbegins : R.begins (S.own p) sc) (hks : sc.rest.map Prod.fst = ks)
    (hreturned : sc.returned = true) (hplays : plays R ks S.shared = some t) :
    ∃ S', Reach R S S' ∧ S'.shared = t ∧ S'.phase p = .free ∧ S'.own p = sc.final ∧
      S'.books p = ks.foldl (fun b k => R.note k b) (S.books p) := by
  have hstart := Step.start S p sc hfree hbegins
  obtain ⟨S',hreach,hshared,hphase,hbooks⟩ := reach_plays (started S p sc) p sc.rest [] sc.final
    sc.returned (by simp [started]) hks hplays
  have hend := Step.ending (R := R) S' p ⟨[],sc.final,sc.returned⟩ hphase rfl
  refine ⟨ended S' p ⟨[],sc.final,sc.returned⟩,(Relation.ReflTransGen.head hstart hreach).tail hend,
    hshared,?_,?_,hbooks⟩
  · simp [ended, hreturned]
  · simp [ended]

end Playing

/-- The books along a list of accesses, each of them allowed where it stands. -/
def Follows (note : κ → β → β) (allowed : β → κ × σ → Prop) : β → List (κ × σ) → β → Prop
  | b, [], b' => b = b'
  | b, e::es, b' => allowed b e ∧ Follows note allowed (note e.1 b) es b'

theorem follows_snoc {note : κ → β → β} {allowed : β → κ × σ → Prop} {b b' : β}
    {es : List (κ × σ)} {e : κ × σ} (h : Follows note allowed b es b') (he : allowed b' e) :
    Follows note allowed b (es++[e]) (note e.1 b') := by
  induction es generalizing b with
  | nil =>
    obtain rfl : b = b' := h
    exact ⟨he,rfl⟩
  | cons x es ih => exact ⟨h.1,ih h.2⟩

/-- What the parties promise: `ready` between sections, `fits` between the books and a party's own
state at any moment, and that the script of every section follows the books. -/
structure Contract (R : Protocol σ τ κ β) (ι : Type) where
  ready : ι → σ → Prop
  opening : σ → β
  fits : ι → β → σ → Prop
  allowed : ι → β → κ × σ → Prop
  fits_note : ∀ p b e, allowed p b e → fits p (R.note e.1 b) e.2
  script : ∀ p s sc, ready p s → R.begins s sc →
    ∃ b, Follows R.note (allowed p) (opening s) sc.rest b ∧ fits p b sc.final ∧
      (sc.returned = true → ready p sc.final ∧ b = opening sc.final)

variable {R : Protocol σ τ κ β}

def Due (C : Contract R ι) (p : ι) (b : β) (sc : Script σ κ) : Prop :=
  ∃ b', Follows R.note (C.allowed p) b sc.rest b' ∧ C.fits p b' sc.final ∧
    (sc.returned = true → C.ready p sc.final ∧ b' = C.opening sc.final)

structure Kept (C : Contract R ι) (S : System ι σ τ κ β) (p : ι) : Prop where
  fits : C.fits p (S.books p) (S.own p)
  free : S.phase p = .free → C.ready p (S.own p) ∧ S.books p = C.opening (S.own p)
  busy : ∀ sc, S.phase p = .busy sc → Due C p (S.books p) sc

variable [DecidableEq ι] {C : Contract R ι} {S S' : System ι σ τ κ β}

theorem kept_started (p : ι) (sc : Script σ κ) (h : ∀ q, Kept C S q) (hfree : S.phase p = .free)
    (hbegins : R.begins (S.own p) sc) (q : ι) : Kept C (started S p sc) q := by
  by_cases hq : q = p
  · subst hq
    obtain ⟨hready,hbooks⟩ := (h q).free hfree
    refine ⟨(h q).fits,fun hf => ?_,fun sc' hsc => ?_⟩
    · simp [started] at hf
    · simp only [started, update_self, Phase.busy.injEq] at hsc
      subst hsc
      obtain ⟨b,hb⟩ := C.script q _ sc hready hbegins
      exact ⟨b,by rw [← hbooks] at hb; exact hb⟩
  · have hphase : (started S p sc).phase q = S.phase q := update_of_ne hq _ _
    exact ⟨(h q).fits,fun hf => (h q).free (hphase ▸ hf),
      fun sc' hsc => (h q).busy sc' (hphase ▸ hsc)⟩

theorem kept_accessed (p : ι) (k : κ) (s : σ) (rest : List (κ × σ)) (final : σ) (returned : Bool)
    (shared : τ) (h : ∀ q, Kept C S q) (hbusy : S.phase p = .busy ⟨(k,s)::rest,final,returned⟩)
    (q : ι) : Kept C (accessed R S p k s shared ⟨rest,final,returned⟩) q := by
  by_cases hq : q = p
  · subst hq
    obtain ⟨b,⟨hallowed,hfollows⟩,hdue⟩ := (h q).busy _ hbusy
    refine ⟨?_,fun hf => ?_,fun sc hsc => ?_⟩
    · simp only [accessed, update_self]
      exact C.fits_note q _ (k,s) hallowed
    · simp [accessed] at hf
    · simp only [accessed, update_self, Phase.busy.injEq] at hsc ⊢
      subst hsc
      exact ⟨b,hfollows,hdue⟩
  · have hphase : (accessed R S p k s shared ⟨rest,final,returned⟩).phase q = S.phase q :=
      update_of_ne hq _ _
    have hown : (accessed R S p k s shared ⟨rest,final,returned⟩).own q = S.own q :=
      update_of_ne hq _ _
    have hbooks : (accessed R S p k s shared ⟨rest,final,returned⟩).books q = S.books q :=
      update_of_ne hq _ _
    refine ⟨?_,fun hf => ?_,fun sc hsc => ?_⟩
    · rw [hown, hbooks]
      exact (h q).fits
    · rw [hown, hbooks]
      exact (h q).free (hphase ▸ hf)
    · rw [hbooks]
      exact (h q).busy sc (hphase ▸ hsc)

theorem kept_ended (p : ι) (sc : Script σ κ) (h : ∀ q, Kept C S q) (hbusy : S.phase p = .busy sc)
    (hrest : sc.rest = []) (q : ι) : Kept C (ended S p sc) q := by
  by_cases hq : q = p
  · subst hq
    obtain ⟨b,hfollows,hfits,hready⟩ := (h q).busy _ hbusy
    rw [hrest] at hfollows
    obtain rfl : S.books q = b := hfollows
    refine ⟨?_,fun hf => ?_,fun sc' hsc => ?_⟩
    · simp only [ended, update_self]
      exact hfits
    · simp only [ended, update_self] at hf ⊢
      cases hret : sc.returned with
      | true => exact hready hret
      | false => simp [hret] at hf
    · simp only [ended, update_self] at hsc
      split at hsc <;> cases hsc
  · have hphase : (ended S p sc).phase q = S.phase q := update_of_ne hq _ _
    have hown : (ended S p sc).own q = S.own q := update_of_ne hq _ _
    refine ⟨?_,fun hf => ?_,fun sc' hsc => (h q).busy sc' (hphase ▸ hsc)⟩
    · rw [hown]
      exact (h q).fits
    · rw [hown]
      exact (h q).free (hphase ▸ hf)

theorem kept_step (h : ∀ q, Kept C S q) (hstep : Step R S S') (q : ι) : Kept C S' q := by
  cases hstep with
  | start p sc hfree hbegins => exact kept_started p sc h hfree hbegins q
  | access p k s rest final returned shared hbusy _ =>
    exact kept_accessed p k s rest final returned shared h hbusy q
  | ending p sc hbusy hrest => exact kept_ended p sc h hbusy hrest q

theorem reach_keeps (I : System ι σ τ κ β → Prop)
    (hstep : ∀ S S', (∀ q, Kept C S q) → I S → Step R S S' → I S') (h : ∀ q, Kept C S q) (hI : I S)
    (hreach : Reach R S S') : (∀ q, Kept C S' q) ∧ I S' := by
  induction hreach with
  | refl => exact ⟨h,hI⟩
  | tail _ hlast ih => exact ⟨kept_step ih.1 hlast,hstep _ _ ih.1 ih.2 hlast⟩

end PgLocalCache.LockedSections
