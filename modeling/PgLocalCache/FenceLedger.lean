import Mathlib.Data.Multiset.AddSub
import Mathlib.Algebra.BigOperators.Group.Multiset.Basic
import Mathlib.Tactic

/-!
# Fences on versioned targets

A party enters a fence on a target, changes the version of the target at least once
and leaves the fence. A counter of the target says how many fences are entered. Two
instants at which nobody holds a fence, with the same version, have only such
instants between them.
-/

namespace PgLocalCache.FenceLedger

/-- A fence; `moved` once the version of its target has changed since it was entered. -/
structure Fence (τ : Type) where
  target : τ
  moved : Bool
  deriving DecidableEq, Repr

variable {τ H : Type}

/-! Sums over the holders. -/

def total (f : H → ℕ) (m : Multiset H) : ℕ := (m.map f).sum

theorem total_cons (f : H → ℕ) (h : H) (rest : Multiset H) :
    total f (h ::ₘ rest) = f h+total f rest := by
  rw [total, Multiset.map_cons, Multiset.sum_cons, total]

theorem total_exchange (f : H → ℕ) (h h' : H) (rest : Multiset H) :
    total f (h' ::ₘ rest)+f h = total f (h ::ₘ rest)+f h' := by
  rw [total_cons, total_cons]
  omega

theorem le_total (f : H → ℕ) {m : Multiset H} {h : H} (hmem : h ∈ m) : f h ≤ total f m := by
  obtain ⟨rest,rfl⟩ := Multiset.exists_cons_of_mem hmem
  rw [total_cons]
  exact Nat.le_add_right _ _

theorem total_eq_zero {f : H → ℕ} {m : Multiset H} : total f m = 0 ↔ ∀ h ∈ m, f h = 0 := by
  constructor
  · intro hzero h hmem
    exact Nat.eq_zero_of_le_zero (hzero ▸ le_total f hmem)
  · intro hall
    refine Multiset.sum_eq_zero (fun n hn => ?_)
    obtain ⟨h,hmem,rfl⟩ := Multiset.mem_map.mp hn
    exact hall h hmem

/-! The fences of all holders. -/

variable (of : H → List (Fence τ))

def NoneMoved (m : Multiset H) (t : τ) : Prop := ∀ h ∈ m, ⟨t,true⟩ ∉ of h

def SomeEntered (m : Multiset H) (t : τ) : Prop := ∃ h ∈ m, ⟨t,false⟩ ∈ of h

/-- The version `v` of a target becomes `v'`: only a change of it moves a fence, and only a moved
fence is left. -/
structure Progress (t : τ) (v v' : ℕ) (m m' : Multiset H) : Prop where
  version : v ≤ v'
  moved : v' = v → NoneMoved of m t → NoneMoved of m' t
  entered : v' = v → SomeEntered of m t → SomeEntered of m' t

variable {of} {t : τ} {v v' v'' : ℕ} {m m' m'' : Multiset H}

theorem Progress.refl : Progress of t v v m m := ⟨le_refl _,fun _ h => h,fun _ h => h⟩

theorem Progress.trans (h : Progress of t v v' m m') (h' : Progress of t v' v'' m' m'') :
    Progress of t v v'' m m'' := by
  have hboth : v'' = v → v' = v ∧ v'' = v' := by
    have h1 := h.version
    have h2 := h'.version
    omega
  exact ⟨h.version.trans h'.version,
    fun heq hn => h'.moved (hboth heq).2 (h.moved (hboth heq).1 hn),
    fun heq hn => h'.entered (hboth heq).2 (h.entered (hboth heq).1 hn)⟩

theorem progress_exchange {h h' : H} {rest : Multiset H} (hversion : v ≤ v')
    (hmoved : v' = v → ⟨t,true⟩ ∉ of h → ⟨t,true⟩ ∉ of h')
    (hentered : v' = v → ⟨t,false⟩ ∈ of h → ⟨t,false⟩ ∈ of h') :
    Progress of t v v' (h ::ₘ rest) (h' ::ₘ rest) := by
  refine ⟨hversion,fun heq hnone x hx => ?_,fun heq hsome => ?_⟩
  · obtain rfl | hx := Multiset.mem_cons.mp hx
    · exact hmoved heq (hnone h (Multiset.mem_cons_self h rest))
    · exact hnone x (Multiset.mem_cons_of_mem hx)
  · obtain ⟨x,hx,hin⟩ := hsome
    obtain rfl | hx := Multiset.mem_cons.mp hx
    · exact ⟨h',Multiset.mem_cons_self h' rest,hentered heq hin⟩
    · exact ⟨x,Multiset.mem_cons_of_mem hx,hin⟩

variable {h h' : H} {rest : Multiset H} {u : τ}

theorem progress_same (hversion : v ≤ v') (hsame : of h' = of h) :
    Progress of t v v' (h ::ₘ rest) (h' ::ₘ rest) := by
  refine progress_exchange hversion (fun _ hn => ?_) (fun _ hn => ?_)
  · rwa [hsame]
  · rwa [hsame]

theorem progress_enter (hfences : of h' = ⟨u,false⟩::of h) :
    Progress of t v v (h ::ₘ rest) (h' ::ₘ rest) := by
  refine progress_exchange le_rfl (fun _ hn => ?_) (fun _ hn => ?_)
  · rw [hfences, List.mem_cons]
    rintro (heq | hin)
    · cases heq
    · exact hn hin
  · rw [hfences]
    exact .tail _ hn

/-! The fences of one holder. -/

variable [DecidableEq τ]

def fencesOn (t : τ) (fences : List (Fence τ)) : ℕ := fences.countP (fun f => f.target == t)

def moveFences (t : τ) (fences : List (Fence τ)) : List (Fence τ) :=
  fences.map (fun f => if f.target = t then ⟨t,true⟩ else f)

theorem fencesOn_cons (t u : τ) (moved : Bool) (fences : List (Fence τ)) :
    fencesOn t (⟨u,moved⟩::fences) = fencesOn t fences+(if u = t then 1 else 0) := by
  rw [fencesOn, List.countP_cons, fencesOn]
  simp

theorem fencesOn_move (t u : τ) (fences : List (Fence τ)) :
    fencesOn t (moveFences u fences) = fencesOn t fences := by
  rw [fencesOn, moveFences, List.countP_map, fencesOn]
  refine List.countP_congr (fun f _ => ?_)
  by_cases hf : f.target = u
  · simp [hf]
  · simp [hf]

theorem fencesOn_erase {t u : τ} {moved : Bool} {fences : List (Fence τ)}
    (hmem : ⟨u,moved⟩ ∈ fences) :
    fencesOn t (fences.erase ⟨u,moved⟩)+(if u = t then 1 else 0) = fencesOn t fences := by
  rw [← fencesOn_cons t u moved]
  exact (List.perm_cons_erase hmem).symm.countP_eq _

theorem fencesOn_eq_zero {t : τ} {fences : List (Fence τ)} :
    fencesOn t fences = 0 ↔ ∀ moved, (⟨t,moved⟩ : Fence τ) ∉ fences := by
  rw [fencesOn, List.countP_eq_zero]
  constructor
  · intro h moved hmem
    exact h _ hmem (beq_self_eq_true t)
  · intro h f hf hbeq
    obtain ⟨target,moved⟩ := f
    exact h moved (beq_iff_eq.mp hbeq ▸ hf)

theorem mem_moveFences {t u : τ} {moved : Bool} {fences : List (Fence τ)} (hne : u ≠ t) :
    ⟨u,moved⟩ ∈ moveFences t fences ↔ ⟨u,moved⟩ ∈ fences := by
  rw [moveFences, List.mem_map]
  constructor
  · rintro ⟨f,hf,heq⟩
    by_cases ht : f.target = t
    · rw [if_pos ht, Fence.mk.injEq] at heq
      exact absurd heq.1.symm hne
    · rw [if_neg ht] at heq
      exact heq ▸ hf
  · intro hf
    exact ⟨⟨u,moved⟩,hf,if_neg hne⟩

/-! How many fences are entered. -/

def writers (of : H → List (Fence τ)) (m : Multiset H) (t : τ) : ℕ :=
  total (fun h => fencesOn t (of h)) m

theorem writers_eq_zero {m : Multiset H} {t : τ} :
    writers of m t = 0 ↔ NoneMoved of m t ∧ ¬SomeEntered of m t := by
  rw [writers, total_eq_zero]
  constructor
  · intro h
    refine ⟨fun x hx => fencesOn_eq_zero.mp (h x hx) true,?_⟩
    rintro ⟨x,hx,hin⟩
    exact fencesOn_eq_zero.mp (h x hx) false hin
  · rintro ⟨hmoved,hentered⟩ x hx
    refine fencesOn_eq_zero.mpr (fun moved hin => ?_)
    cases moved with
    | true => exact hmoved x hx hin
    | false => exact hentered ⟨x,hx,hin⟩

theorem Progress.quiet_between (h : Progress of t v v' m m') (h' : Progress of t v' v'' m' m'')
    (heq : v'' = v) (hzero : writers of m t = 0) (hzero' : writers of m'' t = 0) :
    v' = v ∧ writers of m' t = 0 := by
  have h1 := h.version
  have h2 := h'.version
  have hv : v' = v := by omega
  rw [writers_eq_zero] at hzero hzero' ⊢
  exact ⟨hv,h.moved hv hzero.1,fun hin => hzero'.2 (h'.entered (heq.trans hv.symm) hin)⟩

theorem progress_advance (hfences : of h' = moveFences u (of h))
    (hversion : v' = v+(if u = t then 1 else 0)) :
    Progress of t v v' (h ::ₘ rest) (h' ::ₘ rest) := by
  by_cases ht : u = t
  · rw [if_pos ht] at hversion
    exact progress_exchange (by omega) (fun heq => by omega) (fun heq => by omega)
  · rw [if_neg ht] at hversion
    refine progress_exchange (by omega) (fun _ hn => ?_) (fun _ hn => ?_)
    · rwa [hfences, mem_moveFences (fun he => ht he.symm)]
    · rwa [hfences, mem_moveFences (fun he => ht he.symm)]

theorem progress_leave (hfences : of h' = (of h).erase ⟨u,true⟩) :
    Progress of t v v (h ::ₘ rest) (h' ::ₘ rest) := by
  refine progress_exchange le_rfl (fun _ hn => ?_) (fun _ hn => ?_)
  · rw [hfences]
    exact fun hin => hn (List.mem_of_mem_erase hin)
  · rw [hfences]
    exact (List.mem_erase_of_ne (fun he => (by cases he))).mpr hn

end PgLocalCache.FenceLedger
