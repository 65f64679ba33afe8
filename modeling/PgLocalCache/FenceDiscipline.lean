import PgLocalCache.BackendCode

/-!
# What a step may do to fences and generations

The writers of a target are the fences that backends hold on it, a fence is left only
behind a change of its version, and tags never go back. The version of a slot is reset
only under a generation that nobody has received yet. Generations change and are
handed out inside the registry lock.
-/

namespace PgLocalCache.FenceDiscipline

open Interleaving FenceLedger SharedWorld

variable {B : Type} [DecidableEq B] [Fintype B] {s s' s'' : Shared} {h h' : Held} {l l' : Local}

/-! Generations. -/

/-- No mapping and no record has received the present generation of the slot. -/
def Fresh (s : Shared) (i : ℕ) : Prop :=
  ∀ x ∈ s.handed, x.slot = i → x.generation < (s.slots i).generation

/-- Somebody has. -/
def GivenOut (s : Shared) (i : ℕ) : Prop :=
  ∃ x ∈ s.handed, x.slot = i ∧ x.generation = (s.slots i).generation

theorem GivenOut.not_fresh {i : ℕ} (h : GivenOut s i) : ¬Fresh s i := by
  obtain ⟨x,hx,hslot,hgen⟩ := h
  intro hfresh
  exact absurd hgen (Nat.ne_of_lt (hfresh x hx hslot))

theorem GivenOut.mono {i : ℕ} (h : GivenOut s i) (hhanded : ∀ x ∈ s.handed, x ∈ s'.handed)
    (hgen : (s'.slots i).generation = (s.slots i).generation) : GivenOut s' i := by
  obtain ⟨x,hx,hslot,heq⟩ := h
  exact ⟨x,hhanded x hx,hslot,heq.trans hgen.symm⟩

/-- A slot and generation that the slot has reached. -/
def Dated (s : Shared) (x : Handed) : Prop := x.generation ≤ (s.slots x.slot).generation

structure Grounded (s : Shared) : Prop where
  states : ∀ st ∈ s.states, Dated s (handedOf st)
  handed : ∀ x ∈ s.handed, Dated s x

/-! Progress. -/

/-- The versions of a target at two states count on: a slot keeps a generation that was given
out. -/
def Comparable (s s' : Shared) : Target → Prop
  | .all => True
  | .slot i => GivenOut s i ∧ (s'.slots i).generation = (s.slots i).generation

structure Progress (s s' : Shared) : Prop where
  config : s.configGeneration ≤ s'.configGeneration
  epoch : s.globalEpoch ≤ s'.globalEpoch
  generation : ∀ i, (s.slots i).generation ≤ (s'.slots i).generation
  incarnation : ∀ i, (s.slots i).incarnation ≤ (s'.slots i).incarnation
  handed : ∀ x ∈ s.handed, x ∈ s'.handed
  fences : ∀ t, Comparable s s' t → FenceLedger.Progress Held.fences t
    (countersOf s t).version (countersOf s' t).version s.holders s'.holders

theorem Progress.refl (s : Shared) : Progress s s :=
  ⟨le_refl _,le_refl _,fun _ => le_refl _,fun _ => le_refl _,fun _ h => h,fun _ _ => .refl⟩

theorem Progress.split (h : Progress s s') (h' : Progress s' s'') {t : Target}
    (hc : Comparable s s'' t) : Comparable s s' t ∧ Comparable s' s'' t := by
  cases t with
  | all => exact ⟨trivial,trivial⟩
  | slot i =>
    have h1 := h.generation i
    have h2 := h'.generation i
    have hgen := hc.2
    exact ⟨⟨hc.1,by omega⟩,hc.1.mono h.handed (by omega),by omega⟩

theorem Progress.trans (h : Progress s s') (h' : Progress s' s'') : Progress s s'' := by
  refine ⟨h.config.trans h'.config,h.epoch.trans h'.epoch,
    fun i => (h.generation i).trans (h'.generation i),
    fun i => (h.incarnation i).trans (h'.incarnation i),fun x hx => h'.handed x (h.handed x hx),
    fun t hc => ?_⟩
  obtain ⟨h1,h2⟩ := h.split h' hc
  exact (h.fences t h1).trans (h'.fences t h2)

theorem Dated.mono {x : Handed} (h : Dated s x) (hp : Progress s s') : Dated s' x :=
  h.trans (hp.generation x.slot)

/-! Steps. -/

def lockBit (s : Shared) : ℕ := if s.registryLocked then 1 else 0

def lockCount (h : Held) : ℕ := if h.registry then 1 else 0

/-- The part of the registry that only the holder of its lock changes. -/
structure SameRegistry (s s' : Shared) : Prop where
  handed : s'.handed = s.handed
  generation : ∀ i, (s'.slots i).generation = (s.slots i).generation

/-- What a step does, in terms of its backend alone. -/
structure Change (s : Shared) (h : Held) (s' : Shared) (h' : Held) : Prop where
  lock : lockBit s'+lockCount h = lockBit s+lockCount h'
  writers : ∀ t, (countersOf s' t).writers+fencesOn t h.fences =
    (countersOf s t).writers+fencesOn t h'.fences
  fences : ∀ t, Comparable s s' t → ∀ rest, FenceLedger.Progress Held.fences t
    (countersOf s t).version (countersOf s' t).version (h ::ₘ rest) (h' ::ₘ rest)
  config : s.configGeneration ≤ s'.configGeneration
  epoch : s.globalEpoch ≤ s'.globalEpoch
  generation : ∀ i, (s.slots i).generation ≤ (s'.slots i).generation
  incarnation : ∀ i, (s.slots i).incarnation ≤ (s'.slots i).incarnation
  history : ∀ x ∈ s.handed, x ∈ s'.handed
  grounded : Grounded s'
  registry : h.registry = false → SameRegistry s s'

structure Move (s : Shared) (l : Local) (s' : Shared) (l' : Local) : Prop where
  holders : s'.holders = l'.held ::ₘ s.holders.erase l.held
  change : Change s l.held s' l'.held

theorem Change.progress {rest : Multiset Held} (hc : Change s h s' h')
    (hs : s.holders = h ::ₘ rest) (hs' : s'.holders = h' ::ₘ rest) : Progress s s' := by
  refine ⟨hc.config,hc.epoch,hc.generation,hc.incarnation,hc.history,fun t hcomp => ?_⟩
  rw [hs, hs']
  exact hc.fences t hcomp rest

/-! The invariant. -/

structure World (s : Shared) : Prop where
  lock : lockBit s = total lockCount s.holders
  fences : ∀ t, (countersOf s t).writers = writers Held.fences s.holders t
  grounded : Grounded s

structure Inv (s : Shared) (ls : B → Local) : Prop where
  holders : s.holders = Finset.univ.val.map (fun b => (ls b).held)
  world : World s

structure Own (s : Shared) (l : Local) : Prop where
  world : World s
  mem : l.held ∈ s.holders

theorem World.single {rest : Multiset Held} (hw : World s) (hs : s.holders = h ::ₘ rest)
    (hmem : h' ∈ rest) (hreg : h'.registry = true) : h.registry = false := by
  have hbit : lockBit s ≤ 1 := by
    rw [lockBit]
    split <;> omega
  have hle := le_total lockCount hmem
  rw [hw.lock, hs, total_cons] at hbit
  rw [lockCount, if_pos hreg] at hle
  refine Bool.eq_false_iff.mpr (fun hself => ?_)
  rw [lockCount, if_pos hself] at hbit
  omega

theorem World.update {rest : Multiset Held} (hw : World s) (hs : s.holders = h ::ₘ rest)
    (hs' : s'.holders = h' ::ₘ rest) (hc : Change s h s' h') : World s' := by
  refine ⟨?_,fun t => ?_,hc.grounded⟩
  · have hlock := hw.lock
    have hsum := total_exchange lockCount h h' rest
    have hstep := hc.lock
    rw [hs] at hlock
    rw [hs']
    omega
  · have hfences := hw.fences t
    have hsum := total_exchange (fun x : Held => fencesOn t x.fences) h h' rest
    have hstep := hc.writers t
    rw [hs, writers] at hfences
    rw [hs', writers]
    omega

theorem holders_split {ls : B → Local} (b : B) (hi : Inv s ls) :
    s.holders = (ls b).held ::ₘ (Finset.univ.erase b).val.map (fun c => (ls c).held) := by
  rw [hi.holders, ← Multiset.map_cons (fun c => (ls c).held), ← Finset.insert_val_of_notMem
    (Finset.notMem_erase b Finset.univ), Finset.insert_erase (Finset.mem_univ b)]

theorem holders_behind {ls : B → Local} {b : B} (hi : Inv s ls) (hm : Move s (ls b) s' l') :
    s'.holders = l'.held ::ₘ (Finset.univ.erase b).val.map (fun c => (ls c).held) := by
  rw [hm.holders, holders_split b hi, Multiset.erase_cons_head]

theorem own_of_inv (s : Shared) (ls : B → Local) (b : B) (hi : Inv s ls) : Own s (ls b) :=
  ⟨hi.world,by rw [holders_split b hi]; exact Multiset.mem_cons_self _ _⟩

theorem inv_move (s : Shared) (ls : B → Local) (b : B) (s' : Shared) (l' : Local) (hi : Inv s ls)
    (hm : Move s (ls b) s' l') : Inv s' (Function.update ls b l') := by
  have hs' := holders_behind hi hm
  refine ⟨?_,hi.world.update (holders_split b hi) hs' hm.change⟩
  have hself : (Function.update ls b l' b).held = l'.held := by rw [Function.update_self]
  have hrest : (Finset.univ.erase b).val.map (fun c => (Function.update ls b l' c).held) =
      (Finset.univ.erase b).val.map (fun c => (ls c).held) := by
    refine Multiset.map_congr rfl (fun c hc => ?_)
    rw [Function.update_of_ne (Finset.ne_of_mem_erase hc)]
  rw [hs', ← hself, ← hrest, ← Multiset.map_cons (fun c => (Function.update ls b l' c).held),
    ← Finset.insert_val_of_notMem (Finset.notMem_erase b Finset.univ),
    Finset.insert_erase (Finset.mem_univ b)]

/-! What a backend may rely on. -/

structure Rely (l : Local) (s s' : Shared) : Prop where
  progress : Progress s s'
  registry : l.held.registry = true → SameRegistry s s'

theorem rely_refl (l : Local) (s : Shared) : Rely l s s :=
  ⟨.refl s,fun _ => ⟨rfl,fun _ => rfl⟩⟩

theorem rely_trans (l : Local) (s s' s'' : Shared) (h : Rely l s s') (h' : Rely l s' s'') :
    Rely l s s'' :=
  ⟨h.progress.trans h'.progress,fun hreg =>
    ⟨(h'.registry hreg).handed.trans (h.registry hreg).handed,
    fun i => ((h'.registry hreg).generation i).trans ((h.registry hreg).generation i)⟩⟩

theorem rely_move (s : Shared) (ls : B → Local) (b : B) (s' : Shared) (l' : Local) (c : B)
    (hi : Inv s ls) (hm : Move s (ls b) s' l') (hc : c ≠ b) : Rely (ls c) s s' := by
  have hs := holders_split b hi
  have hmem : (ls c).held ∈ (Finset.univ.erase b).val.map (fun c => (ls c).held) :=
    Multiset.mem_map.mpr ⟨c,Finset.mem_erase.mpr ⟨hc,Finset.mem_univ c⟩,rfl⟩
  exact ⟨hm.change.progress hs (holders_behind hi hm),
    fun hreg => hm.change.registry (hi.world.single hs hmem hreg)⟩

variable (B) in
/-- The discipline of fences and generations. -/
def fences : Discipline B Shared Local where
  inv := Inv
  own := Own
  move := Move
  rely := Rely
  own_of_inv := own_of_inv
  inv_move := inv_move
  rely_move := rely_move
  rely_refl := rely_refl
  rely_trans := rely_trans

/-! Steps on a fence. -/

/-- The tags, the registry and its history are as before. -/
structure SameTags (s s' : Shared) : Prop extends SameRegistry s s' where
  config : s'.configGeneration = s.configGeneration
  epoch : s'.globalEpoch = s.globalEpoch
  incarnation : ∀ i, (s'.slots i).incarnation = (s.slots i).incarnation
  states : s'.states = s.states

theorem SameTags.grounded (h : SameTags s s') (hg : Grounded s) : Grounded s' := by
  refine ⟨fun st hst => ?_,fun x hx => ?_⟩
  · rw [h.states] at hst
    rw [Dated, h.generation]
    exact hg.states st hst
  · rw [h.handed] at hx
    rw [Dated, h.generation]
    exact hg.handed x hx

theorem change_of_tags (ht : SameTags s s') (hg : Grounded s)
    (hlock : lockBit s'+lockCount h = lockBit s+lockCount h')
    (hwriters : ∀ t, (countersOf s' t).writers+fencesOn t h.fences =
      (countersOf s t).writers+fencesOn t h'.fences)
    (hfences : ∀ t rest, FenceLedger.Progress Held.fences t (countersOf s t).version
      (countersOf s' t).version (h ::ₘ rest) (h' ::ₘ rest)) : Change s h s' h' :=
  ⟨hlock,hwriters,fun t _ => hfences t,ht.config.ge,ht.epoch.ge,fun i => (ht.generation i).ge,
    fun i => (ht.incarnation i).ge,fun _ hx => ht.handed ▸ hx,ht.grounded hg,
    fun _ => ht.toSameRegistry⟩

theorem sameTags_setCounters (s : Shared) (t : Target) (f : Counters → Counters)
    (m : Multiset Held) : SameTags s { setCounters s t f with holders := m } := by
  cases t with
  | all => exact ⟨⟨rfl,fun _ => rfl⟩,rfl,rfl,fun _ => rfl,rfl⟩
  | slot i =>
    refine ⟨⟨rfl,fun j => ?_⟩,rfl,rfl,fun j => ?_,rfl⟩ <;>
      (by_cases hj : j = i
       · subst hj
         simp [setCounters, setSlot]
       · simp [setCounters, setSlot, hj])

theorem countersOf_setCounters (s : Shared) (t u : Target) (f : Counters → Counters) :
    countersOf (setCounters s u f) t =
      if u = t then f (countersOf s t) else countersOf s t := by
  cases t with
  | all =>
    cases u with
    | all => rw [if_pos rfl]; rfl
    | slot j => rfl
  | slot i =>
    cases u with
    | all => rfl
    | slot j =>
      by_cases hj : i = j
      · subst hj
        simp [countersOf, setCounters, setSlot]
      · have hne : Target.slot j ≠ .slot i := fun he => hj (Target.slot.inj he).symm
        simp [countersOf, setCounters, setSlot, hj, hne]

theorem change_counters {t : Target} {f : Counters → Counters} {m : Multiset Held}
    (hg : Grounded s) (hreg : h'.registry = h.registry)
    (hwriters : ∀ u, (countersOf (setCounters s t f) u).writers+fencesOn u h.fences =
      (countersOf s u).writers+fencesOn u h'.fences)
    (hfences : ∀ u rest, FenceLedger.Progress Held.fences u (countersOf s u).version
      (countersOf (setCounters s t f) u).version (h ::ₘ rest) (h' ::ₘ rest)) :
    Change s h { setCounters s t f with holders := m } h' := by
  refine change_of_tags (sameTags_setCounters s t f m) hg ?_ hwriters hfences
  rw [lockCount, lockCount, hreg]
  cases t <;> rfl

theorem version_setCounters (s : Shared) (t u : Target) (f : Counters → Counters)
    (hf : ∀ c, (f c).version = c.version) :
    (countersOf (setCounters s t f) u).version = (countersOf s u).version := by
  rw [countersOf_setCounters]
  split
  · rw [hf]
  · rfl

theorem change_enter (hg : Grounded s) (t : Target) (m : Multiset Held) :
    Change s h { setCounters s t addWriter with holders := m } (enteredFence t h) := by
  refine change_counters hg rfl (fun u => ?_) (fun u rest => ?_)
  · have hcons := fencesOn_cons u t false h.fences
    have hin : (enteredFence t h).fences = ⟨t,false⟩::h.fences := rfl
    rw [countersOf_setCounters, hin]
    by_cases hu : t = u
    · rw [if_pos hu] at hcons ⊢
      simp only [addWriter]
      omega
    · rw [if_neg hu] at hcons ⊢
      omega
  · rw [version_setCounters s t u addWriter (fun _ => rfl)]
    exact progress_enter rfl

theorem change_advance (hg : Grounded s) (t : Target) (m : Multiset Held) :
    Change s h { setCounters s t addVersion with holders := m } (movedFences t h) := by
  refine change_counters hg rfl (fun u => ?_) (fun u rest => progress_advance rfl ?_)
  · rw [countersOf_setCounters, movedFences, fencesOn_move]
    split <;> rfl
  · rw [countersOf_setCounters]
    split <;> rfl

theorem change_leave {t : Target} (hg : Grounded s) (m : Multiset Held)
    (hmem : ⟨t,true⟩ ∈ h.fences) (hpos : (countersOf s t).writers ≠ 0) :
    Change s h { setCounters s t dropWriter with holders := m } (leftFence t h) := by
  refine change_counters hg rfl (fun u => ?_) (fun u rest => ?_)
  · have herase := fencesOn_erase (t := u) hmem
    have hout : (leftFence t h).fences = h.fences.erase ⟨t,true⟩ := rfl
    rw [countersOf_setCounters, hout]
    by_cases hu : t = u
    · subst hu
      rw [if_pos rfl] at herase ⊢
      simp only [dropWriter]
      omega
    · rw [if_neg hu] at herase ⊢
      omega
  · rw [version_setCounters s t u dropWriter (fun _ => rfl)]
    exact progress_leave rfl

theorem Own.writers_pos {t : Target} {moved : Bool} (ho : Own s l)
    (hmem : ⟨t,moved⟩ ∈ l.held.fences) :
    (countersOf s t).writers ≠ 0 := by
  rw [ho.world.fences t]
  intro hzero
  have hnone := total_eq_zero.mp hzero l.held ho.mem
  exact fencesOn_eq_zero.mp hnone moved hmem

/-! Steps that leave the fences alone. -/

/-- A step of a backend that keeps its holdings. -/
structure Edit (s s' : Shared) : Prop where
  holders : s'.holders = s.holders
  locked : s'.registryLocked = s.registryLocked
  writers : ∀ t, (countersOf s' t).writers = (countersOf s t).writers
  version : ∀ t, (countersOf s' t).version = (countersOf s t).version ∨
    ∃ i, t = .slot i ∧ Fresh s i
  config : s.configGeneration ≤ s'.configGeneration
  epoch : s.globalEpoch ≤ s'.globalEpoch
  generation : ∀ i, (s.slots i).generation ≤ (s'.slots i).generation
  incarnation : ∀ i, (s.slots i).incarnation ≤ (s'.slots i).incarnation
  history : ∀ x ∈ s.handed, x ∈ s'.handed
  grounded : Grounded s'

theorem Edit.move (he : Edit s s') (ho : Own s l) (hl : l'.held = l.held)
    (hreg : l.held.registry = false → SameRegistry s s') : Move s l s' l' := by
  refine ⟨by rw [he.holders, hl, Multiset.cons_erase ho.mem],?_⟩
  rw [hl]
  refine ⟨by rw [lockBit, he.locked]; rfl,fun t => by rw [he.writers],fun t hcomp rest => ?_,
    he.config,he.epoch,he.generation,he.incarnation,he.history,he.grounded,hreg⟩
  refine progress_same ?_ rfl
  obtain hsame | ⟨i,rfl,hfresh⟩ := he.version t
  · exact hsame.ge
  · exact absurd hfresh hcomp.1.not_fresh

end PgLocalCache.FenceDiscipline
