import PgLocalCache.OperationCode
import PgLocalCache.DirtyOrder

/-!
# Runs of the whole system

Any number of backends run their operations in any order from the moment the shared
memory was set up, one access to a counter at a time. Every operation follows the
discipline of fences and generations, so it holds at every step of every run: the
writers of a target are the fences that backends note for it, and no tag goes back.
-/

namespace PgLocalCache.SystemRuns

open ByteMemory PartitionModel DirtySet Interleaving SharedWorld BackendCode
open FenceDiscipline TransactionCode OperationCode
open FenceLedger hiding Progress

/-! Start-up. -/

/-- The partitions of the shared memory as they were set up. -/
structure Setup where
  size : ℕ → PartitionSize
  memory : ℕ → Memory
  keyMemory : ℕ → Memory

def nothingHeld : Held := ⟨[],false⟩

section
variable (B : Type) [Fintype B]

def startShared (setup : Setup) : Shared where
  globalVersion := 0
  globalEpoch := 0
  globalDirtyWriters := 0
  configGeneration := 1
  relationIncarnationCounter := 0
  slots := fun _ => ⟨false,0,0,0,0⟩
  states := []
  registryLocked := false
  partitions := fun p => partitionInit (setup.size p) (setup.memory p) (setup.keyMemory p)
  handed := []
  holders := (Finset.univ : Finset B).val.map (fun _ => nothingHeld)

def startLocal : Local := ⟨betweenTransactions [] 0 0 0,false,false,false,nothingHeld,[]⟩

def startPool (setup : Setup) : Pool B Shared Local :=
  ⟨startShared B setup,fun _ => startLocal,fun _ => .halt⟩

end

section
variable {B : Type} [Fintype B] {setup : Setup}

theorem start_total {f : Held → ℕ} (hf : f nothingHeld = 0) :
    total f (startShared B setup).holders = 0 := by
  refine total_eq_zero.mpr (fun h hh => ?_)
  obtain ⟨_,_,rfl⟩ := Multiset.mem_map.mp hh
  exact hf

theorem start_world : World (startShared B setup) := by
  refine ⟨(start_total rfl).symm,fun t => ?_,fun _ h => (by cases h),fun _ h => (by cases h)⟩
  have hnone : (countersOf (startShared B setup) t).writers = 0 := by cases t <;> rfl
  exact hnone.trans (start_total rfl).symm

theorem start_settled : Settled startLocal :=
  ⟨⟨⟨List.nodup_nil,fun _ hc => (by cases hc),.refl _,rfl⟩,fun _ hf => (by cases hf),.refl _⟩,
    fun _ _ => ⟨rfl,fun _ hc => (by cases hc)⟩⟩

theorem start_disciplined [DecidableEq B] :
    Disciplined (fences B) Ready (startPool B setup) :=
  ⟨⟨rfl,start_world⟩,fun _ => .halt _ _ (fun _ _ => ⟨rfl,start_settled⟩)⟩

end

/-! Runs. -/

variable {B : Type} [DecidableEq B] [Fintype B] {env : Env} {setup : Setup}
variable {w w' : Pool B Shared Local} {b : B}

/-- The states that runs from start-up pass through. -/
def Reachable (env : Env) (setup : Setup) (w : Pool B Shared Local) : Prop :=
  Steps (menu env) (startPool B setup) w

theorem reachable_disciplined (h : Reachable env setup w) :
    Disciplined (fences B) Ready w :=
  disciplined_steps (menu_safe env) start_disciplined h

theorem reachable_world (h : Reachable env setup w) : World w.shared :=
  (reachable_disciplined h).inv.world

theorem reachable_settled (h : Reachable env setup w) (hb : w.progs b = .halt) :
    Settled (w.locals b) := by
  have hsafe := (reachable_disciplined h).safe b
  rw [hb] at hsafe
  cases hsafe with
  | halt _ _ hready => exact (hready _ (rely_refl _ _)).2

theorem reachable_progress (h : Reachable env setup w) (hs : Step (menu env) w w') :
    Progress w.shared w'.shared := by
  obtain hsame | ⟨b,l',hmove,_⟩ :=
    (disciplined_step (menu_safe env) (reachable_disciplined h) hs).2
  · rw [hsame.1]
    exact .refl _
  · have hinv := (reachable_disciplined h).inv
    exact hmove.change.progress (holders_split b hinv) (holders_behind hinv hmove)

theorem steps_progress (h : Reachable env setup w) (hs : Steps (menu env) w w') :
    Reachable env setup w' ∧ Progress w.shared w'.shared := by
  induction hs with
  | refl => exact ⟨h,.refl _⟩
  | tail _ hstep ih => exact ⟨.tail ih.1 hstep,ih.2.trans (reachable_progress ih.1 hstep)⟩

theorem no_writers {s : Shared} (hw : World s) {t : Target} (h : (countersOf s t).writers = 0) :
    writers Held.fences s.holders t = 0 := (hw.fences t).symm.trans h

/-! Two backends; the first one resolves a mapping, writes a key of its relation and commits. -/

def smallEnv : Env := ⟨1,DirtyOrder.smallServer,smallSettings⟩

def smallSetup : Setup := ⟨fun _ => smallSize,fun _ _ => 0,fun _ _ => 0⟩

def mappedPool : Pool (Fin 2) Shared Local :=
  (startPool (Fin 2) smallSetup).after (menu smallEnv) 0 (.resolve 1 1 [97]) true 60

def collectedPool : Pool (Fin 2) Shared Local :=
  mappedPool.after (menu smallEnv) 0 (.collect (.relation 1 1 [97])) true 10

def publishedPool : Pool (Fin 2) Shared Local :=
  collectedPool.after (menu smallEnv) 0 .publish false 120

def finishedPool : Pool (Fin 2) Shared Local :=
  publishedPool.after (menu smallEnv) 0 (.finish true) true 120

theorem mappedPool_reachable : Reachable smallEnv smallSetup mappedPool :=
  steps_after .refl 0 _ true 60 rfl ⟨rfl,rfl⟩

theorem collectedPool_reachable : Reachable smallEnv smallSetup collectedPool :=
  steps_after mappedPool_reachable 0 _ true 10 rfl ⟨rfl,rfl⟩

theorem publishedPool_steps : Steps (menu smallEnv) collectedPool publishedPool :=
  steps_after .refl 0 _ false 120 rfl ⟨rfl,rfl⟩

theorem publishedPool_reachable : Reachable smallEnv smallSetup publishedPool :=
  (steps_progress collectedPool_reachable publishedPool_steps).1

theorem finishedPool_steps : Steps (menu smallEnv) publishedPool finishedPool :=
  steps_after .refl 0 _ true 120 rfl ⟨rfl,.inl rfl⟩

def halted : Prog Shared Local → Bool
  | .halt => true
  | _ => false

theorem halt_of_halted {p : Prog Shared Local} (h : halted p = true) : p = .halt := by
  cases p with
  | halt => rfl
  | _ => cases h

theorem publishedPool_rest (b : Fin 2) : publishedPool.progs b = .halt := by
  have hall : ∀ b, halted (publishedPool.progs b) = true := by decide +kernel
  exact halt_of_halted (hall b)

/-- The fences of a published transaction stand while it waits for its end, whatever the other
backends are in the middle of. -/
theorem published_fences_stand (h : Reachable env setup w) (hb : w.progs b = .halt) :
    ((w.locals b).globalFallback = true → w.shared.globalDirtyWriters ≠ 0) ∧
      ∀ c ∈ (w.locals b).dirty.table, c.2.sharedRelationFencePublished = true →
        (w.shared.slots c.2.sharedSlot).dirtyWriters ≠ 0 := by
  have hown := own_of_inv _ _ b (reachable_disciplined h).inv
  have hheld : ∀ f ∈ fencesOf (w.locals b), f ∈ (w.locals b).held.fences :=
    fun f hf => (reachable_settled h hb).fences.mem_iff.mpr (List.mem_append_left _ hf)
  refine ⟨fun hglobal => hown.writers_pos (hheld ⟨.all,true⟩ (List.mem_append_left _ ?_)),
    fun c hc hflag => hown.writers_pos (hheld ⟨.slot c.2.sharedSlot,true⟩
      (List.mem_append_right _ (List.mem_flatMap.mpr ⟨c,hc,?_⟩)))⟩
  · rw [globalFences, if_pos hglobal]
    exact .head _
  · rw [fenceCell, if_pos hflag]
    exact .head _

theorem published_record_fence_stands :
    (publishedPool.locals 0).dirty.table.map (fun c => c.2.sharedRelationFencePublished) = [true] ∧
    ∀ c ∈ (publishedPool.locals 0).dirty.table, c.2.sharedRelationFencePublished = true →
      (publishedPool.shared.slots c.2.sharedSlot).dirtyWriters ≠ 0 :=
  ⟨by decide +kernel,(published_fences_stand publishedPool_reachable (publishedPool_rest 0)).2⟩

/-- No tag goes back in any run; the version of a slot may start again under a generation that no
mapping and no record has received. -/
theorem tags_never_go_back (h : Reachable env setup w) (hs : Steps (menu env) w w') :
    w.shared.configGeneration ≤ w'.shared.configGeneration ∧
      w.shared.globalEpoch ≤ w'.shared.globalEpoch ∧
      w.shared.globalVersion ≤ w'.shared.globalVersion ∧
      ∀ i, (w.shared.slots i).generation ≤ (w'.shared.slots i).generation ∧
        (w.shared.slots i).incarnation ≤ (w'.shared.slots i).incarnation ∧
        (GivenOut w.shared i → (w'.shared.slots i).generation = (w.shared.slots i).generation →
          (w.shared.slots i).version ≤ (w'.shared.slots i).version) := by
  have hp := (steps_progress h hs).2
  exact ⟨hp.config,hp.epoch,(hp.fences .all trivial).version,fun i => ⟨hp.generation i,
    hp.incarnation i,fun hout hgen => (hp.fences (.slot i) ⟨hout,hgen⟩).version⟩⟩

theorem finished_tags_never_go_back : (publishedPool.shared.slots 0).version = 1 ∧
    (finishedPool.shared.slots 0).version = 2 ∧
    publishedPool.shared.globalVersion ≤ finishedPool.shared.globalVersion :=
  ⟨by decide +kernel,by decide +kernel,
    (tags_never_go_back publishedPool_reachable finishedPool_steps).2.2.1⟩

/-- No writer passes unnoticed: between two instants without a writer of a target at which its
versions can be compared, any writer leaves a higher version. -/
theorem writer_changes_version {u : Pool B Shared Local} (h : Reachable env setup w)
    (hs : Steps (menu env) w u) (hs' : Steps (menu env) u w') {t : Target}
    (hc : Comparable w.shared w'.shared t) (hzero : (countersOf w.shared t).writers = 0)
    (hwriter : (countersOf u.shared t).writers ≠ 0)
    (hzero' : (countersOf w'.shared t).writers = 0) :
    (countersOf w.shared t).version < (countersOf w'.shared t).version := by
  obtain ⟨hu,hp⟩ := steps_progress h hs
  obtain ⟨hw',hp'⟩ := steps_progress hu hs'
  obtain ⟨hleft,hright⟩ := hp.split hp' hc
  refine lt_of_le_of_ne ((hp.trans hp').fences t hc).version (fun heq => hwriter ?_)
  have hquiet := (hp.fences t hleft).quiet_between (hp'.fences t hright) heq.symm
    (no_writers (reachable_world h) hzero) (no_writers (reachable_world hw') hzero')
  exact ((reachable_world hu).fences t).trans hquiet.2

theorem finished_writer_changes_version :
    (countersOf collectedPool.shared (.slot 0)).version <
      (countersOf finishedPool.shared (.slot 0)).version := by
  have hout : ⟨0,1⟩ ∈ collectedPool.shared.handed ∧
      (collectedPool.shared.slots 0).generation = 1 ∧
      (finishedPool.shared.slots 0).generation = 1 := by decide +kernel
  have hwriters : (countersOf collectedPool.shared (.slot 0)).writers = 0 ∧
      (countersOf publishedPool.shared (.slot 0)).writers ≠ 0 ∧
      (countersOf finishedPool.shared (.slot 0)).writers = 0 := by decide +kernel
  exact writer_changes_version collectedPool_reachable publishedPool_steps finishedPool_steps
    ⟨⟨_,hout.1,rfl,hout.2.1.symm⟩,hout.2.2.trans hout.2.1.symm⟩ hwriters.1 hwriters.2.1 hwriters.2.2

end PgLocalCache.SystemRuns
