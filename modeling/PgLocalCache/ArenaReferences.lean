import PgLocalCache.ArenaRuns

/-!
# Which references the arena accepts

The calls of a run are now arbitrary: a release or a resize may name any
reference and any sizes. `Ledger` keeps beside the arena the set of addresses
handed out and not taken back. A release with a wrong size moves bytes between
the two byte counters but never touches the blocks, so some assignment of request
sizes to the live blocks always explains the counters, and the arena invariant
carries over. The lookups then accept exactly the live addresses.
-/

namespace PgLocalCache.ArenaReferences

open ByteMemory FreeChain CacheArena ArenaPage ArenaInvariant ArenaAlloc ArenaRelease ArenaRuns

structure Ledger where
  arena : Arena
  live : ℕ → Bool

inductive Attempt where
  | init (memory : Memory) (pageCount : ℕ)
  | alloc (request : ℕ)
  | free (ref request : ℕ)
  | resize (ref oldRequest newRequest : ℕ)
  | write (ref offset : ℕ) (bytes : List UInt8)

def handed (s : Ledger) : Option (ℕ × ℕ) × Arena → Ledger
  | (none,a) => ⟨a,s.live⟩
  | (some (ref,_),a) => ⟨a,Function.update s.live ref true⟩

def returned (s : Ledger) (ref : ℕ) : Bool × Arena → Ledger
  | (false,a) => ⟨a,s.live⟩
  | (true,a) => ⟨a,Function.update s.live ref false⟩

/-- One call with any arguments. Only a write has to stay inside a live block. -/
def attempt (s : Ledger) : Attempt → Option Ledger
  | .init memory pageCount =>
    match arenaInit memory pageCount with
    | none => some s
    | some a => some ⟨a,fun _ => false⟩
  | .alloc request => some (handed s (arenaAlloc s.arena request))
  | .free ref request => some (returned s ref (arenaFree s.arena ref request))
  | .resize ref oldRequest newRequest =>
    some ⟨(arenaResize s.arena ref oldRequest newRequest).2,s.live⟩
  | .write ref offset bytes =>
    if s.live ref ∧ offset+bytes.length ≤ arenaBlockClass s.arena ref then
      some { s with arena := { s.arena with memory := write s.arena.memory (ref+offset) bytes } }
    else none

def attemptAll : List Attempt → Ledger → Option Ledger
  | [], s => some s
  | call::calls, s => (attempt s call).bind (attemptAll calls)

/-- The call hands out the address. -/
def Attempt.allocates (s : Ledger) (ref : ℕ) : Attempt → Bool
  | .alloc request => (arenaAlloc s.arena request).1.map Prod.fst == some ref
  | _ => false

/-- Some call of the run hands out the address. -/
def reallocated (ref : ℕ) : List Attempt → Ledger → Bool
  | [], _ => false
  | call::calls, s =>
    call.allocates s ref || ((attempt s call).map (reallocated ref calls)).getD false

/-! Request sizes that explain the counters. -/

variable {a : Arena} {req : ℕ → Option ℕ} {s s' : Ledger}

def capacity (a : Arena) (req : ℕ → Option ℕ) (i : ℕ) : ℕ :=
  if req (i*minBlock) = none then 0 else blockSize a (i*minBlock)

theorem capacity_total (hc : Core a req) :
    total (capacity a req) (units a) = a.usedBytes+a.classSlackBytes := by
  rw [hc.used, hc.slack]
  simp only [total]
  rw [← Finset.sum_add_distrib]
  apply Finset.sum_congr rfl
  intro i _
  unfold capacity slackOf
  cases hr : req (i*minBlock) with
  | none => simp
  | some n =>
    have := hc.fits _ n hr
    simp only [reduceCtorEq, if_false, Option.getD_some]
    omega

def respread (req : ℕ → Option ℕ) (g : ℕ → ℕ) (ref : ℕ) : Option ℕ :=
  (req ref).map (fun _ => g (ref/minBlock))

theorem respread_unit (g : ℕ → ℕ) (i : ℕ) :
    respread req g (i*minBlock) = (req (i*minBlock)).map (fun _ => g i) := by
  rw [respread, Nat.mul_div_cancel i (by decide)]

theorem live_unit (hc : Core a req) (ref : ℕ) (h : req ref ≠ none) :
    ∃ u < units a, ref = u*minBlock := by
  obtain ⟨p,k,hp,hk,_,he,_⟩ := live_slot hc ref h
  rw [he]
  exact slot_unit (pageOk_shaped (hc.page p hp) hk) hk hp

/-- Any request sizes within the blocks and with the same sum explain the counters as well. -/
theorem sound_respread (hs : Sound a req) (g : ℕ → ℕ) (hg : ∀ i, g i ≤ capacity a req i)
    (hsum : total g (units a) = a.usedBytes) : Sound a (respread req g) := by
  have hc := hs.toCore
  have hnone : ∀ ref, respread req g ref ≠ none ↔ req ref ≠ none := by
    intro ref
    simp [respread]
  have hused : ∀ i, (respread req g (i*minBlock)).getD 0 = g i := by
    intro i
    have := hg i
    rw [respread_unit]
    unfold capacity at this
    cases hr : req (i*minBlock) with
    | none =>
      rw [if_pos hr] at this
      simp only [Option.map_none, Option.getD_none]
      omega
    | some n => rfl
  have hslack : ∀ i,
      g i+slackOf (blockSize a) (respread req g) (i*minBlock) = capacity a req i := by
    intro i
    have := hg i
    unfold slackOf
    rw [respread_unit]
    unfold capacity at this ⊢
    cases hr : req (i*minBlock) with
    | none =>
      rw [if_pos hr] at this
      simp only [Option.map_none, if_true]
      omega
    | some n =>
      rw [if_neg (by simp [hr])] at this
      simp only [Option.map_some, reduceCtorEq, if_false]
      omega
  refine ⟨⟨hc.room,hc.first,hc.below,hc.page,fun ref => ?_,fun ref n h => ?_,?_,?_,hc.held,
    hc.assigned⟩,hs.inhabited⟩
  · rw [hnone]
    exact hc.live ref
  · have hne : req ref ≠ none := (hnone ref).mp (by simp [h])
    obtain ⟨u,_,rfl⟩ := live_unit hc ref hne
    have := hg u
    rw [capacity, if_neg hne] at this
    rw [respread_unit] at h
    obtain ⟨m,hm⟩ := Option.ne_none_iff_exists'.mp hne
    rw [hm] at h
    cases h
    exact this
  · rw [← hsum]
    exact total_congr _ _ _ (fun i _ => (hused i).symm)
  · have hadd : total g (units a)+
        total (fun i => slackOf (blockSize a) (respread req g) (i*minBlock)) (units a) =
          total (capacity a req) (units a) := by
      simp only [total]
      rw [← Finset.sum_add_distrib]
      exact Finset.sum_congr rfl (fun i _ => hslack i)
    rw [capacity_total hc, hsum] at hadd
    omega

/-- The counters admit any size for one live block that passes the guards of a release. -/
theorem sound_claimed (hs : Sound a req) (ref n : ℕ) (hne : req ref ≠ none)
    (hn : n ≤ blockSize a ref) (hu : n ≤ a.usedBytes)
    (hsl : blockSize a ref-n ≤ a.classSlackBytes) :
    ∃ req', Sound a req' ∧ req' ref = some n ∧ ∀ r, req' r ≠ none ↔ req r ≠ none := by
  have hc := hs.toCore
  obtain ⟨u,hunit,rfl⟩ := live_unit hc ref hne
  have hcap : capacity a req u = blockSize a (u*minBlock) := by rw [capacity, if_neg hne]
  obtain ⟨g,hg,hgu,hsum⟩ := total_fill_at (capacity a req) (units a) a.usedBytes u n hunit
    (by rw [hcap]; exact hn) hu (by rw [capacity_total hc, hcap]; omega)
  refine ⟨respread req g,sound_respread hs g hg hsum,?_,fun r => by simp [respread]⟩
  obtain ⟨m,hm⟩ := Option.ne_none_iff_exists'.mp hne
  rw [respread_unit, hm, Option.map_some, hgu]

/-! The invariant along arbitrary calls. -/

def Explained (s : Ledger) : Prop :=
  ∃ req, Sound s.arena req ∧ ∀ ref, s.live ref = true ↔ req ref ≠ none

theorem blockInfo_dead (hc : Core a req) (ref : ℕ) (h : req ref = none) :
    blockInfo a ref true = none := by
  cases hi : blockInfo a ref true with
  | none => rfl
  | some info =>
    obtain ⟨hp,hk,hb,he,_⟩ := blockInfo_some hc ref true info hi
    exact absurd h ((hc.live ref).mpr ⟨_,hp,_,hk,hb,he⟩)

theorem arenaFree_dead (hc : Core a req) (ref n : ℕ) (h : req ref = none) :
    arenaFree a ref n = (false,a) := by
  simp only [arenaFree, blockInfo_dead hc ref h]

theorem arenaResize_dead (hc : Core a req) (ref o n : ℕ) (h : req ref = none) :
    arenaResize a ref o n = (false,a) := by
  simp only [arenaResize, arenaBlockClass, blockInfo_dead hc ref h]
  rw [if_pos (by simp)]

theorem arenaFree_cases (a : Arena) (ref n : ℕ) :
    arenaFree a ref n = (false,a) ∨ ∃ info, blockInfo a ref true = some info ∧
      n ≤ info.blockSize ∧ n ≤ a.usedBytes ∧ info.blockSize-n ≤ a.classSlackBytes := by
  cases hi : blockInfo a ref true with
  | none =>
    left
    simp only [arenaFree, hi]
  | some info =>
    simp only [arenaFree, hi]
    split
    · exact Or.inl rfl
    · split
      · exact Or.inl rfl
      · rename_i hg
        exact Or.inr ⟨info,rfl,by omega,by omega,by omega⟩

theorem returned_explained (he : Explained s) (ref n : ℕ) :
    Explained (returned s ref (arenaFree s.arena ref n)) := by
  obtain ⟨req,hs,hl⟩ := he
  rcases arenaFree_cases s.arena ref n with hf | ⟨info,hi,h1,h2,h3⟩
  · rw [hf]
    exact ⟨req,hs,hl⟩
  · have hne : req ref ≠ none := by
      intro h
      rw [blockInfo_dead hs.toCore ref h] at hi
      cases hi
    obtain ⟨info',hi',hb⟩ := blockInfo_live hs.toCore ref hne
    rw [hi] at hi'
    cases hi'
    rw [hb] at h1 h3
    obtain ⟨req',hs',hat,hsame⟩ := sound_claimed hs ref n hne h1 h2 h3
    obtain ⟨a',ha,hs'',_⟩ := arenaFree_live hs' ref n hat
    rw [ha]
    refine ⟨_,hs'',fun r => ?_⟩
    by_cases hr : r = ref
    · subst hr
      simp [returned]
    · simp only [returned, Function.update_of_ne hr]
      rw [hl r, hsame r]

theorem resized_explained (he : Explained s) (ref o n : ℕ) :
    Explained ⟨(arenaResize s.arena ref o n).2,s.live⟩ := by
  obtain ⟨req,hs,hl⟩ := he
  by_cases hne : req ref = none
  · rw [arenaResize_dead hs.toCore ref o n hne]
    exact ⟨req,hs,hl⟩
  by_cases hg : !arenaCountersValid s.arena ∨ arenaBlockClass s.arena ref = 0 ∨
      arenaBlockClass s.arena ref < o ∨ arenaBlockClass s.arena ref < n ∨
      s.arena.usedBytes < o ∨ s.arena.classSlackBytes < arenaBlockClass s.arena ref-o
  · have hfail : arenaResize s.arena ref o n = (false,s.arena) := by
      simp only [arenaResize]
      rw [if_pos hg]
    rw [hfail]
    exact ⟨req,hs,hl⟩
  · rw [arenaBlockClass_live hs.toCore ref hne] at hg
    obtain ⟨req',hs',hat,hsame⟩ := sound_claimed hs ref o hne (by omega) (by omega) (by omega)
    obtain ⟨a',ha,hs'',_⟩ := arenaResize_live hs' ref o n hat (by omega)
    rw [ha]
    refine ⟨_,hs'',fun r => ?_⟩
    rw [hl r]
    by_cases hr : r = ref
    · subst hr
      simp [hne]
    · rw [Function.update_of_ne hr, hsame r]

theorem handed_explained (he : Explained s) (request : ℕ) :
    Explained (handed s (arenaAlloc s.arena request)) := by
  obtain ⟨req,hs,hl⟩ := he
  rcases arenaAlloc_exact hs request with ⟨_,ref,a',ha,_,_,hs',_⟩ | ⟨_,ha⟩
  · rw [ha]
    refine ⟨_,hs',fun r => ?_⟩
    by_cases hr : r = ref
    · subst hr
      simp [handed]
    · simp only [handed, Function.update_of_ne hr]
      exact hl r
  · rw [ha]
    exact ⟨req,hs,hl⟩

theorem initial_explained (memory : Memory) (pageCount : ℕ)
    (h : arenaInit memory pageCount = some a) : Explained ⟨a,fun _ => false⟩ :=
  ⟨recordedSize (opened a),(opened_held memory pageCount h).sound,fun ref => by
    simp [recordedSize, opened]⟩

theorem attempt_explained (he : Explained s) (call : Attempt) (h : attempt s call = some s') :
    Explained s' := by
  cases call with
  | init memory pageCount =>
    simp only [attempt] at h
    cases hi : arenaInit memory pageCount with
    | none =>
      simp only [hi, Option.some.injEq] at h
      exact h ▸ he
    | some a =>
      simp only [hi, Option.some.injEq] at h
      exact h ▸ initial_explained memory pageCount hi
  | alloc request =>
    simp only [attempt, Option.some.injEq] at h
    exact h ▸ handed_explained he request
  | free ref request =>
    simp only [attempt, Option.some.injEq] at h
    exact h ▸ returned_explained he ref request
  | resize ref o n =>
    simp only [attempt, Option.some.injEq] at h
    exact h ▸ resized_explained he ref o n
  | write ref offset bytes =>
    simp only [attempt] at h
    split at h
    · rename_i hin
      cases h
      obtain ⟨req,hs,hl⟩ := he
      have hne := (hl ref).mp hin.1
      rw [arenaBlockClass_live hs.toCore ref hne] at hin
      refine ⟨req,(sound_write hs ref hne _ (fun x hx => ?_)).1,hl⟩
      exact write_outside _ _ _ _ (by omega)
    · cases h

theorem attemptAll_explained (calls : List Attempt) (he : Explained s)
    (h : attemptAll calls s = some s') : Explained s' := by
  induction calls generalizing s with
  | nil =>
    cases h
    exact he
  | cons call calls ih =>
    simp only [attemptAll, Option.bind_eq_some_iff] at h
    obtain ⟨v,hv,hrest⟩ := h
    exact ih (attempt_explained he call hv) hrest

theorem attempt_dead (call : Attempt) (ref : ℕ) (hd : s.live ref = false)
    (hno : call.allocates s ref = false) (h : attempt s call = some s') : s'.live ref = false := by
  cases call with
  | init memory pageCount =>
    simp only [attempt] at h
    split at h
    · cases h
      exact hd
    · cases h
      rfl
  | alloc request =>
    simp only [attempt, Option.some.injEq] at h
    subst h
    simp only [Attempt.allocates] at hno
    rcases hr : arenaAlloc s.arena request with ⟨_|⟨got,size⟩,a⟩
    · exact hd
    · rw [hr] at hno
      have hne : ref ≠ got := by
        intro he
        simp [he] at hno
      simpa [handed, hne] using hd
  | free other request =>
    simp only [attempt, Option.some.injEq] at h
    subst h
    rcases arenaFree s.arena other request with ⟨_|_,a⟩
    · exact hd
    · by_cases hr : ref = other
      · simp [returned, hr]
      · simpa [returned, hr] using hd
  | resize other o n =>
    simp only [attempt, Option.some.injEq] at h
    subst h
    exact hd
  | write other offset bytes =>
    simp only [attempt] at h
    split at h
    · cases h
      exact hd
    · cases h

/-- An address that is not live stays so until a call of the run hands it out again. -/
theorem attemptAll_dead (calls : List Attempt) (ref : ℕ) (hd : s.live ref = false)
    (hno : reallocated ref calls s = false) (h : attemptAll calls s = some s') :
    s'.live ref = false := by
  induction calls generalizing s with
  | nil =>
    cases h
    exact hd
  | cons call calls ih =>
    simp only [attemptAll, Option.bind_eq_some_iff] at h
    obtain ⟨v,hv,hrest⟩ := h
    simp only [reallocated, hv, Option.map_some, Option.getD_some, Bool.or_eq_false_iff] at hno
    exact ih (attempt_dead call ref hd hno.1 hv) hno.2 hrest

/-- No function of the arena accepts the reference, and none changes the arena. -/
def Rejected (a : Arena) (ref : ℕ) : Prop :=
  arenaBlock a ref = none ∧ arenaBlockClass a ref = 0 ∧
    (∀ request, arenaFree a ref request = (false,a)) ∧
    ∀ oldRequest newRequest, arenaResize a ref oldRequest newRequest = (false,a)

theorem explained_rejects (he : Explained s) (ref : ℕ) (hd : s.live ref = false) :
    Rejected s.arena ref := by
  obtain ⟨req,hs,hl⟩ := he
  have hnone : req ref = none := by
    by_contra h
    rw [(hl ref).mpr h] at hd
    cases hd
  have hi := blockInfo_dead hs.toCore ref hnone
  exact ⟨by simp [arenaBlock, hi],by simp [arenaBlockClass, hi],
    fun n => arenaFree_dead hs.toCore ref n hnone,
    fun o n => arenaResize_dead hs.toCore ref o n hnone⟩

theorem explained_accepts (he : Explained s) (ref : ℕ) (h : s.live ref = true) :
    arenaBlock s.arena ref = some ref ∧ 256 ≤ arenaBlockClass s.arena ref := by
  obtain ⟨req,hs,hl⟩ := he
  have hne := (hl ref).mp h
  rw [arenaBlockClass_live hs.toCore ref hne]
  exact ⟨arenaBlock_live hs.toCore ref hne,blockSize_min hs.toCore ref hne⟩

/-- After any calls, the lookups accept exactly the starts of live blocks, every other reference
is rejected by all four functions without a change, and a released address stays rejected until
an allocation hands it out again. -/
theorem run_references_exact (memory : Memory) (pageCount : ℕ) (a : Arena) (calls : List Attempt)
    (s : Ledger) (hi : arenaInit memory pageCount = some a)
    (hr : attemptAll calls ⟨a,fun _ => false⟩ = some s) :
    (∀ ref, s.live ref = true →
      arenaBlock s.arena ref = some ref ∧ arenaBlockClass s.arena ref ≠ 0) ∧
    (∀ ref, s.live ref = false → Rejected s.arena ref) ∧
    ∀ ref request, (arenaFree s.arena ref request).1 = true →
      ∀ later s', attemptAll (.free ref request::later) s = some s' →
        reallocated ref later (returned s ref (arenaFree s.arena ref request)) = false →
        Rejected s'.arena ref := by
  have he := attemptAll_explained calls (initial_explained memory pageCount hi) hr
  refine ⟨fun ref h => ?_,explained_rejects he,fun ref request hf later s' hrun hno => ?_⟩
  · obtain ⟨h1,h2⟩ := explained_accepts he ref h
    exact ⟨h1,by omega⟩
  · have hdead : (returned s ref (arenaFree s.arena ref request)).live ref = false := by
      rcases hres : arenaFree s.arena ref request with ⟨_|_,b⟩
      · rw [hres] at hf
        cases hf
      · simp [returned]
    simp only [attemptAll, attempt, Option.bind_some] at hrun
    have hafter := attemptAll_explained later (returned_explained he ref request) hrun
    exact explained_rejects hafter ref (attemptAll_dead later ref hdead hno hrun)

def mixedCalls : List Attempt :=
  [.alloc 300,.alloc 400,.alloc 9000,.resize 0 200 500,.free 0 444,.free 65536 9000,.alloc 256,
    .free 7 1]

def mixedLedger : Ledger :=
  (attemptAll mixedCalls ⟨smallArena,fun _ => false⟩).getD ⟨smallArena,fun _ => false⟩

theorem mixed_attempted :
    attemptAll mixedCalls ⟨smallArena,fun _ => false⟩ = some mixedLedger := by
  have h : (attemptAll mixedCalls ⟨smallArena,fun _ => false⟩).isSome = true := by decide +kernel
  obtain ⟨u,hu⟩ := Option.isSome_iff_exists.mp h
  rw [mixedLedger, hu, Option.getD_some]

theorem mixed_references_exact : arenaInit (fun _ => 0) 2 = some smallArena ∧
    arenaBlock mixedLedger.arena 512 = some 512 ∧ Rejected mixedLedger.arena 0 :=
  have h := run_references_exact _ 2 smallArena mixedCalls mixedLedger rfl mixed_attempted
  ⟨rfl,(h.1 512 (by decide +kernel)).1,h.2.1 0 (by decide +kernel)⟩

end PgLocalCache.ArenaReferences
