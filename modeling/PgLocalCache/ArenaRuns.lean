import PgLocalCache.ArenaRelease

/-!
# Runs of arena calls

A caller of the arena remembers for every block it holds the size it asked for
and the size it last recorded. `perform` is one call together with that
bookkeeping; it is undefined where the call is not a correct use, that is, where
a free, a resize or a write names no held block or leaves it. The arena
invariant holds along every run of correct calls, and a call keeps the bytes of
every block that is held before and after it.
-/

namespace PgLocalCache.ArenaRuns

open ByteMemory FreeChain CacheArena ArenaPage ArenaInvariant ArenaAlloc ArenaRelease
open Function (update update_of_ne update_self)

structure Loan where
  born : ℕ
  recorded : ℕ
  deriving DecidableEq, Repr

structure Use where
  arena : Arena
  loans : ℕ → Option Loan

inductive Call where
  | init (memory : Memory) (pageCount : ℕ)
  | alloc (request : ℕ)
  | free (ref : ℕ)
  | resize (ref request : ℕ)
  | write (ref offset : ℕ) (bytes : List UInt8)

def Call.writes : Call → ℕ → Bool
  | .write ref _ _, r => ref == r
  | _, _ => false

def opened (a : Arena) : Use := ⟨a,fun _ => none⟩

def granted (u : Use) (request : ℕ) : Option (ℕ × ℕ) × Arena → Use
  | (none,a) => ⟨a,u.loans⟩
  | (some (ref,_),a) => ⟨a,update u.loans ref (some ⟨request,request⟩)⟩

def perform (u : Use) : Call → Option Use
  | .init memory pageCount =>
    match arenaInit memory pageCount with
    | none => some u
    | some a => some (opened a)
  | .alloc request => some (granted u request (arenaAlloc u.arena request))
  | .free ref =>
    match u.loans ref with
    | none => none
    | some loan =>
      match arenaFree u.arena ref loan.recorded with
      | (false,a) => some ⟨a,u.loans⟩
      | (true,a) => some ⟨a,update u.loans ref none⟩
  | .resize ref request =>
    match u.loans ref with
    | none => none
    | some loan =>
      match arenaResize u.arena ref loan.recorded request with
      | (false,a) => some ⟨a,u.loans⟩
      | (true,a) => some ⟨a,update u.loans ref (some ⟨loan.born,request⟩)⟩
  | .write ref offset bytes =>
    match u.loans ref with
    | none => none
    | some _ =>
      if offset+bytes.length ≤ arenaBlockClass u.arena ref then
        some ⟨{ u.arena with memory := write u.arena.memory (ref+offset) bytes },u.loans⟩
      else none

def performAll : List Call → Use → Option Use
  | [], u => some u
  | call::calls, u => (perform u call).bind (performAll calls)

/-! The invariant carried along a run. -/

def recordedSize (u : Use) (ref : ℕ) : Option ℕ := (u.loans ref).map Loan.recorded

structure Held (u : Use) : Prop where
  sound : Sound u.arena (recordedSize u)
  born : ∀ ref loan, u.loans ref = some loan → blockSize u.arena ref = arenaClassSize loan.born

def Framed (call : Call) (u u' : Use) : Prop :=
  ∀ ref, u.loans ref ≠ none → u'.loans ref ≠ none → call.writes ref = false →
    ∀ i < blockSize u.arena ref, u'.arena.memory (ref+i) = u.arena.memory (ref+i)

variable {u u' : Use} {a : Arena}

theorem recordedSize_none (ref : ℕ) : recordedSize u ref = none ↔ u.loans ref = none := by
  simp [recordedSize]

theorem recordedSize_update (a : Arena) (ref : ℕ) (loan : Option Loan) :
    recordedSize ⟨a,update u.loans ref loan⟩ =
      update (recordedSize u) ref (loan.map Loan.recorded) := by
  funext r
  by_cases h : r = ref
  · simp [recordedSize, h]
  · simp [recordedSize, h]

theorem arenaInit_some (memory : Memory) (pageCount : ℕ) (h : arenaInit memory pageCount = some a) :
    pageCount ≤ 65535 ∧ a = ⟨memory,fun _ => blankPage,pageCount,0,0,0,0⟩ := by
  unfold arenaInit at h
  split at h
  · cases h
  · rename_i hle
    have hroom : (2^32-1)/pageSize = 65535 := by decide
    cases h
    exact ⟨by omega,rfl⟩

theorem opened_held (memory : Memory) (pageCount : ℕ) (h : arenaInit memory pageCount = some a) :
    Held (opened a) := by
  obtain ⟨hroom,rfl⟩ := arenaInit_some memory pageCount h
  refine ⟨⟨⟨hroom,Nat.zero_le _,?_,?_,?_,?_,?_,?_,?_,?_⟩,?_⟩,?_⟩
  all_goals simp [opened, recordedSize, blankPage, slackOf, total, LiveIn]
  intro p _
  exact ⟨fun _ => ⟨rfl,rfl,rfl⟩,fun h => absurd rfl h,fun h => absurd rfl h⟩

theorem born_keeps (hh : Held u) (kept : ℕ → Prop) (hk : Keeps u.arena a kept) (ref : ℕ)
    (loan : Loan) (hl : u.loans ref = some loan) (hr : kept ref) :
    blockSize a ref = arenaClassSize loan.born := by
  rw [(hk ref hr).1]
  exact hh.born ref loan hl

theorem granted_held (hh : Held u) (request : ℕ) :
    Held (granted u request (arenaAlloc u.arena request)) ∧
      Framed (.alloc request) u (granted u request (arenaAlloc u.arena request)) := by
  rcases arenaAlloc_exact hh.sound request with ⟨_,ref,a,he,hnew,_,hs,hsize,hk⟩ | ⟨_,he⟩
  · rw [he]
    have hfresh := (recordedSize_none ref).mp hnew
    have hkept : ∀ r, u.loans r ≠ none → recordedSize u r ≠ none := by
      intro r hr h
      exact hr ((recordedSize_none r).mp h)
    refine ⟨⟨?_,?_⟩,?_⟩
    · simp only [granted]
      rw [recordedSize_update]
      exact hs
    · intro r loan hl
      simp only [granted] at hl ⊢
      by_cases hr : r = ref
      · subst hr
        rw [update_self] at hl
        cases hl
        exact hsize
      · rw [update_of_ne hr] at hl
        exact born_keeps hh _ hk r loan hl (hkept r (by simp [hl]))
    · intro r hr _ _
      exact (hk r (hkept r hr)).2
  · rw [he]
    exact ⟨hh,fun r _ _ _ i _ => rfl⟩

theorem free_held (hh : Held u) (ref : ℕ) (loan : Loan) (hl : u.loans ref = some loan) :
    ∃ a, arenaFree u.arena ref loan.recorded = (true,a) ∧
      Held ⟨a,update u.loans ref none⟩ ∧
      Framed (.free ref) u ⟨a,update u.loans ref none⟩ := by
  have hrec : recordedSize u ref = some loan.recorded := by simp [recordedSize, hl]
  obtain ⟨a,he,hs,hk⟩ := arenaFree_live hh.sound ref loan.recorded hrec
  refine ⟨a,he,⟨?_,?_⟩,?_⟩
  · rw [recordedSize_update]
    exact hs
  · intro r loan' hl'
    by_cases hr : r = ref
    · simp [hr] at hl'
    · simp only [update_of_ne hr] at hl'
      exact born_keeps hh _ hk r loan' hl' ⟨by simp [recordedSize, hl'],hr⟩
  · intro r hr hr' _
    have hne : r ≠ ref := by
      intro h
      simp [h] at hr'
    exact (hk r ⟨fun h => hr ((recordedSize_none r).mp h),hne⟩).2

theorem arenaResize_fails (ref old request : ℕ) (h : arenaBlockClass a ref < request) :
    arenaResize a ref old request = (false,a) := by
  simp only [arenaResize]
  rw [if_pos (by omega)]

theorem resize_held (hh : Held u) (ref : ℕ) (loan : Loan) (hl : u.loans ref = some loan)
    (request : ℕ) (hr : request ≤ arenaBlockClass u.arena ref) :
    ∃ a, arenaResize u.arena ref loan.recorded request = (true,a) ∧
      Held ⟨a,update u.loans ref (some ⟨loan.born,request⟩)⟩ ∧
      a.memory = u.arena.memory ∧ a.pages = u.arena.pages := by
  have hrec : recordedSize u ref = some loan.recorded := by simp [recordedSize, hl]
  rw [arenaBlockClass_live hh.sound.toCore ref (by simp [hrec])] at hr
  obtain ⟨a,he,hs,hm,hp⟩ := arenaResize_live hh.sound ref loan.recorded request hrec hr
  refine ⟨a,he,⟨?_,?_⟩,hm,hp⟩
  · rw [recordedSize_update]
    exact hs
  · intro r loan' hl'
    have hsame : blockSize a r = blockSize u.arena r := by simp [blockSize, hp]
    change blockSize a r = _
    rw [hsame]
    by_cases hne : r = ref
    · subst hne
      simp only [update_self] at hl'
      cases hl'
      exact hh.born r loan hl
    · simp only [update_of_ne hne] at hl'
      exact hh.born r loan' hl'

theorem write_held (hh : Held u) (ref offset : ℕ) (bytes : List UInt8) (loan : Loan)
    (hl : u.loans ref = some loan)
    (hin : offset+bytes.length ≤ arenaBlockClass u.arena ref) :
    Held ⟨{ u.arena with memory := write u.arena.memory (ref+offset) bytes },u.loans⟩ ∧
      Framed (.write ref offset bytes) u
        ⟨{ u.arena with memory := write u.arena.memory (ref+offset) bytes },u.loans⟩ := by
  have hne : recordedSize u ref ≠ none := by simp [recordedSize, hl]
  rw [arenaBlockClass_live hh.sound.toCore ref hne] at hin
  obtain ⟨hs,hk⟩ := sound_write hh.sound ref hne (write u.arena.memory (ref+offset) bytes)
    (fun x hx => write_outside _ _ _ _ (by omega))
  refine ⟨⟨hs,hh.born⟩,fun r hr _ hw => ?_⟩
  have hother : r ≠ ref := by
    intro h
    simp [Call.writes, h] at hw
  exact (hk r ⟨fun h => hr ((recordedSize_none r).mp h),hother⟩).2

theorem perform_held (hh : Held u) (call : Call) (h : perform u call = some u') :
    Held u' ∧ Framed call u u' := by
  cases call with
  | init memory pageCount =>
    simp only [perform] at h
    cases hi : arenaInit memory pageCount with
    | none =>
      simp only [hi, Option.some.injEq] at h
      subst h
      exact ⟨hh,fun r _ _ _ i _ => rfl⟩
    | some a =>
      simp only [hi, Option.some.injEq] at h
      subst h
      exact ⟨opened_held memory pageCount hi,fun r _ hr => absurd rfl hr⟩
  | alloc request =>
    simp only [perform, Option.some.injEq] at h
    subst h
    exact granted_held hh request
  | free ref =>
    simp only [perform] at h
    cases hl : u.loans ref with
    | none => simp [hl] at h
    | some loan =>
      obtain ⟨a,he,hheld,hf⟩ := free_held hh ref loan hl
      simp only [hl, he, Option.some.injEq] at h
      subst h
      exact ⟨hheld,hf⟩
  | resize ref request =>
    simp only [perform] at h
    cases hl : u.loans ref with
    | none => simp [hl] at h
    | some loan =>
      by_cases hr : request ≤ arenaBlockClass u.arena ref
      · obtain ⟨a,he,hheld,hm,_⟩ := resize_held hh ref loan hl request hr
        simp only [hl, he, Option.some.injEq] at h
        subst h
        exact ⟨hheld,fun r _ _ _ i _ => by simp [hm]⟩
      · have hfail : arenaResize u.arena ref loan.recorded request = (false,u.arena) :=
          arenaResize_fails ref loan.recorded request (by omega)
        simp only [hl, hfail, Option.some.injEq] at h
        subst h
        exact ⟨hh,fun r _ _ _ i _ => rfl⟩
  | write ref offset bytes =>
    simp only [perform] at h
    cases hl : u.loans ref with
    | none => simp [hl] at h
    | some loan =>
      simp only [hl] at h
      split at h
      · rename_i hin
        cases h
        exact write_held hh ref offset bytes loan hl hin
      · cases h

theorem performAll_held (calls : List Call) (hh : Held u) (h : performAll calls u = some u') :
    Held u' := by
  induction calls generalizing u with
  | nil =>
    cases h
    exact hh
  | cons call calls ih =>
    simp only [performAll, Option.bind_eq_some_iff] at h
    obtain ⟨v,hv,hrest⟩ := h
    exact ih (perform_held hh call hv).1 hrest

/-! What the invariant says in terms of the records of the source. -/

/-- The arena as its caller sees it: blocks, free lists, counters and page assignment. -/
structure Consistent (u : Use) : Prop where
  disjoint : ∀ ref ref', u.loans ref ≠ none → u.loans ref' ≠ none → ref ≠ ref' →
    ref+arenaBlockClass u.arena ref ≤ ref' ∨ ref'+arenaBlockClass u.arena ref' ≤ ref
  inside : ∀ ref, u.loans ref ≠ none →
    ref+arenaBlockClass u.arena ref ≤ u.arena.pageCount*pageSize
  smallest : ∀ ref loan, u.loans ref = some loan → ∃ j < 7,
    arenaBlockClass u.arena ref = 256*2^j ∧ loan.born ≤ 256*2^j ∧
      (∀ i < j, 256*2^i < loan.born) ∧ loan.recorded ≤ 256*2^j
  split : ∀ p < u.arena.pageCount, (u.arena.pages p).classIndex ≠ 0 →
    (u.arena.pages p).classIndex ≤ classCount ∧
      (u.arena.pages p).blockCount = pageSize/classBytes ((u.arena.pages p).classIndex-1)
  freeList : ∀ p < u.arena.pageCount, (u.arena.pages p).classIndex ≠ 0 →
    Lists (load32 u.arena.memory) noBlock (u.arena.pages p).freeHead
      (fun ref => u.loans ref = none ∧ ∃ k < (u.arena.pages p).blockCount,
        ref = slot p (u.arena.pages p) k)
  bitmap : ∀ p < u.arena.pageCount, ∀ k < (u.arena.pages p).blockCount,
    (u.arena.pages p).allocated k = true ↔ u.loans (slot p (u.arena.pages p) k) ≠ none
  liveCount : ∀ p < u.arena.pageCount, (u.arena.pages p).liveCount =
    ((Finset.range (u.arena.pages p).blockCount).filter
      (fun k => u.loans (slot p (u.arena.pages p) k) ≠ none)).card
  assigned : ∀ p < u.arena.pageCount, (u.arena.pages p).classIndex ≠ 0 ↔
    ∃ ref, u.loans ref ≠ none ∧ ref/pageSize = p
  usedBytes : u.arena.usedBytes = ∑ ref ∈ Finset.range (u.arena.pageCount*pageSize),
    ((u.loans ref).map Loan.recorded).getD 0
  slackBytes : u.arena.classSlackBytes = ∑ ref ∈ Finset.range (u.arena.pageCount*pageSize),
    ((u.loans ref).map (fun loan => arenaBlockClass u.arena ref-loan.recorded)).getD 0
  assignedBytes : u.arena.assignedBytes = pageSize*
    ((Finset.range u.arena.pageCount).filter (fun p => (u.arena.pages p).classIndex ≠ 0)).card
  below : ∀ p < u.arena.firstUnassignedPage,
    p < u.arena.pageCount ∧ (u.arena.pages p).classIndex ≠ 0

theorem classBytes_pow (j : ℕ) (hj : j < classCount) : classBytes j = 256*2^j := by
  simp [classBytes, hj, minBlock, Nat.shiftLeft_eq]

theorem loan_live (hh : Held u) (ref : ℕ) :
    u.loans ref ≠ none ↔ ∃ p < u.arena.pageCount, LiveIn p (u.arena.pages p) ref := by
  rw [← hh.sound.live ref, not_iff_not]
  exact (recordedSize_none ref).symm

theorem slot_loan (hh : Held u) (p k : ℕ) (hp : p < u.arena.pageCount)
    (hk : k < (u.arena.pages p).blockCount) :
    (u.arena.pages p).allocated k = true ↔ u.loans (slot p (u.arena.pages p) k) ≠ none := by
  have hc := hh.sound.toCore
  rw [loan_live hh]
  constructor
  · intro h
    exact ⟨p,hp,k,hk,h,rfl⟩
  · rintro ⟨q,hq,j,hj,hl,he⟩
    have hs := pageOk_shaped (hc.page p hp) hk
    have hs' := pageOk_shaped (hc.page q hq) hj
    have hpq : q = p := by
      have := slot_page (p := p) hs hk
      rw [he, slot_page hs' hj] at this
      exact this
    subst hpq
    by_cases hjk : k = j
    · exact hjk ▸ hl
    · have := slot_disjoint q (u.arena.pages q) k j hjk
      have := shaped_min hs
      omega

theorem loan_multiple (hh : Held u) (ref : ℕ) (h : ref%minBlock ≠ 0) : u.loans ref = none := by
  by_contra hne
  obtain ⟨p,hp,k,hk,_,he⟩ := (loan_live hh ref).mp hne
  obtain ⟨v,_,hv⟩ := slot_unit (pageOk_shaped (hh.sound.page p hp) hk) hk hp
  rw [he, hv, Nat.mul_mod_left] at h
  exact h rfl

theorem arena_units (a : Arena) : a.pageCount*pageSize = units a*minBlock := by
  unfold units pageSize minBlock
  omega

theorem held_block (hh : Held u) (ref : ℕ) (h : u.loans ref ≠ none) :
    arenaBlockClass u.arena ref = blockSize u.arena ref :=
  arenaBlockClass_live hh.sound.toCore ref (fun he => h ((recordedSize_none ref).mp he))

theorem held_disjoint (hh : Held u) (ref ref' : ℕ) (h : u.loans ref ≠ none)
    (h' : u.loans ref' ≠ none) (hne : ref ≠ ref') :
    ref+arenaBlockClass u.arena ref ≤ ref' ∨ ref'+arenaBlockClass u.arena ref' ≤ ref := by
  rw [held_block hh ref h, held_block hh ref' h']
  apply blocks_disjoint hh.sound.toCore ref ref' _ _ hne
  · exact fun he => h ((recordedSize_none ref).mp he)
  · exact fun he => h' ((recordedSize_none ref').mp he)

theorem held_inside (hh : Held u) (ref : ℕ) (h : u.loans ref ≠ none) :
    ref+arenaBlockClass u.arena ref ≤ u.arena.pageCount*pageSize := by
  have hc := hh.sound.toCore
  obtain ⟨p,k,hp,hk,_,he,hb⟩ :=
    live_slot hc ref (fun he => h ((recordedSize_none ref).mp he))
  rw [held_block hh ref h, hb, he]
  exact slot_extent (pageOk_shaped (hc.page p hp) hk) hk hp

theorem held_smallest (hh : Held u) (ref : ℕ) (loan : Loan) (hl : u.loans ref = some loan) :
    ∃ j < 7, arenaBlockClass u.arena ref = 256*2^j ∧ loan.born ≤ 256*2^j ∧
      (∀ i < j, 256*2^i < loan.born) ∧ loan.recorded ≤ 256*2^j := by
  have hc := hh.sound.toCore
  have hne : u.loans ref ≠ none := by simp [hl]
  have hrec : recordedSize u ref = some loan.recorded := by simp [recordedSize, hl]
  have hmin := blockSize_min hc ref (by simp [hrec])
  have hfit := hc.fits ref loan.recorded hrec
  have hborn := hh.born ref loan hl
  have hsmall : loan.born ≤ maxBlock := by
    by_contra hbig
    rw [hborn, (arenaClassSize_zero loan.born).mpr (by omega)] at hmin
    omega
  obtain ⟨j,hj,he,hr,hlow⟩ := arenaClassSize_least loan.born hsmall
  rw [hborn, he, classBytes_pow j hj] at hfit
  rw [classBytes_pow j hj] at hr
  refine ⟨j,hj,?_,hr,fun i hi => ?_,hfit⟩
  · rw [held_block hh ref hne, hborn, he, classBytes_pow j hj]
  · rw [← classBytes_pow i (by omega)]
    exact hlow i hi

theorem held_freeList (hh : Held u) (p : ℕ) (hp : p < u.arena.pageCount)
    (hz : (u.arena.pages p).classIndex ≠ 0) :
    Lists (load32 u.arena.memory) noBlock (u.arena.pages p).freeHead
      (fun ref => u.loans ref = none ∧ ∃ k < (u.arena.pages p).blockCount,
        ref = slot p (u.arena.pages p) k) := by
  apply lists_congr ((hh.sound.page p hp).chain hz) _ (fun _ _ => rfl)
  intro ref
  constructor
  · rintro ⟨hnone,k,hk,rfl⟩
    refine ⟨k,hk,?_,rfl⟩
    by_contra hf
    exact (slot_loan hh p k hp hk).mp (by simpa using hf) hnone
  · rintro ⟨k,hk,hf,rfl⟩
    refine ⟨?_,k,hk,rfl⟩
    by_contra hne
    rw [(slot_loan hh p k hp hk).mpr hne] at hf
    exact absurd hf (by decide)

theorem held_liveCount (hh : Held u) (p : ℕ) (hp : p < u.arena.pageCount) :
    (u.arena.pages p).liveCount = ((Finset.range (u.arena.pages p).blockCount).filter
      (fun k => u.loans (slot p (u.arena.pages p) k) ≠ none)).card := by
  have ho := hh.sound.page p hp
  by_cases hz : (u.arena.pages p).classIndex = 0
  · obtain ⟨h1,h2,_⟩ := ho.blank hz
    simp [h1, h2]
  · rw [(ho.shaped hz).live, Finset.card_filter]
    apply total_congr
    intro k hk
    simp only [slot_loan hh p k hp hk]

theorem held_assigned (hh : Held u) (p : ℕ) (hp : p < u.arena.pageCount) :
    (u.arena.pages p).classIndex ≠ 0 ↔ ∃ ref, u.loans ref ≠ none ∧ ref/pageSize = p := by
  have hc := hh.sound.toCore
  constructor
  · intro hz
    have hs := (hc.page p hp).shaped hz
    have hlive := hh.sound.inhabited p hp hz
    rw [hs.live] at hlive
    have hsome : ∃ k < (u.arena.pages p).blockCount, (u.arena.pages p).allocated k = true := by
      by_contra hno
      apply hlive
      rw [tally_zero_iff]
      intro k hk
      by_contra hf
      exact hno ⟨k,hk,by simpa using hf⟩
    obtain ⟨k,hk,hl⟩ := hsome
    exact ⟨_,(slot_loan hh p k hp hk).mp hl,slot_page hs hk⟩
  · rintro ⟨ref,hne,rfl⟩
    obtain ⟨q,hq,k,hk,_,he⟩ := (loan_live hh ref).mp hne
    have hs := pageOk_shaped (hc.page q hq) hk
    rw [he, slot_page hs hk]
    exact hs.assigned

theorem held_used (hh : Held u) : u.arena.usedBytes =
    ∑ ref ∈ Finset.range (u.arena.pageCount*pageSize),
      ((u.loans ref).map Loan.recorded).getD 0 := by
  rw [hh.sound.used, arena_units]
  symm
  apply total_multiples _ minBlock _ (by decide)
  intro ref h
  simp [loan_multiple hh ref h]

theorem held_slack (hh : Held u) : u.arena.classSlackBytes =
    ∑ ref ∈ Finset.range (u.arena.pageCount*pageSize),
      ((u.loans ref).map (fun loan => arenaBlockClass u.arena ref-loan.recorded)).getD 0 := by
  have hterm : ∀ ref, slackOf (blockSize u.arena) (recordedSize u) ref =
      ((u.loans ref).map (fun loan => arenaBlockClass u.arena ref-loan.recorded)).getD 0 := by
    intro ref
    cases hl : u.loans ref with
    | none => simp [slackOf, recordedSize, hl]
    | some loan => simp [slackOf, recordedSize, hl, held_block hh ref (by simp [hl])]
  rw [hh.sound.slack, arena_units]
  simp only [hterm]
  symm
  apply total_multiples _ minBlock _ (by decide)
  intro ref h
  simp [loan_multiple hh ref h]

theorem held_assignedBytes (hh : Held u) : u.arena.assignedBytes = pageSize*
    ((Finset.range u.arena.pageCount).filter (fun p => (u.arena.pages p).classIndex ≠ 0)).card := by
  rw [hh.sound.assigned, Finset.card_filter, Finset.mul_sum]
  apply total_congr
  intro p _
  by_cases hz : (u.arena.pages p).classIndex = 0
  · simp [hz]
  · simp [hz]

theorem held_consistent (hh : Held u) : Consistent u where
  disjoint := held_disjoint hh
  inside := held_inside hh
  smallest := held_smallest hh
  split p hp hz := by
    have hs := (hh.sound.page p hp).shaped hz
    exact ⟨hs.known,hs.count⟩
  freeList := held_freeList hh
  bitmap p hp k hk := slot_loan hh p k hp hk
  liveCount := held_liveCount hh
  assigned := held_assigned hh
  usedBytes := held_used hh
  slackBytes := held_slack hh
  assignedBytes := held_assignedBytes hh
  below p hp := ⟨Nat.lt_of_lt_of_le hp hh.sound.first,hh.sound.below p hp⟩

/-- Along every run of correct calls the arena stays consistent, and no call touches a byte
of a block that is held before and after it, the block a caller writes to excepted. -/
theorem run_consistent_framed (memory : Memory) (pageCount : ℕ) (a : Arena) (calls : List Call)
    (u : Use) (hi : arenaInit memory pageCount = some a)
    (hr : performAll calls (opened a) = some u) :
    Consistent u ∧ ∀ call u', perform u call = some u' →
      ∀ ref, u.loans ref ≠ none → u'.loans ref ≠ none → call.writes ref = false →
        ∀ i < arenaBlockClass u.arena ref,
          u'.arena.memory (ref+i) = u.arena.memory (ref+i) := by
  have hh := performAll_held calls (opened_held memory pageCount hi) hr
  refine ⟨held_consistent hh,fun call u' hstep ref h h' hw => ?_⟩
  rw [held_block hh ref h]
  exact (perform_held hh call hstep).2 ref h h' hw

def smallArena : Arena := ⟨fun _ => 0,fun _ => blankPage,2,0,0,0,0⟩

def smallCalls : List Call :=
  [.alloc 300,.alloc 700,.alloc 20000,.alloc 100,.resize 0 512,.write 0 4 [7,7],.alloc 900,
    .free 65536]

def smallUse : Use := (performAll smallCalls (opened smallArena)).getD (opened smallArena)

theorem small_performed : performAll smallCalls (opened smallArena) = some smallUse := by
  have h : (performAll smallCalls (opened smallArena)).isSome = true := by decide +kernel
  obtain ⟨u,hu⟩ := Option.isSome_iff_exists.mp h
  rw [smallUse, hu, Option.getD_some]

theorem small_run_consistent_framed : arenaInit (fun _ => 0) 2 = some smallArena ∧
    smallUse.loans 0 = some ⟨300,512⟩ ∧ Consistent smallUse :=
  ⟨rfl,by decide +kernel,
    (run_consistent_framed _ 2 smallArena smallCalls smallUse rfl small_performed).1⟩

/-- After a run of correct calls an allocation fails exactly when the request is too large or
the arena is exhausted for its class, a failure changes nothing, and releases and resizes of
held blocks do not fail. -/
theorem run_alloc_complete (memory : Memory) (pageCount : ℕ) (a : Arena) (calls : List Call)
    (u : Use) (hi : arenaInit memory pageCount = some a)
    (hr : performAll calls (opened a) = some u) :
    (∀ request, ((arenaAlloc u.arena request).1 = none ↔
        maxBlock < request ∨ Exhausted u.arena request) ∧
      ((arenaAlloc u.arena request).1 = none → (arenaAlloc u.arena request).2 = u.arena)) ∧
    ∀ ref loan, u.loans ref = some loan →
      (arenaFree u.arena ref loan.recorded).1 = true ∧
      ∀ request ≤ arenaBlockClass u.arena ref,
        (arenaResize u.arena ref loan.recorded request).1 = true := by
  have hh := performAll_held calls (opened_held memory pageCount hi) hr
  constructor
  · intro request
    rcases arenaAlloc_exact hh.sound request with ⟨hno,ref,a',he,_⟩ | ⟨hfull,he⟩
    · simp [he, hno]
    · simp [he, hfull]
  · intro ref loan hl
    obtain ⟨a',he,_⟩ := free_held hh ref loan hl
    refine ⟨by rw [he],fun request hle => ?_⟩
    obtain ⟨b,hb,_⟩ := resize_held hh ref loan hl request hle
    rw [hb]

theorem small_run_alloc_complete : arenaInit (fun _ => 0) 2 = some smallArena ∧
    ((arenaAlloc smallUse.arena 300).1 = none ↔
      maxBlock < 300 ∨ Exhausted smallUse.arena 300) ∧
    (arenaFree smallUse.arena 0 512).1 = true :=
  have h := run_alloc_complete _ 2 smallArena smallCalls smallUse rfl small_performed
  ⟨rfl,(h.1 300).1,(h.2 0 ⟨300,512⟩ (by decide +kernel)).1⟩

end PgLocalCache.ArenaRuns
