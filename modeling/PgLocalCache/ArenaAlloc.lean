import PgLocalCache.ArenaInvariant

/-!
# Allocation keeps the arena invariant

A block comes from the first page of its class with a free block, or from the
first unassigned page, which is then split. The blocks that were live keep their
bytes and sizes.
-/

namespace PgLocalCache.ArenaAlloc

open ByteMemory FreeChain CacheArena ArenaPage ArenaInvariant
open Function (update update_of_ne update_self)

variable {a : Arena} {req : ℕ → Option ℕ} {p k : ℕ}

def takenArena (a : Arena) (p k request : ℕ) : Arena :=
  { a with
    pages := update a.pages p (takenPage a.memory (a.pages p) k)
    usedBytes := a.usedBytes+request
    classSlackBytes := a.classSlackBytes+(blockBytes (a.pages p)-request) }

theorem takenArena_page (request : ℕ) :
    (takenArena a p k request).pages p = takenPage a.memory (a.pages p) k := by
  simp [takenArena]

theorem takenArena_other (request q : ℕ) (h : q ≠ p) :
    (takenArena a p k request).pages q = a.pages q := by
  simp [takenArena, h]

theorem takenArena_class (request q : ℕ) :
    ((takenArena a p k request).pages q).classIndex = (a.pages q).classIndex := by
  by_cases h : q = p
  · rw [h, takenArena_page]
    rfl
  · rw [takenArena_other request q h]

theorem takenArena_size (request ref : ℕ) :
    blockSize (takenArena a p k request) ref = blockSize a ref := by
  simp only [blockSize, blockBytes, takenArena_class]

theorem free_slot_none (hc : Core a req) (hp : p < a.pageCount)
    (hk : k < (a.pages p).blockCount) (hf : (a.pages p).allocated k = false) :
    req (slot p (a.pages p) k) = none := by
  have hs := pageOk_shaped (hc.page p hp) hk
  by_contra hne
  obtain ⟨q,j,hq,hj,hl,he,_⟩ := live_slot hc _ hne
  have hpq : p = q := by
    rw [← slot_page (p := p) hs hk, he, slot_page (pageOk_shaped (hc.page q hq) hj) hj]
  subst hpq
  rw [slot_inj hs k j he, hl] at hf
  simp at hf

theorem takenArena_core (hc : Core a req) (hp : p < a.pageCount)
    (hk : k < (a.pages p).blockCount) (hf : (a.pages p).allocated k = false)
    (hh : (a.pages p).freeHead = slot p (a.pages p) k) (request : ℕ)
    (hr : request ≤ blockBytes (a.pages p)) :
    Core (takenArena a p k request)
      (update req (slot p (a.pages p) k) (some request)) := by
  have ho := hc.page p hp
  have hs := pageOk_shaped ho hk
  have hp' : p < 65535 := Nat.lt_of_lt_of_le hp hc.room
  have hnone := free_slot_none hc hp hk hf
  have hsize : blockSize a (slot p (a.pages p) k) = blockBytes (a.pages p) := by
    rw [blockSize, slot_page hs hk]
  obtain ⟨u,hu,hunit⟩ := slot_unit hs hk hp
  refine ⟨hc.room,hc.first,fun q hq => ?_,fun q hq => ?_,fun ref => ?_,fun ref n h => ?_,?_,?_,?_,
    ?_⟩
  · rw [takenArena_class]
    exact hc.below q hq
  · by_cases h : q = p
    · rw [h, takenArena_page]
      exact pageOk_take ho hk hf hh hp'
    · rw [takenArena_other request q h]
      exact hc.page q hq
  · have hsplit : (∃ q < a.pageCount, LiveIn q ((takenArena a p k request).pages q) ref) ↔
        (∃ q < a.pageCount, LiveIn q (a.pages q) ref) ∨ ref = slot p (a.pages p) k := by
      constructor
      · rintro ⟨q,hq,hl⟩
        by_cases h : q = p
        · subst h
          rw [takenArena_page, liveIn_taken hk] at hl
          exact hl.imp (fun hl => ⟨q,hq,hl⟩) id
        · rw [takenArena_other request q h] at hl
          exact Or.inl ⟨q,hq,hl⟩
      · rintro (⟨q,hq,hl⟩ | rfl)
        · refine ⟨q,hq,?_⟩
          by_cases h : q = p
          · subst h
            rw [takenArena_page, liveIn_taken hk]
            exact Or.inl hl
          · rwa [takenArena_other request q h]
        · refine ⟨p,hp,?_⟩
          rw [takenArena_page, liveIn_taken hk]
          exact Or.inr rfl
    refine Iff.trans ?_ hsplit.symm
    rw [← hc.live ref]
    by_cases h : ref = slot p (a.pages p) k
    · simp [h]
    · simp [h]
  · rw [takenArena_size]
    by_cases h' : ref = slot p (a.pages p) k
    · rw [h', update_self] at h
      cases h
      rw [h', hsize]
      exact hr
    · rw [update_of_ne h'] at h
      exact hc.fits ref n h
  · have h := used_update req (units a) u hu (some request)
    rw [← hunit, hnone, ← hc.used] at h
    change a.usedBytes+request = total _ (units a)
    simpa using h.symm
  · have h := slack_update req (blockSize a) (units a) u hu (some request)
    rw [← hunit, ← hc.slack] at h
    have hz : slackOf (blockSize a) req (slot p (a.pages p) k) = 0 := by simp [slackOf, hnone]
    rw [hz] at h
    rw [slack_congr _ (blockSize a) _ (fun ref _ => takenArena_size request ref)]
    change a.classSlackBytes+_ = total _ (units a)
    simpa [hsize] using h.symm
  · have h := total_change (fun q => (a.pages q).liveCount*blockBytes (a.pages q))
      (fun q => ((takenArena a p k request).pages q).liveCount*
        blockBytes ((takenArena a p k request).pages q)) a.pageCount p hp
      (fun q _ hq => by rw [takenArena_other request q hq])
    have he : ((takenArena a p k request).pages p).liveCount*
        blockBytes ((takenArena a p k request).pages p) =
        (a.pages p).liveCount*blockBytes (a.pages p)+blockBytes (a.pages p) := by
      rw [takenArena_page, ← Nat.succ_mul]
      rfl
    have hheld := hc.held
    change a.usedBytes+request+(a.classSlackBytes+(blockBytes (a.pages p)-request)) =
      total _ a.pageCount
    omega
  · simp only [takenArena_class]
    exact hc.assigned

theorem takeBlock_page (hc : Core a req) (hp : p < a.pageCount)
    (hz : (a.pages p).classIndex ≠ 0) (hh : (a.pages p).freeHead ≠ noBlock) (request : ℕ) :
    ∃ k, k < (a.pages p).blockCount ∧ (a.pages p).allocated k = false ∧
      (a.pages p).freeHead = slot p (a.pages p) k ∧
      takeBlock a p request (blockBytes (a.pages p)) =
        (some (slot p (a.pages p) k,blockBytes (a.pages p)),takenArena a p k request) := by
  have ho := hc.page p hp
  have hs := ho.shaped hz
  have hm := shaped_min hs
  obtain ⟨k,hk,hf,he⟩ := lists_head_free (ho.chain hz) hh
  refine ⟨k,hk,hf,he,?_⟩
  have hcount := counters_free hc hp hk hf
  have hinfo := blockInfo_slot hc hp hk false hf
  have hno : slot p (a.pages p) k%pageSize/blockBytes (a.pages p) = k := by
    rw [slot_offset hs hk]
    exact Nat.mul_div_cancel _ (by omega)
  have hnext : load32 a.memory (slot p (a.pages p) k) = noBlock ∨
      FreeIn p (a.pages p) (load32 a.memory (slot p (a.pages p) k)) :=
    lists_next (ho.chain hz) _ ⟨k,hk,hf,rfl⟩
  have hvalid : nextLinkValid a p (blockBytes (a.pages p))
      (load32 a.memory (slot p (a.pages p) k)) = true := by
    rcases hnext with h | ⟨j,hj,hjf,h⟩
    · simp [nextLinkValid, h]
    · simp [nextLinkValid, h, blockInfo_slot hc hp hj false hjf]
  unfold takeBlock
  simp only [he, hinfo, hno, hvalid, hf]
  rw [if_neg (by omega), if_neg (by simp), if_neg (by simp), if_neg (by simp)]
  simp only [takenArena, takenPage, he]

def assignedArena (a : Arena) (p c : ℕ) : Arena :=
  { a with
    memory := linkBlocks p (classBytes c) (pageSize/classBytes c) 0 (pageSize/classBytes c) a.memory
    pages := update a.pages p (freshPage p c)
    assignedBytes := a.assignedBytes+pageSize
    firstUnassignedPage := p }

theorem linkBlocks_outside_page (c : ℕ) (hcl : c < classCount) (x : ℕ)
    (h : x < p*pageSize ∨ p*pageSize+pageSize ≤ x) :
    (assignedArena a p c).memory x = a.memory x := by
  obtain ⟨h1,_,h3,_⟩ := class_facts c hcl
  refine linkBlocks_outside _ _ 0 _ (by unfold minBlock at h3; omega) x ?_
  rw [Nat.zero_add, Nat.mul_comm (pageSize/classBytes c), h1]
  omega

theorem blank_dead (hc : Core a req) (hz : (a.pages p).classIndex = 0)
    (ref : ℕ) (h : req ref ≠ none) : ref/pageSize ≠ p := by
  obtain ⟨q,k,hq,hk,_,rfl,_⟩ := live_slot hc ref h
  have hs := pageOk_shaped (hc.page q hq) hk
  rw [slot_page hs hk]
  exact fun he => hs.assigned (he ▸ hz)

theorem assignedArena_size (c : ℕ) (ref : ℕ) (h : ref/pageSize ≠ p) :
    blockSize (assignedArena a p c) ref = blockSize a ref := by
  simp [blockSize, assignedArena, h]

theorem assignedArena_core (hc : Core a req) (hp : p < a.pageCount)
    (hz : (a.pages p).classIndex = 0) (c : ℕ) (hcl : c < classCount)
    (hbelow : ∀ q < p, (a.pages q).classIndex ≠ 0) : Core (assignedArena a p c) req := by
  have hp' : p < 65535 := Nat.lt_of_lt_of_le hp hc.room
  have hother : ∀ q, q ≠ p → (assignedArena a p c).pages q = a.pages q := fun q h => by
    simp [assignedArena, h]
  have hself : (assignedArena a p c).pages p = freshPage p c := by simp [assignedArena]
  have hdead := blank_dead hc hz
  refine ⟨hc.room,Nat.le_of_lt hp,fun q hq => ?_,fun q hq => ?_,fun ref => ?_,fun ref n h => ?_,
    hc.used,?_,?_,?_⟩
  · change q < p at hq
    rw [hother q (Nat.ne_of_lt hq)]
    exact hbelow q hq
  · by_cases h : q = p
    · rw [h, hself]
      exact pageOk_fresh c hcl hp'
    · rw [hother q h]
      refine pageOk_frame (hc.page q hq) (fun x hx hx' => linkBlocks_outside_page c hcl x ?_)
      unfold pageSize at *
      omega
  · rw [hc.live ref]
    refine exists_congr (fun q => and_congr_right (fun hq => ?_))
    by_cases h : q = p
    · subst h
      rw [hself]
      constructor
      · rintro ⟨k,hk,_,_⟩
        have := ((hc.page q hq).blank hz).1
        omega
      · rintro ⟨k,_,hl,_⟩
        simp [freshPage] at hl
    · rw [hother q h]
  · rw [assignedArena_size c ref (hdead ref (by simp [h]))]
    exact hc.fits ref n h
  · rw [slack_congr _ (blockSize a) _ (fun ref h => assignedArena_size c ref (hdead ref h))]
    exact hc.slack
  · change a.usedBytes+a.classSlackBytes = _
    rw [hc.held]
    refine total_congr _ _ _ (fun q hq => ?_)
    by_cases h : q = p
    · rw [h, hself, ((hc.page p hp).blank hz).2.1]
      simp [freshPage]
    · rw [hother q h]
  · have h := total_change (fun q => if (a.pages q).classIndex = 0 then 0 else pageSize)
      (fun q => if ((assignedArena a p c).pages q).classIndex = 0 then 0 else pageSize)
      a.pageCount p hp (fun q _ hq => by simp only [hother q hq])
    have hassigned := hc.assigned
    simp only [hz, if_true, hself] at h
    change a.assignedBytes+pageSize = total _ a.pageCount
    have hfresh : (freshPage p c).classIndex ≠ 0 := Nat.succ_ne_zero c
    rw [if_neg hfresh] at h
    omega

theorem classBytes_double (i : ℕ) (hi : i < classCount) (h : classBytes i < maxBlock) :
    i+1 < classCount ∧ classBytes i*2 = classBytes (i+1) := by
  unfold classCount at hi
  interval_cases i <;> first | exact absurd h (by decide) | decide

theorem classBytes_injective (i j : ℕ) (hi : i < classCount) (hj : j < classCount)
    (h : classBytes i = classBytes j) : i = j := by
  simp only [classBytes, hi, hj, if_true, minBlock, Nat.shiftLeft_eq] at h
  exact Nat.pow_right_injective (le_refl 2) (by simpa using h)

theorem classSizeLoop_class (request n i : ℕ) (hi : i < classCount) :
    ∃ j < classCount, classSizeLoop request n (classBytes i) = classBytes j := by
  induction n generalizing i with
  | zero => exact ⟨i,hi,rfl⟩
  | succ n ih =>
    by_cases h : classBytes i < request ∧ classBytes i < maxBlock
    · have hi' := classBytes_double i hi h.2
      obtain ⟨j,hj,e⟩ := ih (i+1) hi'.1
      exact ⟨j,hj,by rw [classSizeLoop, if_pos h, hi'.2, e]⟩
    · exact ⟨i,hi,by rw [classSizeLoop, if_neg h]⟩

theorem classIndexLoop_class (j : ℕ) (hj : j < classCount) :
    classIndexLoop (classBytes j) 0 classCount = j := by
  unfold classCount at hj
  interval_cases j <;> decide

theorem arenaClassSize_class (request : ℕ) (h : arenaClassSize request ≠ 0) :
    ∃ j < classCount, arenaClassSize request = classBytes j ∧ request ≤ classBytes j := by
  unfold arenaClassSize at *
  by_cases hm : request ≤ minBlock
  · exact ⟨0,by decide,by rw [if_pos hm]; rfl,hm⟩
  · rw [if_neg hm] at *
    obtain ⟨j,hj,e⟩ := classSizeLoop_class request classCount 0 (by decide)
    have e' : classSizeLoop request classCount minBlock = classBytes j := e
    by_cases hr : request ≤ classBytes j
    · exact ⟨j,hj,by simp [e', hr],hr⟩
    · simp [e', hr] at h

inductive ScanSpec (a : Arena) (c : ℕ) (start stop : ℕ) : Scan → Prop where
  | found (p : ℕ) : p < stop → (a.pages p).classIndex = c+1 → (a.pages p).freeHead ≠ noBlock →
      ScanSpec a c start stop (.found p)
  | exhausted : (∀ p, start ≤ p → p < stop → (a.pages p).classIndex = c+1 →
      (a.pages p).freeHead = noBlock) → ScanSpec a c start stop .exhausted

theorem scanPages_spec (hc : Core a req) (c start n : ℕ) (hn : start+n = a.pageCount) :
    ScanSpec a c start a.pageCount (scanPages a c start n) := by
  induction n generalizing start with
  | zero => exact .exhausted (fun p h h' => by omega)
  | succ n ih =>
    have hp : start < a.pageCount := by omega
    have ho := hc.page start hp
    have hnext := ih (start+1) (by omega)
    have hskip : ¬((a.pages start).classIndex = c+1 ∧ (a.pages start).freeHead ≠ noBlock) →
        ScanSpec a c start a.pageCount (scanPages a c (start+1) n) := by
      intro hno
      generalize scanPages a c (start+1) n = r at hnext
      cases hnext with
      | found p h1 h2 h3 => exact .found p h1 h2 h3
      | exhausted h =>
        refine .exhausted (fun p hs hlt hcl => ?_)
        rcases Nat.eq_or_lt_of_le hs with rfl | hlt'
        · by_contra hf
          exact hno ⟨hcl,hf⟩
        · exact h p hlt' hlt hcl
    by_cases hz : (a.pages start).classIndex = 0
    · obtain ⟨h1,h2,h3⟩ := ho.blank hz
      have e : scanPages a c start (n+1) = scanPages a c (start+1) n := by
        simp [scanPages, hz, h1, h2, h3]
      rw [e]
      exact hskip (by simp [hz])
    · have hv := freeHeadValid_page hc hp hz
      have hshape := pageShapeValid_shaped (ho.shaped hz)
      by_cases hhit : (a.pages start).classIndex = c+1 ∧ (a.pages start).freeHead ≠ noBlock
      · have e : scanPages a c start (n+1) = .found start := by
          simp only [scanPages, hz, if_false, hshape, hv]
          simp [hhit]
        rw [e]
        exact .found start hp hhit.1 hhit.2
      · have e : scanPages a c start (n+1) = scanPages a c (start+1) n := by
          simp only [scanPages, hz, if_false, hshape, hv]
          simp [hhit]
        rw [e]
        exact hskip hhit

theorem nextUnassigned_spec (a : Arena) (start n : ℕ) :
    start ≤ nextUnassigned a start n ∧ nextUnassigned a start n ≤ start+n ∧
      (∀ q, start ≤ q → q < nextUnassigned a start n → (a.pages q).classIndex ≠ 0) ∧
      (nextUnassigned a start n < start+n →
        (a.pages (nextUnassigned a start n)).classIndex = 0) := by
  induction n generalizing start with
  | zero => exact ⟨le_refl _,le_refl _,fun q h h' => by simp [nextUnassigned] at h'; omega,
      fun h => by simp [nextUnassigned] at h⟩
  | succ n ih =>
    by_cases hz : (a.pages start).classIndex = 0
    · simp only [nextUnassigned, hz, if_true]
      exact ⟨le_refl _,by omega,fun q h h' => by omega,fun _ => trivial⟩
    · obtain ⟨h1,h2,h3,h4⟩ := ih (start+1)
      simp only [nextUnassigned, hz, if_false]
      refine ⟨by omega,by omega,fun q h h' => ?_,fun h => h4 (by omega)⟩
      rcases Nat.eq_or_lt_of_le h with rfl | hlt
      · exact hz
      · exact h3 q hlt h'

theorem assignPage_unassigned (hc : Core a req) (hp : p < a.pageCount)
    (hz : (a.pages p).classIndex = 0) (c : ℕ) (hcl : c < classCount) :
    assignPage { a with firstUnassignedPage := p } p c = (true,assignedArena a p c) := by
  have hvalid := core_counters hc hp
  have hcount : arenaCountersValid { a with firstUnassignedPage := p } = true := hvalid
  have hroom : a.assignedBytes ≤ a.pageCount*pageSize-pageSize := by
    have h := total_change (fun q => if (a.pages q).classIndex = 0 then 0 else pageSize)
      (fun q => if (a.pages q).classIndex = 0 then if q = p then pageSize else 0 else pageSize)
      a.pageCount p hp (fun q _ hq => by simp [hq])
    have hle := total_le
      (fun q => if (a.pages q).classIndex = 0 then if q = p then pageSize else 0 else pageSize)
      (fun _ => pageSize) a.pageCount (fun q _ => by split <;> (try split) <;> omega)
    rw [total_const] at hle
    have hassigned := hc.assigned
    simp only [hz, if_true] at h
    omega
  have hsize : classBytes c ≠ 0 := by
    have := (class_facts c hcl).2.2.1
    unfold minBlock at this
    omega
  unfold assignPage
  simp only [hcount, hz]
  rw [if_neg (by simp only [Bool.not_true, hsize, false_or]; simp; omega), if_neg (by simp)]
  rfl

theorem takeBlock_sound (hc : Core a req) (hp : p < a.pageCount)
    (hz : (a.pages p).classIndex ≠ 0) (hh : (a.pages p).freeHead ≠ noBlock)
    (hin : ∀ q < a.pageCount, q ≠ p → (a.pages q).classIndex ≠ 0 → (a.pages q).liveCount ≠ 0)
    (request : ℕ) (hr : request ≤ blockBytes (a.pages p)) :
    ∃ ref a', takeBlock a p request (blockBytes (a.pages p)) =
        (some (ref,blockBytes (a.pages p)),a') ∧ req ref = none ∧
      Sound a' (update req ref (some request)) ∧
      blockSize a' ref = blockBytes (a.pages p) ∧ Keeps a a' (fun r => req r ≠ none) := by
  obtain ⟨k,hk,hf,he,h⟩ := takeBlock_page hc hp hz hh request
  have hs := (hc.page p hp).shaped hz
  refine ⟨_,_,h,?_,⟨takenArena_core hc hp hk hf he request hr,fun q hq hcl => ?_⟩,?_,
    fun ref _ => ⟨takenArena_size request ref,fun _ _ => rfl⟩⟩
  · exact free_slot_none hc hp hk hf
  · by_cases hqp : q = p
    · rw [hqp, takenArena_page]
      simp [takenPage]
    · rw [takenArena_other request q hqp] at hcl ⊢
      exact hin q hq hqp hcl
  · rw [takenArena_size, blockSize, slot_page hs hk]

theorem classSizeLoop_least (request n i : ℕ) (hi : i < classCount) (hn : classCount ≤ i+n)
    (hr : request ≤ maxBlock) (hlow : ∀ m < i, classBytes m < request) :
    ∃ j < classCount, classSizeLoop request n (classBytes i) = classBytes j ∧
      request ≤ classBytes j ∧ ∀ m < j, classBytes m < request := by
  induction n generalizing i with
  | zero => omega
  | succ n ih =>
    by_cases h : classBytes i < request ∧ classBytes i < maxBlock
    · have hi' := classBytes_double i hi h.2
      rw [classSizeLoop, if_pos h, hi'.2]
      apply ih (i+1) hi'.1 (by omega)
      intro m hm
      by_cases hmi : m = i
      · exact hmi ▸ h.1
      · exact hlow m (by omega)
    · rw [classSizeLoop, if_neg h]
      exact ⟨i,hi,rfl,by omega,hlow⟩

theorem arenaClassSize_zero (request : ℕ) : arenaClassSize request = 0 ↔ maxBlock < request := by
  constructor
  · intro h
    by_contra hle
    obtain ⟨j,hj,e,hr,_⟩ :=
      classSizeLoop_least request classCount 0 (by decide) (by decide) (by omega) (by simp)
    have e' : classSizeLoop request classCount minBlock = classBytes j := e
    have hmin := (class_facts j hj).2.2.1
    unfold arenaClassSize at h
    rw [e'] at h
    simp only [hr, if_true] at h
    unfold minBlock at *
    split at h <;> omega
  · intro h
    obtain ⟨j,hj,e⟩ := classSizeLoop_class request classCount 0 (by decide)
    have e' : classSizeLoop request classCount minBlock = classBytes j := e
    have hmax : classBytes j ≤ maxBlock := by
      unfold classCount at hj
      interval_cases j <;> decide
    have hmin : ¬request ≤ minBlock := by
      unfold minBlock maxBlock at *
      omega
    unfold arenaClassSize
    simp only [if_neg hmin, e']
    rw [if_neg (by omega)]

/-- The class chosen for a request is the smallest one that holds it. -/
theorem arenaClassSize_least (request : ℕ) (h : request ≤ maxBlock) :
    ∃ j < classCount, arenaClassSize request = classBytes j ∧ request ≤ classBytes j ∧
      ∀ m < j, classBytes m < request := by
  by_cases hm : request ≤ minBlock
  · exact ⟨0,by decide,by rw [arenaClassSize, if_pos hm]; rfl,hm,by simp⟩
  · obtain ⟨j,hj,e,hr,hlow⟩ :=
      classSizeLoop_least request classCount 0 (by decide) (by decide) h (by simp)
    have e' : classSizeLoop request classCount minBlock = classBytes j := e
    refine ⟨j,hj,?_,hr,hlow⟩
    simp only [arenaClassSize, if_neg hm, e', if_pos hr]

/-- No page of the request's class has a free block and no page is unassigned. -/
def Exhausted (a : Arena) (request : ℕ) : Prop :=
  (∀ p < a.pageCount, (a.pages p).classIndex ≠ 0 →
    blockBytes (a.pages p) = arenaClassSize request →
    ∀ k < (a.pages p).blockCount, (a.pages p).allocated k = true) ∧
  ∀ p < a.pageCount, (a.pages p).classIndex ≠ 0

theorem freeHead_stop (hc : Core a req) (hp : p < a.pageCount) (hz : (a.pages p).classIndex ≠ 0) :
    (a.pages p).freeHead = noBlock ↔
      ∀ k < (a.pages p).blockCount, (a.pages p).allocated k = true := by
  rw [lists_stop_iff ((hc.page p hp).chain hz)]
  constructor
  · intro h k hk
    by_contra hf
    exact h _ ⟨k,hk,by simpa using hf,rfl⟩
  · rintro h ref ⟨k,hk,hf,_⟩
    rw [h k hk] at hf
    exact absurd hf (by decide)

/-- An allocation hands out a block that was not live unless the request is too large or
the arena is exhausted for its class, and then it leaves the arena unchanged. -/
theorem arenaAlloc_exact (hs : Sound a req) (request : ℕ) :
    (¬(maxBlock < request ∨ Exhausted a request) ∧
      ∃ ref a', arenaAlloc a request = (some (ref,arenaClassSize request),a') ∧ req ref = none ∧
        request ≤ arenaClassSize request ∧
        Sound a' (update req ref (some request)) ∧
        blockSize a' ref = arenaClassSize request ∧ Keeps a a' (fun r => req r ≠ none)) ∨
    ((maxBlock < request ∨ Exhausted a request) ∧ arenaAlloc a request = (none,a)) := by
  have hc := hs.toCore
  unfold arenaAlloc
  by_cases hguard : !arenaCountersValid a ∨ a.pageCount < a.firstUnassignedPage ∨
      arenaClassSize request = 0
  · refine Or.inr ⟨?_,by simp only [if_pos hguard]⟩
    rcases hguard with h | h | h
    · have hnone : a.pageCount = 0 := by
        by_contra hz
        have := core_counters hc (Nat.pos_of_ne_zero hz)
        simp [this] at h
      exact Or.inr ⟨fun p hp => by omega,fun p hp => by omega⟩
    · exact absurd hc.first (by omega)
    · exact Or.inl ((arenaClassSize_zero request).mp h)
  simp only [if_neg hguard]
  have hpos : arenaClassSize request ≠ 0 := fun h => hguard (Or.inr (Or.inr h))
  have hsmall : ¬maxBlock < request := fun h => hpos ((arenaClassSize_zero request).mpr h)
  obtain ⟨c,hcl,hsize,hr⟩ := arenaClassSize_class request hpos
  rw [hsize, classIndexLoop_class c hcl, if_neg (Nat.not_le.mpr hcl)]
  have hbytes : ∀ page : Page, page.classIndex = c+1 → blockBytes page = classBytes c := by
    intro page h
    simp [blockBytes, h]
  have hscan := scanPages_spec hc c 0 a.pageCount (by omega)
  generalize scanPages a c 0 a.pageCount = r at hscan
  cases hscan with
  | found p hp hcls hh =>
    have hb := hbytes _ hcls
    have hz : (a.pages p).classIndex ≠ 0 := by omega
    obtain ⟨ref,a',h1,h2,h3,h4,h5⟩ := takeBlock_sound hc hp hz hh
      (fun q hq _ hq' => hs.inhabited q hq hq') request (by rw [hb]; exact hr)
    rw [hb] at h1 h4
    refine Or.inl ⟨?_,ref,a',h1,h2,hr,h3,h4,h5⟩
    rintro (h | h)
    · exact hsmall h
    · exact hh ((freeHead_stop hc hp hz).mpr (h.1 p hp hz (hb.trans hsize.symm)))
  | exhausted hnone =>
    obtain ⟨h1,h2,h3,h4⟩ := nextUnassigned_spec a a.firstUnassignedPage
      (a.pageCount-a.firstUnassignedPage)
    have hfirst := hc.first
    generalize nextUnassigned a a.firstUnassignedPage (a.pageCount-a.firstUnassignedPage) = p at *
    have hbelow : ∀ q < p, (a.pages q).classIndex ≠ 0 := by
      intro q hq
      by_cases hlt : q < a.firstUnassignedPage
      · exact hc.below q hlt
      · exact h3 q (by omega) hq
    by_cases hend : p = a.pageCount
    · refine Or.inr ⟨Or.inr ⟨fun q hq hz hb => ?_,fun q hq => hbelow q (by omega)⟩,
        by simp only [if_pos hend]⟩
      apply (freeHead_stop hc hq hz).mp
      apply hnone q (Nat.zero_le q) hq
      have hk := ((hc.page q hq).shaped hz).known
      have := classBytes_injective ((a.pages q).classIndex-1) c (by omega) hcl (hb.trans hsize)
      omega
    have hp : p < a.pageCount := by omega
    have hz := h4 (by omega)
    simp only [if_neg hend, assignPage_unassigned hc hp hz c hcl]
    have hc' := assignedArena_core hc hp hz c hcl hbelow
    have hself : (assignedArena a p c).pages p = freshPage p c := by simp [assignedArena]
    have hb : blockBytes ((assignedArena a p c).pages p) = classBytes c := by
      rw [hself]
      exact hbytes _ rfl
    have hhead : ((assignedArena a p c).pages p).freeHead ≠ noBlock := by
      have := hc.room
      rw [hself]
      simp only [freshPage, noBlock, pageSize]
      omega
    obtain ⟨ref,a',g1,g2,g3,g4,g5⟩ := takeBlock_sound hc' hp
      (by rw [hself]; exact Nat.succ_ne_zero c) hhead (fun q hq hqp hq' => by
        have e : (assignedArena a p c).pages q = a.pages q := by simp [assignedArena, hqp]
        rw [e] at hq' ⊢
        exact hs.inhabited q hq hq') request (by rw [hb]; exact hr)
    rw [hb] at g1 g4
    refine Or.inl ⟨?_,ref,a',g1,g2,hr,g3,g4,fun r hne => ?_⟩
    · rintro (h | h)
      · exact hsmall h
      · exact h.2 p hp hz
    have hdead := blank_dead hc hz r hne
    obtain ⟨k1,k2⟩ := g5 r hne
    rw [assignedArena_size c r hdead] at k1 k2
    refine ⟨k1,fun i hi => (k2 i hi).trans (linkBlocks_outside_page c hcl _ ?_)⟩
    obtain ⟨q,k,hq,hk,_,rfl,hbs⟩ := live_slot hc r hne
    have hsq := pageOk_shaped (hc.page q hq) hk
    rw [slot_page hsq hk] at hdead
    have := slot_room hsq hk
    rw [hbs] at hi
    unfold slot pageSize at *
    omega

/-- An allocation hands out a block that was not live, or leaves the arena unchanged. -/
theorem arenaAlloc_cases (hs : Sound a req) (request : ℕ) :
    (∃ ref size a', arenaAlloc a request = (some (ref,size),a') ∧ req ref = none ∧
      request ≤ size ∧ Sound a' (update req ref (some request)) ∧
      blockSize a' ref = size ∧ Keeps a a' (fun r => req r ≠ none)) ∨
    arenaAlloc a request = (none,a) := by
  rcases arenaAlloc_exact hs request with ⟨_,ref,a',h⟩ | ⟨_,h⟩
  · exact Or.inl ⟨ref,_,a',h⟩
  · exact Or.inr h

end PgLocalCache.ArenaAlloc
