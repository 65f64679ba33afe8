import PgLocalCache.ArenaPage

/-!
# The arena invariant

The ghost map `req` gives the request size of every live block. `Core a req`
ties it to the bitmaps, the free lists and the byte counters; `Sound a req`
adds that an assigned page has a live block. Allocation, release and resizing
of live blocks keep it and leave every other live block's bytes alone.
-/

namespace PgLocalCache.ArenaInvariant

open FreeChain CacheArena ArenaPage
open Function (update update_of_ne)

def blockSize (a : Arena) (ref : ℕ) : ℕ := blockBytes (a.pages (ref/pageSize))

def slackOf (sizeOf : ℕ → ℕ) (req : ℕ → Option ℕ) (ref : ℕ) : ℕ :=
  match req ref with
  | none => 0
  | some n => sizeOf ref-n

def units (a : Arena) : ℕ := a.pageCount*256

structure Core (a : Arena) (req : ℕ → Option ℕ) : Prop where
  room : a.pageCount ≤ 65535
  first : a.firstUnassignedPage ≤ a.pageCount
  below : ∀ p < a.firstUnassignedPage, (a.pages p).classIndex ≠ 0
  page : ∀ p < a.pageCount, PageOk a.memory p (a.pages p)
  live : ∀ ref, req ref ≠ none ↔ ∃ p < a.pageCount, LiveIn p (a.pages p) ref
  fits : ∀ ref n, req ref = some n → n ≤ blockSize a ref
  used : a.usedBytes = total (fun u => (req (u*minBlock)).getD 0) (units a)
  slack : a.classSlackBytes = total (fun u => slackOf (blockSize a) req (u*minBlock)) (units a)
  held : a.usedBytes+a.classSlackBytes =
    total (fun p => (a.pages p).liveCount*blockBytes (a.pages p)) a.pageCount
  assigned : a.assignedBytes =
    total (fun p => if (a.pages p).classIndex = 0 then 0 else pageSize) a.pageCount

structure Sound (a : Arena) (req : ℕ → Option ℕ) : Prop extends Core a req where
  inhabited : ∀ p < a.pageCount, (a.pages p).classIndex ≠ 0 → (a.pages p).liveCount ≠ 0

def Keeps (a a' : Arena) (kept : ℕ → Prop) : Prop :=
  ∀ ref, kept ref → blockSize a' ref = blockSize a ref ∧
    ∀ i < blockSize a ref, a'.memory (ref+i) = a.memory (ref+i)

variable {a : Arena} {req : ℕ → Option ℕ} {p k : ℕ}

theorem pageShapeValid_shaped {page : Page} (hs : Shaped page) :
    pageShapeValid page = some (blockBytes page) := by
  have hm := shaped_min hs
  have hk := hs.known
  have hl : page.liveCount ≤ page.blockCount := by rw [hs.live]; exact tally_le _ _
  rw [hs.count] at hl
  unfold pageShapeValid
  rw [if_neg (by simp [hs.assigned, hk])]
  change (if blockBytes page = 0 then _ else _) = _
  rw [if_neg (by omega), if_neg]
  · rfl
  · rintro (h | h)
    · exact h hs.count
    · exact absurd hl (Nat.not_le.mpr h)

theorem core_ready (hc : Core a req) (hp : p < a.pageCount) : arenaReady a = true := by
  have hr := hc.room
  have h : (2^32-1)/pageSize = 65535 := by decide
  simp only [arenaReady, h, hr, decide_true, Bool.and_true, bne_iff_ne]
  omega

theorem slot_extent (hs : Shaped (a.pages p)) (hk : k < (a.pages p).blockCount)
    (hp : p < a.pageCount) :
    slot p (a.pages p) k+blockBytes (a.pages p) ≤ a.pageCount*pageSize := by
  have h1 := slot_room hs hk
  have h2 : (p+1)*pageSize ≤ a.pageCount*pageSize := Nat.mul_le_mul_right _ hp
  rw [Nat.add_mul, Nat.one_mul] at h2
  unfold slot
  omega

theorem blockInfo_slot (hc : Core a req) (hp : p < a.pageCount)
    (hk : k < (a.pages p).blockCount) (b : Bool) (hb : (a.pages p).allocated k = b) :
    blockInfo a (slot p (a.pages p) k) b = some ⟨p,blockBytes (a.pages p),k⟩ := by
  have hs := pageOk_shaped (hc.page p hp) hk
  have hm := shaped_min hs
  have hdiv : k*blockBytes (a.pages p)/blockBytes (a.pages p) = k :=
    Nat.mul_div_cancel _ (by omega)
  have hcount := shaped_count_le hs
  have hext := slot_extent hs hk hp
  have hlive : (b && (a.pages p).liveCount == 0 ||
      !b && decide ((a.pages p).blockCount ≤ (a.pages p).liveCount)) = false := by
    rw [hs.live]
    cases b with
    | true =>
      have := tally_pos _ _ k hk hb
      simp only [Bool.true_and, Bool.not_true, Bool.false_and, Bool.or_false, beq_eq_false_iff_ne]
      omega
    | false =>
      have := tally_lt _ _ k hk hb
      simp only [Bool.false_and, Bool.not_false, Bool.true_and, Bool.false_or,
        decide_eq_false_iff_not]
      omega
  unfold blockInfo
  simp only [core_ready hc hp, slot_page hs hk, slot_offset hs hk, pageShapeValid_shaped hs, hdiv,
    Nat.mul_mod_left, hlive, hb]
  rw [if_neg (by simp), if_neg (by omega), if_neg (by simp), if_neg (by simp), if_neg (by omega),
    if_neg (by simp), if_neg (by omega)]

theorem blockInfo_some (hc : Core a req) (ref : ℕ) (b : Bool) (info : BlockInfo)
    (h : blockInfo a ref b = some info) :
    info.pageNo < a.pageCount ∧ info.blockNo < (a.pages info.pageNo).blockCount ∧
      (a.pages info.pageNo).allocated info.blockNo = b ∧
      ref = slot info.pageNo (a.pages info.pageNo) info.blockNo ∧
      info.blockSize = blockBytes (a.pages info.pageNo) := by
  unfold blockInfo at h
  by_cases hr : arenaReady a
  swap
  · simp [hr] at h
  rw [if_neg (by simp [hr])] at h
  by_cases hp : a.pageCount ≤ ref/pageSize
  · simp [hp] at h
  simp only [hp, if_false] at h
  by_cases hz : (a.pages (ref/pageSize)).classIndex = 0
  · simp [pageShapeValid, hz] at h
  have hs := (hc.page _ (Nat.lt_of_not_le hp)).shaped hz
  rw [pageShapeValid_shaped hs] at h
  simp only at h
  split at h
  · simp at h
  rename_i hmod
  split at h
  · simp at h
  split at h
  · simp at h
  rename_i hno
  split at h
  · simp at h
  rename_i hbit
  split at h
  · simp at h
  cases h
  refine ⟨Nat.lt_of_not_le hp,Nat.lt_of_not_le (fun h => hno (Or.inl h)),by simpa using hbit,?_,rfl⟩
  have hcancel := Nat.div_mul_cancel (Nat.dvd_of_mod_eq_zero (not_not.mp hmod))
  unfold slot
  rw [hcancel, Nat.mul_comm]
  exact (Nat.div_add_mod _ _).symm

theorem live_slot (hc : Core a req) (ref : ℕ) (h : req ref ≠ none) :
    ∃ p k, p < a.pageCount ∧ k < (a.pages p).blockCount ∧ (a.pages p).allocated k = true ∧
      ref = slot p (a.pages p) k ∧ blockSize a ref = blockBytes (a.pages p) := by
  obtain ⟨p,hp,k,hk,hl,rfl⟩ := (hc.live ref).mp h
  refine ⟨p,k,hp,hk,hl,rfl,?_⟩
  rw [blockSize, slot_page (pageOk_shaped (hc.page p hp) hk) hk]

theorem blocks_disjoint (hc : Core a req) (r r' : ℕ) (h : req r ≠ none) (h' : req r' ≠ none)
    (hne : r ≠ r') : r+blockSize a r ≤ r' ∨ r'+blockSize a r' ≤ r := by
  obtain ⟨p,k,hp,hk,_,rfl,hb⟩ := live_slot hc r h
  obtain ⟨p',k',hp',hk',_,rfl,hb'⟩ := live_slot hc r' h'
  rw [hb, hb']
  by_cases he : p = p'
  · subst he
    exact slot_disjoint p _ k k' (fun h => hne (by rw [h]))
  · have h1 := slot_room (pageOk_shaped (hc.page p hp) hk) hk
    have h2 := slot_room (pageOk_shaped (hc.page p' hp') hk') hk'
    unfold slot pageSize at *
    omega

theorem slot_unit (hs : Shaped (a.pages p)) (hk : k < (a.pages p).blockCount)
    (hp : p < a.pageCount) : ∃ u < units a, slot p (a.pages p) k = u*minBlock := by
  have hu := shaped_unit hs
  have hext := slot_extent hs hk hp
  have hm := shaped_min hs
  have hz : k*blockBytes (a.pages p)%minBlock = 0 := by
    rw [Nat.mul_mod, hu]
    simp
  refine ⟨slot p (a.pages p) k/minBlock,?_,?_⟩
  · unfold units pageSize minBlock at *
    omega
  · unfold slot pageSize minBlock at *
    omega

theorem used_update (req : ℕ → Option ℕ) (n u : ℕ) (hu : u < n) (v : Option ℕ) :
    total (fun i => (update req (u*minBlock) v (i*minBlock)).getD 0) n+
        (req (u*minBlock)).getD 0 =
      total (fun i => (req (i*minBlock)).getD 0) n+v.getD 0 := by
  have h := total_change (fun i => (req (i*minBlock)).getD 0)
    (fun i => (update req (u*minBlock) v (i*minBlock)).getD 0) n u hu (fun i _ hi => by
      rw [update_of_ne (by unfold minBlock; omega)])
  simpa using h

theorem slack_update (req : ℕ → Option ℕ) (sizeOf : ℕ → ℕ) (n u : ℕ) (hu : u < n) (v : Option ℕ) :
    total (fun i => slackOf sizeOf (update req (u*minBlock) v) (i*minBlock)) n+
        slackOf sizeOf req (u*minBlock) =
      total (fun i => slackOf sizeOf req (i*minBlock)) n+
        (v.map (fun m => sizeOf (u*minBlock)-m)).getD 0 := by
  have h := total_change (fun i => slackOf sizeOf req (i*minBlock))
    (fun i => slackOf sizeOf (update req (u*minBlock) v) (i*minBlock)) n u hu
    (fun i _ hi => by
      simp only [slackOf]
      rw [update_of_ne (by unfold minBlock; omega)])
  have he : slackOf sizeOf (update req (u*minBlock) v) (u*minBlock) =
      (v.map (fun m => sizeOf (u*minBlock)-m)).getD 0 := by
    cases v <;> simp [slackOf]
  rwa [he] at h

theorem slack_congr (f g : ℕ → ℕ) (n : ℕ) (h : ∀ ref, req ref ≠ none → f ref = g ref) :
    total (fun i => slackOf f req (i*minBlock)) n =
      total (fun i => slackOf g req (i*minBlock)) n := by
  refine total_congr _ _ n (fun i _ => ?_)
  unfold slackOf
  cases hr : req (i*minBlock) with
  | none => rfl
  | some m =>
    simp only
    rw [h _ (by simp [hr])]

theorem page_held_le (hc : Core a req) (hp : p < a.pageCount) :
    (a.pages p).liveCount*blockBytes (a.pages p) ≤
      if (a.pages p).classIndex = 0 then 0 else pageSize := by
  have ho := hc.page p hp
  by_cases hz : (a.pages p).classIndex = 0
  · simp [hz, (ho.blank hz).2.1]
  · have hs := ho.shaped hz
    rw [if_neg hz, ← shaped_product hs, Nat.mul_comm, hs.live]
    exact Nat.mul_le_mul_left _ (tally_le _ _)

theorem counters_le (hc : Core a req) : a.assignedBytes ≤ a.pageCount*pageSize ∧
    a.usedBytes+a.classSlackBytes ≤ a.assignedBytes := by
  constructor
  · rw [hc.assigned, ← total_const]
    exact total_le _ _ _ (fun i _ => by split <;> omega)
  · rw [hc.held, hc.assigned]
    exact total_le _ _ _ (fun i hi => page_held_le hc hi)

theorem core_counters (hc : Core a req) (hp : p < a.pageCount) : arenaCountersValid a = true := by
  obtain ⟨h1,h2⟩ := counters_le hc
  simp only [arenaCountersValid, core_ready hc hp, Bool.true_and, Bool.and_eq_true,
    decide_eq_true_eq]
  omega

theorem counters_free (hc : Core a req) (hp : p < a.pageCount) (hk : k < (a.pages p).blockCount)
    (hf : (a.pages p).allocated k = false) :
    a.usedBytes+a.classSlackBytes+blockBytes (a.pages p) ≤ a.assignedBytes := by
  have hs := pageOk_shaped (hc.page p hp) hk
  rw [hc.held, hc.assigned]
  have h := total_change (fun q => (a.pages q).liveCount*blockBytes (a.pages q))
    (fun q => (a.pages q).liveCount*blockBytes (a.pages q)+
      if q = p then blockBytes (a.pages p) else 0) a.pageCount p hp
    (fun q _ hq => by simp [hq])
  have hle := total_le (fun q => (a.pages q).liveCount*blockBytes (a.pages q)+
      if q = p then blockBytes (a.pages p) else 0)
    (fun q => if (a.pages q).classIndex = 0 then 0 else pageSize) a.pageCount (fun q hq => by
      by_cases he : q = p
      · subst he
        simp only [if_true]
        rw [if_neg hs.assigned, ← shaped_product hs, Nat.mul_comm (blockBytes _), ← Nat.succ_mul]
        refine Nat.mul_le_mul_right _ ?_
        rw [hs.live]
        exact tally_lt _ _ k hk hf
      · simpa [he] using page_held_le hc hq)
  simp only [if_true] at h
  omega

theorem freeHeadValid_page (hc : Core a req) (hp : p < a.pageCount)
    (hz : (a.pages p).classIndex ≠ 0) :
    freeHeadValid a p (a.pages p) (blockBytes (a.pages p)) = true := by
  have ho := hc.page p hp
  have hs := ho.shaped hz
  unfold freeHeadValid
  by_cases hh : (a.pages p).freeHead = noBlock
  · have hn := (lists_stop_iff (ho.chain hz)).mp hh
    simp only [hh, if_true, beq_iff_eq]
    rw [hs.live]
    refine tally_full _ _ (fun k hk => ?_)
    by_contra hb
    exact hn _ ⟨k,hk,by simpa using hb,rfl⟩
  · obtain ⟨k,hk,hf,he⟩ := lists_head_free (ho.chain hz) hh
    have hi := blockInfo_slot hc hp hk false hf
    rw [← he] at hi
    have hlt := tally_lt _ _ k hk hf
    simp only [hh, if_false, hi, beq_self_eq_true, Bool.true_and, decide_eq_true_eq]
    rwa [hs.live]

end PgLocalCache.ArenaInvariant
