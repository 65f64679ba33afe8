import PgLocalCache.ArenaAlloc

/-!
# Release, resizing and payload writes keep the arena invariant

The last live block of a page returns the page to the unassigned ones. A write
inside a live block touches no free list, because the links live in free blocks.
-/

namespace PgLocalCache.ArenaRelease

open ByteMemory FreeChain CacheArena ArenaPage ArenaInvariant
open Function (update update_of_ne update_self)

variable {a : Arena} {req : ℕ → Option ℕ} {p k : ℕ}

theorem live_counters (hc : Core a req) (ref n : ℕ) (h : req ref = some n) :
    n ≤ a.usedBytes ∧ blockSize a ref-n ≤ a.classSlackBytes := by
  obtain ⟨p,k,hp,hk,_,he,_⟩ := live_slot hc ref (by simp [h])
  obtain ⟨u,hu,hunit⟩ := slot_unit (pageOk_shaped (hc.page p hp) hk) hk hp
  rw [← he] at hunit
  have h1 := term_le_total (fun i => (req (i*minBlock)).getD 0) (units a) u hu
  have h2 := term_le_total (fun i => slackOf (blockSize a) req (i*minBlock)) (units a) u hu
  rw [← hc.used] at h1
  rw [← hc.slack] at h2
  simp only [← hunit, h, Option.getD_some] at h1
  simp only [← hunit, slackOf, h] at h2
  exact ⟨h1,h2⟩

section release

variable {a' : Arena} {page' : Page} (hc : Core a req) (hp : p < a.pageCount)
  (hk : k < (a.pages p).blockCount) (hpages : a'.pages = update a.pages p page')
  (hcount : a'.pageCount = a.pageCount)
  (hlive : ∀ ref, LiveIn p page' ref ↔ LiveIn p (a.pages p) ref ∧ ref ≠ slot p (a.pages p) k)
  (hsize : page'.liveCount ≠ 0 → blockBytes page' = blockBytes (a.pages p))

include hpages in
theorem release_other {q : ℕ} (h : q ≠ p) : a'.pages q = a.pages q := by simp [hpages, h]

include hc hp hk hpages hlive in
theorem release_liveIn (ref : ℕ) {q : ℕ} (hq : q < a.pageCount) :
    LiveIn q (a'.pages q) ref ↔ LiveIn q (a.pages q) ref ∧ ref ≠ slot p (a.pages p) k := by
  by_cases h : q = p
  · rw [h, hpages, update_self]
    exact hlive ref
  · rw [release_other hpages h]
    refine ⟨fun hl => ⟨hl,fun he => h ?_⟩,And.left⟩
    obtain ⟨j,hj,_,e⟩ := hl
    have hs := pageOk_shaped (hc.page p hp) hk
    rw [← slot_page (p := q) (pageOk_shaped (hc.page q hq) hj) hj, ← e, he, slot_page hs hk]

include hc hp hk hpages hcount hlive

theorem release_live (ref : ℕ) : update req (slot p (a.pages p) k) none ref ≠ none ↔
    ∃ q < a'.pageCount, LiveIn q (a'.pages q) ref := by
  have hpage := fun q (hq : q < a.pageCount) => release_liveIn hc hp hk hpages hlive ref hq
  have hsplit : (∃ q < a.pageCount, LiveIn q (a'.pages q) ref) ↔
      (∃ q < a.pageCount, LiveIn q (a.pages q) ref) ∧ ref ≠ slot p (a.pages p) k := by
    constructor
    · rintro ⟨q,hq,hl⟩
      obtain ⟨hl,hne⟩ := (hpage q hq).mp hl
      exact ⟨⟨q,hq,hl⟩,hne⟩
    · rintro ⟨⟨q,hq,hl⟩,hne⟩
      exact ⟨q,hq,(hpage q hq).mpr ⟨hl,hne⟩⟩
  rw [hcount, hsplit, ← hc.live ref]
  by_cases h : ref = slot p (a.pages p) k <;> simp [h]

include hsize

/-- A block that stays live keeps its size, because its page stays in its class. -/
theorem release_size (hok : PageOk a'.memory p page') (ref : ℕ)
    (h : update req (slot p (a.pages p) k) none ref ≠ none) :
    blockSize a' ref = blockSize a ref := by
  obtain ⟨q,hq,hl⟩ := (release_live hc hp hk hpages hcount hlive ref).mp h
  rw [hcount] at hq
  obtain ⟨⟨j,hj,_,rfl⟩,_⟩ := (release_liveIn hc hp hk hpages hlive ref hq).mp hl
  rw [blockSize, blockSize, slot_page (pageOk_shaped (hc.page q hq) hj) hj]
  by_cases hqp : q = p
  · subst hqp
    rw [hpages, update_self] at hl ⊢
    obtain ⟨i,hi,hl,_⟩ := hl
    refine hsize (fun hz => ?_)
    have hpos := tally_pos _ _ i hi hl
    rw [← (pageOk_shaped hok hi).live] at hpos
    omega
  · rw [release_other hpages hqp]

theorem core_release (n : ℕ) (hreq : req (slot p (a.pages p) k) = some n)
    (hmem : a'.memory = store32 a.memory (slot p (a.pages p) k) (a.pages p).freeHead)
    (hfirst : a'.firstUnassignedPage ≤ a.pageCount)
    (hbelow : ∀ q < a'.firstUnassignedPage, (a'.pages q).classIndex ≠ 0)
    (hok : PageOk a'.memory p page')
    (hheld : (page'.liveCount+1)*blockBytes (a.pages p) =
      (a.pages p).liveCount*blockBytes (a.pages p))
    (hused : a'.usedBytes = a.usedBytes-n)
    (hslack : a'.classSlackBytes = a.classSlackBytes-(blockBytes (a.pages p)-n))
    (hassigned : a'.assignedBytes =
      total (fun q => if (a'.pages q).classIndex = 0 then 0 else pageSize) a.pageCount) :
    Core a' (update req (slot p (a.pages p) k) none) := by
  have hs := pageOk_shaped (hc.page p hp) hk
  have hm := shaped_min hs
  have hself : a'.pages p = page' := by simp [hpages]
  have hsizes := release_size hc hp hk hpages hcount hlive hsize hok
  have hbs : blockSize a (slot p (a.pages p) k) = blockBytes (a.pages p) := by
    rw [blockSize, slot_page hs hk]
  obtain ⟨u,hu,hunit⟩ := slot_unit hs hk hp
  obtain ⟨hle1,hle2⟩ := live_counters hc _ n hreq
  have hfit := hc.fits _ n hreq
  rw [hbs] at hle2 hfit
  have hunits : units a' = units a := by rw [units, hcount]; rfl
  refine ⟨by rw [hcount]; exact hc.room,by rw [hcount]; exact hfirst,hbelow,fun q hq => ?_,
    release_live hc hp hk hpages hcount hlive,fun ref m h => ?_,?_,?_,?_,
    by rw [hcount]; exact hassigned⟩
  · rw [hcount] at hq
    by_cases h : q = p
    · subst h
      rwa [hself]
    · rw [release_other hpages h, hmem]
      refine pageOk_frame (hc.page q hq) (fun x hx hx' => store_outside _ _ _ _ ?_)
      have := slot_room hs hk
      unfold slot pageSize at *
      omega
  · rw [hsizes ref (by simp [h])]
    by_cases h' : ref = slot p (a.pages p) k
    · rw [h', update_self] at h
      simp at h
    · rw [update_of_ne h'] at h
      exact hc.fits ref m h
  · have h := used_update req (units a) u hu none
    rw [← hunit, hreq, ← hc.used] at h
    rw [hused, hunits]
    simp only [Option.getD_some, Option.getD_none] at h
    omega
  · have h := slack_update req (blockSize a) (units a) u hu none
    rw [← hunit, ← hc.slack] at h
    have hz : slackOf (blockSize a) req (slot p (a.pages p) k) = blockBytes (a.pages p)-n := by
      simp [slackOf, hreq, hbs]
    rw [hz] at h
    rw [slack_congr _ (blockSize a) _ hsizes, hslack, hunits]
    simp only [Option.map_none, Option.getD_none] at h
    omega
  · have h := total_change (fun q => (a.pages q).liveCount*blockBytes (a.pages q))
      (fun q => (a'.pages q).liveCount*blockBytes (a'.pages q)) a.pageCount p hp
      (fun q _ hq => by rw [release_other hpages hq])
    have he : (a'.pages p).liveCount*blockBytes (a'.pages p)+blockBytes (a.pages p) =
        (a.pages p).liveCount*blockBytes (a.pages p) := by
      rw [hself, ← hheld, Nat.succ_mul]
      by_cases hz : page'.liveCount = 0
      · simp [hz]
      · rw [hsize hz]
    have hold := hc.held
    rw [hused, hslack, hcount]
    omega

end release

theorem giveBlock_last (ref request : ℕ) (hlast : (a.pages p).liveCount-1 = 0) :
    giveBlock a ⟨p,blockBytes (a.pages p),k⟩ ref request =
      { a with
        memory := store32 a.memory ref (a.pages p).freeHead
        pages := update a.pages p { (a.pages p) with
          allocated := update (a.pages p).allocated k false
          liveCount := (a.pages p).liveCount-1
          classIndex := 0
          blockCount := 0
          freeHead := noBlock }
        usedBytes := a.usedBytes-request
        classSlackBytes := a.classSlackBytes-(blockBytes (a.pages p)-request)
        assignedBytes := a.assignedBytes-pageSize
        firstUnassignedPage :=
          if p < a.firstUnassignedPage then p else a.firstUnassignedPage } := by
  unfold giveBlock
  simp only [hlast, if_true]

theorem giveBlock_more (request : ℕ) (hmore : (a.pages p).liveCount-1 ≠ 0) :
    giveBlock a ⟨p,blockBytes (a.pages p),k⟩ (slot p (a.pages p) k) request =
      { a with
        memory := store32 a.memory (slot p (a.pages p) k) (a.pages p).freeHead
        pages := update a.pages p (givenPage p (a.pages p) k)
        usedBytes := a.usedBytes-request
        classSlackBytes := a.classSlackBytes-(blockBytes (a.pages p)-request) } := by
  unfold giveBlock
  simp only [hmore, if_false]
  rfl

theorem giveBlock_sound (hs : Sound a req) (hp : p < a.pageCount)
    (hk : k < (a.pages p).blockCount) (hl : (a.pages p).allocated k = true) (n : ℕ)
    (hreq : req (slot p (a.pages p) k) = some n) :
    Sound (giveBlock a ⟨p,blockBytes (a.pages p),k⟩ (slot p (a.pages p) k) n)
      (update req (slot p (a.pages p) k) none) := by
  have hc := hs.toCore
  have ho := hc.page p hp
  have hsh := pageOk_shaped ho hk
  have hp' : p < 65535 := Nat.lt_of_lt_of_le hp hc.room
  have hpos : 0 < (a.pages p).liveCount := by
    rw [hsh.live]
    exact tally_pos _ _ k hk hl
  have hheld : ((a.pages p).liveCount-1+1)*blockBytes (a.pages p) =
      (a.pages p).liveCount*blockBytes (a.pages p) := by
    rw [Nat.sub_add_cancel hpos]
  by_cases hlast : (a.pages p).liveCount-1 = 0
  · rw [giveBlock_last _ _ hlast]
    have hgone : ∀ ref, ¬(LiveIn p (a.pages p) ref ∧ ref ≠ slot p (a.pages p) k) := by
      intro ref h
      rw [← liveIn_given hsh] at h
      obtain ⟨j,hj,hjl,_⟩ := h
      have hgiven := pageOk_give ho hk hl hp'
      have := tally_pos _ _ j hj hjl
      rw [← (pageOk_shaped hgiven hj).live] at this
      change 0 < (a.pages p).liveCount-1 at this
      omega
    refine ⟨core_release hc hp hk rfl rfl ?_ ?_ n hreq rfl ?_ ?_ ?_ hheld rfl rfl ?_,?_⟩
    · intro ref
      constructor
      · rintro ⟨j,hj,_⟩
        simp at hj
      · exact fun h => absurd h (hgone ref)
    · exact fun h => absurd hlast h
    · have := hc.first
      simp only
      split <;> omega
    · intro q hq
      have hq' : q < a.firstUnassignedPage ∧ q ≠ p := by
        simp only at hq
        split at hq <;> omega
      simp only [update_of_ne hq'.2]
      exact hc.below q hq'.1
    · exact pageOk_blank rfl hlast rfl rfl
    · have h := total_change (fun q => if (a.pages q).classIndex = 0 then 0 else pageSize)
        (fun q => if (update a.pages p { (a.pages p) with
          allocated := update (a.pages p).allocated k false
          liveCount := (a.pages p).liveCount-1
          classIndex := 0
          blockCount := 0
          freeHead := noBlock } q).classIndex = 0 then 0 else pageSize) a.pageCount p hp
        (fun q _ hq => by simp only [update_of_ne hq])
      have hassigned := hc.assigned
      simp only [update_self, if_true, if_neg hsh.assigned] at h
      simp only
      omega
    · intro q hq hcl
      by_cases h : q = p
      · simp [h] at hcl
      · simp only [update_of_ne h] at hcl ⊢
        exact hs.inhabited q hq hcl
  · rw [giveBlock_more _ hlast]
    have hclass : ∀ q, (update a.pages p (givenPage p (a.pages p) k) q).classIndex =
        (a.pages q).classIndex := by
      intro q
      by_cases h : q = p
      · rw [h, update_self]
        rfl
      · rw [update_of_ne h]
    refine ⟨core_release hc hp hk rfl rfl ?_ ?_ n hreq rfl hc.first ?_ ?_ hheld rfl rfl ?_,?_⟩
    · exact liveIn_given hsh
    · exact fun _ => rfl
    · intro q hq
      rw [hclass]
      exact hc.below q hq
    · exact pageOk_give ho hk hl hp'
    · simp only [hclass]
      exact hc.assigned
    · intro q hq hcl
      by_cases h : q = p
      · rw [h]
        simpa [givenPage] using hlast
      · simp only [update_of_ne h] at hcl ⊢
        exact hs.inhabited q hq hcl

theorem blockInfo_live (hc : Core a req) (ref : ℕ) (h : req ref ≠ none) :
    ∃ info, blockInfo a ref true = some info ∧ info.blockSize = blockSize a ref := by
  obtain ⟨p,k,hp,hk,hl,rfl,hb⟩ := live_slot hc ref h
  exact ⟨_,blockInfo_slot hc hp hk true hl,hb.symm⟩

theorem arenaBlockClass_live (hc : Core a req) (ref : ℕ) (h : req ref ≠ none) :
    arenaBlockClass a ref = blockSize a ref := by
  obtain ⟨info,h1,h2⟩ := blockInfo_live hc ref h
  simp [arenaBlockClass, h1, h2]

theorem arenaBlock_live (hc : Core a req) (ref : ℕ) (h : req ref ≠ none) :
    arenaBlock a ref = some ref := by
  obtain ⟨info,h1,_⟩ := blockInfo_live hc ref h
  simp [arenaBlock, h1]

theorem blockSize_min (hc : Core a req) (ref : ℕ) (h : req ref ≠ none) : 256 ≤ blockSize a ref := by
  obtain ⟨p,k,hp,hk,_,rfl,hb⟩ := live_slot hc ref h
  rw [hb]
  exact shaped_min (pageOk_shaped (hc.page p hp) hk)

theorem giveBlock_memory (info : BlockInfo) (ref request : ℕ) :
    (giveBlock a info ref request).memory =
      store32 a.memory ref (a.pages info.pageNo).freeHead := by
  unfold giveBlock
  simp only
  split <;> rfl

theorem giveBlock_other (info : BlockInfo) (ref request q : ℕ) (h : q ≠ info.pageNo) :
    (giveBlock a info ref request).pages q = a.pages q := by
  unfold giveBlock
  simp only
  split <;> simp [h]

theorem arenaFree_slot (hs : Sound a req) (hp : p < a.pageCount)
    (hk : k < (a.pages p).blockCount) (hl : (a.pages p).allocated k = true) (n : ℕ)
    (h : req (slot p (a.pages p) k) = some n) :
    arenaFree a (slot p (a.pages p) k) n =
      (true,giveBlock a ⟨p,blockBytes (a.pages p),k⟩ (slot p (a.pages p) k) n) := by
  have hc := hs.toCore
  have hsh := pageOk_shaped (hc.page p hp) hk
  have hinfo := blockInfo_slot hc hp hk true hl
  have hpos := tally_pos _ _ k hk hl
  rw [← hsh.live] at hpos
  have hvalid := core_counters hc hp
  have hmod : slot p (a.pages p) k%pageSize%blockBytes (a.pages p) = 0 := by
    rw [slot_offset hsh hk]
    exact Nat.mul_mod_left _ _
  have hfit := hc.fits _ n h
  obtain ⟨h1,h2⟩ := live_counters hc _ n h
  rw [blockSize, slot_page hsh hk] at hfit h2
  have hassigned : pageSize ≤ a.assignedBytes := by
    have := term_le_total (fun q => if (a.pages q).classIndex = 0 then 0 else pageSize)
      a.pageCount p hp
    rwa [← hc.assigned, if_neg hsh.assigned] at this
  unfold arenaFree
  simp only [hinfo, hmod, hvalid, freeHeadValid_page hc hp hsh.assigned]
  rw [if_neg (by omega), if_neg (by simp; omega), if_neg (by simp)]

theorem arenaFree_live (hs : Sound a req) (ref n : ℕ) (h : req ref = some n) :
    ∃ a', arenaFree a ref n = (true,a') ∧ Sound a' (update req ref none) ∧
      Keeps a a' (fun r => req r ≠ none ∧ r ≠ ref) := by
  have hc := hs.toCore
  obtain ⟨p,k,hp,hk,hl,rfl,hb⟩ := live_slot hc ref (by simp [h])
  have hsh := pageOk_shaped (hc.page p hp) hk
  have hsound := giveBlock_sound hs hp hk hl n h
  refine ⟨_,arenaFree_slot hs hp hk hl n h,hsound,?_⟩
  rintro r ⟨hr,hne⟩
  have hkept : update req (slot p (a.pages p) k) none r ≠ none := by
    rwa [update_of_ne hne]
  have hsame : blockSize (giveBlock a ⟨p,blockBytes (a.pages p),k⟩ (slot p (a.pages p) k) n) r =
      blockSize a r := by
    obtain ⟨q,j,hq,hj,hjl,rfl,hbj⟩ := live_slot hc r hr
    have hshq := pageOk_shaped (hc.page q hq) hj
    rw [blockSize, slot_page hshq hj, hbj]
    by_cases hqp : q = p
    · subst hqp
      by_cases hlast : (a.pages q).liveCount-1 = 0
      · exfalso
        have h2 := tally_set (update (a.pages q).allocated k false) (a.pages q).allocated
          (a.pages q).blockCount k hk (fun i _ hi => by simp [hi]) (by simp) hl
        have hjk : j ≠ k := fun e => hne (by rw [e])
        have h3 := tally_pos (update (a.pages q).allocated k false)
          (a.pages q).blockCount j hj (by simp [hjk, hjl])
        rw [hsh.live] at hlast
        omega
      · rw [giveBlock_more _ hlast]
        simp [givenPage, blockBytes]
    · rw [giveBlock_other _ _ _ _ hqp]
  refine ⟨hsame,fun i hi => ?_⟩
  rw [giveBlock_memory]
  refine store_outside _ _ _ _ ?_
  have hd := blocks_disjoint hc r (slot p (a.pages p) k) hr (by simp [h]) hne
  have hm := blockSize_min hc (slot p (a.pages p) k) (by simp [h])
  omega

theorem arenaResize_live (hs : Sound a req) (ref n m : ℕ) (h : req ref = some n)
    (hm : m ≤ blockSize a ref) :
    ∃ a', arenaResize a ref n m = (true,a') ∧ Sound a' (update req ref (some m)) ∧
      a'.memory = a.memory ∧ a'.pages = a.pages := by
  have hc := hs.toCore
  have hne : req ref ≠ none := by simp [h]
  obtain ⟨p,k,hp,hk,hl,he,hb⟩ := live_slot hc ref hne
  have hclass := arenaBlockClass_live hc ref hne
  have hmin := blockSize_min hc ref hne
  have hfit := hc.fits ref n h
  obtain ⟨h1,h2⟩ := live_counters hc ref n h
  have hvalid := core_counters hc hp
  obtain ⟨u,hu,hunit⟩ := slot_unit (pageOk_shaped (hc.page p hp) hk) hk hp
  rw [← he] at hunit
  have hres : arenaResize a ref n m = (true,{ a with
      usedBytes := a.usedBytes-n+m
      classSlackBytes := a.classSlackBytes-(blockSize a ref-n)+(blockSize a ref-m) }) := by
    unfold arenaResize
    simp only [hclass, hvalid]
    rw [if_neg (by simp; omega)]
  refine ⟨_,hres,⟨⟨hc.room,hc.first,hc.below,hc.page,fun r => ?_,fun r x hx => ?_,
      ?_,?_,?_,hc.assigned⟩,hs.inhabited⟩,rfl,rfl⟩
  · by_cases hr : r = ref
    · subst hr
      simpa using (hc.live r).mp hne
    · rw [update_of_ne hr]
      exact hc.live r
  · by_cases hr : r = ref
    · subst hr
      rw [update_self] at hx
      cases hx
      exact hm
    · rw [update_of_ne hr] at hx
      exact hc.fits r x hx
  · have hsum := used_update req (units a) u hu (some m)
    rw [← hunit, h, ← hc.used] at hsum
    simp only [Option.getD_some] at hsum
    change a.usedBytes-n+m = total _ (units a)
    omega
  · have hsum := slack_update req (blockSize a) (units a) u hu (some m)
    rw [← hunit, ← hc.slack] at hsum
    have hz : slackOf (blockSize a) req ref = blockSize a ref-n := by simp [slackOf, h]
    rw [hz] at hsum
    simp only [Option.map_some, Option.getD_some] at hsum
    change a.classSlackBytes-(blockSize a ref-n)+(blockSize a ref-m) =
      total (fun i => slackOf (blockSize a) (update req ref (some m)) (i*minBlock)) (units a)
    omega
  · have hheld := hc.held
    change a.usedBytes-n+m+(a.classSlackBytes-(blockSize a ref-n)+(blockSize a ref-m)) =
      total (fun q => (a.pages q).liveCount*blockBytes (a.pages q)) a.pageCount
    omega

theorem sound_write (hs : Sound a req) (ref : ℕ) (hne : req ref ≠ none) (memory' : Memory)
    (h : ∀ x, x < ref ∨ ref+blockSize a ref ≤ x → memory' x = a.memory x) :
    Sound { a with memory := memory' } req ∧
      Keeps a { a with memory := memory' } (fun r => req r ≠ none ∧ r ≠ ref) := by
  have hc := hs.toCore
  obtain ⟨p,k,hp,hk,hl,he,hb⟩ := live_slot hc ref hne
  have hsh := pageOk_shaped (hc.page p hp) hk
  refine ⟨⟨⟨hc.room,hc.first,hc.below,fun q hq => ?_,hc.live,hc.fits,hc.used,hc.slack,hc.held,
    hc.assigned⟩,hs.inhabited⟩,fun r hr => ⟨rfl,fun i hi => ?_⟩⟩
  · rw [he, ← slot_page (p := p) hsh hk] at h
    by_cases hqp : q = p
    · subst hqp
      refine pageOk_write (hc.page q hq) hk hl (fun x hx => h x ?_)
      rw [slot_page hsh hk, ← he, hb, he]
      exact hx
    · refine pageOk_frame (hc.page q hq) (fun x hx hx' => h x ?_)
      have := slot_room hsh hk
      rw [slot_page hsh hk, ← he, hb, he]
      unfold slot pageSize at *
      omega
  · have hd := blocks_disjoint hc r ref hr.1 hne hr.2
    exact h _ (by omega)

end PgLocalCache.ArenaRelease
