import PgLocalCache.CacheArena
import PgLocalCache.FreeChain

/-!
# One page of the arena

`PageOk memory p page` says that page `p` is blank, or that its record describes
a split of the page into equal blocks whose unallocated ones are exactly the
blocks on the free list stored in the memory.
-/

namespace PgLocalCache.ArenaPage

open ByteMemory FreeChain CacheArena

def blockBytes (page : Page) : ℕ := classBytes (page.classIndex-1)

def slot (p : ℕ) (page : Page) (k : ℕ) : ℕ := p*pageSize+k*blockBytes page

structure Shaped (page : Page) : Prop where
  assigned : page.classIndex ≠ 0
  known : page.classIndex ≤ classCount
  count : page.blockCount = pageSize/blockBytes page
  live : page.liveCount = tally page.allocated page.blockCount

def LiveIn (p : ℕ) (page : Page) (ref : ℕ) : Prop :=
  ∃ k < page.blockCount, page.allocated k = true ∧ ref = slot p page k

def FreeIn (p : ℕ) (page : Page) (ref : ℕ) : Prop :=
  ∃ k < page.blockCount, page.allocated k = false ∧ ref = slot p page k

structure PageOk (memory : Memory) (p : ℕ) (page : Page) : Prop where
  blank : page.classIndex = 0 →
    page.blockCount = 0 ∧ page.liveCount = 0 ∧ page.freeHead = noBlock
  shaped : page.classIndex ≠ 0 → Shaped page
  chain : page.classIndex ≠ 0 → Lists (load32 memory) noBlock page.freeHead (FreeIn p page)

theorem class_facts (i : ℕ) (h : i < classCount) :
    classBytes i*(pageSize/classBytes i) = pageSize ∧ classBytes i%minBlock = 0 ∧
      minBlock ≤ classBytes i ∧ pageSize/classBytes i ≤ pageSize/minBlock := by
  unfold classCount at h
  interval_cases i <;> decide

variable {memory memory' : Memory} {p : ℕ} {page : Page} {k : ℕ}

theorem shaped_product (hs : Shaped page) : blockBytes page*page.blockCount = pageSize := by
  rw [hs.count]
  exact (class_facts _ (by have := hs.assigned; have := hs.known; omega)).1

theorem shaped_unit (hs : Shaped page) : blockBytes page%minBlock = 0 :=
  (class_facts _ (by have := hs.assigned; have := hs.known; omega)).2.1

theorem shaped_min (hs : Shaped page) : 256 ≤ blockBytes page :=
  (class_facts _ (by have := hs.assigned; have := hs.known; omega)).2.2.1

theorem shaped_count_le (hs : Shaped page) : page.blockCount ≤ pageSize/minBlock := by
  rw [hs.count]
  exact (class_facts _ (by have := hs.assigned; have := hs.known; omega)).2.2.2

theorem slot_room (hs : Shaped page) (hk : k < page.blockCount) :
    k*blockBytes page+blockBytes page ≤ pageSize := by
  have h : (k+1)*blockBytes page ≤ page.blockCount*blockBytes page :=
    Nat.mul_le_mul_right _ hk
  rw [Nat.mul_comm page.blockCount, shaped_product hs] at h
  rwa [Nat.add_mul, Nat.one_mul] at h

theorem slot_page (hs : Shaped page) (hk : k < page.blockCount) : slot p page k/pageSize = p := by
  have := slot_room hs hk
  have := shaped_min hs
  unfold slot pageSize at *
  omega

theorem slot_offset (hs : Shaped page) (hk : k < page.blockCount) :
    slot p page k%pageSize = k*blockBytes page := by
  have := slot_room hs hk
  have := shaped_min hs
  unfold slot pageSize at *
  omega

theorem slot_disjoint (p : ℕ) (page : Page) (k j : ℕ) (h : k ≠ j) :
    slot p page k+blockBytes page ≤ slot p page j ∨
      slot p page j+blockBytes page ≤ slot p page k := by
  have step : ∀ a b : ℕ, a < b → a*blockBytes page+blockBytes page ≤ b*blockBytes page := by
    intro a b hab
    have := Nat.mul_le_mul_right (blockBytes page) (Nat.succ_le_of_lt hab)
    rwa [Nat.succ_mul] at this
  rcases Nat.lt_or_gt_of_ne h with h | h
  · have := step k j h
    exact Or.inl (by unfold slot; omega)
  · have := step j k h
    exact Or.inr (by unfold slot; omega)

theorem slot_inj (hs : Shaped page) (k j : ℕ) (h : slot p page k = slot p page j) : k = j := by
  by_contra hn
  have := slot_disjoint p page k j hn
  have := shaped_min hs
  omega

theorem slot_lt_noBlock (hs : Shaped page) (hk : k < page.blockCount) (hp : p < 65535) :
    slot p page k < noBlock := by
  have := slot_room hs hk
  have := shaped_min hs
  unfold slot pageSize noBlock at *
  omega

theorem pageOk_assigned (ho : PageOk memory p page) (hk : k < page.blockCount) :
    page.classIndex ≠ 0 := fun h => by
  have := (ho.blank h).1
  omega

theorem pageOk_shaped (ho : PageOk memory p page) (hk : k < page.blockCount) : Shaped page :=
  ho.shaped (pageOk_assigned ho hk)

theorem pageOk_head (ho : PageOk memory p page) (hp : p < 65535) : page.freeHead < 2^32 := by
  by_cases hc : page.classIndex = 0
  · rw [(ho.blank hc).2.2]
    decide
  by_cases hh : page.freeHead = noBlock
  · rw [hh]
    decide
  · obtain ⟨k,hk,_,h⟩ := lists_head_free (ho.chain hc) hh
    have := slot_lt_noBlock (ho.shaped hc) hk hp
    unfold noBlock at this
    omega

theorem pageOk_reload (ho : PageOk memory p page)
    (h : ∀ ref, FreeIn p page ref → load32 memory' ref = load32 memory ref) :
    PageOk memory' p page :=
  ⟨ho.blank,ho.shaped,fun hc => lists_congr (ho.chain hc) (fun _ => Iff.rfl) h⟩

theorem pageOk_frame (ho : PageOk memory p page)
    (h : ∀ a, p*pageSize ≤ a → a < p*pageSize+pageSize → memory' a = memory a) :
    PageOk memory' p page := by
  refine pageOk_reload ho (fun ref hf => load_congr _ _ _ (fun a ha hb => ?_))
  obtain ⟨k,hk,_,rfl⟩ := hf
  have hs := pageOk_shaped ho hk
  have := slot_room hs hk
  have := shaped_min hs
  exact h a (by unfold slot at *; omega) (by unfold slot at *; omega)

theorem pageOk_write (ho : PageOk memory p page) (hk : k < page.blockCount)
    (hl : page.allocated k = true)
    (h : ∀ a, a < slot p page k ∨ slot p page k+blockBytes page ≤ a → memory' a = memory a) :
    PageOk memory' p page := by
  refine pageOk_reload ho (fun ref hf => load_congr _ _ _ (fun a ha hb => ?_))
  obtain ⟨j,hj,hfree,rfl⟩ := hf
  have hne : k ≠ j := fun he => by rw [he, hfree] at hl; simp at hl
  have := slot_disjoint p page k j hne
  have := shaped_min (pageOk_shaped ho hk)
  exact h a (by omega)

def takenPage (memory : Memory) (page : Page) (k : ℕ) : Page :=
  { page with
    allocated := Function.update page.allocated k true
    freeHead := load32 memory page.freeHead
    liveCount := page.liveCount+1 }

theorem liveIn_taken (hk : k < page.blockCount) (ref : ℕ) :
    LiveIn p (takenPage memory page k) ref ↔ LiveIn p page ref ∨ ref = slot p page k := by
  constructor
  · rintro ⟨j,hj,hl,rfl⟩
    by_cases h : j = k
    · exact Or.inr (by rw [h]; rfl)
    · exact Or.inl ⟨j,hj,by simpa [takenPage, h] using hl,rfl⟩
  · rintro (⟨j,hj,hl,rfl⟩ | rfl)
    · refine ⟨j,hj,?_,rfl⟩
      by_cases h : j = k <;> simp [takenPage, h, hl]
    · exact ⟨k,hk,by simp [takenPage],rfl⟩

theorem pageOk_take (ho : PageOk memory p page) (hk : k < page.blockCount)
    (hf : page.allocated k = false) (hh : page.freeHead = slot p page k) (hp : p < 65535) :
    PageOk memory p (takenPage memory page k) := by
  have hc := pageOk_assigned ho hk
  have hs := ho.shaped hc
  refine ⟨fun h => absurd h hc,fun _ => ⟨hs.assigned,hs.known,hs.count,?_⟩,fun _ => ?_⟩
  · change page.liveCount+1 = _
    rw [hs.live]
    exact (tally_set _ _ _ k hk (fun i _ hn => by simp [takenPage, hn]) hf
      (by simp [takenPage])).symm
  · have hne : page.freeHead ≠ noBlock := by
      rw [hh]
      exact Nat.ne_of_lt (slot_lt_noBlock hs hk hp)
    have hl := lists_pop (ho.chain hc) hne
    refine lists_congr hl (fun ref => ?_) (fun _ _ => rfl)
    constructor
    · rintro ⟨j,hj,hl,rfl⟩
      by_cases h : j = k
      · simp [takenPage, h] at hl
      · refine ⟨⟨j,hj,by simpa [takenPage, h] using hl,rfl⟩,fun he => h ?_⟩
        exact slot_inj hs j k (he.trans hh)
    · rintro ⟨⟨j,hj,hl,rfl⟩,hn⟩
      have h : j ≠ k := fun he => hn (by rw [hh, he])
      exact ⟨j,hj,by simp [takenPage, h, hl],rfl⟩

def givenPage (p : ℕ) (page : Page) (k : ℕ) : Page :=
  { page with
    allocated := Function.update page.allocated k false
    freeHead := slot p page k
    liveCount := page.liveCount-1 }

theorem liveIn_given (hs : Shaped page) (ref : ℕ) :
    LiveIn p (givenPage p page k) ref ↔ LiveIn p page ref ∧ ref ≠ slot p page k := by
  constructor
  · rintro ⟨j,hj,hl,rfl⟩
    by_cases h : j = k
    · simp [givenPage, h] at hl
    · exact ⟨⟨j,hj,by simpa [givenPage, h] using hl,rfl⟩,fun he => h (slot_inj hs j k he)⟩
  · rintro ⟨⟨j,hj,hl,rfl⟩,hn⟩
    have h : j ≠ k := fun he => hn (by rw [he])
    exact ⟨j,hj,by simp [givenPage, h, hl],rfl⟩

theorem pageOk_give (ho : PageOk memory p page) (hk : k < page.blockCount)
    (hl : page.allocated k = true) (hp : p < 65535) :
    PageOk (store32 memory (slot p page k) page.freeHead) p (givenPage p page k) := by
  have hc := pageOk_assigned ho hk
  have hs := ho.shaped hc
  have hm := shaped_min hs
  refine ⟨fun h => absurd h hc,fun _ => ⟨hs.assigned,hs.known,hs.count,?_⟩,fun _ => ?_⟩
  · have := tally_set (givenPage p page k).allocated page.allocated page.blockCount k hk
      (fun i _ hn => by simp [givenPage, hn]) (by simp [givenPage]) hl
    change page.liveCount-1 = tally (givenPage p page k).allocated page.blockCount
    rw [hs.live]
    omega
  · have hnot : ¬FreeIn p page (slot p page k) := by
      rintro ⟨j,hj,hf,he⟩
      rw [slot_inj hs k j he, hf] at hl
      simp at hl
    have hpush := lists_push (ho.chain hc) _ hnot (Nat.ne_of_lt (slot_lt_noBlock hs hk hp))
    refine lists_congr hpush (fun ref => ?_) (fun ref hf => ?_)
    · constructor
      · rintro ⟨j,hj,hf,rfl⟩
        by_cases h : j = k
        · exact Or.inr (by rw [h]; rfl)
        · exact Or.inl ⟨j,hj,by simpa [givenPage, h] using hf,rfl⟩
      · rintro (⟨j,hj,hf,rfl⟩ | rfl)
        · refine ⟨j,hj,?_,rfl⟩
          by_cases h : j = k <;> simp [givenPage, h, hf]
        · exact ⟨k,hk,by simp [givenPage],rfl⟩
    · by_cases he : ref = slot p page k
      · subst he
        rw [Function.update_self]
        exact load_store_same _ _ _ (pageOk_head ho hp)
      · rw [Function.update_of_ne he]
        rcases hf with ⟨j,hj,_,rfl⟩ | h
        · have := slot_disjoint p page j k (fun h => he (by rw [h]))
          exact load_store_disjoint _ _ _ _ (by omega)
        · exact absurd h he

theorem linkBlocks_outside (size count b n : ℕ) (hsize : 4 ≤ size) (a : ℕ)
    (h : a < p*pageSize+b*size ∨ p*pageSize+(b+n)*size ≤ a) :
    linkBlocks p size count b n memory a = memory a := by
  induction n generalizing b memory with
  | zero => rfl
  | succ n ih =>
    have e : b*size+size ≤ (b+(n+1))*size := by
      rw [show b+(n+1) = b+1+n by omega, Nat.add_mul, Nat.add_mul]
      omega
    rw [linkBlocks, ih (b+1) (by rw [show b+1+n = b+(n+1) by omega, Nat.add_mul]; omega)]
    exact store_outside _ _ _ _ (by omega)

theorem linkBlocks_next (size count b n : ℕ) (hsize : 4 ≤ size) (hp : p < 65535)
    (hroom : count*size ≤ pageSize) (hn : b+n ≤ count) (j : ℕ) (hb : b ≤ j) (hj : j < b+n) :
    load32 (linkBlocks p size count b n memory) (p*pageSize+j*size) =
      if j+1 < count then p*pageSize+(j+1)*size else noBlock := by
  induction n generalizing b memory with
  | zero => omega
  | succ n ih =>
    rw [linkBlocks]
    rcases Nat.eq_or_lt_of_le hb with rfl | hlt
    · rw [load_congr _ _ _ (fun a ha ha' => linkBlocks_outside size count (b+1) n hsize a
        (Or.inl (by rw [Nat.add_mul]; omega)))]
      have hr : (b+1)*size ≤ count*size := Nat.mul_le_mul_right _ (by omega)
      have e : (b+1)*size = b*size+size := by rw [Nat.add_mul, Nat.one_mul]
      rw [load_store_same]
      · split
        · omega
        · rfl
      · unfold noBlock pageSize at *
        split <;> omega
    · exact ih (b+1) (by omega) (by omega) (by omega)

def freshPage (p c : ℕ) : Page where
  freeHead := p*pageSize
  blockCount := pageSize/classBytes c
  liveCount := 0
  classIndex := c+1
  allocated := fun _ => false

theorem pageOk_fresh (c : ℕ) (hc : c < classCount) (hp : p < 65535) :
    PageOk (linkBlocks p (classBytes c) (pageSize/classBytes c) 0 (pageSize/classBytes c) memory) p
      (freshPage p c) := by
  obtain ⟨h1,_,h3,_⟩ := class_facts c hc
  have hs : Shaped (freshPage p c) :=
    ⟨Nat.succ_ne_zero c,hc,rfl,(tally_none _ _ (fun _ _ => rfl)).symm⟩
  refine ⟨fun h => absurd h (Nat.succ_ne_zero c),fun _ => hs,fun _ => ?_⟩
  have hpos : pageSize/classBytes c ≠ 0 := fun h => by rw [h] at h1; simp [pageSize] at h1
  have hl := lists_enum
    (load32 (linkBlocks p (classBytes c) (pageSize/classBytes c) 0 (pageSize/classBytes c) memory))
    noBlock (pageSize/classBytes c) (slot p (freshPage p c))
    (fun i hi => Nat.ne_of_lt (slot_lt_noBlock hs hi hp))
    (fun i _ j _ h => slot_inj hs i j h)
    (fun i hi => linkBlocks_next _ _ 0 _ (by unfold minBlock at h3; omega) hp
      (by rw [Nat.mul_comm]; omega) (by omega) i (by omega) (by omega))
  rw [if_neg hpos] at hl
  have hhead : (freshPage p c).freeHead = slot p (freshPage p c) 0 := by simp [freshPage, slot]
  rw [hhead]
  refine lists_congr hl (fun ref => ?_) (fun _ _ => rfl)
  exact exists_congr (fun i => and_congr_right (fun _ => ⟨fun h => h.2,fun h => ⟨rfl,h⟩⟩))

theorem pageOk_blank (hb : page.blockCount = 0) (hl : page.liveCount = 0)
    (hc : page.classIndex = 0) (hh : page.freeHead = noBlock) : PageOk memory p page :=
  ⟨fun _ => ⟨hb,hl,hh⟩,fun h => absurd hc h,fun h => absurd hc h⟩

end PgLocalCache.ArenaPage
