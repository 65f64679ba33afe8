import PgLocalCache.MgetAssembly

/-!
# One reply for a list of keys

The keys of a request are folded into items before anything is looked up, and the
reply is built from the items again, one element for each key. `Folded` relates
the two: every key has a slot, the slot leads to an item of the same key, and an
item counts the slots that lead to it. With the sweeps this gives the reply of
`command_mget` for every list of keys that resolve.
-/

namespace PgLocalCache.MgetReply

open CacheState WireKey WorkerBackend MgetCommand MgetResults MgetSweeps MgetAssembly Outcome
open RespWriter

variable {W D : Type} (S : Server D) (B : Backend W D) (cfg : WorkerSettings)

/-- Two spellings of one key. -/
def SameKey (k k' : ResolvedKey D) : Prop :=
  k.mapping.cache.relationOid = k'.mapping.cache.relationOid ∧
    k.mapping.cache.nspace = k'.mapping.cache.nspace ∧ k.canonical = k'.canonical

def keyOf (item : MgetItem D) : ResolvedKey D := ⟨item.mapping,item.keyValues,item.canonical⟩

theorem sameKey_iff (item : MgetItem D) (key : ResolvedKey D) :
    sameKey item key = true ↔ SameKey (keyOf item) key := by
  simp [sameKey, SameKey, keyOf]

theorem SameKey.symm {k k' : ResolvedKey D} (h : SameKey k k') : SameKey k' k :=
  ⟨h.1.symm,h.2.1.symm,h.2.2.symm⟩

theorem SameKey.trans {a b c : ResolvedKey D} (h : SameKey a b) (h' : SameKey b c) :
    SameKey a c :=
  ⟨h.1.trans h'.1,h.2.1.trans h'.2.1,h.2.2.trans h'.2.2⟩

/-- An item as the key loop leaves it. -/
structure Untouched (item : MgetItem D) : Prop where
  fresh : Fresh item
  element : item.responseElement = none
  null : item.nullResult = false

structure Folded (keys : List (ResolvedKey D)) (items : List (MgetItem D)) (slots : List ℕ) :
    Prop where
  placed : List.Forall₂ (fun key slot => ∃ item, items[slot]? = some item ∧
    SameKey (keyOf item) key) keys slots
  counted : ∀ (i : ℕ) (item : MgetItem D), items[i]? = some item →
    item.responseSlots = slots.count i ∧ 0 < slots.count i
  origin : ∀ item ∈ items, keyOf item ∈ keys
  untouched : ∀ item ∈ items, Untouched item
  distinct : ∀ (i j : ℕ) (a b : MgetItem D), items[i]? = some a → items[j]? = some b →
    SameKey (keyOf a) (keyOf b) → i = j

theorem folded_nil : Folded ([] : List (ResolvedKey D)) [] [] :=
  ⟨List.Forall₂.nil,by simp,by simp,by simp,by simp⟩

theorem folded_bound {keys : List (ResolvedKey D)} {items : List (MgetItem D)} {slots : List ℕ}
    (h : Folded keys items slots) : ∀ slot ∈ slots, slot < items.length := by
  intro slot hslot
  obtain ⟨p,hp,rfl⟩ := List.mem_iff_getElem.mp hslot
  have hlen := h.placed.length_eq
  obtain ⟨item,hget,_⟩ := h.placed.get (by omega) hp
  exact (List.getElem?_eq_some_iff.mp hget).1

theorem folded_new {keys : List (ResolvedKey D)} {items : List (MgetItem D)} {slots : List ℕ}
    (h : Folded keys items slots) (key : ResolvedKey D) (enabled : Bool)
    (hnew : ∀ item ∈ items, ¬SameKey (keyOf item) key) :
    Folded (keys++[key]) (items++[countSlot (newItem key enabled)]) (slots++[items.length]) := by
  have hkey : keyOf (countSlot (newItem key enabled)) = key := rfl
  have hold : ∀ (i : ℕ) (item : MgetItem D), items[i]? = some item →
      (items++[countSlot (newItem key enabled)])[i]? = some item := by
    intro i item hget
    rw [List.getElem?_append_left (List.getElem?_eq_some_iff.mp hget).1, hget]
  -- An index of the longer list is an old one or the new last one.
  have hcases : ∀ (i : ℕ) (item : MgetItem D),
      (items++[countSlot (newItem key enabled)])[i]? = some item →
      items[i]? = some item ∨ (i = items.length ∧ item = countSlot (newItem key enabled)) := by
    intro i item hget
    rcases Nat.lt_trichotomy i items.length with hlt | heq | hgt
    · rw [List.getElem?_append_left hlt] at hget
      exact Or.inl hget
    · subst heq
      rw [List.getElem?_append_right (le_refl _)] at hget
      simp only [Nat.sub_self, List.getElem?_cons_zero, Option.some.injEq] at hget
      exact Or.inr ⟨rfl,hget.symm⟩
    · rw [List.getElem?_eq_none (by simp; omega)] at hget
      cases hget
  refine ⟨?_,fun i item hget => ?_,fun item hmem => ?_,fun item hmem => ?_,
    fun i j a b ha hb hsame => ?_⟩
  · apply List.rel_append
    · exact h.placed.imp (fun key slot ⟨item,hget,hs⟩ => ⟨item,hold _ _ hget,hs⟩)
    · exact List.Forall₂.cons ⟨countSlot (newItem key enabled),by simp,rfl,rfl,rfl⟩
        List.Forall₂.nil
  · rw [List.count_append]
    rcases hcases i item hget with hold | ⟨rfl,rfl⟩
    · have hlt := (List.getElem?_eq_some_iff.mp hold).1
      have := h.counted i item hold
      rw [List.count_singleton]
      simp only [beq_iff_eq, show ¬items.length = i by omega, if_false]
      omega
    · have hzero : slots.count items.length = 0 :=
        List.count_eq_zero.mpr (fun hm => absurd (folded_bound h _ hm) (by omega))
      rw [hzero]
      simp [countSlot, newItem]
  · rcases List.mem_append.mp hmem with hm | hm
    · exact List.mem_append_left _ (h.origin item hm)
    · rw [List.mem_singleton] at hm
      subst hm
      simp [hkey]
  · rcases List.mem_append.mp hmem with hm | hm
    · exact h.untouched item hm
    · rw [List.mem_singleton] at hm
      subst hm
      exact ⟨⟨rfl,rfl,rfl⟩,rfl,rfl⟩
  · rcases hcases i a ha with ha | ⟨rfl,rfl⟩
    · rcases hcases j b hb with hb | ⟨rfl,rfl⟩
      · exact h.distinct i j a b ha hb hsame
      · exact absurd hsame (hnew a (List.mem_of_getElem? ha))
    · rcases hcases j b hb with hb | ⟨rfl,rfl⟩
      · exact absurd hsame.symm (hnew b (List.mem_of_getElem? hb))
      · rfl

theorem folded_old {keys : List (ResolvedKey D)} {items : List (MgetItem D)} {slots : List ℕ}
    (h : Folded keys items slots) (key : ResolvedKey D) (found : ℕ) (item : MgetItem D)
    (hget : items[found]? = some item) (hsame : SameKey (keyOf item) key) :
    Folded (keys++[key]) (items.modify found countSlot) (slots++[found]) := by
  have hcases : ∀ i a, (items.modify found countSlot)[i]? = some a →
      ∃ b, items[i]? = some b ∧ a = if found = i then countSlot b else b := by
    intro i a ha
    rw [List.getElem?_modify] at ha
    obtain ⟨b,hb,hab⟩ := Option.map_eq_some_iff.mp ha
    exact ⟨b,hb,hab.symm⟩
  have hforth : ∀ i b, items[i]? = some b →
      (items.modify found countSlot)[i]? = some (if found = i then countSlot b else b) := by
    intro i b hb
    rw [List.getElem?_modify, hb]
    by_cases hi : found = i <;> simp [hi]
  have hkey : ∀ i (b : MgetItem D), keyOf (if found = i then countSlot b else b) = keyOf b := by
    intro i b
    split <;> rfl
  refine ⟨?_,fun i a ha => ?_,fun a hmem => ?_,fun a hmem => ?_,fun i j a b ha hb hs => ?_⟩
  · apply List.rel_append
    · apply h.placed.imp
      intro key slot ⟨b,hb,hs⟩
      exact ⟨_,hforth slot b hb,by rw [hkey]; exact hs⟩
    · exact List.Forall₂.cons ⟨_,hforth found item hget,by rw [hkey]; exact hsame⟩
        List.Forall₂.nil
  · obtain ⟨b,hb,rfl⟩ := hcases i a ha
    have := h.counted i b hb
    rw [List.count_append, List.count_singleton]
    by_cases hi : found = i
    · simp [hi, countSlot]
      omega
    · simp only [hi, beq_iff_eq, if_false, Nat.add_zero]
      exact this
  · obtain ⟨i,hi⟩ := List.getElem?_of_mem hmem
    obtain ⟨b,hb,rfl⟩ := hcases i a hi
    rw [hkey]
    exact List.mem_append_left _ (h.origin b (List.mem_of_getElem? hb))
  · obtain ⟨i,hi⟩ := List.getElem?_of_mem hmem
    obtain ⟨b,hb,rfl⟩ := hcases i a hi
    have := h.untouched b (List.mem_of_getElem? hb)
    split
    · exact ⟨⟨this.fresh.waiting,this.fresh.immediate,this.fresh.unread⟩,this.element,this.null⟩
    · exact this
  · obtain ⟨a',ha',rfl⟩ := hcases i a ha
    obtain ⟨b',hb',rfl⟩ := hcases j b hb
    rw [hkey, hkey] at hs
    exact h.distinct i j a' b' ha' hb' hs

theorem addKey_folded {keys : List (ResolvedKey D)} {items : List (MgetItem D)} {slots : List ℕ}
    {w0 w : W} (h : Folded keys items slots) (hf : Follows B w0 w) (key : ResolvedKey D) :
    Ensures (addKey B key items) w (fun added w' => Follows B w0 w' ∧
      Folded (keys++[key]) added.1 (slots++[added.2])) Never := by
  unfold addKey
  simp only
  split
  · rename_i hlen
    simp only [ensures_bind, ensures_call, ensures_pure]
    refine ⟨follows_call B w0 w _ hf (Call.enabled w),?_⟩
    rw [hlen]
    apply folded_new h
    intro item hmem hsame
    have := List.findIdx_eq_length.mp hlen item hmem
    rw [(sameKey_iff item key).mpr hsame] at this
    cases this
  · rename_i hlen
    have hlt : items.findIdx (fun item => sameKey item key) < items.length :=
      lt_of_le_of_ne List.findIdx_le_length hlen
    have hhit := List.findIdx_getElem (w := hlt)
    exact ⟨hf,folded_old h key _ _ (List.getElem?_eq_getElem hlt)
      ((sameKey_iff _ key).mp hhit)⟩

theorem prepareLoop_folded {mappings : List (WorkerMapping D)} {w0 : W} (wireKeys : List Bytes)
    (keys : List (ResolvedKey D))
    (hkeys : List.Forall₂ (fun wireKey key => resolveKey S mappings wireKey = .ok key)
      wireKeys keys) (keys0 : List (ResolvedKey D)) (items : List (MgetItem D)) (slots : List ℕ)
    (w : W)
    (h : Folded keys0 items slots) (hf : Follows B w0 w) :
    Ensures (prepareLoop S B mappings wireKeys items slots) w (fun prepared w' =>
      Follows B w0 w' ∧ ∃ items' slots', prepared = .ok (items',slots') ∧
        Folded (keys0++keys) items' slots') Never := by
  induction hkeys generalizing keys0 items slots w with
  | nil =>
    rw [List.append_nil]
    exact ⟨hf,items,slots,rfl,h⟩
  | @cons wireKey key wireKeys keys hkey _ ih =>
    simp only [prepareLoop, hkey]
    apply ensures_seq (addKey_folded B h hf key)
    intro added w' ⟨hf',h'⟩
    have := ih (keys0++[key]) added.1 (slots++[added.2]) w' h' hf'
    rwa [List.append_assoc, List.singleton_append] at this

/-! The answer. -/

def elementAt (items : List (MgetItem D)) (slot : ℕ) : Bytes :=
  (items[slot]?.bind MgetItem.responseElement).getD []

theorem assemble_fits (items : List (MgetItem D)) (slots : List ℕ) (response : Bytes)
    (hready : ∀ slot ∈ slots, ∃ item, items[slot]? = some item ∧ Complete item)
    (hfit : response.length+(slots.map (fun slot => (elementAt items slot).length)).sum ≤
      responseMax) :
    assemble items slots response = .ok (some (response++slots.flatMap (elementAt items))) := by
  induction slots generalizing response with
  | nil => simp [assemble]
  | cons slot slots ih =>
    obtain ⟨item,hget,hcomplete⟩ := hready slot (by simp)
    obtain ⟨element,helement⟩ := Option.isSome_iff_exists.mp hcomplete.element
    have hat : elementAt items slot = element := by simp [elementAt, hget, helement]
    simp only [List.map_cons, List.sum_cons, hat] at hfit
    simp only [assemble, hget, helement, hcomplete.ready]
    rw [if_neg (by simp), if_neg (by omega), ih _ (fun s hs => hready s (by simp [hs]))
      (by rw [List.length_append]; omega)]
    simp [hat]

section
variable {mappings : List (WorkerMapping D)} {w0 : W} {idents : List (Identity D)}
  {slots : List ℕ} {requestLength deadline : ℕ} {F : PgError → MgetFrame W D → Prop}

/-- The reply to an MGET that the deadline or a locked relation stopped; none if it is put off. -/
def Refused (w0 : W) (requestLength deadline : ℕ) (reply : Option Bytes) (w' : W) : Prop :=
  (reply = some deadlineExceeded ∧ Late B w0 deadline w') ∨
    ∃ w, Locked B w0 w ∧ w' = (B.enqueueDeferredMiss requestLength deadline w).2 ∧
      reply = match (B.enqueueDeferredMiss requestLength deadline w).1 with
        | .queued => none
        | .expired => some deadlineExceeded
        | .full => some (respError (ascii "ERR busy: relation locked, retry"))

/-- The ways an MGET that does not raise can end. -/
def Ended (mappings : List (WorkerMapping D)) (w0 : W) (idents : List (Identity D))
    (slots : List ℕ) (requestLength deadline : ℕ) (reply : Option Bytes) (s : MgetFrame W D) :
    Prop :=
  (Sound S B mappings w0 idents slots s ∧
    ((s.tally.failure = some .limit ∧ reply = some limitExceeded) ∨
      (s.tally.failure = none ∧ (∀ item ∈ s.items, Complete item) ∧
        reply = some (arrayHeader slots.length++slots.flatMap (elementAt s.items)) ∧
        assemble s.items slots (arrayHeader slots.length) ≠ .ok none))) ∨
    (s.tally.wrapped = false ∧ Refused B w0 requestLength deadline reply s.world)

theorem complete_size {s : MgetFrame W D} (hcomplete : ∀ item ∈ s.items, Complete item)
    (slot : ℕ) : sizeAt s.items slot = (elementAt s.items slot).length := by
  unfold sizeAt elementAt
  cases hget : s.items[slot]? with
  | none => rfl
  | some item =>
    obtain ⟨hready,helement⟩ := hcomplete item (List.mem_of_getElem? hget)
    obtain ⟨element,helement⟩ := Option.isSome_iff_exists.mp helement
    simp [resultSize, hready, elementLength, helement]

theorem released_ended {s : MgetFrame W D} {reply : Option Bytes}
    (hexact : s.tally.wrapped = false)
    (h : (Sound S B mappings w0 idents slots s ∧ s.tally.failure = some .limit ∧
      reply = some limitExceeded) ∨ (reply = some deadlineExceeded ∧ Late B w0 deadline s.world)) :
    Ensures (do
      mgetReleaseClaims B
      return reply) s (Ended S B mappings w0 idents slots requestLength deadline) F := by
  apply ensures_seq (mgetReleaseClaims_quiet S B s)
  rintro _ s' ⟨⟨htally,hf⟩,hsound⟩
  rcases h with ⟨hs,hfail,hreply⟩ | ⟨hreply,hlate⟩
  · exact Or.inl ⟨hsound hs,Or.inl ⟨by rw [htally, hfail],hreply⟩⟩
  · exact Or.inr ⟨by rw [htally, hexact],Or.inl ⟨hreply,met_trans B hlate hf⟩⟩

theorem mgetAnswer_ended (s : MgetFrame W D) (h : Sound S B mappings w0 idents slots s)
    (hnone : s.tally.failure = none) (hcomplete : ∀ item ∈ s.items, Complete item)
    (hbound : ∀ slot ∈ slots, slot < s.items.length) :
    Ensures (mgetAnswer B deadline slots) s
      (Ended S B mappings w0 idents slots requestLength deadline) F := by
  obtain ⟨_,_,hmax⟩ := running_size S B h (by simp [hasFailed, hnone])
  have hassemble : assemble s.items slots (arrayHeader slots.length) =
      .ok (some (arrayHeader slots.length++slots.flatMap (elementAt s.items))) := by
    apply assemble_fits
    · intro slot hslot
      have hget := List.getElem?_eq_getElem (hbound slot hslot)
      exact ⟨_,hget,hcomplete _ (List.mem_of_getElem? hget)⟩
    · unfold knownSize at hmax
      rwa [List.map_congr_left (fun slot _ => complete_size hcomplete slot)] at hmax
  unfold mgetAnswer
  apply onWorld_seq (deadlinePassed_follows B h.follows)
  rintro late w ⟨hf,hlate⟩
  by_cases hl : late = true
  · rw [if_pos hl]
    exact released_ended S B h.balanced.exact (Or.inr ⟨rfl,hlate hl⟩)
  · rw [if_neg hl]
    simp only [ensures_bind, ensures_get, hassemble, ensures_pure]
    exact Or.inl ⟨alike_world S B h w hf,Or.inr ⟨hnone,hcomplete,rfl,by simp [hassemble]⟩⟩

include S in
theorem mgetCleanup_raised (e : PgError) (s : MgetFrame W D) (he : Raised B mappings w0 e s.world)
    (Q : Unit → MgetFrame W D → Prop) :
    Ensures (mgetCleanup B e) s Q (fun e s => Raised B mappings w0 e s.world) := by
  have hend : ∀ s' : MgetFrame W D, Raised B mappings w0 e s'.world → Ensures (do
      mgetReleaseClaims B
      throw e) s' Q (fun e s => Raised B mappings w0 e s.world) :=
    fun s' he => ensures_seq (@mgetReleaseClaims_quiet W D S B mappings w0 [] [] _ s')
      (fun _ _ h => met_trans B he h.1.2)
  simp only [mgetCleanup, ensures_bind, ensures_get]
  split
  · exact hend _ (met_trans B he (.single (Call.abort s.world)))
  · exact hend _ he

theorem blocked_ended {s : MgetFrame W D} (h : Blocked B w0 s) :
    Ensures (do
      mgetReleaseClaims B
      let result ← onWorld (call (B.enqueueDeferredMiss requestLength deadline))
      match result with
      | .queued => return none
      | .expired => return some deadlineExceeded
      | .full => return some (respError (ascii "ERR busy: relation locked, retry"))) s
      (Ended S B mappings w0 idents slots requestLength deadline) F := by
  apply ensures_seq (@mgetReleaseClaims_quiet W D S B mappings w0 idents slots _ s)
  rintro _ s' ⟨⟨htally,hf⟩,_⟩
  have hexact : s'.tally.wrapped = false := by rw [htally, h.exact]
  simp only [ensures_bind, ensures_onWorld, ensures_call]
  have hlocked := met_trans B h.locked hf
  cases hq : (B.enqueueDeferredMiss requestLength deadline s'.world).1 with
  | queued => exact Or.inr ⟨hexact,Or.inr ⟨_,hlocked,rfl,by rw [hq]⟩⟩
  | expired => exact Or.inr ⟨hexact,Or.inr ⟨_,hlocked,rfl,by rw [hq]⟩⟩
  | full => exact Or.inr ⟨hexact,Or.inr ⟨_,hlocked,rfl,by rw [hq]⟩⟩

theorem mgetServe_ended (hslots : Slotted idents slots) (s : MgetFrame W D)
    (h : Sound S B mappings w0 idents slots s)
    (hfresh : ∀ item ∈ s.items, Fresh item) (hbound : ∀ slot ∈ slots, slot < s.items.length) :
    Ensures (mgetServe S B cfg requestLength deadline slots) s
      (Ended S B mappings w0 idents slots requestLength deadline)
      (fun e s => Raised B mappings w0 e s.world) := by
  unfold mgetServe
  apply ensures_seq (ensures_overItems _ Fresh Probed
    (fun s i item hinv hrun hget htodo => lookupItem_turn S B hslots s i item hinv hrun hget htodo)
    s h hfresh)
  intro _ s1 hs1
  rw [ensures_bind, ensures_get]
  split
  · rename_i hfail
    rcases hs1.1.balanced.size with hsize | hsize
    · simp [hasFailed, hsize.1] at hfail
    · exact released_ended S B hs1.1.balanced.exact (Or.inl ⟨hs1.1,hsize.1,rfl⟩)
  · rename_i hrun
    apply ensures_seq (ensures_tryCatch (mgetObtain_kept S B cfg hslots s1 hs1.1
      (hs1.2 (by simpa using hrun))) (fun e s he => mgetCleanup_raised S B e s he _))
    rintro _ s2 ⟨(hs2 | hs2) | hs2,hcomplete⟩
    · have hfree := hs2.balanced.free
      simp only [ensures_bind, ensures_get, hfree, Bool.false_eq_true, if_false]
      rcases hs2.balanced.size with hsize | hsize
      · simp only [hsize.1]
        apply mgetAnswer_ended S B s2 hs2 hsize.1
          (hcomplete (by simp [isStopped, hasFailed, hsize.1, hfree]))
        intro slot hslot
        have := congrArg List.length (hs2.idents.trans h.idents.symm)
        simp only [List.length_map] at this
        rw [this]
        exact hbound slot hslot
      · simp only [hsize.1]
        exact released_ended S B hs2.balanced.exact (Or.inl ⟨hs2,hsize.1,rfl⟩)
    · obtain ⟨f,hf,hreply⟩ := hs2.failed
      rw [ensures_bind, ensures_get]
      simp only [hs2.free, Bool.false_eq_true, if_false, hf, hreply]
      exact released_ended S B hs2.exact (Or.inr ⟨rfl,hs2.late⟩)
    · rw [ensures_bind, ensures_get, if_pos hs2.blocked]
      exact blocked_ended S B hs2

end

/-! Results by position. -/

def arrayReply (results : List RowResult) : Bytes :=
  arrayHeader results.length++results.flatMap RowResult.encode

/-- `r` was answered for the first spelling of `key` in the request. -/
def Obtained (w0 : W) (keys : List (ResolvedKey D)) (key : ResolvedKey D) (r : RowResult) : Prop :=
  ∃ first ∈ keys, SameKey first key ∧
    Answered S B w0 first.mapping first.canonical first.values r

/-- One result for each key, and the same one for the same key. -/
structure AllObtained (w0 : W) (keys : List (ResolvedKey D)) (results : List RowResult) :
    Prop where
  each : List.Forall₂ (Obtained S B w0 keys) keys results
  equal : ∀ (i j : ℕ) k k' r r', keys[i]? = some k → keys[j]? = some k' → SameKey k k' →
    results[i]? = some r → results[j]? = some r' → r = r'

/-- The results known when the command gave up. -/
def SomeObtained (w0 : W) (keys : List (ResolvedKey D)) (known : List (Option RowResult)) :
    Prop :=
  List.Forall₂ (fun key o => ∀ r, o = some r → Obtained S B w0 keys key r) keys known

def Completes (known : List (Option RowResult)) (results : List RowResult) : Prop :=
  List.Forall₂ (fun o r => ∀ x, o = some x → r = x) known results

section
variable {mappings : List (WorkerMapping D)} {w0 : W} {keys : List (ResolvedKey D)}
  {items : List (MgetItem D)} {slots : List ℕ} {s : MgetFrame W D}

theorem results_exist (h : ∀ item ∈ s.items, ItemSound S B mappings w0 item) :
    ∃ R : ℕ → RowResult, ∀ (slot : ℕ) (item : MgetItem D), s.items[slot]? = some item →
      item.resultReady = true →
      Answered S B w0 item.mapping item.canonical item.keyValues (R slot) ∧
      elementLength item = (R slot).encode.length ∧
      (item.responseElement.isSome = true → item.responseElement = some (R slot).encode) := by
  have hone : ∀ slot : ℕ, ∃ r : RowResult, ∀ item : MgetItem D, s.items[slot]? = some item →
      item.resultReady = true →
      Answered S B w0 item.mapping item.canonical item.keyValues r ∧
      elementLength item = r.encode.length ∧
      (item.responseElement.isSome = true → item.responseElement = some r.encode) := by
    intro slot
    by_cases hex : ∃ item, s.items[slot]? = some item ∧ item.resultReady = true
    · obtain ⟨item,hget,hready⟩ := hex
      obtain ⟨r,hr,hh⟩ := (h item (List.mem_of_getElem? hget)).ready hready
      refine ⟨r,fun item' hget' _ => ?_⟩
      rw [hget] at hget'
      cases hget'
      refine ⟨hr,elementLength_holds item r hh,fun hsome => ?_⟩
      unfold Holds at hh
      split at hh
      · rcases hh.1 with hn | he
        · simp [hn] at hsome
        · exact he
      · exact hh
    · exact ⟨.null,fun item hget hready => absurd ⟨item,hget,hready⟩ hex⟩
  choose R hR using hone
  exact ⟨R,hR⟩

theorem keyOf_kept (h : Sound S B mappings w0 (items.map ident) slots s) (slot : ℕ)
    (item : MgetItem D) (hget : items[slot]? = some item) :
    ∃ item', s.items[slot]? = some item' ∧ keyOf item' = keyOf item := by
  have hid := congrArg (fun l => l[slot]?) h.idents
  simp only [List.getElem?_map, hget, Option.map_some] at hid
  obtain ⟨item',hget',hident⟩ := Option.map_eq_some_iff.mp hid
  obtain ⟨hmap,hcan,hval,_⟩ := (Identity.mk.injEq _ _ _ _ _ _ _ _).mp hident
  exact ⟨item',hget',by simp [keyOf, hmap, hcan, hval]⟩

theorem obtained_at (h : Sound S B mappings w0 (items.map ident) slots s)
    (hfold : Folded keys items slots) (key : ResolvedKey D) (slot : ℕ) (item0 item : MgetItem D)
    (hget0 : items[slot]? = some item0) (hsame : SameKey (keyOf item0) key)
    (hget : s.items[slot]? = some item) (r : RowResult)
    (hr : Answered S B w0 item.mapping item.canonical item.keyValues r) :
    Obtained S B w0 keys key r := by
  obtain ⟨item',hget',hkey⟩ := keyOf_kept S B h slot item0 hget0
  rw [hget] at hget'
  cases hget'
  refine ⟨keyOf item0,hfold.origin item0 (List.mem_of_getElem? hget0),hsame,?_⟩
  rw [← hkey]
  exact hr

theorem all_obtained (h : Sound S B mappings w0 (items.map ident) slots s)
    (hfold : Folded keys items slots) (hcomplete : ∀ item ∈ s.items, Complete item) :
    ∃ results, AllObtained S B w0 keys results ∧
      arrayReply results = arrayHeader slots.length++slots.flatMap (elementAt s.items) := by
  obtain ⟨R,hR⟩ := results_exist S B h.items
  have hat : ∀ slot ∈ slots, elementAt s.items slot = (R slot).encode := by
    intro slot hslot
    have hlt : slot < s.items.length := by
      have := congrArg List.length h.idents
      simp only [List.length_map] at this
      rw [this]
      exact folded_bound hfold slot hslot
    have hget := List.getElem?_eq_getElem hlt
    obtain ⟨hready,helement⟩ := hcomplete _ (List.mem_of_getElem? hget)
    simp [elementAt, hget, (hR slot _ hget hready).2.2 helement]
  refine ⟨slots.map R,⟨?_,fun i j k k' r r' hi hj hsame hr hr' => ?_⟩,?_⟩
  · rw [List.forall₂_map_right_iff]
    apply hfold.placed.imp
    intro key slot ⟨item0,hget0,hsame⟩
    obtain ⟨item,hget,_⟩ := keyOf_kept S B h slot item0 hget0
    have hready := (hcomplete item (List.mem_of_getElem? hget)).ready
    exact obtained_at S B h hfold key slot item0 item hget0 hsame hget _
      (hR slot item hget hready).1
  · -- Equal keys were folded into one item, so they have the same slot.
    rw [List.getElem?_map, Option.map_eq_some_iff] at hr hr'
    obtain ⟨a,ha,rfl⟩ := hr
    obtain ⟨b,hb,rfl⟩ := hr'
    have hplaced : ∀ (p : ℕ) key slot, keys[p]? = some key → slots[p]? = some slot →
        ∃ item, items[slot]? = some item ∧ SameKey (keyOf item) key := by
      intro p key slot hp hs
      obtain ⟨hkey,rfl⟩ := List.getElem?_eq_some_iff.mp hp
      obtain ⟨hslot,rfl⟩ := List.getElem?_eq_some_iff.mp hs
      exact hfold.placed.get hkey hslot
    obtain ⟨x,hx,hxk⟩ := hplaced i k a hi ha
    obtain ⟨y,hy,hyk⟩ := hplaced j k' b hj hb
    rw [hfold.distinct a b x y hx hy ((hxk.trans hsame).trans hyk.symm)]
  · unfold arrayReply
    rw [List.length_map, List.flatMap_map]
    congr 1
    exact List.flatMap_congr (fun slot hslot => (hat slot hslot).symm)

theorem some_obtained (h : Sound S B mappings w0 (items.map ident) slots s)
    (hfold : Folded keys items slots) :
    ∃ known, SomeObtained S B w0 keys known ∧ ∀ results, Completes known results →
      knownSize s.items slots ≤ (arrayReply results).length := by
  obtain ⟨R,hR⟩ := results_exist S B h.items
  refine ⟨slots.map (fun slot => if (s.items[slot]?.any MgetItem.resultReady) = true then
    some (R slot) else none),?_,fun results hres => ?_⟩
  · unfold SomeObtained
    rw [List.forall₂_map_right_iff]
    apply hfold.placed.imp
    intro key slot ⟨item0,hget0,hsame⟩ r hr
    obtain ⟨item,hget,_⟩ := keyOf_kept S B h slot item0 hget0
    rw [hget] at hr
    simp only [Option.any_some] at hr
    split at hr
    · rename_i hready
      cases hr
      exact obtained_at S B h hfold key slot item0 item hget0 hsame hget _
        (hR slot item hget hready).1
    · cases hr
  · have hlen : results.length = slots.length := by
      rw [← hres.length_eq, List.length_map]
    have hsum : ∀ (js : List ℕ) (rs : List RowResult),
        List.Forall₂ (fun slot r => ∀ x, (if (s.items[slot]?.any MgetItem.resultReady) = true then
          some (R slot) else none) = some x → r = x) js rs →
        (js.map (sizeAt s.items)).sum ≤ (rs.flatMap RowResult.encode).length := by
      intro js rs hjs
      induction hjs with
      | nil => simp
      | @cons slot r js rs hr _ ih =>
        have hle : sizeAt s.items slot ≤ r.encode.length := by
          unfold sizeAt
          cases hget : s.items[slot]? with
          | none => simp
          | some item =>
            simp only [Option.map_some, Option.getD_some, resultSize]
            split
            · rename_i hready
              rw [hr (R slot) (by simp [hget, hready]), (hR slot item hget hready).2.1]
            · exact Nat.zero_le _
        simp only [List.map_cons, List.sum_cons, List.flatMap_cons, List.length_append]
        omega
    have hle := hsum slots results (List.forall₂_map_left_iff.mp hres)
    unfold knownSize arrayReply
    rw [List.length_append, hlen]
    omega

end

/-! The claim about the command. -/

def mgetMaxKeys : ℕ := 1024

theorem start_sound {mappings : List (WorkerMapping D)} {w0 w : W} {keys : List (ResolvedKey D)}
    {items : List (MgetItem D)} {slots : List ℕ} (hfold : Folded keys items slots)
    (hmapped : ∀ key ∈ keys, key.mapping ∈ mappings) (hcount : slots.length ≤ mgetMaxKeys)
    (hf : Follows B w0 w) :
    Sound S B mappings w0 (items.map ident) slots
      ⟨w,items,startTally slots.length,false⟩ := by
  have hzero : knownSize items slots = 1+mgetDecimalDigits slots.length+2 := by
    have hsum : ∀ slot ∈ slots, sizeAt items slot = 0 := by
      intro slot _
      unfold sizeAt
      cases hget : items[slot]? with
      | none => rfl
      | some item =>
        have := (hfold.untouched item (List.mem_of_getElem? hget)).fresh.waiting
        simp [resultSize, this]
    rw [knownSize, List.map_congr_left hsum, arrayHeader_length, mgetDecimalDigits_eq]
    simp
  have hdigits := digitsLoop_le slots.length slots.length 1
  refine ⟨hf,rfl,fun item hmem => ?_,rfl,rfl,Or.inl ⟨rfl,hzero.symm,?_⟩⟩
  · have hu := hfold.untouched item hmem
    refine ⟨hmapped _ (hfold.origin item hmem),fun _ => ⟨hu.element,hu.null,hu.fresh.unread⟩,
      fun hready => ?_⟩
    rw [hu.fresh.waiting] at hready
    cases hready
  · rw [hzero]
    unfold mgetDecimalDigits responseMax responseValueMax
    unfold mgetMaxKeys at hcount
    omega

/-- How an MGET whose keys all resolve can end. The reply is the array of the results, or the size
error if the results obtained so far cannot fit; the size that was accounted is the length of the
array, no size computation leaves its range, and the size check inside the assembly does not fire.
Otherwise, between the first world and the last, the deadline passed, a relation was locked or
something raised. -/
def Assembled (client : MgetClient) (mappings : List (WorkerMapping D)) (wireKeys : List Bytes)
    (keys : List (ResolvedKey D)) (requestLength : ℕ) (w : W) : Prop :=
  let deadline := mgetDeadline cfg client (B.getCurrentTimestamp w).1
  ∃ items slots w1,
    prepareLoop S B mappings wireKeys [] [] (B.getCurrentTimestamp w).2 =
      .ok (.ok (items,slots)) w1 ∧
    ((∃ reply frame,
      mgetServe S B cfg requestLength deadline slots
        ⟨w1,items,startTally slots.length,false⟩ = .ok reply frame ∧
      commandMget S B cfg client mappings wireKeys requestLength w = .ok reply frame.world ∧
      frame.tally.wrapped = false ∧
      ((∃ results, AllObtained S B w keys results ∧ reply = some (arrayReply results) ∧
          (arrayReply results).length ≤ responseMax ∧
          frame.tally.responseSize = (arrayReply results).length ∧
          assemble frame.items slots (arrayHeader slots.length) ≠ .ok none) ∨
        (reply = some limitExceeded ∧ frame.tally.failure = some .limit ∧
          ∃ known, SomeObtained S B w keys known ∧ ∀ results, Completes known results →
            responseMax < (arrayReply results).length) ∨
        Refused B w requestLength deadline reply frame.world)) ∨
      ∃ e w', commandMget S B cfg client mappings wireKeys requestLength w = .error e w' ∧
        Raised B mappings w e w')

theorem mget_reply_assembled (client : MgetClient) (mappings : List (WorkerMapping D))
    (wireKeys : List Bytes) (keys : List (ResolvedKey D)) (requestLength : ℕ) (w : W)
    (hkeys : List.Forall₂ (fun wireKey key => resolveKey S mappings wireKey = .ok key)
      wireKeys keys)
    (hcount : wireKeys.length ≤ mgetMaxKeys) :
    Assembled S B cfg client mappings wireKeys keys requestLength w := by
  have hf := follows_call B w w _ (follows_refl B w) (Call.clock w)
  obtain ⟨prepared,w1,hprepare,hf1,items,slots,rfl,hfold⟩ := ensures_run
    (prepareLoop_folded S B wireKeys keys hkeys [] [] [] (B.getCurrentTimestamp w).2 folded_nil hf)
  rw [List.nil_append] at hfold
  have hmapped : ∀ key ∈ keys, key.mapping ∈ mappings := by
    intro key hkey
    obtain ⟨p,hp,rfl⟩ := List.mem_iff_getElem.mp hkey
    have hlen := hkeys.length_eq
    exact resolveKey_mem S mappings _ _ (hkeys.get (by omega) hp)
  have hlen : slots.length = wireKeys.length := by
    rw [← hfold.placed.length_eq, hkeys.length_eq]
  have hslots : Slotted (items.map ident) slots := by
    intro i k hk
    rw [List.getElem?_map, Option.map_eq_some_iff] at hk
    obtain ⟨item,hget,rfl⟩ := hk
    exact hfold.counted i item hget
  have hstart := start_sound S B hfold hmapped (by omega) hf1
  have hspec : ∀ deadline, _ := fun deadline => @mgetServe_ended W D S B cfg mappings w
    (items.map ident) slots requestLength deadline hslots _ hstart
    (fun item hmem => (hfold.untouched item hmem).fresh) (folded_bound hfold)
  refine ⟨items,slots,w1,hprepare,?_⟩
  have hcommand : commandMget S B cfg client mappings wireKeys requestLength w =
      withFrame items (startTally slots.length) (mgetServe S B cfg requestLength
        (mgetDeadline cfg client (B.getCurrentTimestamp w).1) slots) w1 := by
    simp only [commandMget, MgetCommand.clock, call, bind, EStateM.bind, hprepare]
  rw [hcommand]
  simp only [withFrame]
  cases hserve : mgetServe S B cfg requestLength
    (mgetDeadline cfg client (B.getCurrentTimestamp w).1) slots
    ⟨w1,items,startTally slots.length,false⟩ with
  | error e frame => exact Or.inr ⟨e,_,rfl,ensures_error (hspec _) e frame hserve⟩
  | ok reply frame =>
  refine Or.inl ⟨reply,frame,rfl,rfl,?_⟩
  rcases ensures_ok (hspec _) reply frame hserve with ⟨hsound,hended⟩ | ⟨hexact,hrefused⟩
  · refine ⟨hsound.balanced.exact,?_⟩
    rcases hended with ⟨hfail,rfl⟩ | ⟨hnone,hcomplete,rfl,hassemble⟩
    · obtain ⟨known,hknown,hsize⟩ := some_obtained S B hsound hfold
      refine Or.inr (Or.inl ⟨rfl,hfail,known,hknown,fun results hres =>
        lt_of_lt_of_le ?_ (hsize results hres)⟩)
      rcases hsound.balanced.size with hsize | hsize
      · rw [hfail] at hsize
        cases hsize.1
      · exact hsize.2
    · obtain ⟨results,hresults,hreply⟩ := all_obtained S B hsound hfold hcomplete
      obtain ⟨_,hsize,hmax⟩ := running_size S B hsound (by simp [hasFailed, hnone])
      have hknown : knownSize frame.items slots = (arrayReply results).length := by
        rw [hreply, knownSize, List.length_append, List.length_flatMap,
          List.map_congr_left (fun slot _ => complete_size hcomplete slot)]
      exact Or.inl ⟨results,hresults,by rw [hreply],by omega,by omega,hassemble⟩
  · exact ⟨hexact,Or.inr (Or.inr hrefused)⟩

/-! Two spellings of one key, which is read from the table. -/

def plainField : KeyField Bytes := ⟨[97],⟨.other 25,⟨false,id⟩⟩,-1,.ok⟩

def plainMapping : WorkerMapping Bytes := ⟨⟨[110],7,0,1,0⟩,[115],[114],[plainField],⟨9,-1,1,5⟩⟩

/-- A server that reads the same key out of every object. -/
def plainServer : Server Bytes where
  database := [100]
  databaseIsUtf8 := true
  verifymbstr := fun _ => none
  jsonbIn := fun _ => .ok (.object [([97],.string [55])])
  ints := ⟨fun _ => 0,fun _ => 0,fun _ => 0⟩
  crc32c := List.length

/-- A cache without entries in front of a table with one row. -/
def backendAt {W : Type} (clock : W → ℕ × W) (wait : W → W) : Backend W Bytes where
  getCurrentTimestamp := clock
  waitLatch := wait
  cacheIsEnabled := fun w => (true,w)
  configGeneration := fun w => (0,w)
  cacheLookupQuiet := fun _ _ w => (⟨.miss,blankToken⟩,w)
  cacheInvalidateKey := fun _ _ w => (0,w)
  cacheClaimLoad := fun _ _ _ w => ((.owner,1),w)
  cacheReleaseLoad := fun _ _ _ _ w => w
  cacheStore := fun _ _ _ _ _ _ w => (true,w)
  beginMgetSpi := fun _ _ w => (.ok false,w)
  executeGetPlan := fun _ _ w => (.ok (some ⟨[2],[123,125],3⟩),w)
  commitSpi := fun w => (.ok (),w)
  abortSpi := id
  enqueueDeferredMiss := fun _ _ w => (.queued,w)

def plainBackend : Backend Unit Bytes := backendAt (fun w => (0,w)) id

/-- Time passes with every look at the clock and every wait. -/
def tickingBackend : Backend ℕ Bytes := backendAt (fun w => (w,w+1)) (· + 1000)

def plainSettings : WorkerSettings := ⟨1000,10,2⟩

def spellings : List Bytes :=
  [[67,82,85,68,58,100,46,115,46,114,58,123,125],[67,82,85,68,58,100,46,115,46,114,58,123,32,125]]

def plainReply : Option Bytes :=
  match commandMget plainServer tickingBackend plainSettings ⟨false,0⟩ [plainMapping] spellings 0
    0 with
  | .ok reply _ => reply
  | .error _ _ => none

def spelledKey : ResolvedKey Bytes := ⟨plainMapping,[[55]],[49,58,55,59]⟩

theorem spellings_resolve : List.Forall₂
    (fun wireKey key => resolveKey plainServer [plainMapping] wireKey = .ok key) spellings
    [spelledKey,spelledKey] :=
  List.Forall₂.cons rfl (List.Forall₂.cons rfl List.Forall₂.nil)

theorem two_spellings_assembled :
    plainReply = some (arrayReply [.row [123,125],.row [123,125]]) ∧
    Assembled plainServer tickingBackend plainSettings ⟨false,0⟩ [plainMapping] spellings
      [spelledKey,spelledKey] 0 0 :=
  ⟨by decide +kernel,mget_reply_assembled plainServer tickingBackend plainSettings ⟨false,0⟩
    [plainMapping] spellings [spelledKey,spelledKey] 0 0 spellings_resolve (by decide)⟩

end PgLocalCache.MgetReply
