import PgLocalCache.MgetResults

/-!
# The sweeps of an MGET over its items

`Sound` is what every sweep keeps: each ready item holds a result that was
obtained for its key, the items still belong to the keys they were made for, and
the accounted size is the size of the reply as far as it is known, unless that
size has passed the limit already. `ensures_sweep` is the loop rule; every sweep
below is one use of it with a lemma about a single item.
-/

namespace PgLocalCache.MgetSweeps

open PrefixCode WireKey WorkerBackend MgetCommand MgetResults Outcome RespWriter

variable {W D α : Type} (S : Server D) (B : Backend W D) (cfg : WorkerSettings)

theorem set_self (l : List α) (i : ℕ) (a : α) (h : l[i]? = some a) : l.set i a = l := by
  obtain ⟨hlt,rfl⟩ := List.getElem?_eq_some_iff.mp h
  exact List.set_getElem_self hlt

/-! Rules for the frame. -/

section
variable {s : MgetFrame W D} {Q : α → MgetFrame W D → Prop} {E : PgError → MgetFrame W D → Prop}

@[simp] theorem ensures_onWorld (x : WorldM W α) :
    Ensures (onWorld x) s Q E ↔ Ensures x s.world (fun a w => Q a { s with world := w })
      (fun e w => E e { s with world := w }) := by
  simp only [Ensures, onWorld]
  cases x s.world <;> rfl

theorem onWorld_seq {β : Type} {x : WorldM W α} {f : α → MgetM W D β} {Q' : α → W → Prop}
    {R : β → MgetFrame W D → Prop} (h : Ensures x s.world Q' (fun e w => E e { s with world := w }))
    (hf : ∀ a w, Q' a w → Ensures (f a) { s with world := w } R E) :
    Ensures (onWorld x >>= f) s R E := by
  rw [ensures_bind, ensures_onWorld]
  exact ensures_imp h hf

theorem onWorld_sure {β : Type} {x : WorldM W α} {f : α → MgetM W D β} {Q' : α → W → Prop}
    {R : β → MgetFrame W D → Prop} (h : Ensures x s.world Q' Never)
    (hf : ∀ a w, Q' a w → Ensures (f a) { s with world := w } R E) :
    Ensures (onWorld x >>= f) s R E := onWorld_seq (ensures_mono h (fun _ _ hq => hq)
      (fun _ _ he => he.elim)) hf

@[simp] theorem ensures_setItem (i : ℕ) (item : MgetItem D)
    (R : Unit → MgetFrame W D → Prop) :
    Ensures (setItem i item) s R E ↔ R () { s with items := s.items.set i item } := Iff.rfl

@[simp] theorem ensures_setTally (f : Tally → Tally) (R : Unit → MgetFrame W D → Prop) :
    Ensures (setTally f) s R E ↔ R () { s with tally := f s.tally } := Iff.rfl

theorem ensures_withFrame {w : W} {R : α → W → Prop} {F : PgError → W → Prop}
    (items : List (MgetItem D)) (tally : Tally) (x : MgetM W D α) :
    Ensures (withFrame items tally x) w R F ↔ Ensures x ⟨w,items,tally,false⟩
      (fun a s => R a s.world) (fun e s => F e s.world) := by
  simp only [Ensures, withFrame]
  cases x ⟨w,items,tally,false⟩ <;> rfl

end

section
variable {stop : MgetFrame W D → Bool} {f : ℕ → MgetItem D → MgetM W D Unit}
  {E : PgError → MgetFrame W D → Prop} {Inv : MgetFrame W D → Prop} {Todo Done : MgetItem D → Prop}

/-- The effect of one turn of a sweep on the item it visits. -/
def Turned (stop : MgetFrame W D → Bool) (Inv : MgetFrame W D → Prop) (Done : MgetItem D → Prop)
    (s : MgetFrame W D) (i : ℕ) (s' : MgetFrame W D) : Prop :=
  Inv s' ∧ ∃ item', s'.items = s.items.set i item' ∧ (stop s' = false → Done item')

/-- What a sweep over `is` has done by its end. -/
structure Swept (stop : MgetFrame W D → Bool) (Inv : MgetFrame W D → Prop)
    (Done : MgetItem D → Prop) (s : MgetFrame W D) (is : List ℕ) (s' : MgetFrame W D) : Prop where
  inv : Inv s'
  length : s'.items.length = s.items.length
  done : stop s' = false → ∀ i ∈ is, ∀ item, s'.items[i]? = some item → Done item
  kept : ∀ j, j ∉ is → s'.items[j]? = s.items[j]?
  halted : stop s = true → s' = s

theorem ensures_sweep
    (hstep : ∀ s i item, Inv s → stop s = false → s.items[i]? = some item → Todo item →
      Ensures (f i item) s (fun _ s' => Turned stop Inv Done s i s') E)
    (is : List ℕ) (hnodup : is.Nodup) (s : MgetFrame W D) (hinv : Inv s)
    (htodo : ∀ i ∈ is, ∀ item, s.items[i]? = some item → Todo item) :
    Ensures (sweep stop f is) s (fun _ s' => Swept stop Inv Done s is s') E := by
  induction is generalizing s with
  | nil => exact ⟨hinv,rfl,by simp,fun _ _ => rfl,fun _ => rfl⟩
  | cons i is ih =>
    obtain ⟨hi,hnodup⟩ := List.nodup_cons.mp hnodup
    simp only [sweep, ensures_bind, ensures_get]
    by_cases hstop : stop s = true
    · rw [if_pos hstop]
      exact ⟨hinv,rfl,fun h => absurd hstop (by simp [h]),fun _ _ => rfl,fun _ => rfl⟩
    · rw [if_neg hstop]
      have hrun : stop s = false := by simpa using hstop
      cases hitem : s.items[i]? with
      | none =>
        apply ensures_imp (ih hnodup s hinv (fun j hj => htodo j (by simp [hj])))
        intro _ s' hs
        refine ⟨hs.inv,hs.length,fun h j hj item hget => ?_,fun j hj => hs.kept j (by simp_all),
          hs.halted⟩
        rcases List.mem_cons.mp hj with rfl | hj
        · rw [hs.kept j hi, hitem] at hget
          cases hget
        · exact hs.done h j hj item hget
      | some item =>
        apply ensures_seq (hstep s i item hinv hrun hitem (htodo i (by simp) item hitem))
        intro _ s1 hturn
        obtain ⟨hinv1,item',hset,hdone⟩ := hturn
        have hother : ∀ j, j ≠ i → s1.items[j]? = s.items[j]? := by
          intro j hj
          rw [hset, List.getElem?_set_ne (Ne.symm hj)]
        have hlt : i < s.items.length := (List.getElem?_eq_some_iff.mp hitem).1
        apply ensures_imp (ih hnodup s1 hinv1 ?_)
        · intro _ s' hs
          refine ⟨hs.inv,by rw [hs.length, hset, List.length_set],fun h j hj it hget => ?_,
            fun j hj => ?_,fun h => absurd h hstop⟩
          · rcases List.mem_cons.mp hj with rfl | hj
            · rw [hs.kept j hi, hset, List.getElem?_set_self hlt] at hget
              cases hget
              apply hdone
              -- Had `stop` held after this turn, the rest of the sweep would have left it so.
              by_contra hne
              rw [Bool.not_eq_false] at hne
              rw [hs.halted hne, hne] at h
              cases h
            · exact hs.done h j hj it hget
          · rw [List.mem_cons, not_or] at hj
            rw [hs.kept j hj.2, hother j hj.1]
        · intro j hj it hget
          rw [hother j (by rintro rfl; exact hi hj)] at hget
          exact htodo j (by simp [hj]) it hget

theorem ensures_overItems (Inv : MgetFrame W D → Prop) (Todo Done : MgetItem D → Prop)
    (hstep : ∀ s i item, Inv s → stop s = false → s.items[i]? = some item → Todo item →
      Ensures (f i item) s (fun _ s' => Turned stop Inv Done s i s') E)
    (s : MgetFrame W D) (hinv : Inv s) (htodo : ∀ item ∈ s.items, Todo item) :
    Ensures (overItems stop f) s
      (fun _ s' => Inv s' ∧ (stop s' = false → ∀ item ∈ s'.items, Done item)) E := by
  simp only [overItems, ensures_bind, ensures_get]
  apply ensures_imp (ensures_sweep hstep _ List.nodup_range s hinv
    (fun i _ item hget => htodo item (List.mem_of_getElem? hget)))
  intro _ s' hs
  refine ⟨hs.inv,fun hrun item hmem => ?_⟩
  obtain ⟨i,hi,hget⟩ := List.mem_iff_getElem.mp hmem
  apply hs.done hrun i (List.mem_range.mpr (by rw [← hs.length]; exact hi))
  rw [List.getElem?_eq_getElem hi, hget]

end

/-! Sizes. -/

theorem digitsLoop_eq (fuel value digits : ℕ) (h : value ≤ fuel) :
    digitsLoop fuel value digits+1 = digits+(decimal value).length := by
  induction fuel generalizing value digits with
  | zero =>
    have hv : value = 0 := by omega
    subst hv
    simp [digitsLoop, decimal_small 0 (by omega)]
  | succ fuel ih =>
    rw [digitsLoop]
    split
    · rename_i hbig
      rw [ih _ _ (by omega), decimal_digits value, if_neg (by omega), List.length_append]
      simp
      omega
    · rename_i hsmall
      rw [decimal_small value (by omega)]
      rfl

theorem digitsLoop_le (fuel value digits : ℕ) : digitsLoop fuel value digits ≤ digits+fuel := by
  induction fuel generalizing value digits with
  | zero => simp [digitsLoop]
  | succ fuel ih =>
    rw [digitsLoop]
    split
    · have := ih (value/10) (digits+1)
      omega
    · omega

theorem mgetDecimalDigits_eq (value : ℕ) : mgetDecimalDigits value = (decimal value).length := by
  have := digitsLoop_eq value value 1 (le_refl _)
  unfold mgetDecimalDigits
  omega

theorem encode_length_pos (r : RowResult) : 0 < r.encode.length := by
  cases r with
  | null => decide
  | row json =>
    simp only [RowResult.encode, respBulk_length]
    omega

/-- The size of a result that a ready item stands for. -/
def resultSize (item : MgetItem D) : ℕ := if item.resultReady then elementLength item else 0

def sizeAt (items : List (MgetItem D)) (slot : ℕ) : ℕ := (items[slot]?.map resultSize).getD 0

/-- The length of the reply with every missing result left out. -/
def knownSize (items : List (MgetItem D)) (slots : List ℕ) : ℕ :=
  (arrayHeader slots.length).length+(slots.map (sizeAt items)).sum

theorem sizeAt_set (items : List (MgetItem D)) (i slot : ℕ) (item : MgetItem D)
    (hi : i < items.length) :
    sizeAt (items.set i item) slot = if slot = i then resultSize item else sizeAt items slot := by
  unfold sizeAt
  by_cases h : slot = i
  · subst h
    simp [List.getElem?_set_self hi]
  · rw [List.getElem?_set_ne (Ne.symm h), if_neg h]

theorem sum_set (items : List (MgetItem D)) (i : ℕ) (item : MgetItem D) (slots : List ℕ)
    (hi : i < items.length) (h0 : sizeAt items i = 0) :
    (slots.map (sizeAt (items.set i item))).sum =
      (slots.map (sizeAt items)).sum+resultSize item*slots.count i := by
  induction slots with
  | nil => simp
  | cons slot slots ih =>
    simp only [List.map_cons, List.sum_cons, List.count_cons, ih, sizeAt_set items i slot item hi]
    by_cases h : slot = i
    · subst h
      simp [h0, Nat.mul_add]
      omega
    · simp [h]
      omega

theorem knownSize_set (items : List (MgetItem D)) (i : ℕ) (item : MgetItem D) (slots : List ℕ)
    (hi : i < items.length) (h0 : sizeAt items i = 0) :
    knownSize (items.set i item) slots =
      knownSize items slots+resultSize item*slots.count i := by
  unfold knownSize
  rw [sum_set items i item slots hi h0]
  omega

theorem knownSize_congr (items items' : List (MgetItem D)) (slots : List ℕ)
    (h : ∀ slot, sizeAt items' slot = sizeAt items slot) :
    knownSize items' slots = knownSize items slots := by
  unfold knownSize
  rw [List.map_congr_left (fun slot _ => h slot)]

/-! What the items hold. -/

/-- The row read for an item, kept in its fields until the element is built. -/
def KeepsRow (item : MgetItem D) : RowResult → Prop
  | .null => item.nullResult = true
  | .row json => item.nullResult = false ∧ item.json = json

def Holds (item : MgetItem D) (r : RowResult) : Prop :=
  if item.databaseRead then
    (item.responseElement = none ∨ item.responseElement = some r.encode) ∧ KeepsRow item r
  else item.responseElement = some r.encode

theorem elementLength_holds (item : MgetItem D) (r : RowResult) (h : Holds item r) :
    elementLength item = r.encode.length := by
  unfold Holds at h
  split at h
  · obtain ⟨helement,hrow⟩ := h
    rcases helement with helement | helement
    · simp only [elementLength, helement]
      cases r with
      | null =>
        have hnull : item.nullResult = true := hrow
        rw [if_pos hnull]
        rfl
      | row json =>
        rw [if_neg (by simp [hrow.1]), mgetDecimalDigits_eq, hrow.2, RowResult.encode,
          respBulk_length]
    · simp [elementLength, helement]
  · simp [elementLength, h]

structure Identity (D : Type) where
  mapping : WorkerMapping D
  canonical : Bytes
  keyValues : List D
  responseSlots : ℕ

def ident (item : MgetItem D) : Identity D :=
  ⟨item.mapping,item.canonical,item.keyValues,item.responseSlots⟩

section
variable (ms : List (WorkerMapping D)) (w0 : W) (idents : List (Identity D))
  (slots : List ℕ)

structure ItemSound (item : MgetItem D) : Prop where
  mapped : item.mapping ∈ ms
  pending : item.resultReady = false →
    item.responseElement = none ∧ item.nullResult = false ∧ item.databaseRead = false
  ready : item.resultReady = true →
    ∃ r, Answered S B w0 item.mapping item.canonical item.keyValues r ∧ Holds item r

/-- The accounted size is the known part of the reply, or that part is too long already. -/
structure Balanced (s : MgetFrame W D) : Prop where
  exact : s.tally.wrapped = false
  free : s.tally.relationBlocked = false
  size : (s.tally.failure = none ∧ s.tally.responseSize = knownSize s.items slots ∧
      knownSize s.items slots ≤ responseMax) ∨
    (s.tally.failure = some .limit ∧ responseMax < knownSize s.items slots)

structure Sound (s : MgetFrame W D) : Prop where
  follows : Follows B w0 s.world
  idents : s.items.map ident = idents
  items : ∀ item ∈ s.items, ItemSound S B ms w0 item
  balanced : Balanced slots s

/-- Every item is asked for by as many slots as it counts. -/
def Slotted : Prop := ∀ (i : ℕ) (k : Identity D), idents[i]? = some k →
  k.responseSlots = slots.count i ∧ 0 < slots.count i

end

section
variable {ms : List (WorkerMapping D)} {w0 : W} {idents : List (Identity D)}
  {slots : List ℕ} {deadline : ℕ} {s : MgetFrame W D} {i : ℕ} {item item' : MgetItem D}

theorem running_size (h : Sound S B ms w0 idents slots s) (hrun : hasFailed s = false) :
    s.tally.failure = none ∧ s.tally.responseSize = knownSize s.items slots ∧
      knownSize s.items slots ≤ responseMax := by
  have hnone : s.tally.failure = none := by simpa [hasFailed] using hrun
  rcases h.balanced.size with hsize | hsize
  · exact hsize
  · rw [hnone] at hsize
    cases hsize.1

theorem idents_set (hid : s.items.map ident = idents) (hget : s.items[i]? = some item)
    (hsame : ident item' = ident item) : (s.items.set i item').map ident = idents := by
  rw [List.map_set, hsame, ← hid]
  apply set_self
  rw [List.getElem?_map, hget]
  rfl

theorem items_set (hitems : ∀ item ∈ s.items, ItemSound S B ms w0 item)
    (hitem' : ItemSound S B ms w0 item') :
    ∀ item ∈ s.items.set i item', ItemSound S B ms w0 item := by
  intro it hit
  rcases List.mem_or_eq_of_mem_set hit with h | rfl
  · exact hitems it h
  · exact hitem'

theorem sizeAt_get (hget : s.items[i]? = some item) : sizeAt s.items i = resultSize item := by
  simp [sizeAt, hget]

theorem sound_keep (h : Sound S B ms w0 idents slots s) (w : W) (hf : Follows B w0 w)
    (hget : s.items[i]? = some item) (hsame : ident item' = ident item)
    (hitem' : ItemSound S B ms w0 item') (hsize : resultSize item' = resultSize item) :
    Sound S B ms w0 idents slots { s with world := w, items := s.items.set i item' } := by
  have hlt : i < s.items.length := (List.getElem?_eq_some_iff.mp hget).1
  have hknown : knownSize (s.items.set i item') slots = knownSize s.items slots := by
    apply knownSize_congr
    intro slot
    rw [sizeAt_set _ _ _ _ hlt]
    split
    · rename_i heq
      rw [heq, sizeAt_get hget, hsize]
    · rfl
  refine ⟨hf,idents_set h.idents hget hsame,items_set S B h.items hitem',?_⟩
  refine ⟨h.balanced.exact,h.balanced.free,?_⟩
  simp only [hknown]
  exact h.balanced.size

theorem sound_account (h : Sound S B ms w0 idents slots s) (hslots : Slotted idents slots)
    (hrun : hasFailed s = false) (w : W) (hf : Follows B w0 w)
    (hget : s.items[i]? = some item) (hpending : item.resultReady = false)
    (hsame : ident item' = ident item) (hitem' : ItemSound S B ms w0 item')
    (hready : item'.resultReady = true) :
    Sound S B ms w0 idents slots
      { s with
        world := w
        items := s.items.set i item'
        tally := mgetAccountResult item' s.tally } := by
  have hlt : i < s.items.length := (List.getElem?_eq_some_iff.mp hget).1
  obtain ⟨hnone,hsize,hmax⟩ := running_size S B h hrun
  obtain ⟨r,hr,hholds⟩ := hitem'.ready hready
  have hlen := elementLength_holds item' r hholds
  have hpos := encode_length_pos r
  have hshort : elementLength item' < sizeBound := by
    rw [hlen]
    cases r with
    | null => decide
    | row json =>
      have hj := answered_length S B _ _ _ _ json hr
      have hd : (decimal json.length).length ≤ json.length+1 := by
        rw [← mgetDecimalDigits_eq]
        have := digitsLoop_le json.length json.length 1
        unfold mgetDecimalDigits
        omega
      simp only [RowResult.encode, respBulk_length]
      unfold responseValueMax at hj
      unfold sizeBound
      omega
  have hcount : item'.responseSlots = slots.count i ∧ 0 < slots.count i := by
    have hid : idents[i]? = some (ident item') := by
      rw [← h.idents, List.getElem?_map, hget, hsame]
      rfl
    exact hslots i _ hid
  have hknown : knownSize (s.items.set i item') slots =
      knownSize s.items slots+elementLength item'*item'.responseSlots := by
    rw [knownSize_set _ _ _ _ hlt (by rw [sizeAt_get hget, resultSize, hpending]; rfl), hcount.1,
      resultSize, if_pos hready]
  -- The division of the check turns into the exact bound on the new size.
  have hdiv : (responseMax-s.tally.responseSize)/elementLength item' < item'.responseSlots ↔
      responseMax-s.tally.responseSize < elementLength item'*item'.responseSlots := by
    rw [Nat.div_lt_iff_lt_mul (by omega), Nat.mul_comm]
  have hle : elementLength item' ≤ elementLength item'*item'.responseSlots :=
    Nat.le_mul_of_pos_right _ (by omega)
  have hwraps : accountWraps item' s.tally.responseSize = false := by
    simp only [accountWraps, decide_eq_false_iff_not, not_or, not_and, not_le]
    refine ⟨hshort,by omega,fun hfit => ?_⟩
    have : ¬(responseMax-s.tally.responseSize < elementLength item'*item'.responseSlots) :=
      fun hlt => absurd (hdiv.mpr hlt) (by omega)
    unfold responseMax responseValueMax at *
    unfold sizeBound
    omega
  refine ⟨hf,idents_set h.idents hget hsame,items_set S B h.items hitem',?_⟩
  unfold mgetAccountResult
  simp only [hwraps, Bool.or_false]
  by_cases hover : responseMax < elementLength item' ∨
      (responseMax-s.tally.responseSize)/elementLength item' < item'.responseSlots
  · rw [if_pos hover]
    refine ⟨h.balanced.exact,h.balanced.free,Or.inr ⟨rfl,?_⟩⟩
    rw [hknown]
    rcases hover with hover | hover
    · omega
    · have := hdiv.mp hover
      omega
  · rw [if_neg hover, hdiv] at *
    refine ⟨h.balanced.exact,h.balanced.free,Or.inl ⟨hnone,?_,?_⟩⟩
    · rw [hknown, hsize]
    · rw [hknown]
      omega

end

end PgLocalCache.MgetSweeps
