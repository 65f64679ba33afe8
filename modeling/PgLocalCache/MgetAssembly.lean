import PgLocalCache.MgetSweeps

/-!
# The reply of an MGET

Each of the five sweeps is shown to keep `Sound` and to move its items one stage
on: looked up, claimed, read, stored, waited for. At the end either every item is
ready and the accounted size is the length of the reply, or the results obtained
so far do not fit whatever the missing ones are, or the deadline or a locked
relation stopped the command.
-/

namespace PgLocalCache.MgetAssembly

open WireKey WorkerBackend MgetCommand MgetResults MgetSweeps Outcome RespWriter

variable {W D : Type} (S : Server D) (B : Backend W D) (cfg : WorkerSettings)
  {ms : List (WorkerMapping D)} {w0 : W} {idents : List (Identity D)}
  {slots : List ℕ} {deadline : ℕ} {E : PgError → W → Prop} {F : PgError → MgetFrame W D → Prop}
  {s s' : MgetFrame W D}

/-! The stages of an item. -/

structure Fresh (item : MgetItem D) : Prop where
  waiting : item.resultReady = false
  immediate : item.deferred = false
  unread : item.databaseRead = false

structure Probed (item : MgetItem D) : Prop where
  immediate : item.deferred = false
  unread : item.databaseRead = false

structure Claimed (item : MgetItem D) : Prop where
  deferred : item.deferred = true → item.resultReady = false
  unread : item.databaseRead = false

structure Fetched (item : MgetItem D) : Prop where
  deferred : item.deferred = true → item.resultReady = false
  fetched : item.resultReady = true ∨ item.deferred = true

structure Prepared (item : MgetItem D) : Prop where
  deferred : item.deferred = true → item.resultReady = false
  fetched : item.resultReady = true ∨ item.deferred = true
  element : item.resultReady = true → item.responseElement.isSome = true

structure Complete (item : MgetItem D) : Prop where
  ready : item.resultReady = true
  element : item.responseElement.isSome = true

/-- An item that differs in what the result does not depend on. -/
structure Alike (item item' : MgetItem D) : Prop where
  same : ident item' = ident item
  ready : item'.resultReady = item.resultReady
  element : item'.responseElement = item.responseElement
  null : item'.nullResult = item.nullResult
  json : item'.json = item.json
  unread : item'.databaseRead = item.databaseRead

theorem Alike.refl (item : MgetItem D) : Alike item item := ⟨rfl,rfl,rfl,rfl,rfl,rfl⟩

theorem Alike.trans {a b c : MgetItem D} (h : Alike a b) (h' : Alike b c) : Alike a c :=
  ⟨h'.same.trans h.same,h'.ready.trans h.ready,h'.element.trans h.element,
    h'.null.trans h.null,h'.json.trans h.json,h'.unread.trans h.unread⟩

theorem alike_sound {item item' : MgetItem D} (h : Alike item item')
    (hitem : ItemSound S B ms w0 item) : ItemSound S B ms w0 item' := by
  obtain ⟨hmap,hcan,hval,_⟩ := (Identity.mk.injEq _ _ _ _ _ _ _ _).mp h.same
  refine ⟨by rw [hmap]; exact hitem.mapped,fun hp => ?_,fun hr => ?_⟩
  · rw [h.element, h.null, h.unread]
    exact hitem.pending (h.ready ▸ hp)
  · obtain ⟨r,ha,hh⟩ := hitem.ready (h.ready ▸ hr)
    refine ⟨r,by rw [hmap, hcan, hval]; exact ha,?_⟩
    cases r with
    | null => simpa [Holds, KeepsRow, h.element, h.null, h.unread] using hh
    | row json => simpa [Holds, KeepsRow, h.element, h.null, h.unread, h.json] using hh

theorem alike_turn {i : ℕ} {item item' : MgetItem D} (h : Sound S B ms w0 idents slots s)
    (hget : s.items[i]? = some item) (w : W) (hf : Follows B w0 w) (ha : Alike item item') :
    Sound S B ms w0 idents slots { s with world := w, items := s.items.set i item' } := by
  apply sound_keep S B h w hf hget ha.same
    (alike_sound S B ha (h.items item (List.mem_of_getElem? hget)))
  unfold resultSize elementLength
  rw [ha.ready, ha.element, ha.null, ha.json]

theorem unchanged_turn {stop : MgetFrame W D → Bool} {Inv : MgetFrame W D → Prop}
    {Done : MgetItem D → Prop} {i : ℕ} {item : MgetItem D} (w : W)
    (hinv : Inv { s with world := w }) (hget : s.items[i]? = some item) (hdone : Done item) :
    Turned stop Inv Done s i { s with world := w } := by
  refine ⟨hinv,item,?_,fun _ => hdone⟩
  exact (set_self _ _ _ hget).symm

theorem alike_world (h : Sound S B ms w0 idents slots s) (w : W)
    (hf : Follows B w0 w) : Sound S B ms w0 idents slots { s with world := w } :=
  ⟨hf,h.idents,h.items,⟨h.balanced.exact,h.balanced.free,h.balanced.size⟩⟩

theorem turned_set {stop : MgetFrame W D → Bool} {Inv : MgetFrame W D → Prop}
    {Done : MgetItem D → Prop} {i : ℕ} {item : MgetItem D} (w : W)
    (h : Turned stop Inv Done { s with world := w, items := s.items.set i item } i s') :
    Turned stop Inv Done s i s' := by
  obtain ⟨hinv,item',hset,hdone⟩ := h
  exact ⟨hinv,item',by rw [hset, List.set_set],hdone⟩

/-! Ways to stop early. -/

structure Overdue (w0 : W) (deadline : ℕ) (s : MgetFrame W D) : Prop where
  exact : s.tally.wrapped = false
  free : s.tally.relationBlocked = false
  failed : ∃ f, s.tally.failure = some f ∧ failureReply f = deadlineExceeded
  late : Late B w0 deadline s.world

structure Blocked (w0 : W) (s : MgetFrame W D) : Prop where
  exact : s.tally.wrapped = false
  blocked : s.tally.relationBlocked = true
  locked : Locked B w0 s.world

section
variable (ms w0 idents slots deadline)

def Going (s : MgetFrame W D) : Prop :=
  Sound S B ms w0 idents slots s ∨ Overdue B w0 deadline s

def Kept (s : MgetFrame W D) : Prop :=
  Going S B ms w0 idents slots deadline s ∨ Blocked B w0 s

end

theorem going_running (h : Going S B ms w0 idents slots deadline s)
    (hrun : hasFailed s = false) : Sound S B ms w0 idents slots s := by
  rcases h with h | h
  · exact h
  · obtain ⟨f,hf,_⟩ := h.failed
    simp [hasFailed, hf] at hrun

theorem going_follows (h : Going S B ms w0 idents slots deadline s) :
    Follows B w0 s.world := h.elim Sound.follows (fun h => met_follows B h.late)

theorem going_world (h : Going S B ms w0 idents slots deadline s) {w : W} (hw : Follows B s.world w)
    (inTransaction : Bool) :
    Going S B ms w0 idents slots deadline
      { s with world := w, inTransaction := inTransaction } :=
  h.imp (fun h => ⟨h.follows.trans hw,h.idents,h.items,h.balanced.exact,h.balanced.free,
    h.balanced.size⟩) (fun h => ⟨h.exact,h.free,h.failed,met_trans B h.late hw⟩)

theorem kept_running (h : Kept S B ms w0 idents slots deadline s)
    (hrun : isStopped s = false) : Sound S B ms w0 idents slots s := by
  obtain ⟨hfail,hfree⟩ := Bool.or_eq_false_iff.mp hrun
  rcases h with h | h
  · exact going_running S B h hfail
  · exact absurd h.blocked (by simp [hfree])

theorem sound_overdue (h : Sound S B ms w0 idents slots s) {w : W} (hlate : Late B w0 deadline w)
    (items : List (MgetItem D)) (f : MgetFailure) (hf : failureReply f = deadlineExceeded) :
    Overdue B w0 deadline
      { s with world := w, items := items, tally := { s.tally with failure := some f } } :=
  ⟨h.balanced.exact,h.balanced.free,⟨f,rfl,hf⟩,hlate⟩

theorem stopped_turn {stop : MgetFrame W D → Bool} {Inv : MgetFrame W D → Prop}
    {Done : MgetItem D → Prop} {i : ℕ} {item : MgetItem D} (hinv : Inv s')
    (hitems : s'.items = s.items.set i item) (hstop : stop s' = true) :
    Turned stop Inv Done s i s' :=
  ⟨hinv,item,hitems,fun h => absurd hstop (by simp [h])⟩

/-! Lookups. -/

/-- What a quiet lookup makes of an item. -/
structure Looked (w0 : W) (item : MgetItem D) (found : Bool × MgetItem D) : Prop where
  same : ident found.2 = ident item
  deferred : found.2.deferred = item.deferred
  unread : found.2.databaseRead = item.databaseRead
  missed : found.1 = false → ∃ token, found.2 = { item with token := token }
  hit : found.1 = true → found.2.resultReady = true ∧
    ∃ r : RowResult, Answered S B w0 item.mapping item.canonical item.keyValues r ∧
      found.2.responseElement = some r.encode

theorem mgetQuietLookup_follows (w : W) (hf : Follows B w0 w) (item : MgetItem D) :
    Ensures (mgetQuietLookup S B item) w
      (fun found w' => Follows B w0 w' ∧ Looked S B w0 item found) E := by
  simp only [mgetQuietLookup, ensures_bind, ensures_call]
  have h1 := follows_call B w0 w _ hf (Call.lookup w item.mapping item.canonical)
  cases hr : (B.cacheLookupQuiet item.mapping item.canonical w).1.result with
  | miss => exact ⟨h1,rfl,rfl,rfl,fun _ => ⟨_,rfl⟩,(fun h => by cases h)⟩
  | negative =>
    exact ⟨h1,rfl,rfl,rfl,(fun h => by cases h),
      fun _ => ⟨rfl,.null,Answered.negative w hf hr,rfl⟩⟩
  | value bytes =>
    simp only
    cases hj : cachedRowJson S item.mapping bytes with
    | some json =>
      exact ⟨h1,rfl,rfl,rfl,(fun h => by cases h),
        fun _ => ⟨rfl,.row json,Answered.cached w bytes json hf hr hj,rfl⟩⟩
    | none =>
      simp only [ensures_bind, ensures_call]
      have h2 := follows_call B w0 _ _ h1 (Call.invalidate _ item.mapping item.canonical)
      exact ⟨follows_call B w0 _ _ h2 (Call.lookup _ item.mapping item.canonical),rfl,rfl,rfl,
        fun _ => ⟨_,rfl⟩,(fun h => by cases h)⟩

theorem looked_sound {item : MgetItem D} {found : Bool × MgetItem D}
    (h : Looked S B w0 item found) (hitem : ItemSound S B ms w0 item)
    (hwait : item.resultReady = false) : ItemSound S B ms w0 found.2 := by
  obtain ⟨hmap,hcan,hval,_⟩ := (Identity.mk.injEq _ _ _ _ _ _ _ _).mp h.same
  cases hb : found.1 with
  | false =>
    obtain ⟨token,htoken⟩ := h.missed hb
    rw [htoken]
    exact ⟨hitem.mapped,hitem.pending,hitem.ready⟩
  | true =>
    obtain ⟨hready,r,hr,helement⟩ := h.hit hb
    refine ⟨by rw [hmap]; exact hitem.mapped,fun hp => ?_,fun _ => ⟨r,?_,?_⟩⟩
    · rw [hready] at hp
      cases hp
    · rw [hmap, hcan, hval]
      exact hr
    · unfold Holds
      rw [h.unread, (hitem.pending hwait).2.2]
      exact helement

theorem looked_alike {item : MgetItem D} {found : Bool × MgetItem D}
    (h : Looked S B w0 item found) (hmiss : found.1 = false) : Alike item found.2 := by
  obtain ⟨token,htoken⟩ := h.missed hmiss
  rw [htoken]
  exact ⟨rfl,rfl,rfl,rfl,rfl,rfl⟩

theorem looked_turn {i : ℕ} {item0 item : MgetItem D} {found : Bool × MgetItem D}
    (hslots : Slotted idents slots) (h : Sound S B ms w0 idents slots s)
    (hrun : hasFailed s = false) (hget : s.items[i]? = some item0) (ha : Alike item0 item)
    (hwait : item.resultReady = false)
    (w : W) (hf : Follows B w0 w) (hl : Looked S B w0 item found) (hhit : found.1 = true) :
    Sound S B ms w0 idents slots { s with
      world := w
      items := s.items.set i found.2
      tally := mgetAccountResult found.2 s.tally } := by
  have hitem := alike_sound S B ha (h.items item0 (List.mem_of_getElem? hget))
  exact sound_account S B h hslots hrun w hf hget (ha.ready ▸ hwait) (hl.same.trans ha.same)
    (looked_sound S B hl hitem hwait) (hl.hit hhit).1

theorem lookupItem_turn (hslots : Slotted idents slots) (s : MgetFrame W D) (i : ℕ)
    (item : MgetItem D) (h : Sound S B ms w0 idents slots s) (hrun : hasFailed s = false)
    (hget : s.items[i]? = some item) (hfresh : Fresh item) :
    Ensures (lookupItem S B i item) s (fun _ s' =>
      Turned hasFailed (Sound S B ms w0 idents slots) Probed s i s') F := by
  unfold lookupItem
  split
  · apply onWorld_seq (mgetQuietLookup_follows S B s.world h.follows item)
    intro found w ⟨hf,hl⟩
    have hprobed : Probed found.2 :=
      ⟨hl.deferred.trans hfresh.immediate,hl.unread.trans hfresh.unread⟩
    rw [ensures_bind, ensures_setItem]
    cases hb : found.1 with
    | true => exact ⟨looked_turn S B hslots h hrun hget (.refl item) hfresh.waiting
        w hf hl hb,_,rfl,
        fun _ => hprobed⟩
    | false => exact ⟨alike_turn S B h hget w hf (looked_alike S B hl hb),_,rfl,fun _ => hprobed⟩
  · exact unchanged_turn s.world h hget ⟨hfresh.immediate,hfresh.unread⟩

/-! Claims. -/

theorem retryExpired_follows (w : W) (hf : Follows B w0 w) (started left : ℕ) :
    Ensures (retryExpired B cfg started left) w (fun _ w' => Follows B w0 w') E := by
  unfold retryExpired
  split
  · exact waitExceeded_follows B cfg started hf
  · exact hf

theorem claimLoop_turn (hslots : Slotted idents slots) (started i left : ℕ) (s : MgetFrame W D)
    (item : MgetItem D) (h : Sound S B ms w0 idents slots s) (hrun : hasFailed s = false)
    (hget : s.items[i]? = some item) (hwait : item.resultReady = false) (hprobed : Probed item) :
    Ensures (claimLoop S B cfg deadline started i left item) s (fun _ s' =>
      Turned hasFailed (Going S B ms w0 idents slots deadline) Claimed s i s') F := by
  induction left generalizing s item with
  | zero =>
    exact unchanged_turn s.world (Or.inl h) hget ⟨by simp [hprobed.immediate],hprobed.unread⟩
  | succ left ih =>
    have hlt : i < s.items.length := (List.getElem?_eq_some_iff.mp hget).1
    unfold claimLoop
    apply onWorld_seq (deadlinePassed_follows B h.follows)
    rintro late w1 ⟨h1,hlate⟩
    by_cases hl : late = true
    · rw [if_pos hl]
      exact stopped_turn (Or.inr (sound_overdue S B h (hlate hl) s.items .deadline rfl))
        (set_self _ _ _ hget).symm rfl
    rw [if_neg hl]
    apply onWorld_seq (retryExpired_follows B cfg w1 h1 started (left+1))
    intro slow w2 h2
    cases slow with
    | true =>
      apply unchanged_turn w2 ?_ hget ⟨by simp [hprobed.immediate],hprobed.unread⟩
      exact Or.inl (alike_world S B h w2 h2)
    | false =>
      simp only [Bool.false_eq_true, if_false, ensures_bind, ensures_onWorld, ensures_call]
      generalize hclaim : B.cacheClaimLoad item.mapping item.canonical item.token w2 = claim
      have h3 : Follows B w0 claim.2 := by
        rw [← hclaim]
        exact follows_call B w0 w2 _ h2 (Call.claim w2 item.mapping item.canonical item.token)
      cases claim.1.1 with
      | owner =>
        exact ⟨Or.inl (alike_turn S B h hget claim.2 h3 ⟨rfl,rfl,rfl,rfl,rfl,rfl⟩),_,rfl,
          fun _ => ⟨fun _ => hwait,hprobed.unread⟩⟩
      | bypass =>
        exact ⟨Or.inl (alike_turn S B h hget claim.2 h3 ⟨rfl,rfl,rfl,rfl,rfl,rfl⟩),_,rfl,
          fun _ => ⟨fun _ => hwait,hprobed.unread⟩⟩
      | wait =>
        exact ⟨Or.inl (alike_turn S B h hget claim.2 h3 ⟨rfl,rfl,rfl,rfl,rfl,rfl⟩),_,rfl,
          fun _ => ⟨fun _ => hwait,hprobed.unread⟩⟩
      | retry =>
        simp only
        split
        · exact ⟨Or.inl (alike_turn S B h hget claim.2 h3 ⟨rfl,rfl,rfl,rfl,rfl,rfl⟩),_,rfl,
            fun _ => ⟨fun _ => hwait,hprobed.unread⟩⟩
        · apply onWorld_seq (mgetQuietLookup_follows S B claim.2 h3 _)
          rintro found w4 ⟨h4,hl⟩
          have ha : Alike item { item with loadId := claim.1.2 } := ⟨rfl,rfl,rfl,rfl,rfl,rfl⟩
          rw [ensures_bind, ensures_setItem]
          cases hb : found.1 with
          | true =>
            refine ⟨Or.inl (looked_turn S B hslots h hrun hget ha hwait w4 h4 hl hb),_,rfl,
              fun _ => ?_⟩
            exact ⟨fun hd => by simp [hl.deferred, hprobed.immediate] at hd,
              hl.unread.trans hprobed.unread⟩
          | false =>
            have hmiss := ha.trans (looked_alike S B hl hb)
            apply ensures_imp (ih _ found.2 (alike_turn S B h hget w4 h4 hmiss) hrun
              (List.getElem?_set_self hlt) (hmiss.ready.trans hwait)
              ⟨hl.deferred.trans hprobed.immediate,hl.unread.trans hprobed.unread⟩)
            intro _ s' hturn
            exact turned_set w4 hturn

theorem claimItem_turn (hslots : Slotted idents slots) (s : MgetFrame W D) (i : ℕ)
    (item : MgetItem D) (h : Sound S B ms w0 idents slots s) (hrun : hasFailed s = false)
    (hget : s.items[i]? = some item) (hprobed : Probed item) :
    Ensures (claimItem S B cfg deadline i item) s (fun _ s' =>
      Turned hasFailed (Going S B ms w0 idents slots deadline) Claimed s i s') F := by
  unfold claimItem
  apply onWorld_seq (clock_follows B h.follows)
  intro started w hf
  split
  · exact unchanged_turn w (Or.inl (alike_world S B h w hf)) hget
      ⟨by simp [hprobed.immediate],hprobed.unread⟩
  · rename_i hskip
    have hwait : item.resultReady = false := by
      by_contra hne
      exact hskip (by simp [hne])
    exact claimLoop_turn S B cfg hslots started i maxLoadRetries _ item
      (alike_world S B h w hf) hrun hget hwait hprobed

/-! Reads. -/

structure ReadInto (w0 : W) (item item' : MgetItem D) : Prop where
  same : ident item' = ident item
  deferred : item'.deferred = item.deferred
  ready : item'.resultReady = true
  held : ∃ r, Answered S B w0 item.mapping item.canonical item.keyValues r ∧ Holds item' r

theorem mgetReadOne_read (w : W) (hf : Follows B w0 w) (item : MgetItem D)
    (hitem : ItemSound S B ms w0 item) (hwait : item.resultReady = false) :
    Ensures (mgetReadOne S B item) w
      (fun item' w' => Follows B w0 w' ∧ ReadInto S B w0 item item') (Raised B ms w0) := by
  obtain ⟨helement,hnull,_⟩ := hitem.pending hwait
  unfold mgetReadOne
  apply ensures_seq (readRow_answered S B hf item.mapping hitem.mapped item.canonical
    item.keyValues)
  intro row w' ⟨hf',hr⟩
  cases row with
  | none => exact ⟨hf',rfl,rfl,rfl,.null,hr,⟨Or.inl helement,rfl⟩⟩
  | some row => exact ⟨hf',rfl,rfl,rfl,.row row.1,hr,⟨Or.inl helement,hnull,rfl⟩⟩

theorem readItem_turn (hslots : Slotted idents slots) (s : MgetFrame W D) (i : ℕ)
    (item : MgetItem D) (h : Sound S B ms w0 idents slots s) (hrun : hasFailed s = false)
    (hget : s.items[i]? = some item) (hclaimed : Claimed item) :
    Ensures (readItem S B deadline i item) s (fun _ s' =>
      Turned hasFailed (Going S B ms w0 idents slots deadline) Fetched s i s')
      (fun e s => Raised B ms w0 e s.world) := by
  have hitem := h.items item (List.mem_of_getElem? hget)
  unfold readItem
  split
  · rename_i hskip
    refine unchanged_turn s.world (Or.inl h) hget ⟨hclaimed.deferred,?_⟩
    by_contra hne
    rw [not_or] at hne
    exact absurd hskip (by simp [toRead, hne.1, hne.2])
  · rename_i hread
    have hread : item.resultReady = false ∧ item.deferred = false := by
      simpa [toRead] using hread
    apply onWorld_seq (deadlinePassed_follows B h.follows)
    intro late w1 ⟨h1,hlate⟩
    by_cases hl : late = true
    · rw [if_pos hl]
      exact stopped_turn (Or.inr (sound_overdue S B h (hlate hl) s.items .deadline rfl))
        (set_self _ _ _ hget).symm rfl
    rw [if_neg hl]
    apply onWorld_seq (mgetReadOne_read S B w1 h1 item hitem hread.1)
    intro item' w2 ⟨h2,hr⟩
    obtain ⟨hmap,hcan,hval,_⟩ := (Identity.mk.injEq _ _ _ _ _ _ _ _).mp hr.same
    obtain ⟨r,ha,hh⟩ := hr.held
    have hitem' : ItemSound S B ms w0 item' := by
      refine ⟨by rw [hmap]; exact hitem.mapped,fun hp => ?_,
        fun _ => ⟨r,by rw [hmap, hcan, hval]; exact ha,hh⟩⟩
      rw [hr.ready] at hp
      cases hp
    simp only [ensures_bind, ensures_setItem, ensures_setTally]
    refine ⟨Or.inl (sound_account S B h hslots hrun w2 h2 hget hread.1 hr.same hitem' hr.ready),_,
      rfl,fun _ => ⟨fun hd => ?_,Or.inl hr.ready⟩⟩
    rw [hr.deferred, hread.2] at hd
    cases hd

theorem prepareItem_read (item : MgetItem D) (r : RowResult) (hread : item.databaseRead = true)
    (hh : Holds item r) : prepareItem item = { item with responseElement := some r.encode } := by
  rw [Holds, if_pos hread] at hh
  unfold prepareItem
  rw [if_neg (by simp [hread])]
  cases r with
  | null =>
    have hnull : item.nullResult = true := hh.2
    rw [if_pos hnull]
    rfl
  | row json =>
    rw [if_neg (by simp [hh.2.1]), hh.2.2]
    rfl

theorem prepareItem_sound (item : MgetItem D) (h : ItemSound S B ms w0 item) :
    ident (prepareItem item) = ident item ∧ ItemSound S B ms w0 (prepareItem item) ∧
      resultSize (prepareItem item) = resultSize item ∧
      (prepareItem item).resultReady = item.resultReady ∧
      (prepareItem item).deferred = item.deferred ∧
      (item.resultReady = true → (prepareItem item).responseElement.isSome = true) := by
  by_cases hread : item.databaseRead = true
  · have hready : item.resultReady = true := by
      by_contra hne
      have := (h.pending (by simpa using hne)).2.2
      rw [hread] at this
      cases this
    obtain ⟨r,ha,hh⟩ := h.ready hready
    have hlen := elementLength_holds item r hh
    rw [Holds, if_pos hread] at hh
    rw [prepareItem_read item r hread (by rw [Holds, if_pos hread]; exact hh)]
    refine ⟨rfl,⟨h.mapped,fun hp => ?_,fun _ => ⟨r,ha,?_⟩⟩,?_,rfl,rfl,fun _ => rfl⟩
    · exact absurd (hready.symm.trans hp) (by decide)
    · rw [Holds, if_pos hread]
      exact ⟨Or.inr rfl,by cases r <;> exact hh.2⟩
    -- The element that is built now has the length that was accounted for the row.
    · simp only [resultSize, hready, if_true]
      rw [hlen]
      rfl
  · have hsame : prepareItem item = item := by
      unfold prepareItem
      rw [if_pos (by simp [hread])]
    rw [hsame]
    refine ⟨rfl,h,rfl,rfl,rfl,fun hready => ?_⟩
    obtain ⟨r,_,hh⟩ := h.ready hready
    rw [Holds, if_neg hread] at hh
    simp [hh]

theorem prepare_sound (h : Sound S B ms w0 idents slots s) :
    Sound S B ms w0 idents slots { s with items := s.items.map prepareItem } := by
  have hknown : knownSize (s.items.map prepareItem) slots = knownSize s.items slots := by
    apply knownSize_congr
    intro slot
    unfold sizeAt
    rw [List.getElem?_map]
    cases hget : s.items[slot]? with
    | none => rfl
    | some item =>
      exact (prepareItem_sound S B item (h.items item (List.mem_of_getElem? hget))).2.2.1
  refine ⟨h.follows,?_,fun item hmem => ?_,h.balanced.exact,h.balanced.free,?_⟩
  · rw [← h.idents, List.map_map]
    apply List.map_congr_left
    intro item hmem
    exact (prepareItem_sound S B item (h.items item hmem)).1
  · obtain ⟨item0,hmem0,rfl⟩ := List.mem_map.mp hmem
    exact (prepareItem_sound S B item0 (h.items item0 hmem0)).2.1
  · simp only [hknown]
    exact h.balanced.size

theorem readItems_kept (hslots : Slotted idents slots) (s : MgetFrame W D)
    (h : Sound S B ms w0 idents slots s) (hclaimed : ∀ item ∈ s.items, Claimed item) :
    Ensures (readItems S B cfg deadline) s (fun _ s' =>
      Kept S B ms w0 idents slots deadline s' ∧
        (isStopped s' = false → ∀ item ∈ s'.items, Prepared item))
      (fun e s => Raised B ms w0 e s.world) := by
  unfold readItems
  simp only [ensures_bind, ensures_onWorld, MgetCommand.clock, ensures_call]
  have h1 := follows_call B w0 s.world _ h.follows (Call.clock s.world)
  split
  · rename_i hnone
    exact ⟨Or.inl (Or.inr (sound_overdue S B h (met_call B h.follows (remaining_none _ hnone)
      (Call.clock s.world)) s.items .deadline rfl)),fun hrun => by cases hrun⟩
  simp only [ensures_bind, ensures_get, ensures_onWorld]
  have hcall := Call.begin (B := B) (B.getCurrentTimestamp s.world).2
    (min cfg.statementTimeoutMs (remainingMs (B.getCurrentTimestamp s.world).1 deadline))
    (relationOids s.items)
  apply ensures_enter _ ?_ (fun e he => met_call B h1 (.start _ _ e he) hcall)
  intro locked hlocked
  have h2 := follows_call B w0 _ _ h1 hcall
  cases locked with
  | true =>
    refine ⟨Or.inr ⟨h.balanced.exact,rfl,met_call B h1 ⟨_,_,hlocked⟩ hcall⟩,fun hrun => ?_⟩
    exact absurd (Bool.or_eq_false_iff.mp hrun).2 (by simp)
  | false =>
  simp only [Bool.false_eq_true, if_false, ensures_bind, ensures_modify]
  have hs : Sound S B ms w0 idents slots { s with
      world := (B.beginMgetSpi (min cfg.statementTimeoutMs
        (remainingMs (B.getCurrentTimestamp s.world).1 deadline)) (relationOids s.items)
        (B.getCurrentTimestamp s.world).2).2
      inTransaction := true } :=
    ⟨h2,h.idents,h.items,h.balanced.exact,h.balanced.free,h.balanced.size⟩
  apply ensures_imp (ensures_overItems _ Claimed Fetched (fun s i item hinv hrun hget htodo =>
    readItem_turn S B hslots s i item (going_running S B hinv hrun) hrun hget htodo)
    _ (Or.inl hs) hclaimed)
  rintro _ s1 ⟨hs1,hfetched⟩
  rw [ensures_onWorld]
  have hcommit := Call.commit (B := B) s1.world
  apply ensures_enter _ ?_ (fun e he => met_call B (going_follows S B hs1) (.commit e he) hcommit)
  intro _ _
  have hs2 := going_world S B hs1 (.single hcommit) false
  simp only [ensures_get]
  split
  · rename_i hfail
    exact ⟨Or.inl hs2,fun hrun => absurd hfail (by simp [(Bool.or_eq_false_iff.mp hrun).1])⟩
  · rename_i hfail
    have hrun : hasFailed s1 = false := Bool.not_eq_true _ |>.mp hfail
    have hs3 := prepare_sound S B (going_running S B hs2 hrun)
    simp only [ensures_bind, ensures_set, ensures_onWorld]
    apply ensures_imp (deadlinePassed_follows B hs3.follows)
    rintro late w4 ⟨h4,hlate⟩
    by_cases hl : late = true
    · rw [if_pos hl]
      exact ⟨Or.inl (Or.inr (sound_overdue S B hs3 (hlate hl) _ .deadline rfl)),
        fun hrun => by cases hrun⟩
    rw [if_neg hl]
    refine ⟨Or.inl (Or.inl (alike_world S B hs3 w4 h4)),fun _ item hmem => ?_⟩
    obtain ⟨item0,hmem0,rfl⟩ := List.mem_map.mp hmem
    obtain ⟨_,_,_,hready,hdeferred,helement⟩ :=
      prepareItem_sound S B item0 ((going_running S B hs1 hrun).items item0 hmem0)
    have hf := hfetched hrun item0 hmem0
    refine ⟨?_,?_,?_⟩
    · rw [hready, hdeferred]
      exact hf.deferred
    · rw [hready, hdeferred]
      exact hf.fetched
    · rw [hready]
      exact helement

/-! Stores and releases. -/

/-- A turn that leaves the tally alone. -/
def Quiet (ms : List (WorkerMapping D)) (w0 : W) (idents : List (Identity D))
    (slots : List ℕ) (K : MgetItem D → Prop) (s : MgetFrame W D) (i : ℕ) (s' : MgetFrame W D) :
    Prop :=
  (s'.tally = s.tally ∧ Follows B s.world s'.world) ∧
    (Sound S B ms w0 idents slots s → Sound S B ms w0 idents slots s') ∧
    ∃ item, s'.items = s.items.set i item ∧ K item

theorem overItems_quiet {f : ℕ → MgetItem D → MgetM W D Unit} {K : MgetItem D → Prop}
    (hf : ∀ s i item, s.items[i]? = some item → K item → Ensures (f i item) s
      (fun _ s' => Quiet S B ms w0 idents slots K s i s') F)
    (s : MgetFrame W D) (hK : ∀ item ∈ s.items, K item) :
    Ensures (overItems (fun _ => false) f) s (fun _ s' => ((s'.tally = s.tally ∧
      Follows B s.world s'.world) ∧
      (Sound S B ms w0 idents slots s → Sound S B ms w0 idents slots s')) ∧
      ∀ item ∈ s'.items, K item) F := by
  apply ensures_imp (ensures_overItems (fun s'' => (s''.tally = s.tally ∧
    Follows B s.world s''.world) ∧ (Sound S B ms w0 idents slots s →
    Sound S B ms w0 idents slots s'')) K K ?_ s ⟨⟨rfl,follows_refl B _⟩,id⟩ hK)
  · intro _ s' hs
    exact ⟨hs.1,hs.2 rfl⟩
  · intro s1 i item hinv _ hget hitem
    apply ensures_imp (hf s1 i item hget hitem)
    rintro _ s' ⟨⟨htally,hf⟩,hsound,item',hset,hitem'⟩
    exact ⟨⟨⟨htally.trans hinv.1.1,hinv.1.2.trans hf⟩,hsound ∘ hinv.2⟩,item',hset,
      fun _ => hitem'⟩

theorem releaseItem_turn (s : MgetFrame W D) (i : ℕ) (item : MgetItem D)
    (hget : s.items[i]? = some item) :
    Ensures (releaseItem B i item) s (fun _ s' =>
      Quiet S B ms w0 idents slots (fun _ => True) s i s') F := by
  unfold releaseItem
  split
  · simp only [ensures_bind, ensures_onWorld, ensures_perform, ensures_setItem]
    have hw : Follows B s.world _ :=
      .single (Call.release s.world item.mapping item.canonical item.token item.loadId)
    refine ⟨⟨rfl,hw⟩,fun h => ?_,_,rfl,trivial⟩
    exact alike_turn S B h hget _ (h.follows.trans hw) ⟨rfl,rfl,rfl,rfl,rfl,rfl⟩
  · exact ⟨⟨rfl,follows_refl B _⟩,id,item,(set_self _ _ _ hget).symm,trivial⟩

theorem mgetReleaseClaims_quiet (s : MgetFrame W D) :
    Ensures (mgetReleaseClaims B) s (fun _ s' => (s'.tally = s.tally ∧
      Follows B s.world s'.world) ∧
      (Sound S B ms w0 idents slots s → Sound S B ms w0 idents slots s')) F :=
  ensures_imp (overItems_quiet S B (fun s i item hget _ => releaseItem_turn S B s i item hget) s
    (fun _ _ => trivial)) (fun _ _ h => h.1)

theorem storeResult_follows (w : W) (hf : Follows B w0 w) (item : MgetItem D) :
    Ensures (storeResult B item) w (fun _ w' => Follows B w0 w') E := by
  unfold storeResult
  split
  · exact follows_call B w0 w _ hf
      (Call.store w item.mapping item.canonical item.token none item.loadId 0)
  · cases item.payload with
    | none => exact hf
    | some payload =>
      exact follows_call B w0 w _ hf (Call.store w item.mapping item.canonical item.token
        (some payload) item.loadId item.databaseXmin)

theorem storeItem_turn (c : Prop) (s : MgetFrame W D) (i : ℕ) (item : MgetItem D)
    (hget : s.items[i]? = some item) (hprepared : c → Prepared item) :
    Ensures (storeItem B i item) s (fun _ s' =>
      Quiet S B ms w0 idents slots (fun item => c → Prepared item) s i s') F := by
  unfold storeItem
  split
  · exact ⟨⟨rfl,follows_refl B _⟩,id,item,(set_self _ _ _ hget).symm,hprepared⟩
  · have hend : ∀ w, Follows B s.world w → Quiet S B ms w0 idents slots
        (fun item => c → Prepared item) s i
        { s with world := w, items := s.items.set i { item with ownsLoad := false } } := by
      intro w hw
      refine ⟨⟨rfl,hw⟩,fun h => ?_,_,rfl,fun hc => ?_⟩
      · exact alike_turn S B h hget w (h.follows.trans hw) ⟨rfl,rfl,rfl,rfl,rfl,rfl⟩
      · exact ⟨(hprepared hc).deferred,(hprepared hc).fetched,(hprepared hc).element⟩
    apply onWorld_seq (storeResult_follows B s.world (follows_refl B s.world) item)
    intro stored w hw
    cases stored with
    | true => exact hend w hw
    | false =>
      exact hend _ (follows_call B s.world w _ hw
        (Call.release w item.mapping item.canonical item.token item.loadId))

/-! Waits. -/

theorem encode_head (r : RowResult) : r.encode.head? ≠ some minusByte := by
  cases r with
  | null => decide
  | row json =>
    have hd : (RowResult.row json).encode.head? = some dollarByte := rfl
    rw [hd]
    decide

theorem waitItem_turn (hslots : Slotted idents slots) (s : MgetFrame W D) (i : ℕ)
    (item : MgetItem D) (h : Sound S B ms w0 idents slots s) (hrun : isStopped s = false)
    (hget : s.items[i]? = some item) (hprepared : Prepared item) :
    Ensures (waitItem S B cfg deadline i item) s (fun _ s' => Turned isStopped
      (Kept S B ms w0 idents slots deadline) Complete s i s')
      (fun e s => Raised B ms w0 e s.world) := by
  have hitem := h.items item (List.mem_of_getElem? hget)
  have hrun' : hasFailed s = false := (Bool.or_eq_false_iff.mp hrun).1
  unfold waitItem
  split
  · rename_i hskip
    have hready : item.resultReady = true :=
      hprepared.fetched.resolve_right (by simpa using hskip)
    exact unchanged_turn s.world (Or.inl (Or.inl h)) hget ⟨hready,hprepared.element hready⟩
  · rename_i hwaits
    have hwait : item.resultReady = false := hprepared.deferred (by simpa using hwaits)
    apply onWorld_seq (deadlinePassed_follows B h.follows)
    rintro late w1 ⟨h1,hlate⟩
    by_cases hl : late = true
    · rw [if_pos hl]
      exact stopped_turn (Or.inl (Or.inr (sound_overdue S B h (hlate hl) s.items .deadline
        rfl))) (set_self _ _ _ hget).symm rfl
    rw [if_neg hl]
    apply onWorld_seq (commandMgetOne_replied S B cfg item.mapping item.canonical item.keyValues
      h1 hitem.mapped)
    rintro reply w2 ⟨h2,hreply⟩
    cases reply with
    | none =>
      exact stopped_turn (Or.inr ⟨h.balanced.exact,rfl,hreply⟩) (set_self _ _ _ hget).symm
        (Bool.or_true _)
    | some element =>
      rcases hreply with ⟨r,hr,rfl⟩ | ⟨rfl,hlate⟩
      · simp only
        rw [if_neg (encode_head r)]
        simp only [ensures_bind, ensures_setItem, ensures_setTally]
        refine ⟨Or.inl (Or.inl (sound_account S B h hslots hrun' w2 h2 hget hwait rfl ?_ rfl)),_,
          rfl,fun _ => ⟨rfl,rfl⟩⟩
        refine ⟨hitem.mapped,(fun hp => by cases hp),fun _ => ⟨r,hr,?_⟩⟩
        unfold Holds
        rw [if_neg (by simp [(hitem.pending hwait).2.2])]
      · exact stopped_turn (Or.inl (Or.inr (sound_overdue S B h hlate _
          (.command deadlineExceeded) rfl))) rfl rfl

/-! The whole command. -/

theorem overItems_stopped (stop : MgetFrame W D → Bool) (f : ℕ → MgetItem D → MgetM W D Unit)
    (hstop : stop s = true) :
    Ensures (overItems stop f) s (fun _ s' => s' = s) F := by
  simp only [overItems, ensures_bind, ensures_get]
  cases List.range s.items.length with
  | nil => exact rfl
  | cons i is =>
    simp only [sweep, ensures_bind, ensures_get, hstop, if_true]
    exact rfl

theorem readPhase_kept (hslots : Slotted idents slots) (s : MgetFrame W D)
    (h : Going S B ms w0 idents slots deadline s)
    (hclaimed : hasFailed s = false → ∀ item ∈ s.items, Claimed item) :
    Ensures (readPhase S B cfg deadline) s (fun _ s' =>
      Kept S B ms w0 idents slots deadline s' ∧
        (isStopped s' = false → ∀ item ∈ s'.items, Prepared item))
      (fun e s => Raised B ms w0 e s.world) := by
  simp only [readPhase, ensures_bind, ensures_get]
  split
  · rename_i hread
    have hrun : hasFailed s = false := by simpa using (Bool.and_eq_true_iff.mp hread).1
    exact readItems_kept S B cfg hslots s (going_running S B h hrun) (hclaimed hrun)
  · rename_i hread
    refine ⟨Or.inl h,fun hgo item hmem => ?_⟩
    have hrun := (Bool.or_eq_false_iff.mp hgo).1
    have hcl := hclaimed hrun item hmem
    have hskip : toRead item = false := by
      by_contra hne
      apply hread
      rw [hrun]
      exact List.any_eq_true.mpr ⟨item,hmem,by simpa using hne⟩
    refine ⟨hcl.deferred,?_,fun hready => ?_⟩
    · by_contra hne
      rw [not_or] at hne
      exact absurd hskip (by simp [toRead, hne.1, hne.2])
    · obtain ⟨r,_,hh⟩ := ((going_running S B h hrun).items item hmem).ready hready
      rw [Holds, if_neg (by simp [hcl.unread])] at hh
      simp [hh]

theorem kept_quiet (h : Kept S B ms w0 idents slots deadline s) (htally : s'.tally = s.tally)
    (hf : Follows B s.world s'.world) (hrun : hasFailed s = false)
    (hs : Sound S B ms w0 idents slots s → Sound S B ms w0 idents slots s') :
    Kept S B ms w0 idents slots deadline s' := by
  rcases h with h | h
  · exact Or.inl (Or.inl (hs (going_running S B h hrun)))
  · exact Or.inr ⟨htally ▸ h.exact,htally ▸ h.blocked,met_trans B h.locked hf⟩

/-- The stores also run when the read found a locked relation. -/
theorem storePhase_kept (s : MgetFrame W D) (h : Kept S B ms w0 idents slots deadline s)
    (hprepared : isStopped s = false → ∀ item ∈ s.items, Prepared item) :
    Ensures (storePhase B) s (fun _ s' => Kept S B ms w0 idents slots deadline s' ∧
      (isStopped s' = false → ∀ item ∈ s'.items, Prepared item)) F := by
  simp only [storePhase, ensures_bind, ensures_get]
  split
  · exact ⟨h,hprepared⟩
  · rename_i hrun
    apply ensures_imp (overItems_quiet S B (fun s1 i item hget hitem =>
      storeItem_turn S B (isStopped s = false) s1 i item hget hitem) s
      (fun item hmem hgo => hprepared hgo item hmem))
    rintro _ s' ⟨⟨⟨htally,hf⟩,hsound⟩,hdone⟩
    refine ⟨kept_quiet S B h htally hf (by simpa using hrun) hsound,fun hgo item hmem => ?_⟩
    apply hdone item hmem
    rwa [isStopped, hasFailed, htally] at hgo

theorem mgetObtain_kept (hslots : Slotted idents slots) (s : MgetFrame W D)
    (h : Sound S B ms w0 idents slots s) (hprobed : ∀ item ∈ s.items, Probed item) :
    Ensures (mgetObtain S B cfg deadline) s (fun _ s' =>
      Kept S B ms w0 idents slots deadline s' ∧
        (isStopped s' = false → ∀ item ∈ s'.items, Complete item))
      (fun e s => Raised B ms w0 e s.world) := by
  unfold mgetObtain
  apply ensures_seq (ensures_overItems _ Probed Claimed (fun s i item hinv hrun hget htodo =>
    claimItem_turn S B cfg hslots s i item (going_running S B hinv hrun) hrun hget htodo) s
    (Or.inl h) hprobed)
  intro _ s1 ⟨hs1,hclaimed⟩
  apply ensures_seq (readPhase_kept S B cfg hslots s1 hs1 hclaimed)
  intro _ s2 ⟨hs2,hprepared⟩
  apply ensures_seq (storePhase_kept S B s2 hs2 hprepared)
  intro _ s3 ⟨hs3,hstored⟩
  by_cases hstop : isStopped s3 = true
  · apply ensures_imp (overItems_stopped isStopped _ hstop)
    intro _ s4 hsame
    subst hsame
    exact ⟨hs3,fun hrun => absurd hstop (by simp [hrun])⟩
  · exact ensures_overItems _ Prepared Complete (fun s i item hinv hrun hget htodo =>
      waitItem_turn S B cfg hslots s i item (kept_running S B hinv hrun) hrun hget htodo) s3 hs3
      (hstored (by simpa using hstop))

end PgLocalCache.MgetAssembly
