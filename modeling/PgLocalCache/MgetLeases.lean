import PgLocalCache.WorkerCache
import PgLocalCache.MgetReply

/-!
# MGET gives back every lease

`Owes` follows the open leases of a request through the calls it makes: each of
them is due from somewhere, from an item that owns its load or from the read of one
key. Every way out of `command_mget` ends with nothing due, and where it waits for
another loader nothing is due either.
-/

namespace PgLocalCache.MgetLeases

open CacheState CacheOperations WireKey WorkerBackend Outcome
open PartitionModel hiding cacheStore
open PartitionInvariant SingleFlight LeaseLedger WorkerCache MgetCommand MgetSweeps RespWriter

abbrev Lease := ℕ × Claim

structure Owes (X : Site) (w : World) (due : Lease → Prop) : Prop where
  rep : ∀ p, PartRep (w.start p)
  lawful : Lawful X.settings X.hash w.start w.log
  due : ∀ p c, Open X.hash w.log p c →
    due (p,c) ∧ c.token.cacheable = true ∧ c.token.hasEntry = true
  waits : ∀ newer older, w.log = newer++.waited::older → NoneLeft X.hash w.start older

def nothing : Lease → Prop := fun _ => False

def leaseOn (X : Site) (m : Mapping) (key : Bytes) (token : ReadToken) (loadId : ℕ) : Lease :=
  (cachePartitionFor X m key,⟨tupleOf X m key,token,loadId⟩)

section Sections

variable {X : Site} {w : World} {due due' : Lease → Prop}

theorem owes_imp (h : Owes X w due) (hd : ∀ g, due g → due' g) : Owes X w due' :=
  ⟨h.rep,h.lawful,fun p c ho => ⟨hd _ (h.due p c ho).1,(h.due p c ho).2⟩,h.waits⟩

theorem owes_locked (h : Owes X w due) {own : Bool} {p : ℕ} {op : PartOp} {result : OpResult}
    {P : Partition} (hop : runOp X.settings X.hash op (w.partition p) = .ok result P)
    (hg : own = true → ∀ c, grantOf ⟨op,result,P⟩ = some c →
      due' (p,c) ∧ c.token.cacheable = true ∧ c.token.hasEntry = true)
    (hd : ∀ q c, Open X.hash w.log q c → (q = p → LoadingUnder X.hash P c) → due (q,c) →
      due' (q,c)) :
    Owes X (w.record own p ⟨op,result,P⟩) due' := by
  refine ⟨h.rep,⟨h.lawful,hop⟩,?_,?_⟩
  · rintro q c ⟨⟨hown,rfl,hgrant⟩ | hopen,hload⟩
    · exact hg hown c hgrant
    · exact ⟨hd q c hopen hload (h.due q c hopen).1,(h.due q c hopen).2⟩
  · intro newer older hlog
    cases newer with
    | nil => cases hlog
    | cons mark newer => exact h.waits newer older (List.cons.inj hlog).2

theorem lockedSection_owes (h : Owes X w due) (own : Bool) (p : ℕ) (op : PartOp)
    (hop : own = true → ∀ m t token reads, op ≠ .claim m t token reads) :
    Owes X (lockedSection X own p op w).2 due := by
  unfold lockedSection
  cases hrun : runOp X.settings X.hash op (w.partition p) with
  | error e P => exact ⟨h.rep,h.lawful,h.due,h.waits⟩
  | ok result P =>
    refine owes_locked h hrun (fun hown c hg => ?_) (fun _ _ _ _ hd => hd)
    obtain ⟨m,reads,hclaim,-⟩ := grantOf_owner hg
    exact absurd hclaim (hop hown _ _ _ _)

theorem others_owes (l : List (ℕ × PartOp)) (h : Owes X w due) : Owes X (others X l w) due := by
  induction l generalizing w with
  | nil => exact h
  | cons step rest ih => exact ih (lockedSection_owes h false step.1 step.2 (fun hf => nomatch hf))

theorem passTime_owes (h : Owes X w due) : Owes X (passTime X w) due := by
  have hafter := others_owes w.moment.behind h
  exact ⟨hafter.rep,hafter.lawful,hafter.due,hafter.waits⟩

theorem lookupSection_owes (m : Mapping) (key : Bytes) (create : Bool) (reads : LookupReads)
    (h : Owes X w due) : Owes X (lookupSection X m key create reads w).2 due := by
  have hafter := lockedSection_owes h true (cachePartitionFor X m key)
    (.lookup m (tupleOf X m key) valueMax create w.moment.admission reads) (by simp)
  unfold lookupSection ownSection
  split
  · rename_i found w' heq
    rw [heq] at hafter
    exact hafter
  · rename_i found w' _ heq
    rw [heq] at hafter
    exact hafter

theorem cacheLookupInternal_owes (m : Mapping) (key : Bytes) (h : Owes X w due) :
    Owes X (cacheLookupInternal X m key w).2 due := by
  have hfirst := others_owes w.moment.between
    (lookupSection_owes m key false w.moment.firstLookup h)
  unfold cacheLookupInternal
  dsimp only
  split
  · exact lookupSection_owes _ _ _ _ (lockedSection_owes hfirst true _ _ (by simp))
  split
  · exact lookupSection_owes _ _ _ _ hfirst
  · exact hfirst

theorem cacheClaimLoad_owes (m : Mapping) (key : Bytes) (token : ReadToken) (h : Owes X w due) :
    Owes X (cacheClaimLoad X m key token w).2 (fun g => due g ∨
      (cacheClaimLoad X m key token w).1.1 = .owner ∧
        g = leaseOn X m key token (cacheClaimLoad X m key token w).1.2) := by
  unfold cacheClaimLoad ownSection lockedSection
  split
  · exact owes_imp h (fun _ hd => Or.inl hd)
  rename_i htoken
  simp only [Bool.or_eq_true, Bool.not_eq_true', not_or, Bool.not_eq_false] at htoken
  cases hrun : runOp X.settings X.hash (.claim m (tupleOf X m key) token w.moment.claim)
      (w.partition (cachePartitionFor X m key)) with
  | error e P => exact owes_imp ⟨h.rep,h.lawful,h.due,h.waits⟩ (fun _ hd => Or.inl hd)
  | ok result P =>
    have hafter : ∀ due' : Lease → Prop, (∀ loadId, result = .claimed .owner loadId →
        due' (leaseOn X m key token loadId)) → (∀ g, due g → due' g) →
        Owes X (w.record true (cachePartitionFor X m key)
          ⟨.claim m (tupleOf X m key) token w.moment.claim,result,P⟩) due' := by
      intro due' hnew hold
      refine owes_locked h hrun (fun _ c hg => ?_) (fun q c _ _ hd => hold _ hd)
      obtain ⟨m',reads,hop,hres⟩ := grantOf_owner hg
      obtain ⟨t,token',loadId⟩ := c
      cases hop
      exact ⟨hnew loadId hres,htoken⟩
    cases result with
    | claimed claim loadId =>
      refine hafter _ (fun n hn => Or.inr ?_) (fun _ hd => Or.inl hd)
      cases hn
      exact ⟨rfl,rfl⟩
    | _ => exact hafter _ (fun n hn => nomatch hn) (fun _ hd => Or.inl hd)

theorem cacheReleaseLoad_owes (m : Mapping) (key : Bytes) (token : ReadToken) (loadId : ℕ)
    (h : Owes X w due) : Owes X (cacheReleaseLoad X m key token loadId w)
      (fun g => due g ∧ g ≠ leaseOn X m key token loadId) := by
  have hshut : ∀ w' : World, Owes X w' due → ¬Open X.hash w'.log (cachePartitionFor X m key)
      ⟨tupleOf X m key,token,loadId⟩ →
      Owes X w' (fun g => due g ∧ g ≠ leaseOn X m key token loadId) := by
    intro w' h' hshut
    refine ⟨h'.rep,h'.lawful,fun p c ho => ⟨⟨(h'.due p c ho).1,?_⟩,(h'.due p c ho).2⟩,h'.waits⟩
    rintro heq
    obtain ⟨rfl,rfl⟩ := Prod.mk.inj heq
    exact hshut ho
  unfold cacheReleaseLoad
  split
  · rename_i hguard
    refine hshut w h (fun ho => ?_)
    obtain ⟨-,hcacheable,hentry⟩ := h.due _ _ ho
    have hnonzero := (open_held h.rep h.lawful ho).2.2
    simp only at hcacheable hentry hnonzero
    simp [hcacheable, hentry, hnonzero] at hguard
  · have hafter := lockedSection_owes h true (cachePartitionFor X m key)
      (.release m (tupleOf X m key) token loadId) (by simp)
    refine hshut _ hafter (fun ho => ?_)
    unfold ownSection lockedSection at ho
    cases hrun : runOp X.settings X.hash (.release m (tupleOf X m key) token loadId)
        (w.partition (cachePartitionFor X m key)) with
    | error e P =>
      obtain ⟨P',hok⟩ := release_returns X.settings X.hash m (tupleOf X m key) token loadId
        (w.partition (cachePartitionFor X m key))
      rw [hok] at hrun
      cases hrun
    | ok result P =>
      rw [hrun] at ho
      obtain ⟨hopen,hload⟩ := ho
      rcases hopen with ⟨-,-,hg⟩ | hopen
      · obtain ⟨m',reads,hop,-⟩ := grantOf_owner hg
        cases hop
      · obtain ⟨hheld,hshort,-⟩ := open_held h.rep h.lawful hopen
        exact release_ends (c := ⟨tupleOf X m key,token,loadId⟩) ⟨rfl,rfl,rfl⟩
          (stateAt_rep h.rep h.lawful _) hheld hshort hrun (hload rfl)

theorem cacheStore_owes (m : Mapping) (key : Bytes) (token : ReadToken) (value : Option Bytes)
    (loadId sourceXmin : ℕ) (h : Owes X w due) :
    Owes X (cacheStore X m key token value loadId sourceXmin w).2 (fun g => due g ∧
      ((cacheStore X m key token value loadId sourceXmin w).1 = true →
        g ≠ leaseOn X m key token loadId)) := by
  unfold cacheStore ownSection lockedSection
  cases hrun : runOp X.settings X.hash (.store m (tupleOf X m key)
      ⟨token,value.getD [],value.isNone,loadId,sourceXmin,w.moment.observedFullXid⟩
      w.moment.configGeneration w.moment.store) (w.partition (cachePartitionFor X m key)) with
  | error e P =>
    exact owes_imp ⟨h.rep,h.lawful,h.due,h.waits⟩ (fun _ hd => ⟨hd,fun hf => nomatch hf⟩)
  | ok result P =>
    have hafter : ∀ stored : Bool, (stored = true → result = .stored true) →
        Owes X (w.record true (cachePartitionFor X m key) ⟨.store m (tupleOf X m key)
          ⟨token,value.getD [],value.isNone,loadId,sourceXmin,w.moment.observedFullXid⟩
          w.moment.configGeneration w.moment.store,result,P⟩)
          (fun g => due g ∧ (stored = true → g ≠ leaseOn X m key token loadId)) := by
      intro stored hstored
      refine owes_locked h hrun (fun _ c hg => ?_) (fun q c _ hload hd => ⟨hd,fun hok heq => ?_⟩)
      · obtain ⟨m',reads,hop,-⟩ := grantOf_owner hg
        cases hop
      · obtain ⟨rfl,rfl⟩ := Prod.mk.inj heq
        rw [hstored hok] at hrun
        exact store_ends (c := ⟨tupleOf X m key,token,loadId⟩)
          (stateAt_rep h.rep h.lawful _) hrun (hload rfl)
    cases result with
    | stored stored => exact hafter stored (fun hs => by rw [hs])
    | _ => exact hafter false (fun hf => nomatch hf)

end Sections

/-- A program that takes no lease and ends none. -/
def Steady {α : Type} (X : Site) (due : Lease → Prop) (x : WorldM World α) : Prop :=
  ∀ w, Owes X w due → Ensures x w (fun _ w' => Owes X w' due) (fun _ w' => Owes X w' due)

section Steady

variable {X : Site} {due : Lease → Prop} {α β D : Type}

theorem steady_pure (a : α) : Steady X due (pure a : WorldM World α) := fun _ h => h

theorem steady_throw (e : PgError) : Steady X due (throw e : WorldM World α) := fun _ h => h

theorem steady_bind {x : WorldM World α} {f : α → WorldM World β} (hx : Steady X due x)
    (hf : ∀ a, Steady X due (f a)) : Steady X due (x >>= f) :=
  fun w h => ensures_seq (hx w h) (fun a w' h' => hf a w' h')

theorem steady_ite {p : Prop} [Decidable p] {x y : WorldM World α} (hx : Steady X due x)
    (hy : Steady X due y) : Steady X due (if p then x else y) :=
  fun w h => ensures_ite.mpr ⟨fun _ => hx w h,fun _ => hy w h⟩

theorem steady_call {f : World → α × World} (hf : ∀ w, Owes X w due → Owes X (f w).2 due) :
    Steady X due (call f) := hf

theorem steady_perform {f : World → World} (hf : ∀ w, Owes X w due → Owes X (f w) due) :
    Steady X due (perform f) := hf

theorem steady_enter {f : World → Except PgError α × World}
    (hf : ∀ w, Owes X w due → Owes X (f w).2 due) : Steady X due (enter f) := by
  intro w h
  unfold Ensures enter
  cases (f w).1 with
  | ok a => exact hf w h
  | error e => exact hf w h

theorem steady_clock : Steady X due (clock (backend X D)) :=
  steady_call (fun _ h => passTime_owes h)

theorem steady_lookup (m : WorkerMapping D) (key : Bytes) :
    Steady X due (call ((backend X D).cacheLookupQuiet m key)) :=
  steady_call (fun _ h => passTime_owes (cacheLookupInternal_owes m.cache key h))

theorem steady_invalidate (m : WorkerMapping D) (key : Bytes) :
    Steady X due (call ((backend X D).cacheInvalidateKey m key)) :=
  steady_call (fun _ h => passTime_owes (lockedSection_owes h true _ _ (by simp)))

theorem steady_begin (timeout : ℕ) (oids : List ℕ) :
    Steady X due (enter ((backend X D).beginMgetSpi timeout oids)) :=
  steady_enter (fun _ h => passTime_owes h)

theorem steady_commit : Steady X due (enter (backend X D).commitSpi) :=
  steady_enter (fun _ h => passTime_owes h)

theorem steady_wait : Steady X nothing (perform (backend X D).waitLatch) := by
  refine steady_perform (fun w h => passTime_owes ?_)
  have hclosed : ∀ p c, ¬Open X.hash w.log p c := fun p c ho => (h.due p c ho).1
  refine ⟨h.rep,h.lawful,h.due,fun newer older hlog => ?_⟩
  cases newer with
  | nil =>
    cases hlog
    exact noneLeft_of_closed h.rep h.lawful hclosed
  | cons mark newer => exact h.waits newer older (List.cons.inj hlog).2

theorem claim_owes (m : WorkerMapping D) (key : Bytes) (token : ReadToken) {w : World}
    (h : Owes X w due) : Ensures (call ((backend X D).cacheClaimLoad m key token)) w
      (fun claim w' => Owes X w' (fun g => due g ∨
        claim.1 = .owner ∧ g = leaseOn X m.cache key token claim.2)) Never :=
  passTime_owes (cacheClaimLoad_owes m.cache key token h)

theorem unclaimed {w : World} {claim : LoadClaim} {g0 : Lease}
    (h : Owes X w (fun g => due g ∨ claim = .owner ∧ g = g0)) (hclaim : claim ≠ .owner) :
    Owes X w due :=
  owes_imp h (fun _ hg => hg.resolve_right (fun ho => hclaim ho.1))

theorem steady_deadline (deadline : ℕ) : Steady X due (deadlinePassed (backend X D) deadline) :=
  steady_bind steady_clock (fun _ => steady_pure _)

theorem steady_oneDeadline (deadline : ℕ) :
    Steady X due (oneDeadlinePassed (backend X D) deadline) :=
  steady_ite (steady_pure _) (steady_deadline deadline)

theorem steady_exceeded (cfg : WorkerSettings) (started : ℕ) :
    Steady X due (waitExceeded (backend X D) cfg started) :=
  steady_bind steady_clock (fun _ => steady_pure _)

theorem steady_retryExpired (cfg : WorkerSettings) (started left : ℕ) :
    Steady X due (retryExpired (backend X D) cfg started left) :=
  steady_ite (steady_exceeded cfg started) (steady_pure _)

theorem oneTimeout_owes (cfg : WorkerSettings) (deadline : ℕ) {w : World} (h : Owes X w due) :
    Ensures (oneTimeout (backend X D) cfg deadline) w (fun _ w' => Owes X w' due)
      Never := by
  have hclock : Ensures (clock (backend X D)) w (fun _ w' => Owes X w' due) Never :=
    passTime_owes h
  refine ensures_ite.mpr ⟨fun _ => h,fun _ => ?_⟩
  refine ensures_seq hclock (fun _ _ h => ?_)
  exact ensures_ite.mpr ⟨fun _ => h,fun _ => h⟩

theorem steady_mappingCurrent (m : WorkerMapping D) :
    Steady X due (ensureMappingCurrent (backend X D) m) :=
  steady_bind (steady_call (fun _ h => passTime_owes h)) (fun _ =>
    steady_ite (steady_throw _) (steady_pure _))

theorem steady_readRow (m : WorkerMapping D) (keyValues : List D) :
    Steady X due (readRow (backend X D) m keyValues) := by
  refine steady_bind (steady_mappingCurrent m) (fun _ => ?_)
  refine steady_bind (steady_enter (fun _ h => passTime_owes h)) (fun row => ?_)
  refine steady_bind (steady_mappingCurrent m) (fun _ => ?_)
  cases row with
  | none => exact steady_pure _
  | some row =>
    dsimp only
    cases sourceRowJson row with
    | none => exact steady_throw _
    | some json => exact steady_pure _

theorem steady_lookupOne (S : Server D) (m : WorkerMapping D) (key : Bytes) :
    Steady X due (lookupOne S (backend X D) m key) := by
  refine steady_bind (steady_lookup m key) (fun found => ?_)
  cases found.result with
  | miss => exact steady_pure _
  | negative => exact steady_pure _
  | value bytes =>
    dsimp only
    cases cachedRowJson S m bytes with
    | some json => exact steady_pure _
    | none =>
      exact steady_bind (steady_invalidate m key) (fun _ =>
        steady_bind (steady_lookup m key) (fun _ => steady_pure _))

end Steady

/-! The read of one key. -/

def loadDue (X : Site) (m : Mapping) (key : Bytes) (token : ReadToken) : Option ℕ → Lease → Prop
  | none => nothing
  | some loadId => fun g => g = leaseOn X m key token loadId

def waitDue (X : Site) (m : Mapping) (key : Bytes) : WaitEnd → Lease → Prop
  | .reply _ => nothing
  | .read token load => loadDue X m key token load

section One

variable {X : Site} {D : Type} (S : Server D) (cfg : WorkerSettings) (m : WorkerMapping D)
  (key : Bytes) {w : World}

def Parked (X : Site) (m : WorkerMapping D) (key : Bytes) (ended : WaitEnd) (w : World) : Prop :=
  Owes X w (waitDue X m.cache key ended)

def Cleared {ε : Type} (X : Site) (_ : ε) (w : World) : Prop := Owes X w nothing

theorem waitRound_parked (deadline started : ℕ) (claim : LoadClaim)
    (next : ReadToken → WorldM World WaitEnd) (h : Owes X w nothing)
    (hnext : ∀ token w', Owes X w' nothing →
      Ensures (next token) w' (Parked X m key) (Cleared X)) :
    Ensures (waitRound S (backend X D) cfg m key deadline started claim next) w (Parked X m key)
      (Cleared X) := by
  refine ensures_seq (steady_lookupOne S m key w h) (fun found w1 h1 => ?_)
  cases found with
  | answer element => exact h1
  | stale token =>
    refine ensures_seq (steady_oneDeadline deadline w1 h1) (fun late w2 h2 => ?_)
    refine ensures_ite.mpr ⟨fun _ => h2,fun _ => ?_⟩
    refine ensures_seq (steady_exceeded cfg started w2 h2) (fun ended w3 h3 => ?_)
    exact ensures_ite.mpr ⟨fun _ => h3,fun _ => hnext token w3 h3⟩
  | miss token =>
    refine ensures_seq (steady_exceeded cfg started w1 h1) (fun ended w2 h2 => ?_)
    refine ensures_ite.mpr ⟨fun _ => h2,fun _ => ensures_ite.mpr ⟨fun _ => ?_,fun _ => ?_⟩⟩
    · exact ensures_seq (steady_wait w2 h2) (fun _ w3 h3 => hnext token w3 h3)
    · exact hnext token w2 h2

theorem waitLoop_parked (deadline started rounds retries : ℕ) (token : ReadToken)
    (h : Owes X w nothing) :
    Ensures (waitLoop S (backend X D) cfg m key deadline started rounds retries token) w
      (Parked X m key) (Cleared X) := by
  induction rounds generalizing retries token w with
  | zero => exact h
  | succ rounds ih =>
    refine ensures_seq (steady_oneDeadline deadline w h) (fun late w1 h1 => ?_)
    refine ensures_ite.mpr ⟨fun _ => h1,fun _ => ?_⟩
    refine ensures_seq (ensures_mono (claim_owes m key token h1) (fun _ _ h => h)
      (fun _ _ hf => hf.elim)) (fun claim w2 h2 => ?_)
    obtain ⟨claim,loadId⟩ := claim
    cases claim with
    | owner => exact owes_imp h2 (fun g hg => (hg.resolve_left id).2)
    | bypass => exact unclaimed h2 (by simp)
    | wait =>
      exact waitRound_parked S cfg m key deadline started .wait _ (unclaimed h2 (by simp))
        (fun _ _ h => ih _ _ h)
    | retry =>
      refine ensures_ite.mpr ⟨fun _ => unclaimed h2 (by simp),fun _ => ?_⟩
      exact waitRound_parked S cfg m key deadline started .retry _ (unclaimed h2 (by simp))
        (fun _ _ h => ih _ _ h)

theorem enterWait_parked (deadline : ℕ) (h : Owes X w nothing) :
    Ensures (enterWait S (backend X D) cfg m key deadline) w (Parked X m key) (Cleared X) := by
  have hcall : Steady X nothing (call (backend X D).cacheIsEnabled) :=
    steady_call (fun _ h => passTime_owes h)
  refine ensures_seq (hcall w h) (fun enabled w1 h1 => ?_)
  refine ensures_ite.mpr ⟨fun _ => ?_,fun _ => h1⟩
  refine ensures_seq (steady_lookupOne S m key w1 h1) (fun found w2 h2 => ?_)
  have hloop : ∀ token, Ensures (do
      let started ← clock (backend X D)
      waitLoop S (backend X D) cfg m key deadline started cfg.waitRounds 0 token) w2
      (Parked X m key) (Cleared X) := fun token =>
    ensures_seq (steady_clock w2 h2) (fun started w3 h3 =>
      waitLoop_parked S cfg m key deadline started cfg.waitRounds 0 token h3)
  cases found with
  | answer element => exact h2
  | stale token => exact hloop token
  | miss token => exact hloop token

theorem releaseOne_cleared (token : ReadToken) (load : Option ℕ)
    (h : Owes X w (loadDue X m.cache key token load)) :
    Ensures (releaseOne (backend X D) m key token load) w (Cleared X) (Cleared X) := by
  cases load with
  | none => exact h
  | some loadId =>
    show Owes X (passTime X (cacheReleaseLoad X m.cache key token loadId w)) nothing
    refine passTime_owes (owes_imp (cacheReleaseLoad_owes m.cache key token loadId h) ?_)
    exact fun g hg => hg.2 hg.1

theorem store_due (token : ReadToken) (value : Option Bytes) (loadId sourceXmin : ℕ)
    {due : Lease → Prop} :
    Steady X due (call ((backend X D).cacheStore m key token value loadId sourceXmin)) :=
  steady_call (fun _ h => passTime_owes
    (owes_imp (cacheStore_owes m.cache key token value loadId sourceXmin h) (fun _ hd => hd.1)))

theorem readAndStore_cleared (keyValues : List D) (timeoutMs : ℕ) (token : ReadToken)
    (load : Option ℕ) (h : Owes X w (loadDue X m.cache key token load)) :
    Ensures (readAndStore S (backend X D) m key keyValues timeoutMs token load) w (Cleared X)
      (fun _ w' => Owes X w' (loadDue X m.cache key token load)) := by
  refine ensures_seq (steady_begin timeoutMs _ w h) (fun locked w1 h1 => ?_)
  have hrelease : ∀ {w'} (a : Option (Option Bytes)), Owes X w' (loadDue X m.cache key token load) →
      Ensures (do
        releaseOne (backend X D) m key token load
        pure a) w' (Cleared X) (fun _ w' => Owes X w' (loadDue X m.cache key token load)) := by
    intro w' a h'
    refine ensures_seq (ensures_mono (releaseOne_cleared m key token load h') (fun _ _ h => h) ?_)
      (fun _ w'' h'' => h'')
    exact fun _ _ h => owes_imp h (fun _ hf => hf.elim)
  refine ensures_ite.mpr ⟨fun _ => hrelease none h1,fun _ => ?_⟩
  refine ensures_seq (steady_readRow m keyValues w1 h1) (fun row w2 h2 => ?_)
  refine ensures_seq (steady_commit w2 h2) (fun _ w3 h3 => ?_)
  cases load with
  | none => exact hrelease _ h3
  | some loadId =>
    cases row with
    | none =>
      dsimp only
      exact ensures_seq (store_due m key token none loadId 0 w3 h3) (fun _ w4 h4 => hrelease _ h4)
    | some row =>
      dsimp only
      cases encodePayload S m row.1 with
      | none => exact hrelease _ h3
      | some payload =>
        exact ensures_seq (store_due m key token (some payload) loadId row.2 w3 h3)
          (fun _ w4 h4 => hrelease _ h4)

/-- The read of one key starts and ends with nothing due, also where it raises. -/
theorem commandMgetOne_cleared (keyValues : List D) (deadline : ℕ) :
    Steady X nothing (commandMgetOne S (backend X D) cfg m key keyValues deadline) := by
  intro w h
  refine ensures_seq (steady_oneDeadline deadline w h) (fun late w1 h1 => ?_)
  refine ensures_ite.mpr ⟨fun _ => h1,fun _ => ?_⟩
  refine ensures_seq (enterWait_parked S cfg m key deadline h1) (fun waited w2 h2 => ?_)
  cases waited with
  | reply element => exact h2
  | read token load =>
    refine ensures_seq (ensures_mono (oneTimeout_owes cfg deadline h2) (fun _ _ h => h)
      (fun _ _ hf => hf.elim)) (fun timeout w3 h3 => ?_)
    cases timeout with
    | none => exact ensures_seq (releaseOne_cleared m key token load h3) (fun _ _ h => h)
    | some timeoutMs =>
      refine ensures_seq (ensures_tryCatch
        (readAndStore_cleared S m key keyValues timeoutMs token load h3) (fun e w4 h4 => ?_))
        (fun row w4 h4 => ?_)
      · exact ensures_seq (releaseOne_cleared m key token load h4) (fun _ _ h => h)
      · cases row with
        | none => exact h4
        | some row =>
          cases row with
          | none => exact h4
          | some json => exact h4

end One

/-! The sweeps over the items. -/

section Items

variable {X : Site} {D : Type}

def itemLease (X : Site) (item : MgetItem D) : Lease :=
  leaseOn X item.mapping.cache item.canonical item.token item.loadId

def dues (X : Site) (items : List (MgetItem D)) : Lease → Prop := fun g =>
  ∃ item ∈ items, item.ownsLoad = true ∧ itemLease X item = g

def Owed (X : Site) (s : MgetFrame World D) : Prop := Owes X s.world (dues X s.items)

def Idle (items : List (MgetItem D)) : Prop := ∀ item ∈ items, item.ownsLoad = false

variable {s : MgetFrame World D} {w : World} {i : ℕ} {item item' : MgetItem D}
  {items : List (MgetItem D)}

theorem owes_idle (h : Owes X w (dues X items)) (hidle : Idle items) : Owes X w nothing := by
  refine owes_imp h ?_
  rintro g ⟨item,hmem,howns,-⟩
  rw [hidle item hmem] at howns
  cases howns

theorem idle_owes (h : Owes X w nothing) : Owes X w (dues X items) :=
  owes_imp h (fun _ hf => hf.elim)

theorem dues_set (item' : MgetItem D) {g : Lease} (hget : items[i]? = some item)
    (h : dues X items g) :
    dues X (items.set i item') g ∨ (item.ownsLoad = true ∧ itemLease X item = g) := by
  obtain ⟨old,hmem,howns,hlease⟩ := h
  obtain ⟨j,hj⟩ := List.mem_iff_getElem?.mp hmem
  by_cases hij : i = j
  · subst hij
    rw [hget] at hj
    cases hj
    exact Or.inr ⟨howns,hlease⟩
  · refine Or.inl ⟨old,List.mem_of_getElem? (i := j) ?_,howns,hlease⟩
    rw [List.getElem?_set_ne hij, hj]

theorem owes_set (item' : MgetItem D) (hget : items[i]? = some item) (h : Owes X w (dues X items))
    (hkeep : item.ownsLoad = true → item'.ownsLoad = true ∧ itemLease X item' = itemLease X item) :
    Owes X w (dues X (items.set i item')) := by
  refine owes_imp h (fun g hg => ?_)
  rcases dues_set item' hget hg with hset | ⟨howns,rfl⟩
  · exact hset
  · obtain ⟨howns',hlease⟩ := hkeep howns
    exact ⟨item',List.mem_set (List.getElem?_eq_some_iff.mp hget).1 _,howns',hlease⟩

theorem idle_set (hidle : Idle items) (hitem : item'.ownsLoad = false) :
    Idle (items.set i item') := by
  intro x hx
  rcases List.mem_or_eq_of_mem_set hx with hx | rfl
  · exact hidle x hx
  · exact hitem

theorem turned_owed {stop : MgetFrame World D → Bool} {Done : MgetItem D → Prop}
    {s' : MgetFrame World D} (howed : Owes X s'.world (dues X s'.items))
    (hset : s'.items = s.items.set i item') (hdone : Done item') :
    Turned stop (Owed X) Done s i s' := ⟨howed,item',hset,fun _ => hdone⟩

variable (S : Server D) (cfg : WorkerSettings)

theorem quietLookup_owes {due : Lease → Prop} (item : MgetItem D) (h : Owes X w due) :
    Ensures (mgetQuietLookup S (backend X D) item) w (fun found w' =>
      Owes X w' due ∧ found.2.ownsLoad = item.ownsLoad) Never := by
  have hlookup : ∀ {w'}, Owes X w' due → Ensures (call ((backend X D).cacheLookupQuiet item.mapping
      item.canonical)) w' (fun _ w'' => Owes X w'' due) Never :=
    fun h' => passTime_owes (cacheLookupInternal_owes _ _ h')
  refine ensures_seq (hlookup h) (fun found w1 h1 => ?_)
  cases found.result with
  | miss => exact ⟨h1,rfl⟩
  | negative => exact ⟨h1,rfl⟩
  | value bytes =>
    dsimp only
    cases cachedRowJson S item.mapping bytes with
    | some json => exact ⟨h1,rfl⟩
    | none =>
      have hinvalid : Ensures (call ((backend X D).cacheInvalidateKey item.mapping item.canonical))
          w1 (fun _ w' => Owes X w' due) Never :=
        passTime_owes (lockedSection_owes h1 true _ _ (by simp))
      exact ensures_seq hinvalid (fun _ w2 h2 => ensures_seq (hlookup h2) (fun _ w3 h3 => ⟨h3,rfl⟩))

theorem lookupItem_owed {E : PgError → MgetFrame World D → Prop} (hget : s.items[i]? = some item)
    (hitem : item.ownsLoad = false) (h : Owed X s) :
    Ensures (lookupItem S (backend X D) i item) s
      (fun _ s' => Turned hasFailed (Owed X) (fun x => x.ownsLoad = false) s i s') E := by
  refine ensures_ite.mpr ⟨fun _ => ?_,fun _ => ?_⟩
  · refine onWorld_sure (quietLookup_owes S item h) ?_
    rintro found w' ⟨h',howns⟩
    have hset := owes_set found.2 hget h' (fun ho => by rw [hitem] at ho; cases ho)
    rw [ensures_bind, ensures_setItem]
    refine ensures_ite.mpr ⟨fun _ => ?_,fun _ => ?_⟩
    · exact turned_owed hset rfl (howns.trans hitem)
    · exact turned_owed hset rfl (howns.trans hitem)
  · exact turned_owed h (set_self _ _ _ hget).symm hitem

/-- The claims of an item: the load it may come to own is its own. -/
theorem claimLoop_owed (deadline started left : ℕ) (item : MgetItem D) {old : MgetItem D}
    (hget : s.items[i]? = some old) (hold : old.ownsLoad = false) (hitem : item.ownsLoad = false)
    (h : Owed X s) : Ensures (claimLoop S (backend X D) cfg deadline started i left item) s
      (fun _ s' => Turned hasFailed (Owed X) (fun _ => True) s i s') (fun _ s' => Owed X s') := by
  induction left generalizing s item old with
  | zero => exact turned_owed h (set_self _ _ _ hget).symm trivial
  | succ left ih =>
    have hfree : ∀ {w'} (x : MgetItem D), Owes X w' (dues X s.items) →
        Owes X w' (dues X (s.items.set i x)) := fun x h' =>
      owes_set x hget h' (fun ho => by rw [hold] at ho; cases ho)
    unfold claimLoop
    refine onWorld_seq (steady_deadline deadline s.world h) (fun late w1 h1 => ?_)
    refine ensures_ite.mpr ⟨fun _ => ?_,fun _ => ?_⟩
    · exact turned_owed h1 (set_self _ _ _ hget).symm trivial
    refine onWorld_seq (steady_retryExpired cfg started (left+1) w1 h1) (fun slow w2 h2 => ?_)
    refine ensures_ite.mpr ⟨fun _ => ?_,fun _ => ?_⟩
    · exact turned_owed h2 (set_self _ _ _ hget).symm trivial
    refine onWorld_sure (claim_owes item.mapping item.canonical item.token h2) ?_
    rintro ⟨claim,loadId⟩ w3 h3
    cases claim with
    | owner =>
      refine turned_owed (owes_imp h3 (fun g hg => ?_)) rfl trivial
      rcases hg with hg | ⟨-,rfl⟩
      · exact (dues_set _ hget hg).resolve_right (fun ho => by rw [hold] at ho; cases ho.1)
      · exact ⟨_,List.mem_set (List.getElem?_eq_some_iff.mp hget).1 _,rfl,rfl⟩
    | bypass => exact turned_owed (hfree _ (unclaimed h3 (by simp))) rfl trivial
    | wait => exact turned_owed (hfree _ (unclaimed h3 (by simp))) rfl trivial
    | retry =>
      have h3' := unclaimed h3 (by simp)
      refine ensures_ite.mpr ⟨fun _ => turned_owed (hfree _ h3') rfl trivial,fun _ => ?_⟩
      refine onWorld_sure (quietLookup_owes S _ h3') ?_
      rintro found w4 ⟨h4,howns⟩
      rw [ensures_bind, ensures_setItem]
      refine ensures_ite.mpr ⟨fun _ => turned_owed (hfree _ h4) rfl trivial,fun _ => ?_⟩
      have hlt := (List.getElem?_eq_some_iff.mp hget).1
      refine ensures_imp (ih found.2 (List.getElem?_set_self hlt) (howns.trans hitem)
        (howns.trans hitem) (hfree _ h4)) ?_
      rintro _ s' ⟨howed,x,hset,-⟩
      exact turned_owed howed (hset.trans (List.set_set _)) trivial

theorem claimItem_owed (deadline : ℕ) (hget : s.items[i]? = some item)
    (hitem : item.ownsLoad = false) (h : Owed X s) :
    Ensures (claimItem S (backend X D) cfg deadline i item) s
      (fun _ s' => Turned hasFailed (Owed X) (fun _ => True) s i s') (fun _ s' => Owed X s') := by
  unfold claimItem
  refine onWorld_seq (steady_clock s.world h) (fun started w1 h1 => ?_)
  refine ensures_ite.mpr ⟨fun _ => ?_,fun _ => ?_⟩
  · exact turned_owed h1 (set_self _ _ _ hget).symm trivial
  · exact claimLoop_owed S cfg deadline started maxLoadRetries item (s := { s with world := w1 })
      hget hitem hitem h1

theorem readItem_owed (deadline : ℕ) (hget : s.items[i]? = some item) (h : Owed X s) :
    Ensures (readItem S (backend X D) deadline i item) s
      (fun _ s' => Turned hasFailed (Owed X) (fun _ => True) s i s') (fun _ s' => Owed X s') := by
  refine ensures_ite.mpr ⟨fun _ => turned_owed h (set_self _ _ _ hget).symm trivial,fun _ => ?_⟩
  refine onWorld_seq (steady_deadline deadline s.world h) (fun late w1 h1 => ?_)
  refine ensures_ite.mpr ⟨fun _ => turned_owed h1 (set_self _ _ _ hget).symm trivial,fun _ => ?_⟩
  have hread : Ensures (mgetReadOne S (backend X D) item) w1 (fun x w' =>
      Owes X w' (dues X s.items) ∧ x.ownsLoad = item.ownsLoad ∧ itemLease X x = itemLease X item)
      (fun _ w' => Owes X w' (dues X s.items)) := by
    refine ensures_seq (steady_readRow item.mapping item.keyValues w1 h1) (fun row w2 h2 => ?_)
    cases row with
    | none => exact ⟨h2,rfl,rfl⟩
    | some row => exact ⟨h2,rfl,rfl⟩
  rw [ensures_bind, ensures_onWorld]
  refine ensures_imp hread ?_
  rintro x w2 ⟨h2,howns,hlease⟩
  exact turned_owed (owes_set x hget h2 (fun ho => ⟨howns.trans ho,hlease⟩)) rfl trivial

theorem dues_prepared {g : Lease} (h : dues X items g) : dues X (items.map prepareItem) g := by
  obtain ⟨item,hmem,howns,hlease⟩ := h
  have hkeep : (prepareItem item).ownsLoad = item.ownsLoad ∧
      itemLease X (prepareItem item) = itemLease X item := by
    unfold prepareItem
    split
    · exact ⟨rfl,rfl⟩
    split <;> exact ⟨rfl,rfl⟩
  exact ⟨prepareItem item,List.mem_map_of_mem hmem,hkeep.1.trans howns,hkeep.2.trans hlease⟩

theorem readItems_owed (deadline : ℕ) (h : Owed X s) :
    Ensures (readItems S (backend X D) cfg deadline) s (fun _ s' => Owed X s')
      (fun _ s' => Owed X s') := by
  unfold readItems
  refine onWorld_seq (steady_clock s.world h) (fun now w1 h1 => ?_)
  refine ensures_ite.mpr ⟨fun _ => h1,fun _ => ?_⟩
  rw [ensures_bind, ensures_get, ensures_bind, ensures_onWorld]
  refine ensures_imp (steady_begin _ _ w1 h1) (fun locked w2 h2 => ?_)
  refine ensures_ite.mpr ⟨fun _ => h2,fun _ => ?_⟩
  rw [ensures_bind, ensures_modify]
  refine ensures_seq (ensures_overItems (Owed X) (fun _ => True) (fun _ => True)
    (fun s i item hinv _ hget _ => readItem_owed S deadline hget hinv) _ h2 (fun _ _ => trivial)) ?_
  rintro _ s3 ⟨h3,-⟩
  rw [ensures_bind, ensures_modify, ensures_bind, ensures_onWorld]
  refine ensures_imp (steady_commit s3.world h3) (fun _ w4 h4 => ?_)
  rw [ensures_bind, ensures_get]
  refine ensures_ite.mpr ⟨fun _ => h4,fun _ => ?_⟩
  rw [ensures_bind, ensures_set, ensures_bind, ensures_onWorld]
  have hprepared := owes_imp h4 (fun g hg => dues_prepared hg)
  refine ensures_imp (steady_deadline deadline w4 hprepared) (fun late w5 h5 => ?_)
  exact ensures_ite.mpr ⟨fun _ => h5,fun _ => h5⟩

theorem owes_ended (hget : items[i]? = some item)
    (h : Owes X w (fun g => dues X items g ∧ g ≠ itemLease X item)) :
    Owes X w (dues X (items.set i { item with ownsLoad := false })) :=
  owes_imp h (fun _ hg => (dues_set _ hget hg.1).resolve_right (fun ho => hg.2 ho.2.symm))

theorem release_owes (item : MgetItem D) {due : Lease → Prop} (h : Owes X w due) :
    Ensures (perform ((backend X D).cacheReleaseLoad item.mapping item.canonical item.token
      item.loadId)) w (fun _ w' => Owes X w' (fun g => due g ∧ g ≠ itemLease X item))
      Never :=
  passTime_owes (cacheReleaseLoad_owes item.mapping.cache item.canonical item.token item.loadId h)

theorem releaseItem_owed {E : PgError → MgetFrame World D → Prop} (hget : s.items[i]? = some item)
    (h : Owed X s) : Ensures (releaseItem (backend X D) i item) s
      (fun _ s' => Turned (fun _ => false) (Owed X) (fun x => x.ownsLoad = false) s i s') E := by
  refine ensures_ite.mpr ⟨fun _ => ?_,fun howns => ?_⟩
  · refine onWorld_sure (release_owes item h) (fun _ w1 h1 => ?_)
    exact ⟨owes_ended hget h1,_,rfl,fun _ => rfl⟩
  · exact ⟨h,item,(set_self _ _ _ hget).symm,fun _ => by simpa using howns⟩

theorem releaseClaims_owed {E : PgError → MgetFrame World D → Prop} (h : Owed X s) :
    Ensures (mgetReleaseClaims (backend X D)) s (fun _ s' => Owes X s'.world nothing) E := by
  refine ensures_imp (ensures_overItems (Owed X) (fun _ => True) (fun x => x.ownsLoad = false)
    (fun s i item hinv _ hget _ => releaseItem_owed hget hinv) s h (fun _ _ => trivial)) ?_
  rintro _ s' ⟨howed,hidle⟩
  exact owes_idle howed (hidle rfl)

theorem storeResult_owes (item : MgetItem D) {due : Lease → Prop} (h : Owes X w due) :
    Ensures (storeResult (backend X D) item) w (fun stored w' =>
      Owes X w' (fun g => due g ∧ (stored = true → g ≠ itemLease X item))) Never := by
  refine ensures_ite.mpr ⟨fun _ => ?_,fun _ => ?_⟩
  · exact passTime_owes (cacheStore_owes item.mapping.cache item.canonical item.token none
      item.loadId 0 h)
  · cases item.payload with
    | none => exact owes_imp h (fun _ hd => ⟨hd,fun hf => nomatch hf⟩)
    | some payload =>
      exact passTime_owes (cacheStore_owes item.mapping.cache item.canonical item.token
        (some payload) item.loadId item.databaseXmin h)

theorem storeItem_owed {E : PgError → MgetFrame World D → Prop} (hget : s.items[i]? = some item)
    (h : Owed X s) : Ensures (storeItem (backend X D) i item) s
      (fun _ s' => Turned (fun _ => false) (Owed X) (fun x => x.ownsLoad = false) s i s') E := by
  refine ensures_ite.mpr ⟨fun howns => ?_,fun _ => ?_⟩
  · exact ⟨h,item,(set_self _ _ _ hget).symm,fun _ => by simpa using howns⟩
  refine onWorld_sure (storeResult_owes item h) (fun stored w1 h1 => ?_)
  refine ensures_ite.mpr ⟨fun hstored => ?_,fun _ => ?_⟩
  · exact ⟨owes_ended hget (owes_imp h1 (fun _ hg => ⟨hg.1,hg.2 hstored⟩)),_,rfl,fun _ => rfl⟩
  · refine onWorld_sure (release_owes item h1) (fun _ w2 h2 => ?_)
    exact ⟨owes_ended hget (owes_imp h2 (fun _ hg => ⟨hg.1.1,hg.2⟩)),_,rfl,fun _ => rfl⟩

/-- Unless the request has failed, no item owns a load behind the stores. -/
structure Stored (X : Site) (s : MgetFrame World D) : Prop where
  owed : Owed X s
  idle : hasFailed s = false → Idle s.items

theorem storePhase_stored {E : PgError → MgetFrame World D → Prop} (h : Owed X s) :
    Ensures (storePhase (backend X D)) s (fun _ s' => Stored X s') E := by
  unfold storePhase
  rw [ensures_bind, ensures_get]
  refine ensures_ite.mpr ⟨fun hfailed => ⟨h,fun hf => ?_⟩,fun _ => ?_⟩
  · rw [hfailed] at hf
    cases hf
  · refine ensures_imp (ensures_overItems (Owed X) (fun _ => True) (fun x => x.ownsLoad = false)
      (fun s i item hinv _ hget _ => storeItem_owed hget hinv) s h (fun _ _ => trivial)) ?_
    rintro _ s' ⟨howed,hidle⟩
    exact ⟨howed,fun _ => hidle rfl⟩

theorem waitItem_stored (deadline : ℕ) (hget : s.items[i]? = some item) (hrun : isStopped s = false)
    (h : Stored X s) : Ensures (waitItem S (backend X D) cfg deadline i item) s
      (fun _ s' => Turned isStopped (Stored X) (fun _ => True) s i s') (fun _ s' => Owed X s') := by
  have hfailed : hasFailed s = false := (Bool.or_eq_false_iff.mp hrun).1
  have hidle := h.idle hfailed
  have hitem : item.ownsLoad = false := hidle item (List.mem_of_getElem? hget)
  have hnothing := owes_idle h.owed hidle
  have hturn : ∀ (x : MgetItem D) {w'} (t : Tally), x.ownsLoad = false → Owes X w' nothing →
      Turned isStopped (Stored X) (fun _ => True) s i
        ⟨w',s.items.set i x,t,s.inTransaction⟩ := fun x w' t hx h' =>
    ⟨⟨idle_owes h',fun _ => idle_set hidle hx⟩,x,rfl,fun _ => trivial⟩
  have hsame : ∀ {w'} (t : Tally), Owes X w' nothing →
      Turned isStopped (Stored X) (fun _ => True) s i ⟨w',s.items,t,s.inTransaction⟩ := by
    intro w' t h'
    have := hturn item t hitem h'
    rwa [set_self _ _ _ hget] at this
  refine ensures_ite.mpr ⟨fun _ => hsame _ hnothing,fun _ => ?_⟩
  rw [ensures_bind, ensures_onWorld]
  refine ensures_mono (steady_deadline deadline s.world hnothing) (fun late w1 h1 => ?_)
    (fun _ _ h' => idle_owes h')
  refine ensures_ite.mpr ⟨fun _ => hsame _ h1,fun _ => ?_⟩
  rw [ensures_bind, ensures_onWorld]
  refine ensures_mono (commandMgetOne_cleared S cfg item.mapping item.canonical item.keyValues
    deadline w1 h1) (fun reply w2 h2 => ?_) (fun _ _ h' => idle_owes h')
  cases reply with
  | none => exact hsame _ h2
  | some element =>
    refine ensures_ite.mpr ⟨fun _ => ?_,fun _ => ?_⟩
    · exact hturn { item with responseElement := some element } _ hitem h2
    · exact hturn { item with responseElement := some element, resultReady := true } _ hitem h2

theorem mgetObtain_stored (deadline : ℕ) (h : Owed X s) (hidle : Idle s.items) :
    Ensures (mgetObtain S (backend X D) cfg deadline) s (fun _ s' => Stored X s')
      (fun _ s' => Owed X s') := by
  unfold mgetObtain
  refine ensures_seq (ensures_overItems (Owed X) (fun x => x.ownsLoad = false) (fun _ => True)
    (fun s i item hinv _ hget hitem => claimItem_owed S cfg deadline hget hitem hinv) s h hidle) ?_
  rintro _ s1 ⟨h1,-⟩
  have hread : Ensures (readPhase S (backend X D) cfg deadline) s1 (fun _ s' => Owed X s')
      (fun _ s' => Owed X s') := by
    unfold readPhase
    rw [ensures_bind, ensures_get]
    exact ensures_ite.mpr ⟨fun _ => readItems_owed S cfg deadline h1,fun _ => h1⟩
  refine ensures_seq hread (fun _ s2 h2 => ?_)
  refine ensures_seq (storePhase_stored h2) (fun _ s3 h3 => ?_)
  refine ensures_imp (ensures_overItems (Stored X) (fun _ => True) (fun _ => True)
    (fun s i item hinv hrun hget _ => waitItem_stored S cfg deadline hget hrun hinv) s3 h3
    (fun _ _ => trivial)) ?_
  exact fun _ s' hs => hs.1

theorem mgetCleanup_cleared (e : PgError) (h : Owed X s) {Q : Unit → MgetFrame World D → Prop} :
    Ensures (mgetCleanup (backend X D) e) s Q (fun _ s' => Owes X s'.world nothing) := by
  have hrelease : ∀ s : MgetFrame World D, Owed X s → Ensures (do
      mgetReleaseClaims (backend X D)
      throw e) s Q (fun _ s' => Owes X s'.world nothing) := fun s h =>
    ensures_seq (releaseClaims_owed h) (fun _ _ h => h)
  unfold mgetCleanup
  rw [ensures_bind, ensures_get]
  refine ensures_ite.mpr ⟨fun _ => ?_,fun _ => hrelease s h⟩
  rw [ensures_bind, ensures_onWorld, ensures_perform]
  exact hrelease _ (passTime_owes h)

theorem releaseThen_cleared {α : Type} (a : α) (h : Owed X s) :
    Ensures (do
      mgetReleaseClaims (backend X D)
      pure a) s (fun _ s' => Owes X s'.world nothing) (fun _ s' => Owes X s'.world nothing) :=
  ensures_seq (releaseClaims_owed h) (fun _ _ h => h)

theorem mgetAnswer_cleared (deadline : ℕ) (slots : List ℕ) (h : Owes X s.world nothing) :
    Ensures (mgetAnswer (backend X D) deadline slots) s (fun _ s' => Owes X s'.world nothing)
      (fun _ s' => Owes X s'.world nothing) := by
  unfold mgetAnswer
  refine onWorld_seq (steady_deadline deadline s.world h) (fun late w1 h1 => ?_)
  refine ensures_ite.mpr ⟨fun _ => releaseThen_cleared _ (idle_owes h1),fun _ => ?_⟩
  rw [ensures_bind, ensures_get]
  dsimp only
  cases assemble s.items slots (arrayHeader slots.length) with
  | error e => exact h1
  | ok response =>
    cases response with
    | some response => exact h1
    | none => exact releaseThen_cleared _ (idle_owes h1)

theorem mgetServe_cleared (requestLength deadline : ℕ) (slots : List ℕ)
    (h : Owes X s.world nothing) (hidle : Idle s.items) :
    Ensures (mgetServe S (backend X D) cfg requestLength deadline slots) s
      (fun _ s' => Owes X s'.world nothing) (fun _ s' => Owes X s'.world nothing) := by
  unfold mgetServe
  refine ensures_seq (ensures_overItems (Owed X) (fun x => x.ownsLoad = false)
    (fun x => x.ownsLoad = false) (fun s i item hinv _ hget hitem =>
      lookupItem_owed S hget hitem hinv) s (idle_owes h) hidle) ?_
  rintro _ s1 ⟨h1,hidle1⟩
  rw [ensures_bind, ensures_get]
  refine ensures_ite.mpr ⟨fun _ => releaseThen_cleared _ h1,fun hrun => ?_⟩
  refine ensures_seq (ensures_tryCatch (mgetObtain_stored S cfg deadline h1
    (hidle1 (by simpa using hrun))) (fun e s2 h2 => mgetCleanup_cleared e h2)) (fun _ s2 h2 => ?_)
  rw [ensures_bind, ensures_get]
  refine ensures_ite.mpr ⟨fun _ => ?_,fun _ => ?_⟩
  · refine ensures_seq (releaseClaims_owed h2.owed) (fun _ s3 h3 => ?_)
    rw [ensures_bind, ensures_onWorld, ensures_call]
    have h4 := passTime_owes h3
    cases ((backend X D).enqueueDeferredMiss requestLength deadline s3.world).1 with
    | queued => exact h4
    | expired => exact h4
    | full => exact h4
  · cases hfailure : s2.tally.failure with
    | some failure => exact releaseThen_cleared _ h2.owed
    | none => exact mgetAnswer_cleared deadline slots (owes_idle h2.owed
        (h2.idle (by rw [hasFailed, hfailure]; rfl)))

end Items

/-! The command. -/

section Command

variable {X : Site} {D : Type} (S : Server D) (cfg : WorkerSettings) {w : World}
  {items : List (MgetItem D)}

theorem idle_modify (n : ℕ) (h : Idle items) : Idle (items.modify n countSlot) := by
  intro item hmem
  obtain ⟨j,hj⟩ := List.mem_iff_getElem?.mp hmem
  rw [List.getElem?_modify] at hj
  obtain ⟨old,hold,rfl⟩ := Option.map_eq_some_iff.mp hj
  have hfree := h old (List.mem_of_getElem? hold)
  split
  · exact hfree
  · exact hfree

theorem addKey_idle (key : ResolvedKey D) (hidle : Idle items) (h : Owes X w nothing) :
    Ensures (addKey (backend X D) key items) w (fun added w' =>
      Owes X w' nothing ∧ Idle added.1) (Cleared X) := by
  have hcall : Steady X nothing (call (backend X D).cacheIsEnabled) :=
    steady_call (fun _ h => passTime_owes h)
  refine ensures_ite.mpr ⟨fun _ => ?_,fun _ => ⟨h,idle_modify _ hidle⟩⟩
  refine ensures_seq (hcall w h) (fun enabled w1 h1 => ⟨h1,fun item hmem => ?_⟩)
  rcases List.mem_append.mp hmem with hmem | hmem
  · exact hidle item hmem
  · rw [List.mem_singleton.mp hmem]
    rfl

theorem prepareLoop_idle (mappings : List (WorkerMapping D)) (wireKeys : List Bytes)
    (slots : List ℕ) (hidle : Idle items) (h : Owes X w nothing) :
    Ensures (prepareLoop S (backend X D) mappings wireKeys items slots) w (fun prepared w' =>
      Owes X w' nothing ∧ ∀ items' slots', prepared = .ok (items',slots') → Idle items')
      (Cleared X) := by
  induction wireKeys generalizing items slots w with
  | nil =>
    refine ⟨h,fun items' slots' heq => ?_⟩
    cases heq
    exact hidle
  | cons wireKey wireKeys ih =>
    unfold prepareLoop
    cases resolveKey S mappings wireKey with
    | error fault =>
      cases fault with
      | reply message => exact ⟨h,(fun _ _ heq => by cases heq)⟩
      | raise error => exact h
    | ok key =>
      refine ensures_seq (addKey_idle key hidle h) ?_
      rintro ⟨items',slot⟩ w1 ⟨h1,hidle1⟩
      exact ih _ hidle1 h1

theorem commandMget_cleared (client : MgetClient) (mappings : List (WorkerMapping D))
    (wireKeys : List Bytes) (requestLength : ℕ) :
    Steady X nothing (commandMget S (backend X D) cfg client mappings wireKeys requestLength) := by
  intro w h
  refine ensures_seq (steady_clock w h) (fun now w1 h1 => ?_)
  refine ensures_seq (prepareLoop_idle S mappings wireKeys [] (fun _ hm => nomatch hm) h1) ?_
  rintro prepared w2 ⟨h2,hidle⟩
  cases prepared with
  | error message => exact h2
  | ok prepared =>
    obtain ⟨items,slots⟩ := prepared
    exact (ensures_withFrame _ _ _).mpr
      (mgetServe_cleared S cfg requestLength _ slots h2 (hidle items slots rfl))

end Command

/-- The world in which a request begins. -/
def opened (start : ℕ → Partition) (feed : ℕ → Moment) : World := ⟨start,[],false,feed,0⟩

/-- The log is what has happened, nothing that was granted to the request is left at its end, and
nothing was where it waited for another loader. -/
structure LeaseFree (X : Site) (w : World) : Prop where
  lawful : Lawful X.settings X.hash w.start w.log
  left : NoneLeft X.hash w.start w.log
  waits : ∀ newer older, w.log = newer++.waited::older → NoneLeft X.hash w.start older

theorem leaseFree_of_cleared {X : Site} {w : World} (h : Owes X w nothing) : LeaseFree X w :=
  ⟨h.lawful,noneLeft_of_closed h.rep h.lawful (fun p c ho => (h.due p c ho).1),h.waits⟩

/-- Whatever its calls answer and whatever others do in between, when the command returns or
raises it has left no lease behind, and it has held none where it waited. -/
theorem mget_leaves_no_lease (X : Site) {D : Type} (S : Server D) (cfg : WorkerSettings)
    (client : MgetClient) (mappings : List (WorkerMapping D)) (wireKeys : List Bytes)
    (requestLength : ℕ) (start : ℕ → Partition) (feed : ℕ → Moment)
    (hrep : ∀ p, PartRep (start p)) :
    (∀ reply w, commandMget S (backend X D) cfg client mappings wireKeys requestLength
      (opened start feed) = .ok reply w → w.raised = false → LeaseFree X w) ∧
    ∀ error w, commandMget S (backend X D) cfg client mappings wireKeys requestLength
      (opened start feed) = .error error w → w.raised = false → LeaseFree X w := by
  have hopened : Owes X (opened start feed) nothing :=
    ⟨hrep,trivial,fun _ _ ho => ho.elim,fun newer older hlog => by cases newer <;> cases hlog⟩
  have hrun := commandMget_cleared S cfg client mappings wireKeys requestLength _ hopened
  exact ⟨fun reply w hok _ => leaseFree_of_cleared (ensures_ok hrun reply w hok),
    fun error w herror _ => leaseFree_of_cleared (ensures_error hrun error w herror)⟩

/-! A read that raises behind a claim. -/

def ownGrants (log : List Mark) : List Claim := log.filterMap (fun mark =>
  match mark with
  | .locked true _ e => grantOf e
  | _ => none)

def smallSite : Site := ⟨smallSettings,fun _ => 0,fun _ => 0,1⟩

def leasedMapping : WorkerMapping Bytes := { MgetReply.plainMapping with cache := ⟨[110],7,1,1,0⟩ }

def failingMoment : Moment where
  now := 0
  enabled := true
  configGeneration := 1
  firstLookup := ⟨calmFence,calmSlot,calmFence,1⟩
  secondLookup := ⟨calmFence,calmSlot,calmFence,1⟩
  admission := ⟨fun _ => calmEvict,calmEvict,fun _ => calmEvict,fun _ => true⟩
  retireFence := calmFence
  retireSlot := calmSlot
  invalidateSlot := calmSlot
  claim := calmReads
  store := ⟨calmFence,calmFence,2,fun _ => calmEvict⟩
  observedFullXid := 9
  locked := .ok false
  row := .error ⟨[]⟩
  committed := .ok ()
  deferred := .queued
  between := []
  behind := []

def failingRun : EStateM.Result PgError World (Option Bytes) :=
  commandMget MgetReply.plainServer (backend smallSite Bytes) MgetReply.plainSettings ⟨false,0⟩
    [leasedMapping] MgetReply.spellings 0 (opened (fun _ => smallInit) (fun _ => failingMoment))

def raisedWith : EStateM.Result PgError World (Option Bytes) → Option (ℕ × Bool)
  | .ok _ _ => none
  | .error _ w => some ((ownGrants w.log).length,w.raised)

theorem failing_read_leaves_no_lease : ∃ error w, failingRun = .error error w ∧
    (ownGrants w.log).length = 1 ∧ w.raised = false ∧ LeaseFree smallSite w := by
  have hrun : raisedWith failingRun = some (1,false) := by decide +kernel
  cases hcase : failingRun with
  | ok reply w =>
    rw [hcase] at hrun
    cases hrun
  | error error w =>
    rw [hcase] at hrun
    obtain ⟨hgrants,hraised⟩ := Prod.mk.inj (Option.some.inj hrun)
    exact ⟨error,w,rfl,hgrants,hraised,(mget_leaves_no_lease smallSite MgetReply.plainServer
      MgetReply.plainSettings ⟨false,0⟩ [leasedMapping] MgetReply.spellings 0 (fun _ => smallInit)
      (fun _ => failingMoment) (fun _ => partitionInit_rep _ _ _)).2 error w hcase hraised⟩

end PgLocalCache.MgetLeases
