import PgLocalCache.MarkerExclusion

/-!
# One loader at a time

A claim is known by its token and load id. Once another event has taken the lease
away from it, the descriptor of its key has a newer version or a larger load id,
and stays so, whether it is removed and created again or not.
-/

namespace PgLocalCache.SingleFlight

open ByteMemory CacheState CacheEntries CacheOperations PartitionModel Outcome
open EntryInvariant EntryRemoval EntryEviction EntryInstall EntryStore EntrySections
open EntryReads PartitionInvariant PartitionLimits PartitionMap

structure Claim where
  tuple : KeyTuple
  token : ReadToken
  loadId : ℕ
  deriving DecidableEq, Repr

def OwnerEvent (c : Claim) (e : Event) : Prop :=
  ∃ m reads, e.op = .claim m c.tuple c.token reads ∧ e.result = .claimed .owner c.loadId

def StoreEvent (c : Claim) (e : Event) : Prop :=
  ∃ m args configGeneration reads, e.op = .store m c.tuple args configGeneration reads ∧
    args.token = c.token ∧ args.loadId = c.loadId ∧ e.result = .stored true

/-- Some store with the claim would succeed now. -/
def Storable (cfg : Settings) (hash : KeyTuple → ℕ) (P : Partition) (c : Claim) : Prop :=
  ∃ m args configGeneration reads P', args.token = c.token ∧ args.loadId = c.loadId ∧
    runOp cfg hash (.store m c.tuple args configGeneration reads) P = .ok (.stored true) P'

/-- No release with the claim changes anything now. -/
def ReleaseIdle (cfg : Settings) (hash : KeyTuple → ℕ) (P : Partition) (c : Claim) : Prop :=
  ∀ m result P', runOp cfg hash (.release m c.tuple c.token c.loadId) P = .ok result P' → P' = P

/-- The load ids of all descriptors stay away from the end of their range. -/
def LoadIdsBounded (trace : List Event) : Prop :=
  ∀ e ∈ trace, ∀ id, Live e.after id → (e.after.entries id).loadId+4 < 2^64

def KeyOf (hash : KeyTuple → ℕ) (P : Partition) (t : KeyTuple) (id : ℕ) : Prop :=
  Live P id ∧ entryId P id = requestId (requestOf hash t)

/-- The claim still has its lease. -/
def Holds (hash : KeyTuple → ℕ) (P : Partition) (c : Claim) : Prop :=
  ∃ id, KeyOf hash P c.tuple id ∧ ownsLease (P.entries id) c.token c.loadId = true

/-- The events that take the lease away from a claim; `P` is the partition before the event. -/
inductive Revokes (hash : KeyTuple → ℕ) (c : Claim) (P : Partition) (e : Event) : Prop
  | expired (id : ℕ) : Live P id → entryId P id = requestId (requestOf hash c.tuple) →
      (e.after.entries id).version ≠ (P.entries id).version → Revokes hash c P e
  | reserved (relationIncarnation : ℕ) : e.op = .reserve c.tuple relationIncarnation →
      e.result = .reserved .entry → Revokes hash c P e
  | invalidated (current : SlotReads) : e.op = .invalidateKey c.tuple current → Revokes hash c P e
  | evicted : present hash e.after c.tuple = false → Revokes hash c P e
  | stored (m : Mapping) (args : StoreArgs) (configGeneration : ℕ) (reads : StoreReads) :
      e.op = .store m c.tuple args configGeneration reads → e.result = .stored true →
      Revokes hash c P e
  | claimed (c' : Claim) : OwnerEvent c' e → c'.tuple = c.tuple → Revokes hash c P e
  | lost : ¬Holds hash e.after c → Revokes hash c P e

variable {P P' : Partition} {hash : KeyTuple → ℕ} {id : ℕ} {c : Claim}

/-- The descriptor record is past the claim, or still at it while `still` holds. -/
def PastOr (c : Claim) (e : CacheEntry) (still : Prop) : Prop :=
  c.token.keyVersion < e.version ∨ (e.version = c.token.keyVersion ∧
    (c.loadId < e.loadId ∨ (e.loadId = c.loadId ∧ (e.loading = false ∨ still))))

structure Past (hash : KeyTuple → ℕ) (P : Partition) (c : Claim) : Prop where
  generation : c.token.keyVersion ≤ P.entryGeneration
  entry : ∀ id, KeyOf hash P c.tuple id →
    PastOr c (P.entries id) (ownsLease (P.entries id) c.token c.loadId = true)

structure Dead (hash : KeyTuple → ℕ) (P : Partition) (c : Claim) : Prop where
  generation : c.token.keyVersion ≤ P.entryGeneration
  entry : ∀ id, KeyOf hash P c.tuple id → PastOr c (P.entries id) False

theorem ownsLease_iff (e : CacheEntry) (t : ReadToken) (n : ℕ) : ownsLease e t n = true ↔
    e.loading = true ∧ e.loadId = n ∧ e.globalEpoch = t.globalEpoch ∧
      e.relationVersion = t.relationVersion ∧ e.relationIncarnation = t.relationIncarnation ∧
      e.version = t.keyVersion := by
  simp only [ownsLease, Bool.and_eq_true, beq_iff_eq, and_assoc]

theorem dead_not_holds (h : Dead hash P c) : ¬Holds hash P c := by
  rintro ⟨id,hk,ho⟩
  rw [ownsLease_iff] at ho
  rcases h.entry id hk with hv | ⟨_,hv | ⟨_,hv | hf⟩⟩
  · omega
  · omega
  · rw [hv] at ho
    simp at ho
  · exact hf

theorem dead_of_lost (h : Past hash P c) (hn : ¬Holds hash P c) : Dead hash P c := by
  refine ⟨h.generation,fun id hk => ?_⟩
  rcases h.entry id hk with hv | ⟨hv,hl | ⟨hl,hf | ho⟩⟩
  · exact Or.inl hv
  · exact Or.inr ⟨hv,Or.inl hl⟩
  · exact Or.inr ⟨hv,Or.inr ⟨hl,Or.inl hf⟩⟩
  · exact absurd ⟨id,hk,ho⟩ hn

theorem bump64_iterate (n j : ℕ) (h : n+j < 2^64) : bump64^[j] n = n+j := by
  induction j with
  | zero => rfl
  | succ j ih =>
    rw [Function.iterate_succ_apply', ih (by omega), bump64, Nat.mod_eq_of_lt (by omega)]
    rfl

theorem entry_progress {op : PartOp} {res : OpResult} {t : KeyTuple} (hr : PartRep P)
    (hs : OpStep hash op res P P') (hk : KeyOf hash P' t id) :
    P.entryGeneration < (P'.entries id).version ∨ (KeyOf hash P t id ∧ Lapse P P' id) ∨
    (KeyOf hash P t id ∧ ∃ token loadId, Leased P P' id token loadId) := by
  obtain ⟨hl,hid⟩ := hk
  obtain ⟨target,hframe,htarget⟩ := hs.entry
  by_cases hx : id = target
  · subst hx
    cases htarget with
    | gone _ hdead => exact absurd hl hdead
    | lapse _ hlx hlap => exact Or.inr (Or.inl ⟨⟨hlx,hlap.ident.symm.trans hid⟩,hlap⟩)
    | created _ _ _ _ _ _ _ _ _ hc _ =>
      obtain ⟨_,v,h1,_,he⟩ := hc.fresh
      rw [he]
      exact Or.inl h1
    | leased _ _ token _ loadId _ _ _ hlx _ hle =>
      exact Or.inr (Or.inr ⟨⟨hlx,hle.ident.symm.trans hid⟩,token,loadId,hle⟩)
    | filled _ _ _ _ _ _ _ _ _ _ _ hf => exact Or.inl hf.version
  · have hsurv := hframe.survive id hx hl
    exact Or.inr (Or.inl ⟨⟨hsurv.live,(survives_entryId hr.entries hsurv).symm.trans hid⟩,
      survives_lapse hr.entries hsurv⟩)

theorem generation_le {op : PartOp} {res : OpResult} (hs : OpStep hash op res P P') :
    P.entryGeneration ≤ P'.entryGeneration := by
  obtain ⟨_,hframe,_⟩ := hs.entry
  exact hframe.generation

theorem leased_past {token : ReadToken} {loadId : ℕ} {still still' : Prop}
    (hw : (P.entries id).loadId+4 < 2^64) (hle : Leased P P' id token loadId)
    (h : PastOr c (P.entries id) still) : PastOr c (P'.entries id) still' := by
  obtain ⟨j,h0,h4,hj⟩ := hle.next
  rw [bump64_iterate _ _ (by omega)] at hj
  have hown := (ownsLease_iff _ _ _).mp hle.owns
  rcases h with hv | ⟨hv,hl⟩
  · exact Or.inl (by rw [hle.version]; exact hv)
  · have hge : c.loadId ≤ (P.entries id).loadId := by
      rcases hl with hl | ⟨hl,_⟩ <;> omega
    exact Or.inr ⟨by rw [hle.version]; exact hv,Or.inl (by omega)⟩

theorem lapse_past {still still' : Prop} (hw : (P.entries id).loadId+4 < 2^64)
    (hlap : Lapse P P' id) (hgen : c.token.keyVersion ≤ P.entryGeneration)
    (hstill : SameLease (P'.entries id) (P.entries id) → still → still')
    (h : PastOr c (P.entries id) still) : PastOr c (P'.entries id) still' := by
  rcases hlap.version with hsame | hnew
  · obtain ⟨j,h4,hj⟩ := hlap.loadId hsame
    rw [bump64_iterate _ _ (by omega)] at hj
    rcases h with hv | ⟨hv,hl | ⟨hl,hrest⟩⟩
    · exact Or.inl (by omega)
    · exact Or.inr ⟨by omega,Or.inl (by omega)⟩
    · by_cases hz : j = 0
      · refine Or.inr ⟨by omega,Or.inr ⟨by omega,?_⟩⟩
        by_cases hload : (P'.entries id).loading = true
        · have hlease := hlap.loading hload
          rcases hrest with hf | hs
          · rw [hlease.loading, hf] at hload
            simp at hload
          · exact Or.inr (hstill hlease hs)
        · exact Or.inl (by simpa using hload)
      · exact Or.inr ⟨by omega,Or.inl (by omega)⟩
  · exact Or.inl (by omega)

theorem sameLease_owns {e e' : CacheEntry} {t : ReadToken} {n : ℕ} (h : SameLease e' e)
    (ho : ownsLease e t n = true) : ownsLease e' t n = true := by
  rw [ownsLease_iff] at ho ⊢
  rwa [h.loading, h.loadId, h.globalEpoch, h.relationVersion, h.relationIncarnation, h.version]

section Step

variable {op : PartOp} {res : OpResult} (hr : PartRep P) (hs : OpStep hash op res P P')
  (hw : ∀ id, Live P id → (P.entries id).loadId+4 < 2^64)

include hr hs hw

theorem past_step (h : Past hash P c) : Past hash P' c := by
  refine ⟨h.generation.trans (generation_le hs),fun id hk => ?_⟩
  rcases entry_progress hr hs hk with hnew | ⟨hk',hlap⟩ | ⟨hk',token,loadId,hle⟩
  · exact Or.inl (lt_of_le_of_lt h.generation hnew)
  · exact lapse_past (hw id hk'.1) hlap h.generation sameLease_owns (h.entry id hk')
  · exact leased_past (hw id hk'.1) hle (h.entry id hk')

theorem dead_step (h : Dead hash P c) : Dead hash P' c := by
  refine ⟨h.generation.trans (generation_le hs),fun id hk => ?_⟩
  rcases entry_progress hr hs hk with hnew | ⟨hk',hlap⟩ | ⟨hk',token,loadId,hle⟩
  · exact Or.inl (lt_of_le_of_lt h.generation hnew)
  · exact lapse_past (hw id hk'.1) hlap h.generation (fun _ hf => hf) (h.entry id hk')
  · exact leased_past (hw id hk'.1) hle (h.entry id hk')

end Step

theorem target_of_key {t : KeyTuple} {target : ℕ} (hr : PartRep P) (hframe : EntryFrame P P' target)
    (ht : KeyOf hash P t target) (hk : KeyOf hash P' t id) : id = target := by
  by_contra hx
  have hsurv := hframe.survive id hx hk.1
  exact hx (hr.entries.unique id target hsurv.live ht.1
    ((survives_entryId hr.entries hsurv).symm.trans (hk.2.trans ht.2.symm)))

theorem owner_past {e : Event} (hr : PartRep P) (hs : OpStep hash e.op e.result P e.after)
    (ho : OwnerEvent c e) : Past hash e.after c ∧ c.tuple.key.length < keyMax := by
  obtain ⟨m,reads,hop,hres⟩ := ho
  rw [hop, hres] at hs
  obtain ⟨target,hframe,htarget⟩ := hs.entry
  cases htarget with
  | gone hq _ => exact absurd rfl (hq.2 _)
  | lapse hq _ _ => exact absurd rfl (hq.2 _)
  | created _ _ _ _ _ _ hop' => cases hop'
  | filled _ _ _ _ _ hop' => cases hop'
  | leased _ t token _ loadId hop' hres' hshort hl hid hle =>
    cases hop'
    cases hres'
    have hown := (ownsLease_iff _ _ _).mp hle.owns
    refine ⟨⟨?_,fun id hk => ?_⟩,hshort⟩
    · rw [← hown.2.2.2.2.2, hle.version]
      exact (hr.entries.versions target hl).trans hframe.generation
    · have hx := target_of_key hr hframe ⟨hl,hid⟩ hk
      subst hx
      exact Or.inr ⟨hown.2.2.2.2.2,Or.inr ⟨hown.2.1,Or.inr hle.owns⟩⟩

/-- A descriptor of the key got a version the claim has never seen. -/
theorem dead_of_fresh {target : ℕ} (hr : PartRep P) (hframe : EntryFrame P P' target)
    (h : Past hash P c) (ht : KeyOf hash P c.tuple target)
    (hv : P.entryGeneration < (P'.entries target).version) : Dead hash P' c := by
  refine ⟨h.generation.trans hframe.generation,fun id hk => ?_⟩
  rw [target_of_key hr hframe ht hk]
  exact Or.inl (lt_of_le_of_lt h.generation hv)

theorem store_dead {op : PartOp} {m : Mapping} {args : StoreArgs} {configGeneration : ℕ}
    {reads : StoreReads} (hr : PartRep P) (hs : OpStep hash op (.stored true) P P')
    (hop : op = .store m c.tuple args configGeneration reads) (h : Past hash P c) :
    Dead hash P' c := by
  subst hop
  obtain ⟨target,hframe,htarget⟩ := hs.entry
  cases htarget with
  | gone hq _ => exact absurd rfl hq.1
  | lapse hq _ _ => exact absurd rfl hq.1
  | created _ _ _ _ _ _ hop' => cases hop'
  | leased _ _ _ _ _ hop' => cases hop'
  | filled _ _ _ _ _ hop' _ _ hl hid _ hf =>
    cases hop'
    exact dead_of_fresh hr hframe h ⟨hl,hid⟩ hf.version

theorem claim_dead {op : PartOp} {m : Mapping} {token : ReadToken} {reads : ClaimReads} {loadId : ℕ}
    (hr : PartRep P) (hw : ∀ id, Live P id → (P.entries id).loadId+4 < 2^64)
    (hs : OpStep hash op (.claimed .owner loadId) P P') (hop : op = .claim m c.tuple token reads)
    (h : Past hash P c) : Dead hash P' c := by
  subst hop
  have hgen := generation_le hs
  obtain ⟨target,hframe,htarget⟩ := hs.entry
  cases htarget with
  | gone hq _ => exact absurd rfl (hq.2 _)
  | lapse hq _ _ => exact absurd rfl (hq.2 _)
  | created _ _ _ _ _ _ hop' => cases hop'
  | filled _ _ _ _ _ hop' => cases hop'
  | leased _ _ _ _ _ hop' hres' _ hl hid hle =>
    cases hop'
    refine ⟨h.generation.trans hgen,fun id hk => ?_⟩
    rw [target_of_key hr hframe ⟨hl,hid⟩ hk]
    exact leased_past (hw target hl) hle (h.entry target ⟨hl,hid⟩)

theorem bumped_dead {e : CacheEntry} (hr : PartRep P) (h : Past hash P c)
    (hid : entryId P id = requestId (requestOf hash c.tuple)) (ht : Touched P P' id)
    (he : P' = bumpedState P id e) (hv : e.version = P.entryGeneration+1) : Dead hash P' c := by
  refine dead_of_fresh hr (frame_of_change (change_of_besides ht.besides)) h ⟨ht.live,hid⟩ ?_
  rw [he, bumped_self, hv]
  omega

theorem absent_dead (h : Past hash P c) (hgen : P.entryGeneration ≤ P'.entryGeneration)
    (hnone : ∀ id, ¬KeyOf hash P' c.tuple id) : Dead hash P' c :=
  ⟨h.generation.trans hgen,fun id hk => absurd hk (hnone id)⟩

section Revocation

variable {cfg : Settings} {e : Event} (hr : PartRep P) (h : Past hash P c)

include hr h

theorem expired_dead (hs : OpStep hash e.op e.result P e.after)
    (hk : KeyOf hash P c.tuple id) (hv : (e.after.entries id).version ≠ (P.entries id).version) :
    Dead hash e.after c := by
  refine ⟨h.generation.trans (generation_le hs),fun x hx => ?_⟩
  rcases entry_progress hr hs hx with hnew | ⟨hk',hlap⟩ | ⟨hk',token,loadId,hle⟩
  · exact Or.inl (lt_of_le_of_lt h.generation hnew)
  · have hsame := hr.entries.unique x id hk'.1 hk.1 (hk'.2.trans hk.2.symm)
    subst hsame
    rcases hlap.version with he | he
    · exact absurd he hv
    · exact Or.inl (lt_of_le_of_lt h.generation he)
  · have hsame := hr.entries.unique x id hk'.1 hk.1 (hk'.2.trans hk.2.symm)
    subst hsame
    exact absurd hle.version hv

variable (hop : runOp cfg hash e.op P = .ok e.result e.after)

include hop

theorem reserved_dead {inc : ℕ} (he : e.op = .reserve c.tuple inc)
    (hres : e.result = .reserved .entry) : Dead hash e.after c := by
  have hspec : Ensures (runOp cfg hash (.reserve c.tuple inc)) P (fun res P' =>
      res = .reserved .entry → Dead hash P' c) Exhausted := by
    refine ensures_seq (reserveKey_spec (requestOf hash c.tuple) inc hr
      (requestOf_ok hash c.tuple)) ?_
    rintro res P' hcase hentry
    cases hentry
    obtain ⟨id,hid,ht,hP'⟩ := hcase
    exact bumped_dead hr h hid ht hP' rfl
  rw [he] at hop
  exact ensures_ok hspec _ _ hop hres

theorem invalidated_dead {current : SlotReads} (he : e.op = .invalidateKey c.tuple current)
    (hshort : c.tuple.key.length < keyMax) : Dead hash e.after c := by
  have hspec : Ensures (runOp cfg hash (.invalidateKey c.tuple current)) P (fun _ P' =>
      Dead hash P' c) Exhausted := by
    refine ensures_seq (invalidateKey_spec cfg (requestOf hash c.tuple) current hr.entries
      (requestOf_ok hash c.tuple)) ?_
    rintro _ P' (⟨rfl,hnone⟩ | ⟨id,hid,ht,hP'⟩)
    · refine absent_dead h (le_refl _) (fun id hk => ?_)
      have hpres := present_of_live hr.entries hshort hk.1 hk.2
      simp [present, hnone] at hpres
    · exact bumped_dead hr h hid ht hP' rfl
  rw [he] at hop
  exact ensures_ok hspec _ _ hop

theorem revokes_dead (hs : OpStep hash e.op e.result P e.after)
    (hw : ∀ id, Live P id → (P.entries id).loadId+4 < 2^64) (hshort : c.tuple.key.length < keyMax)
    (hrev : Revokes hash c P e) : Dead hash e.after c := by
  cases hrev with
  | expired id hl hid hv => exact expired_dead hr h hs ⟨hl,hid⟩ hv
  | reserved inc he hres => exact reserved_dead hr h hop he hres
  | invalidated current he => exact invalidated_dead hr h hop he hshort
  | evicted habs =>
    refine absent_dead h (generation_le hs) (fun id hk => ?_)
    rw [present_of_live hs.rep.entries hshort hk.1 hk.2] at habs
    simp at habs
  | stored m args g reads he hres =>
    rw [hres] at hs
    exact store_dead hr hs he h
  | claimed c' ho htuple =>
    obtain ⟨m,reads,he,hres⟩ := ho
    rw [htuple] at he
    rw [hres] at hs
    exact claim_dead hr hw hs he h
  | lost hn => exact dead_of_lost (past_step hr hs hw h) hn

end Revocation

theorem storable_holds {cfg : Settings} (hr : PartRep P) (h : Storable cfg hash P c) :
    Holds hash P c := by
  obtain ⟨m,args,g,reads,P',ht,hl,hop⟩ := h
  obtain ⟨target,_,htarget⟩ := (ensures_ok (runOp_spec cfg _ hr) _ _ hop).entry
  cases htarget with
  | gone hq _ => exact absurd rfl hq.1
  | lapse hq _ _ => exact absurd rfl hq.1
  | created _ _ _ _ _ _ hop' => cases hop'
  | leased _ _ _ _ _ hop' => cases hop'
  | filled _ _ _ _ _ hop' _ _ hlive hid hown _ =>
    cases hop'
    rw [ht, hl] at hown
    exact ⟨target,⟨hlive,hid⟩,hown⟩

theorem release_idle {cfg : Settings} (hr : PartRep P) (h : ¬Holds hash P c) :
    ReleaseIdle cfg hash P c := by
  intro m result P' hop
  have hspec : Ensures (runOp cfg hash (.release m c.tuple c.token c.loadId)) P
      (fun _ P' => P' = P) Exhausted := by
    refine ensures_seq (releaseLoad_spec m (requestOf hash c.tuple) c.token c.loadId hr.entries
      (requestOf_ok hash c.tuple)) ?_
    rintro _ P' (rfl | ⟨id,hid,ht,hown,_⟩)
    · rfl
    · exact absurd ⟨id,⟨ht.live,hid⟩,hown⟩ h
  exact ensures_ok hspec result P' hop

section Runs

variable {cfg : Settings} {P0 : Partition} {e : Event} {older : List Event} (h0 : PartRep P0)
  (hb0 : ∀ id, Live P0 id → (P0.entries id).loadId+4 < 2^64)

theorem bounded_final {trace : List Event}
    (hb0 : ∀ id, Live P0 id → (P0.entries id).loadId+4 < 2^64)
    (hb : LoadIdsBounded trace) (id : ℕ) (hl : Live (finalState P0 trace) id) :
    ((finalState P0 trace).entries id).loadId+4 < 2^64 := by
  cases trace with
  | nil => exact hb0 id hl
  | cons e trace => exact hb e (List.mem_cons_self ..) id hl

include h0 hb0

theorem run_keeps (I : Partition → Prop) (hstep : ∀ P P' op res, PartRep P →
    (∀ id, Live P id → (P.entries id).loadId+4 < 2^64) → OpStep hash op res P P' → I P → I P')
    (newer : List Event) (h : Run cfg hash P0 (newer++e::older))
    (hb : LoadIdsBounded (newer++e::older)) (hi : I e.after) :
    I (finalState P0 (newer++e::older)) := by
  induction newer with
  | nil => exact hi
  | cons e' newer ih =>
    cases h with
    | step op result P hrun hop =>
      have hb' : LoadIdsBounded (newer++e::older) :=
        fun x hx => hb x (List.mem_cons_of_mem _ hx)
      exact hstep _ _ op result (run_rep cfg h0 hrun) (bounded_final hb0 hb')
        (run_step cfg h0 hrun op result P hop) (ih hrun hb')

theorem run_past (newer : List Event) (h : Run cfg hash P0 (newer++e::older))
    (hb : LoadIdsBounded (newer++e::older)) (ho : OwnerEvent c e) :
    Past hash (finalState P0 (newer++e::older)) c ∧ c.tuple.key.length < keyMax := by
  obtain ⟨hrun,hop⟩ := run_split newer h
  have hpast := owner_past (run_rep cfg h0 hrun) (run_step cfg h0 hrun _ _ _ hop) ho
  exact ⟨run_keeps h0 hb0 (fun P => Past hash P c) (fun _ _ _ _ hr hw hs => past_step hr hs hw)
    newer h hb hpast.1,hpast.2⟩

theorem run_dead (newer : List Event) (h : Run cfg hash P0 (newer++e::older))
    (hb : LoadIdsBounded (newer++e::older)) (hd : Dead hash e.after c) :
    Dead hash (finalState P0 (newer++e::older)) c :=
  run_keeps h0 hb0 (fun P => Dead hash P c) (fun _ _ _ _ hr hw hs => dead_step hr hs hw) newer h hb
    hd

theorem revoked_dead {e0 : Event} (newer mid : List Event)
    (h : Run cfg hash P0 (newer++e::(mid++e0::older)))
    (hb : LoadIdsBounded (newer++e::(mid++e0::older))) (ho : OwnerEvent c e0)
    (hrev : Revokes hash c (finalState P0 (mid++e0::older)) e) :
    Dead hash (finalState P0 (newer++e::(mid++e0::older))) c := by
  obtain ⟨hrun,hop⟩ := run_split newer h
  have hb' : LoadIdsBounded (mid++e0::older) :=
    fun x hx => hb x (List.mem_append_right _ (List.mem_cons_of_mem _ hx))
  obtain ⟨hpast,hshort⟩ := run_past h0 hb0 mid hrun hb' ho
  exact run_dead h0 hb0 newer h hb (revokes_dead (run_rep cfg h0 hrun) hpast hop
    (run_step cfg h0 hrun _ _ _ hop) (bounded_final hb0 hb') hshort hrev)

end Runs

/-- While no load id comes near the end of its range, at most one claim of a key can still be
stored, no claim is stored twice, and a revoked claim can neither store nor release. -/
theorem single_flight (cfg : Settings) (hash : KeyTuple → ℕ) (size : PartitionSize)
    (memory keyMemory : Memory) (trace : List Event)
    (h : Run cfg hash (partitionInit size memory keyMemory) trace) (hb : LoadIdsBounded trace) :
    (∀ c c' newer e mid e' older, trace = newer++e::(mid++e'::older) → OwnerEvent c e →
      OwnerEvent c' e' → c.tuple = c'.tuple →
      ¬(Storable cfg hash (finalState (partitionInit size memory keyMemory) trace) c ∧
        Storable cfg hash (finalState (partitionInit size memory keyMemory) trace) c')) ∧
    (∀ c newer e mid e' mid' e0 older, trace = newer++e::(mid++e'::(mid'++e0::older)) →
      OwnerEvent c e0 → StoreEvent c e' → ¬StoreEvent c e) ∧
    (∀ c newer e mid e0 older, trace = newer++e::(mid++e0::older) → OwnerEvent c e0 →
      Revokes hash c (finalState (partitionInit size memory keyMemory) (mid++e0::older)) e →
      ¬Storable cfg hash (finalState (partitionInit size memory keyMemory) trace) c ∧
      ReleaseIdle cfg hash (finalState (partitionInit size memory keyMemory) trace) c) := by
  have h0 := partitionInit_rep size memory keyMemory
  have hb0 : ∀ id, Live (partitionInit size memory keyMemory) id →
      ((partitionInit size memory keyMemory).entries id).loadId+4 < 2^64 := by
    intro id _
    simp [partitionInit, blankEntry]
  refine ⟨?_,?_,?_⟩
  · rintro c c' newer e mid e' older rfl ho ho' ht ⟨_,hs⟩
    exact dead_not_holds (revoked_dead h0 hb0 newer mid h hb ho' (.claimed c ho ht))
      (storable_holds (run_rep cfg h0 h) hs)
  · rintro c newer e mid e' mid' e0 older rfl ho ⟨m',args',g',reads',he',_,_,hres'⟩
      ⟨m,args,g,reads,he,hargs,hload,hres⟩
    obtain ⟨hrun,hop⟩ := run_split newer h
    have hdead := revoked_dead h0 hb0 mid mid' hrun
      (fun x hx => hb x (List.mem_append_right _ (List.mem_cons_of_mem _ hx))) ho
      (.stored m' args' g' reads' he' hres')
    rw [he, hres] at hop
    exact dead_not_holds hdead (storable_holds (run_rep cfg h0 hrun)
      ⟨m,args,g,reads,_,hargs,hload,hop⟩)
  · rintro c newer e mid e0 older rfl ho hrev
    have hdead := dead_not_holds (revoked_dead h0 hb0 newer mid h hb ho hrev)
    exact ⟨fun hs => hdead (storable_holds (run_rep cfg h0 h) hs),
      release_idle (run_rep cfg h0 h) hdead⟩

theorem small_single_flight : Run smallSettings (fun _ => 0) smallInit
      [storedEvent,claimedEvent,createdEvent] ∧
    LoadIdsBounded [storedEvent,claimedEvent,createdEvent] ∧
    ¬Storable smallSettings (fun _ => 0)
      (finalState smallInit [storedEvent,claimedEvent,createdEvent])
      ⟨smallTuple,calmToken,1⟩ := by
  have hb : LoadIdsBounded [storedEvent,claimedEvent,createdEvent] := by
    intro e he id hl
    simp only [List.mem_cons, List.not_mem_nil, or_false] at he
    have hid : id = 1 := by
      have h1 := hl.1
      have h2 := hl.2.1
      have hcap : e.after.capacity = 1 := by
        rcases he with rfl | rfl | rfl <;> decide +kernel
      omega
    subst hid
    rcases he with rfl | rfl | rfl <;> decide +kernel
  have howner : OwnerEvent ⟨smallTuple,calmToken,1⟩ claimedEvent := by
    refine ⟨_,_,rfl,?_⟩
    decide +kernel
  have hstored : storedEvent.result = .stored true := by decide +kernel
  exact ⟨small_run,hb,((single_flight smallSettings (fun _ => 0) smallSize (fun _ => 0)
    (fun _ => 0) _ small_run hb).2.2 _ [] storedEvent [] claimedEvent [createdEvent] rfl howner
    (.stored _ _ _ _ rfl hstored)).1⟩

def releaseOf (loadId : ℕ) : PartOp := .release smallMapping smallTuple calmToken loadId

def releasedEvent : Event := nextEvent smallSettings (fun _ => 0) claimedEvent.after (releaseOf 1)

def reclaimedEvent : Event := nextEvent smallSettings (fun _ => 0) releasedEvent.after calmClaim

def idleEvent : Event := nextEvent smallSettings (fun _ => 0) reclaimedEvent.after (releaseOf 2)

def wrappedState : Partition :=
  setEntry (reloaded idleEvent.after 1 (2^64-1)) 1
    (leasedEntry ((reloaded idleEvent.after 1 (2^64-1)).entries 1) calmToken calmReads.now)

theorem wrapped_run : ∃ newer, Run smallSettings (fun _ => 0) smallInit
      (newer++[idleEvent,reclaimedEvent,releasedEvent,claimedEvent,createdEvent]) ∧
    runOp smallSettings (fun _ => 0) calmClaim (finalState smallInit
      (newer++[idleEvent,reclaimedEvent,releasedEvent,claimedEvent,createdEvent])) =
      .ok (.claimed .owner 1) wrappedState := by
  have h1 : Run smallSettings (fun _ => 0) smallInit [createdEvent] :=
    run_next .nil calmLookup (by decide +kernel)
  have h2 : Run smallSettings (fun _ => 0) smallInit [claimedEvent,createdEvent] :=
    run_next h1 calmClaim (by decide +kernel)
  have h3 : Run smallSettings (fun _ => 0) smallInit [releasedEvent,claimedEvent,createdEvent] :=
    run_next h2 (releaseOf 1) (by decide +kernel)
  have h4 : Run smallSettings (fun _ => 0) smallInit
      [reclaimedEvent,releasedEvent,claimedEvent,createdEvent] :=
    run_next h3 calmClaim (by decide +kernel)
  have h5 : Run smallSettings (fun _ => 0) smallInit
      [idleEvent,reclaimedEvent,releasedEvent,claimedEvent,createdEvent] :=
    run_next h4 (releaseOf 2) (by decide +kernel)
  have h0 := partitionInit_rep smallSize (fun _ => 0) (fun _ => 0)
  have hself : reloaded idleEvent.after 1 2 = idleEvent.after := reloaded_self (by decide +kernel)
  have hrel : PartitionLimits.Released idleEvent.after 1 calmToken calmReads.now := by
    constructor <;> decide +kernel
  have hc : Claimable smallSettings (fun _ => 0) smallMapping smallTuple idleEvent.after 1
      calmToken calmReads := by
    constructor <;> decide +kernel
  have hl : Live idleEvent.after 1 := by
    refine ⟨?_,?_,?_⟩ <;> decide +kernel
  have hid : entryId idleEvent.after 1 = requestId (requestOf (fun _ => 0) smallTuple) := by
    decide +kernel
  obtain ⟨newer,hrun,hfinal⟩ := cycle_run h0 hrel (by decide) hl hid hc 2 (2^64-3) h5 hself.symm
    (by decide)
  have hrep := run_rep smallSettings h0 hrun
  rw [hfinal] at hrep
  have hclaim := claimLoad_eq smallSettings (fun _ => 0) smallMapping smallTuple calmToken calmReads
    (claimable_reloaded (by decide) hl hid hc _ hrep)
  rw [← hfinal] at hclaim
  refine ⟨newer,hrun,hclaim.trans ?_⟩
  have hnext : nextLoadId ((finalState (partitionInit smallSize (fun _ => 0) (fun _ => 0))
      (newer++[idleEvent,reclaimedEvent,releasedEvent,claimedEvent,createdEvent])).entries
        1).loadId = 1 := by
    rw [hfinal, reloaded, setEntry_self]
    decide
  rw [hnext, hfinal]
  rfl

/-- Once all load ids of a descriptor have been used, the first claim, which a later one had
revoked, can be stored again. -/
theorem load_id_wraps : ∃ newer older, Run smallSettings (fun _ => 0) smallInit
      (newer++reclaimedEvent::(older++claimedEvent::[createdEvent])) ∧
    OwnerEvent ⟨smallTuple,calmToken,1⟩ claimedEvent ∧
    OwnerEvent ⟨smallTuple,calmToken,2⟩ reclaimedEvent ∧
    Storable smallSettings (fun _ => 0) (finalState smallInit
      (newer++reclaimedEvent::(older++claimedEvent::[createdEvent]))) ⟨smallTuple,calmToken,1⟩ := by
  obtain ⟨newer,hrun,hclaim⟩ := wrapped_run
  have hstore : resultOf (runOp smallSettings (fun _ => 0) (calmStore [66]) wrappedState) =
      some (.stored true) := by decide +kernel
  have hlast := Run.step _ _ _ hrun hclaim
  refine ⟨⟨calmClaim,.claimed .owner 1,wrappedState⟩::(newer++[idleEvent]),[releasedEvent],?_,
    ⟨_,_,rfl,by decide +kernel⟩,⟨_,_,rfl,by decide +kernel⟩,
    ⟨smallMapping,⟨calmToken,[66],false,1,7,9⟩,1,⟨calmFence,calmFence,2,fun _ => calmEvict⟩,
      resultState (runOp smallSettings (fun _ => 0) (calmStore [66]) wrappedState),rfl,rfl,?_⟩⟩
  · simpa using hlast
  · exact ok_of_result hstore

end PgLocalCache.SingleFlight
