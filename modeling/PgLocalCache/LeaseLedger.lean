import PgLocalCache.SingleFlight

/-!
# The leases of one request

The locked sections of all parties, in their order, are the marks of a log; those
of one request are told apart from the rest, and a mark says where it waited. A
lease of the request is open as long as the descriptor has been loading under it
in every state since the grant. While a lease is open it carries the tags of its
token, so a release finds it, whatever others have done. Once no lease is open, a
descriptor that loads under an old load id of the request was granted it to
somebody else.
-/

namespace PgLocalCache.LeaseLedger

open CacheState CacheEntries CacheAdmission CacheOperations PartitionModel Outcome
open EntryInvariant EntryStore EntryReads PartitionInvariant PartitionLimits SingleFlight

inductive Mark where
  | locked (own : Bool) (partition : ℕ) (event : Event)
  | waited

/-- The partitions behind a log; the newest mark stands first. -/
def stateAt (start : ℕ → Partition) : List Mark → ℕ → Partition
  | [], p => start p
  | .waited::log, p => stateAt start log p
  | .locked _ q e::log, p => if p = q then e.after else stateAt start log p

def Lawful (cfg : Settings) (hash : KeyTuple → ℕ) (start : ℕ → Partition) : List Mark → Prop
  | [] => True
  | .waited::log => Lawful cfg hash start log
  | .locked _ p e::log => Lawful cfg hash start log ∧
      runOp cfg hash e.op (stateAt start log p) = .ok e.result e.after

/-- The lease that an event grants. -/
def grantOf (e : Event) : Option Claim :=
  match e.op, e.result with
  | .claim _ t token _, .claimed .owner loadId => some ⟨t,token,loadId⟩
  | _, _ => none

def LoadingUnder (hash : KeyTuple → ℕ) (P : Partition) (c : Claim) : Prop :=
  ∃ id, KeyOf hash P c.tuple id ∧ (P.entries id).loading = true ∧
    (P.entries id).loadId = c.loadId ∧ (P.entries id).version = c.token.keyVersion

/-- A lease of the request that has not been interrupted since it was granted. -/
def Open (hash : KeyTuple → ℕ) : List Mark → ℕ → Claim → Prop
  | [], _, _ => False
  | .waited::log, p, c => Open hash log p c
  | .locked own q e::log, p, c => ((own = true ∧ p = q ∧ grantOf e = some c) ∨ Open hash log p c) ∧
      (p = q → LoadingUnder hash e.after c)

/-- The same descriptor, version and load id. -/
structure Same (hash : KeyTuple → ℕ) (c' c : Claim) : Prop where
  ident : requestId (requestOf hash c'.tuple) = requestId (requestOf hash c.tuple)
  version : c'.token.keyVersion = c.token.keyVersion
  loadId : c'.loadId = c.loadId

/-- No descriptor loads under a load id the request was granted, unless another party has been
granted the same one since. -/
def NoneLeft (hash : KeyTuple → ℕ) (start : ℕ → Partition) (log : List Mark) : Prop :=
  ∀ newer p e older c, log = newer++.locked true p e::older → grantOf e = some c →
    LoadingUnder hash (stateAt start log p) c →
    ∃ e' c', .locked false p e' ∈ newer ∧ grantOf e' = some c' ∧ Same hash c' c

section Sections

variable {cfg : Settings} {hash : KeyTuple → ℕ} {P P' : Partition} {c c' : Claim} {op : PartOp}
  {res : OpResult} {e : Event}

theorem grantOf_owner (h : grantOf e = some c) : ∃ m reads,
    e.op = .claim m c.tuple c.token reads ∧ e.result = .claimed .owner c.loadId := by
  obtain ⟨op,result,after⟩ := e
  unfold grantOf at h
  split at h
  · rename_i m t token reads loadId hop hres
    cases h
    exact ⟨m,reads,hop,hres⟩
  · cases h

theorem same_loading (h : Same hash c' c) (hl : LoadingUnder hash P c) :
    LoadingUnder hash P c' := by
  obtain ⟨id,⟨hlive,hid⟩,hload,hn,hv⟩ := hl
  exact ⟨id,⟨hlive,hid.trans h.ident.symm⟩,hload,hn.trans h.loadId.symm,hv.trans h.version.symm⟩

theorem holds_version (hr : PartRep P) (h : Holds hash P c) :
    c.token.keyVersion ≤ P.entryGeneration := by
  obtain ⟨id,hk,ho⟩ := h
  rw [← ((ownsLease_iff _ _ _).mp ho).2.2.2.2.2]
  exact hr.entries.versions id hk.1

theorem bump64_moves (n j : ℕ) (h0 : 0 < j) (h4 : j ≤ 4) : bump64^[j] n ≠ n := by
  have hiter : ∀ k, bump64^[k+1] n = (n+(k+1))%2^64 := by
    intro k
    induction k with
    | zero => rfl
    | succ k ih =>
      rw [Function.iterate_succ_apply', ih, bump64]
      omega
  obtain ⟨k,rfl⟩ : ∃ k, j = k+1 := ⟨j-1,by omega⟩
  rw [hiter]
  omega

/-- While a lease goes on, no section changes what its release looks at. -/
theorem holds_step (hr : PartRep P) (hs : OpStep hash op res P P') (h : Holds hash P c)
    (hl : LoadingUnder hash P' c) : Holds hash P' c := by
  have hgen := holds_version hr h
  obtain ⟨id,hk,ho⟩ := h
  obtain ⟨id',hk',hload,hn,hv⟩ := hl
  have hown := (ownsLease_iff _ _ _).mp ho
  rcases entry_progress hr hs hk' with hnew | ⟨hold,hlap⟩ | ⟨hold,token,loadId,hle⟩
  · omega
  · have hx : id' = id := hr.entries.unique id' id hold.1 hk.1 (hold.2.trans hk.2.symm)
    subst hx
    exact ⟨id',hk',sameLease_owns (hlap.loading hload) ho⟩
  · have hx : id' = id := hr.entries.unique id' id hold.1 hk.1 (hold.2.trans hk.2.symm)
    subst hx
    obtain ⟨j,h0,h4,hj⟩ := hle.next
    have hleased := (ownsLease_iff _ _ _).mp hle.owns
    exact absurd (hj.symm.trans (hleased.2.1.symm.trans (hn.trans hown.2.1.symm)))
      (bump64_moves _ j h0 h4)

theorem loading_granted (hr : PartRep P) (hs : OpStep hash e.op e.result P e.after)
    (hn : ¬LoadingUnder hash P c) (hl : LoadingUnder hash e.after c) :
    ∃ c', grantOf e = some c' ∧ Same hash c' c := by
  obtain ⟨id,hk,hload,hid,hv⟩ := hl
  obtain ⟨target,hframe,htarget⟩ := hs.entry
  have hlapse : ∀ x, Live P x → Lapse P e.after x → x = id → LoadingUnder hash P c := by
    rintro x hx hlap rfl
    have hsame := hlap.loading hload
    exact ⟨x,⟨hx,hlap.ident.symm.trans hk.2⟩,hsame.loading ▸ hload,hsame.loadId.symm.trans hid,
      hsame.version.symm.trans hv⟩
  by_cases hx : id = target
  · subst hx
    cases htarget with
    | gone _ hdead => exact absurd hk.1 hdead
    | lapse _ hlx hlap => exact absurd (hlapse id hlx hlap rfl) hn
    | created _ _ _ _ _ _ _ _ _ hc _ =>
      obtain ⟨_,v,_,_,he⟩ := hc.fresh
      rw [he] at hload
      cases hload
    | leased m t token reads loadId hop hres _ _ hident hle =>
      have hleased := (ownsLease_iff _ _ _).mp hle.owns
      refine ⟨⟨t,token,loadId⟩,by rw [grantOf, hop, hres],?_,?_,?_⟩
      · exact hident.symm.trans (hle.ident.symm.trans hk.2)
      · exact hleased.2.2.2.2.2.symm.trans hv
      · exact hleased.2.1.symm.trans hid
    | filled _ _ _ _ _ _ _ _ _ _ _ hf =>
      rw [hf.loading] at hload
      cases hload
  · have hsurv := hframe.survive id hx hk.1
    exact absurd (hlapse id hsurv.live (survives_lapse hr.entries hsurv) rfl) hn

theorem grant_holds (hr : PartRep P) (hop : runOp cfg hash e.op P = .ok e.result e.after)
    (hg : grantOf e = some c) :
    Holds hash e.after c ∧ c.tuple.key.length < keyMax ∧ c.loadId ≠ 0 := by
  obtain ⟨m,reads,hclaim,hres⟩ := grantOf_owner hg
  have hspec : Ensures (runOp cfg hash (.claim m c.tuple c.token reads)) P (fun res P' =>
      res = .claimed .owner c.loadId →
        Holds hash P' c ∧ c.tuple.key.length < keyMax ∧ c.loadId ≠ 0) Exhausted := by
    refine ensures_seq (claimLoad_spec cfg m c.token reads (requestOf hash c.tuple) hr.entries
      (requestOf_ok hash c.tuple)) ?_
    rintro ⟨claim,loadId⟩ P' hcase
    rw [ensures_pure]
    intro howner
    cases howner
    rcases hcase with ⟨hne,-⟩ | ⟨id,hshort,-,hid,-,-,-,-,hdone⟩
    · exact absurd rfl hne
    · obtain ⟨hle,-⟩ := hdone.owner rfl
      exact ⟨⟨id,⟨hdone.live,hle.ident.trans hid⟩,hle.owns⟩,requestOf_short hshort,hle.nonzero⟩
  rw [hclaim] at hop
  exact ensures_ok hspec _ _ hop hres

/-- The mapping names the relation, slot and generation of the key. -/
structure Names (m : Mapping) (t : KeyTuple) : Prop where
  relationOid : t.relationOid = m.relationOid
  relationSlot : t.relationSlot = m.relationSlot
  slotGeneration : t.slotGeneration = m.relationSlotGeneration

theorem names_match {m : Mapping} {t : KeyTuple} {id : ℕ} (hm : Names m t)
    (hk : KeyOf hash P t id) : mappingMatches m (P.entries id) = true := by
  obtain ⟨-,hid⟩ := hk
  have h1 : (P.entries id).relationOid = t.relationOid := congrArg KeyId.relationOid hid
  have h2 : (P.entries id).relationSlot = t.relationSlot := congrArg KeyId.relationSlot hid
  have h3 : (P.entries id).slotGeneration = t.slotGeneration := congrArg KeyId.slotGeneration hid
  simp [mappingMatches, h1, h2, h3, hm.relationOid, hm.relationSlot, hm.slotGeneration]

theorem release_ends {m : Mapping} (hm : Names m c.tuple) (hr : PartRep P) (h : Holds hash P c)
    (hshort : c.tuple.key.length < keyMax)
    (hop : runOp cfg hash (.release m c.tuple c.token c.loadId) P = .ok res P') :
    ¬LoadingUnder hash P' c := by
  obtain ⟨id,hk,ho⟩ := h
  have hrun : runOp cfg hash (.release m c.tuple c.token c.loadId) P =
      .ok .done (setEntry P id { P.entries id with loading := false }) := by
    refine ensures_eq ?_
    show Ensures (cacheReleaseLoadLocked m (requestOf hash c.tuple) c.token c.loadId >>= _) P _ _
    simp only [ensures_bind, cacheReleaseLoadLocked, ensures_get,
      getCacheEntry_live hash c.tuple hr.entries hshort hk.1 hk.2, names_match hm hk, ho,
      Bool.and_self, if_true, ensures_set, ensures_pure, and_self]
  rw [hrun] at hop
  cases hop
  rintro ⟨id',hk',hload,-,-⟩
  by_cases hx : id' = id
  · subst hx
    simp [setEntry] at hload
  · have hlive : Live P id' := by simpa [Live, setEntry, hx] using hk'.1
    have hident : entryId P id' = requestId (requestOf hash c.tuple) := by
      have := hk'.2
      simpa [entryId, entryKey, setEntry, hx] using this
    exact hx (hr.entries.unique id' id hlive hk.1 (hident.trans hk.2.symm))

theorem release_returns (cfg : Settings) (hash : KeyTuple → ℕ) (m : Mapping) (t : KeyTuple)
    (token : ReadToken) (loadId : ℕ) (P : Partition) :
    ∃ P', runOp cfg hash (.release m t token loadId) P = .ok .done P' := by
  have h : Ensures (runOp cfg hash (.release m t token loadId)) P (fun res _ => res = .done)
      Never := by
    simp only [runOp, cacheReleaseLoadLocked, ensures_bind, ensures_get]
    cases getCacheEntry P (requestOf hash t) with
    | none => rfl
    | some id =>
      simp only
      split <;> rfl
  obtain ⟨res,P',hrun,rfl⟩ := ensures_run h
  exact ⟨P',hrun⟩

theorem store_ends {m : Mapping} {args : StoreArgs} {configGeneration : ℕ} {reads : StoreReads}
    (hr : PartRep P) (hop : runOp cfg hash (.store m c.tuple args configGeneration reads) P =
      .ok (.stored true) P') :
    ¬LoadingUnder hash P' c := by
  rintro ⟨id,hk,hload,-,-⟩
  obtain ⟨target,hframe,htarget⟩ := (ensures_ok (runOp_spec cfg _ hr) _ _ hop).entry
  cases htarget with
  | gone hq _ => exact absurd rfl hq.1
  | lapse hq _ _ => exact absurd rfl hq.1
  | created _ _ _ _ _ _ hop' => cases hop'
  | leased _ _ _ _ _ hop' => cases hop'
  | filled _ _ _ _ _ hop' _ _ hlive hid _ hf =>
    cases hop'
    rw [target_of_key hr hframe ⟨hlive,hid⟩ hk, hf.loading] at hload
    cases hload

end Sections

section Histories

variable {cfg : Settings} {hash : KeyTuple → ℕ} {start : ℕ → Partition} {log : List Mark}

theorem stateAt_rep (hstart : ∀ p, PartRep (start p)) (hlog : Lawful cfg hash start log) (p : ℕ) :
    PartRep (stateAt start log p) := by
  induction log generalizing p with
  | nil => exact hstart p
  | cons mark log ih =>
    cases mark with
    | waited => exact ih hlog p
    | locked own q e =>
      unfold stateAt
      split
      · exact (ensures_ok (runOp_spec cfg e.op (ih hlog.1 q)) _ _ hlog.2).rep
      · exact ih hlog.1 p

theorem open_held (hstart : ∀ p, PartRep (start p)) (hlog : Lawful cfg hash start log) {p : ℕ}
    {c : Claim} (h : Open hash log p c) :
    Holds hash (stateAt start log p) c ∧ c.tuple.key.length < keyMax ∧ c.loadId ≠ 0 := by
  induction log with
  | nil => exact h.elim
  | cons mark log ih =>
    cases mark with
    | waited => exact ih hlog h
    | locked own q e =>
      have hr := stateAt_rep hstart hlog.1 q
      obtain ⟨hopen,hload⟩ := h
      unfold stateAt
      split
      · rename_i hq
        subst hq
        rcases hopen with ⟨-,-,hg⟩ | hopen
        · exact grant_holds hr hlog.2 hg
        · obtain ⟨hheld,hrest⟩ := ih hlog.1 hopen
          exact ⟨holds_step hr (ensures_ok (runOp_spec cfg e.op hr) _ _ hlog.2) hheld (hload rfl),
            hrest⟩
      · rename_i hq
        exact ih hlog.1 (hopen.resolve_left (fun hg => hq hg.2.1))

theorem loading_accounted (hstart : ∀ p, PartRep (start p)) (newer : List Mark) (p : ℕ) (e : Event)
    (older : List Mark) (c : Claim) (hlog : Lawful cfg hash start (newer++.locked true p e::older))
    (hg : grantOf e = some c)
    (hl : LoadingUnder hash (stateAt start (newer++.locked true p e::older) p) c) :
    (∃ c', Open hash (newer++.locked true p e::older) p c' ∧ Same hash c' c) ∨
      ∃ e' c', .locked false p e' ∈ newer ∧ grantOf e' = some c' ∧ Same hash c' c := by
  induction newer with
  | nil =>
    rw [List.nil_append, stateAt, if_pos rfl] at hl
    exact Or.inl ⟨c,⟨Or.inl ⟨rfl,rfl,hg⟩,fun _ => hl⟩,⟨rfl,rfl,rfl⟩⟩
  | cons mark newer ih =>
    have hmem : ∀ {m}, m ∈ newer → m ∈ mark::newer := fun h => List.mem_cons_of_mem _ h
    cases mark with
    | waited =>
      rcases ih hlog hl with hopen | ⟨e',c',he,hrest⟩
      · exact Or.inl hopen
      · exact Or.inr ⟨e',c',hmem he,hrest⟩
    | locked own q e1 =>
      obtain ⟨hprev,hop⟩ := hlog
      rw [List.cons_append, stateAt] at hl
      by_cases hq : p = q
      · subst hq
        rw [if_pos rfl] at hl
        by_cases hbefore : LoadingUnder hash (stateAt start (newer++.locked true p e::older) p) c
        · rcases ih hprev hbefore with ⟨c',hopen,hsame⟩ | ⟨e',c',he,hrest⟩
          · exact Or.inl ⟨c',⟨Or.inr hopen,fun _ => same_loading hsame hl⟩,hsame⟩
          · exact Or.inr ⟨e',c',hmem he,hrest⟩
        · have hr := stateAt_rep hstart hprev p
          obtain ⟨c',hg',hsame⟩ := loading_granted hr
            (ensures_ok (runOp_spec cfg e1.op hr) _ _ hop) hbefore hl
          cases own with
          | true => exact Or.inl ⟨c',⟨Or.inl ⟨rfl,rfl,hg'⟩,fun _ => same_loading hsame hl⟩,hsame⟩
          | false => exact Or.inr ⟨e1,c',List.mem_cons_self ..,hg',hsame⟩
      · rw [if_neg hq] at hl
        rcases ih hprev hl with ⟨c',hopen,hsame⟩ | ⟨e',c',he,hrest⟩
        · exact Or.inl ⟨c',⟨Or.inr hopen,fun h => absurd h hq⟩,hsame⟩
        · exact Or.inr ⟨e',c',hmem he,hrest⟩

theorem noneLeft_of_closed (hstart : ∀ p, PartRep (start p)) (hlog : Lawful cfg hash start log)
    (h : ∀ p c, ¬Open hash log p c) : NoneLeft hash start log := by
  rintro newer p e older c rfl hg hl
  rcases loading_accounted hstart newer p e older c hlog hg hl with ⟨c',hopen,-⟩ | hother
  · exact absurd hopen (h p c')
  · exact hother

end Histories

end PgLocalCache.LeaseLedger
