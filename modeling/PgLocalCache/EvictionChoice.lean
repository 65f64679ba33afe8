import PgLocalCache.BoundedSelection
import PgLocalCache.EvictionProgress
import PgLocalCache.PartitionTables

/-!
# What an eviction removes

An eviction scans a window of descriptors that starts at the cursor. Its choice
is a function of the partition before the call: stale descriptors first, then
the current ones that were used least recently. The scan itself only revokes
expired leases, and it raises only if the version counter runs out.
-/

namespace PgLocalCache.EvictionChoice

open CacheArena CacheState CacheEntries CacheAdmission Outcome BoundedSelection
open EntryInvariant EntryRemoval EntryEviction EvictionProgress EntryBlocks
open PartitionModel PartitionInvariant PartitionLimits PartitionTables

/-- The descriptors that one eviction looks at, in the order of the scan. -/
def windowFrom (start capacity scanned n : ℕ) : List ℕ :=
  (List.range' scanned n).map (fun k => (start+k)%capacity+1)

def window (P : Partition) : List ℕ :=
  windowFrom P.evictionBucketCursor P.capacity 0 (scanLength P)

def leased (cfg : Settings) (now : ℕ) (e : CacheEntry) : Bool :=
  e.loading && !timestampDifferenceExceeds e.loadStarted now (loadLeaseMs cfg)

def lapsed (cfg : Settings) (now : ℕ) (e : CacheEntry) : Bool :=
  e.loading && timestampDifferenceExceeds e.loadStarted now (loadLeaseMs cfg)

def unguarded (P : Partition) (excluded id : ℕ) : Bool :=
  (P.entries id).inUse && id != excluded && (P.entries id).dirtyWriters == 0

section Choice

variable (cfg : Settings) (env : EvictEnv) (required excluded : ℕ) (P : Partition)

def revokes (id : ℕ) : Bool := unguarded P excluded id && lapsed cfg env.now (P.entries id)

def eligible (id : ℕ) : Bool :=
  unguarded P excluded id && !leased cfg env.now (P.entries id) &&
    (required == 0 || arenaBlockClass P.arena (P.entries id).blockRef == required)

def current (id : ℕ) : Bool := entryIsCurrentSlot cfg (P.entries id) (env.reads id)

def eligibleIds : List ℕ := (window P).filter (eligible cfg env required excluded P)

def Removed (P P' : Partition) (id : ℕ) : Prop := Live P id ∧ ¬Live P' id

/-- What a call that returns `n` has done. -/
structure Choice (P' : Partition) (n : ℕ) : Prop where
  cursor : P'.evictionBucketCursor =
    if P.capacity = 0 then 0 else (P.evictionBucketCursor+scanLength P)%P.capacity
  number : n = min evictionBatch (eligibleIds cfg env required excluded P).length
  counted : ∃ gone : List ℕ, gone.Nodup ∧ gone.length = n ∧ ∀ id, id ∈ gone ↔ Removed P P' id
  only : ∀ id, Removed P P' id → id ∈ eligibleIds cfg env required excluded P
  staleFirst : ∀ c s, Removed P P' c → current cfg env P c = true →
    s ∈ eligibleIds cfg env required excluded P → current cfg env P s = false → Removed P P' s
  least : ∀ c d, Removed P P' c → current cfg env P c = true →
    d ∈ eligibleIds cfg env required excluded P → current cfg env P d = true → ¬Removed P P' d →
    (P.entries c).lastAccess ≤ (P.entries d).lastAccess
  kept : ∀ id, Live P' id → Live P id
  outside : ∀ id, id ∉ window P → P'.entries id = P.entries id

/-- The call raised: the counter could not serve the leases to revoke, and nothing was removed. -/
structure WornOut (e : Fault) (P' : Partition) : Prop where
  fault : e = .keyGenerationOverflow
  counter : 2^64-1 < P.entryGeneration+(window P).countP (revokes cfg env excluded P)
  kept : ∀ id, Live P' id ↔ Live P id
  cursor : P'.evictionBucketCursor = P.evictionBucketCursor

/-- What the scan adds to its two lists at one descriptor. -/
def note (st : ScanState) (id : ℕ) : ScanState :=
  if !eligible cfg env required excluded P id then st
  else if current cfg env P id then
    { st with candidates := insertCandidate ⟨(P.entries id).lastAccess,id⟩ st.candidates }
  else if st.victims.length < evictionBatch then { st with victims := st.victims++[id] } else st

end Choice

section Window

variable (P : Partition)

theorem window_length : (window P).length = min P.capacity evictionSample := by
  simp [window, windowFrom, scanLength]

theorem window_nodup : (window P).Nodup := by
  unfold window windowFrom
  refine List.Nodup.map_on (fun a ha b hb h => ?_) List.nodup_range'
  have hle : scanLength P ≤ P.capacity := Nat.min_le_left _ _
  have ha' := (List.mem_range'_1.mp ha).2
  have hb' := (List.mem_range'_1.mp hb).2
  have hmod : a ≡ b [MOD P.capacity] :=
    Nat.ModEq.add_left_cancel' P.evictionBucketCursor (Nat.succ.inj h)
  exact Nat.ModEq.eq_of_lt_of_lt hmod (by omega) (by omega)

theorem window_bound (id : ℕ) (h : id ∈ window P) : id ≠ 0 ∧ id ≤ P.capacity := by
  obtain ⟨k,hk,rfl⟩ := List.mem_map.mp h
  have hle : scanLength P ≤ P.capacity := Nat.min_le_left _ _
  have hk' := (List.mem_range'_1.mp hk).2
  have := Nat.mod_lt (P.evictionBucketCursor+k) (show 0 < P.capacity by omega)
  omega

end Window

variable {cfg : Settings} {env : EvictEnv} {required excluded : ℕ} {P P1 P' : Partition}
  {held : Option (ℕ × ℕ)}

/-- Where the scan of `done` has brought a partition. -/
structure Swept (cfg : Settings) (env : EvictEnv) (excluded : ℕ) (P P1 : Partition)
    (done : List ℕ) : Prop where
  soft : SoftStep P P1
  cursor : P1.evictionBucketCursor = P.evictionBucketCursor
  same : ∀ id, id ∉ done → P1.entries id = P.entries id
  counter : P1.entryGeneration = P.entryGeneration+done.countP (revokes cfg env excluded P)

theorem swept_refl (P : Partition) : Swept cfg env excluded P P [] :=
  ⟨soft_refl P,rfl,fun _ _ => rfl,rfl⟩

theorem swept_skip {done : List ℕ} {id : ℕ} (h : Swept cfg env excluded P P1 done)
    (hid : revokes cfg env excluded P id = false) :
    Swept cfg env excluded P P1 (done++[id]) := by
  refine ⟨h.soft,h.cursor,fun x hx => h.same x (fun hm => hx (by simp [hm])),?_⟩
  rw [h.counter, List.countP_append, List.countP_singleton, hid]
  rfl

theorem swept_revoke {done : List ℕ} {id : ℕ} (h : Swept cfg env excluded P P1 done)
    (hid : revokes cfg env excluded P id = true) :
    Swept cfg env excluded P (revokedState P1 id) (done++[id]) := by
  refine ⟨soft_trans h.soft (bumped_soft P1 id _ (revoked_hard _ _)),h.cursor,fun x hx => ?_,?_⟩
  · have hne : x ≠ id := fun he => hx (by simp [he])
    rw [revokedState, bumped_other P1 id _ x hne]
    exact h.same x (fun hm => hx (by simp [hm]))
  · change P1.entryGeneration+1 = _
    rw [h.counter, List.countP_append, List.countP_singleton, hid]
    rfl

/-- The revocation of an expired lease either uses the next version or finds none left. -/
theorem loadActive_exact (cfg : Settings) (id now : ℕ) :
    Ensures (cacheLoadIsActiveLocked cfg id now) P (fun active P' =>
      active = leased cfg now (P.entries id) ∧
      P' = if lapsed cfg now (P.entries id) then revokedState P id else P)
      (fun e P' => e = .keyGenerationOverflow ∧ lapsed cfg now (P.entries id) = true ∧
        P.entryGeneration = 2^64-1 ∧ SoftStep P P' ∧
        P'.evictionBucketCursor = P.evictionBucketCursor) := by
  unfold cacheLoadIsActiveLocked
  simp only [ensures_bind, ensures_get]
  cases hload : (P.entries id).loading with
  | false =>
    rw [if_pos (by simp)]
    simp [leased, lapsed, hload]
  | true =>
    rw [if_neg (by simp)]
    cases ht : timestampDifferenceExceeds (P.entries id).loadStarted now (loadLeaseMs cfg) with
    | false =>
      rw [if_pos (by simp)]
      simp [leased, lapsed, hload, ht]
    | true =>
      have hlapsed : lapsed cfg now (P.entries id) = true := by simp [lapsed, hload, ht]
      rw [if_neg (by simp)]
      simp only [ensures_bind, ensures_set]
      refine ensures_mono (advanceVersion_exact _ id) ?_ ?_
      · rintro _ P' rfl
        refine ⟨by simp [leased, ht],?_⟩
        simp [hlapsed, bumpedState, revokedState, setEntry, revokedEntry]
      · rintro e P' ⟨rfl,rfl,hg⟩
        exact ⟨rfl,hlapsed,hg,soft_set P id _ (by constructor <;> rfl),rfl⟩

theorem scanEntry_exact {done : List ℕ} {id : ℕ} (st : ScanState)
    (h : Swept cfg env excluded P P1 done) (hid : id ∉ done) :
    Ensures (scanEntry cfg env required excluded id st) P1 (fun st' P2 =>
      st' = note cfg env required excluded P st id ∧ Swept cfg env excluded P P2 (done++[id]))
      (fun e P2 => e = .keyGenerationOverflow ∧ SoftStep P P2 ∧
        P2.evictionBucketCursor = P.evictionBucketCursor ∧
        2^64-1 < P.entryGeneration+(done++[id]).countP (revokes cfg env excluded P)) := by
  have he := h.same id hid
  unfold scanEntry
  simp only [ensures_bind, ensures_get, he]
  by_cases hskip : !(P.entries id).inUse ∨ id = excluded ∨ (P.entries id).dirtyWriters ≠ 0
  · rw [if_pos hskip]
    have hg : unguarded P excluded id = false := by
      simp only [unguarded]
      rcases hskip with hu | rfl | hd
      · simp [show (P.entries id).inUse = false by simpa using hu]
      · simp
      · simp [hd]
    exact ⟨by simp [note, eligible, hg],swept_skip h (by simp [revokes, hg])⟩
  rw [if_neg hskip]
  have hg : unguarded P excluded id = true := by
    simpa [unguarded, and_assoc] using hskip
  have hrev : revokes cfg env excluded P id = lapsed cfg env.now (P.entries id) := by
    simp [revokes, hg]
  refine ensures_seq (ensures_mono (loadActive_exact cfg id env.now) (fun _ _ h => h) ?_) ?_
  · rintro e P2 ⟨rfl,hl,hgen,hsoft,hcur⟩
    rw [he, ← hrev] at hl
    refine ⟨rfl,soft_trans h.soft hsoft,hcur.trans h.cursor,?_⟩
    have := h.counter
    rw [List.countP_append, List.countP_singleton, if_pos hl]
    omega
  rintro active P2 ⟨hactive,hP2⟩
  rw [he] at hactive hP2
  -- A revocation keeps every field that the rest of the scan reads.
  have hsw : Swept cfg env excluded P P2 (done++[id]) := by
    rw [hP2]
    cases hl : lapsed cfg env.now (P.entries id) with
    | false => exact swept_skip h (hrev.trans hl)
    | true => exact swept_revoke h (hrev.trans hl)
  have hentry : P2.entries id = P.entries id ∨
      ∃ version, P2.entries id = revokedEntry (P.entries id) version := by
    rw [hP2]
    cases lapsed cfg env.now (P.entries id) with
    | false => exact Or.inl he
    | true =>
      refine Or.inr ⟨P1.entryGeneration+1,(bumped_self P1 id _).trans ?_⟩
      rw [he]
  have hreads : arenaBlockClass P2.arena (P2.entries id).blockRef =
        arenaBlockClass P.arena (P.entries id).blockRef ∧
      entryIsCurrentSlot cfg (P2.entries id) (env.reads id) = current cfg env P id ∧
      (P2.entries id).lastAccess = (P.entries id).lastAccess := by
    rw [hsw.soft.arena]
    rcases hentry with h | ⟨version,h⟩ <;> rw [h] <;> exact ⟨rfl,rfl,rfl⟩
  simp only [ensures_bind, ensures_get, hreads.1, hreads.2.1, hreads.2.2]
  split
  · rename_i ha
    rw [hactive] at ha
    exact ⟨by simp [note, eligible, hg, ha],hsw⟩
  rename_i ha
  rw [hactive, Bool.not_eq_true] at ha
  split
  · rename_i hr
    exact ⟨by simp [note, eligible, hg, ha, hr],hsw⟩
  rename_i hr
  have hel : eligible cfg env required excluded P id = true := by
    simp only [eligible, hg, ha, Bool.not_false, Bool.and_true, Bool.true_and, Bool.or_eq_true,
      beq_iff_eq]
    by_cases h0 : required = 0
    · exact Or.inl h0
    · exact Or.inr (by_contra fun hne => hr ⟨h0,hne⟩)
  cases hcur : current cfg env P id with
  | false =>
    rw [if_pos (by simp)]
    exact ⟨by simp [note, hel, hcur],hsw⟩
  | true =>
    rw [if_neg (by simp)]
    exact ⟨by simp [note, hel, hcur],hsw⟩

theorem scanEntries_window (start scanned n : ℕ) (st : ScanState) :
    scanEntries cfg env required excluded start scanned n st P =
      (windowFrom start P.capacity scanned n).foldlM
        (fun st id => scanEntry cfg env required excluded id st) st P := by
  induction n generalizing scanned st P with
  | zero => rfl
  | succ n ih =>
    have hcap : Ensures (scanEntry cfg env required excluded ((start+scanned)%P.capacity+1) st)
        P _ _ := scanEntry_exact st (swept_refl P) (by simp)
    rw [windowFrom, List.range'_succ, List.map_cons, List.foldlM_cons, ← windowFrom]
    unfold scanEntries
    rw [get_bind_apply]
    simp only [bind, EStateM.bind]
    cases hone : scanEntry cfg env required excluded ((start+scanned)%P.capacity+1) st P with
    | error e P1 => rfl
    | ok st' P1 =>
      have hsame := (ensures_ok hcap st' P1 hone).2.soft.capacity
      simp only
      rw [ih, hsame]

theorem scan_exact (ids done : List ℕ) (st : ScanState) (h : Swept cfg env excluded P P1 done)
    (hnodup : (done++ids).Nodup) :
    Ensures (ids.foldlM (fun st id => scanEntry cfg env required excluded id st) st) P1
      (fun st' P2 => st' = ids.foldl (note cfg env required excluded P) st ∧
        Swept cfg env excluded P P2 (done++ids))
      (fun e P2 => e = .keyGenerationOverflow ∧ SoftStep P P2 ∧
        P2.evictionBucketCursor = P.evictionBucketCursor ∧
        2^64-1 < P.entryGeneration+(done++ids).countP (revokes cfg env excluded P)) := by
  induction ids generalizing done st P1 with
  | nil =>
    refine ⟨rfl,?_⟩
    rw [List.append_nil]
    exact h
  | cons id ids ih =>
    have hid : id ∉ done := fun hm => (List.disjoint_of_nodup_append hnodup) hm (by simp)
    rw [List.append_cons] at hnodup ⊢
    rw [List.foldlM_cons, List.foldl_cons]
    refine ensures_seq (ensures_mono (scanEntry_exact st h hid) (fun _ _ h => h) ?_) ?_
    · rintro e P2 ⟨h1,h2,h3,h4⟩
      refine ⟨h1,h2,h3,?_⟩
      rw [List.countP_append]
      omega
    · rintro st' P2 ⟨rfl,h'⟩
      exact ih (done++[id]) _ h' hnodup

theorem shiftCandidate_settle (c : Candidate) (xs : List Candidate) :
    shiftCandidate c xs = settle Candidate.access c xs := by
  induction xs with
  | nil => rfl
  | cons x xs ih =>
    simp only [shiftCandidate, ih, settle, List.orderedInsert_cons]
    by_cases h : c.access < x.access
    · rw [if_pos h, if_neg (by omega)]
    · rw [if_neg h, if_pos (by omega)]

theorem insertCandidate_offer (c : Candidate) (xs : List Candidate) :
    insertCandidate c xs = offer Candidate.access evictionBatch c xs := by
  cases xs with
  | nil => rfl
  | cons x xs => simp only [insertCandidate, offer, shiftCandidate_settle]

def candidateOf (P : Partition) (id : ℕ) : Candidate := ⟨(P.entries id).lastAccess,id⟩

section Lists

variable (cfg env required excluded P)

def staleOf (ids : List ℕ) : List ℕ :=
  (ids.filter (eligible cfg env required excluded P)).filter (fun id => !current cfg env P id)

def currentOf (ids : List ℕ) : List ℕ :=
  (ids.filter (eligible cfg env required excluded P)).filter (current cfg env P)

end Lists

/-- The scan keeps the first stale descriptors and the least recently used current ones. -/
theorem note_fold (ids : List ℕ) :
    (ids.foldl (note cfg env required excluded P) ⟨[],[]⟩).victims =
      (staleOf cfg env required excluded P ids).take evictionBatch ∧
    Selects Candidate.access evictionBatch
      ((currentOf cfg env required excluded P ids).map (candidateOf P))
      (ids.foldl (note cfg env required excluded P) ⟨[],[]⟩).candidates := by
  induction ids using List.reverseRecOn with
  | nil => exact ⟨rfl,selects_nil _⟩
  | append_singleton ids id ih =>
    obtain ⟨hv,hs⟩ := ih
    rw [List.foldl_append, List.foldl_cons, List.foldl_nil]
    generalize ids.foldl (note cfg env required excluded P) ⟨[],[]⟩ = st at hv hs ⊢
    simp only [staleOf, currentOf, List.filter_append, List.filter_cons, List.filter_nil] at hv hs ⊢
    unfold note
    cases hel : eligible cfg env required excluded P id with
    | false =>
      simp only [Bool.not_false, Bool.false_eq_true, if_true, if_false, List.filter_nil,
        List.append_nil]
      exact ⟨hv,hs⟩
    | true =>
      cases hcur : current cfg env P id with
      | true =>
        simp only [Bool.not_true, Bool.false_eq_true, if_false, if_true, List.filter_cons, hcur,
          List.filter_nil, List.map_append, List.map_cons, List.map_nil, insertCandidate_offer,
          List.append_nil]
        exact ⟨hv,selects_offer _ (by decide) hs⟩
      | false =>
        simp only [Bool.not_true, Bool.false_eq_true, if_false, if_true, List.filter_cons, hcur,
          List.filter_nil, Bool.not_false, List.append_nil]
        by_cases hroom : st.victims.length < evictionBatch
        · rw [if_pos hroom]
          refine ⟨?_,hs⟩
          rw [hv, List.length_take] at hroom
          rw [hv, List.take_of_length_le (by omega), List.take_of_length_le
            (by simp only [List.length_append, List.length_cons, List.length_nil]; omega)]
        · rw [if_neg hroom]
          refine ⟨?_,hs⟩
          rw [hv, List.length_take] at hroom
          rw [hv, List.take_append_of_le_length (by omega)]

theorem removeVictims_exact (victims : List ℕ) (n : ℕ) (hr : EntryRep P held none)
    (hnodup : victims.Nodup) (hlive : ∀ v ∈ victims, Live P v) :
    Ensures (removeVictims victims n) P (fun m P' => m = n+victims.length ∧
      P'.evictionBucketCursor = P.evictionBucketCursor ∧
      (∀ id, Live P' id ↔ Live P id ∧ id ∉ victims) ∧
      ∀ id, id ∉ victims → P'.entries id = P.entries id) Never := by
  induction victims generalizing n P with
  | nil => exact ⟨rfl,rfl,fun id => by simp,fun _ _ => rfl⟩
  | cons v vs ih =>
    obtain ⟨hv,hnodup'⟩ := List.nodup_cons.mp hnodup
    obtain ⟨a,_,hrun⟩ := remove_exact hr (hlive v (by simp))
    rw [removeVictims, ensures_bind]
    apply ensures_imp hrun
    rintro _ P1 ⟨rfl,hr1,ix,rfl⟩
    have hgone : ∀ x, Live (removedState P v (retiredEntry (P.entries v) P.freeEntryHead) ix a) x ↔
        Live P x ∧ x ≠ v := removed_live rfl
    refine ensures_imp (ih (n+1) hr1 hnodup' (fun x hx => ?_)) ?_
    · exact (hgone x).mpr ⟨hlive x (by simp [hx]),fun he => hv (he ▸ hx)⟩
    · rintro m P' ⟨hm,hcur,hl,hsame⟩
      refine ⟨by rw [hm, List.length_cons]; omega,hcur,fun id => ?_,fun id hid => ?_⟩
      · rw [hl, hgone, List.mem_cons]
        tauto
      · obtain ⟨hne,hid'⟩ := not_or.mp (fun h => hid (List.mem_cons.mpr h))
        rw [hsame id hid', removed_other id hne]

/-- The removal list of one call, the stale descriptors first. -/
def chosen (st : ScanState) : List ℕ :=
  st.victims++(st.candidates.reverse.map (·.id)).take (evictionBatch-st.victims.length)

section Chosen

variable (cfg env required excluded P)

def finalScan : ScanState := (window P).foldl (note cfg env required excluded P) ⟨[],[]⟩

def staleIds : List ℕ := staleOf cfg env required excluded P (window P)

def currentIds : List ℕ := currentOf cfg env required excluded P (window P)

theorem eligible_split :
    (staleIds cfg env required excluded P++currentIds cfg env required excluded P).Perm
      (eligibleIds cfg env required excluded P) := by
  have h := List.filter_append_perm (current cfg env P) (eligibleIds cfg env required excluded P)
  exact List.perm_append_comm.trans h

/-- The removal list: stale descriptors up to the batch, then the least recently used current
ones as far as the batch goes. -/
theorem chosen_spec : ∃ used unused : List ℕ,
    chosen (finalScan cfg env required excluded P) =
      (staleIds cfg env required excluded P).take evictionBatch++used ∧
    (used++unused).Perm (currentIds cfg env required excluded P) ∧
    used.length = min (evictionBatch-
      ((staleIds cfg env required excluded P).take evictionBatch).length)
      (currentIds cfg env required excluded P).length ∧
    ∀ c ∈ used, ∀ d ∈ unused, (P.entries c).lastAccess ≤ (P.entries d).lastAccess := by
  obtain ⟨hv,hs⟩ : (finalScan cfg env required excluded P).victims =
        (staleIds cfg env required excluded P).take evictionBatch ∧
      Selects Candidate.access evictionBatch
        ((currentIds cfg env required excluded P).map (candidateOf P))
        (finalScan cfg env required excluded P).candidates := note_fold (window P)
  set room := evictionBatch-((staleIds cfg env required excluded P).take evictionBatch).length
    with hroom
  obtain ⟨hlen,dropped,hperm,hleast⟩ := selects_take hs room (Nat.sub_le _ _)
  set kept := (finalScan cfg env required excluded P).candidates.reverse.take room with hkept
  have hback : ∀ x ∈ kept++dropped, x = candidateOf P x.id := by
    intro x hx
    obtain ⟨id,_,rfl⟩ := List.mem_map.mp (hperm.mem_iff.mp hx)
    rfl
  refine ⟨kept.map (·.id),dropped.map (·.id),?_,?_,?_,fun c hc d hd => ?_⟩
  · rw [chosen, hv, ← List.map_take]
  · have hmap := hperm.map (·.id)
    rwa [List.map_append, List.map_map, show (fun x => x.id)∘candidateOf P = id from rfl,
      List.map_id] at hmap
  · rw [List.length_map, hlen, List.length_map]
  · obtain ⟨x,hx,rfl⟩ := List.mem_map.mp hc
    obtain ⟨y,hy,rfl⟩ := List.mem_map.mp hd
    have h := hleast x hx y hy
    rw [hback x (by simp [hx]), hback y (by simp [hy])] at h
    exact h

theorem staleIds_mem (id : ℕ) : id ∈ staleIds cfg env required excluded P ↔
    id ∈ eligibleIds cfg env required excluded P ∧ current cfg env P id = false := by
  simp [staleIds, staleOf, eligibleIds]
  tauto

theorem currentIds_mem (id : ℕ) : id ∈ currentIds cfg env required excluded P ↔
    id ∈ eligibleIds cfg env required excluded P ∧ current cfg env P id = true := by
  simp [currentIds, currentOf, eligibleIds]
  tauto

theorem eligible_live (id : ℕ) (h : id ∈ eligibleIds cfg env required excluded P) :
    Live P id ∧ id ∈ window P := by
  obtain ⟨hw,he⟩ := List.mem_filter.mp h
  obtain ⟨h0,h1⟩ := window_bound P id hw
  simp only [eligible, unguarded, Bool.and_eq_true] at he
  exact ⟨⟨h0,h1,he.1.1.1.1⟩,hw⟩

theorem chosen_eligible : ∃ rest, (chosen (finalScan cfg env required excluded P)++rest).Perm
    (eligibleIds cfg env required excluded P) := by
  obtain ⟨used,unused,hchosen,hperm,-,-⟩ := chosen_spec cfg env required excluded P
  set stale := staleIds cfg env required excluded P with hstale
  refine ⟨stale.drop evictionBatch++unused,?_⟩
  have hswap : (used++(stale.drop evictionBatch++unused)).Perm
      (stale.drop evictionBatch++(used++unused)) := List.perm_append_comm_assoc _ _ _
  have hall : (stale.take evictionBatch++(stale.drop evictionBatch++(used++unused))).Perm
      (eligibleIds cfg env required excluded P) := by
    rw [← List.append_assoc, List.take_append_drop]
    exact (hperm.append_left stale).trans (eligible_split cfg env required excluded P)
  rw [hchosen, List.append_assoc]
  exact (hswap.append_left _).trans hall

end Chosen

section Call

theorem chosen_mem (id : ℕ) (h : id ∈ chosen (finalScan cfg env required excluded P)) :
    id ∈ eligibleIds cfg env required excluded P := by
  obtain ⟨rest,hperm⟩ := chosen_eligible cfg env required excluded P
  exact hperm.mem_iff.mp (List.mem_append_left rest h)

theorem chosen_nodup : (chosen (finalScan cfg env required excluded P)).Nodup := by
  obtain ⟨rest,hperm⟩ := chosen_eligible cfg env required excluded P
  have hall : (eligibleIds cfg env required excluded P).Nodup := (window_nodup P).filter _
  exact (List.nodup_append.mp (hperm.nodup_iff.mpr hall)).1

theorem chosen_length : (chosen (finalScan cfg env required excluded P)).length =
    min evictionBatch (eligibleIds cfg env required excluded P).length := by
  obtain ⟨used,unused,hchosen,-,hlen,-⟩ := chosen_spec cfg env required excluded P
  rw [hchosen, ← (eligible_split cfg env required excluded P).length_eq, List.length_append,
    List.length_append, hlen, List.length_take]
  omega

theorem choice_of_removed (n : ℕ) (hn : n = (chosen (finalScan cfg env required excluded P)).length)
    (hcursor : P'.evictionBucketCursor =
      if P.capacity = 0 then 0 else (P.evictionBucketCursor+scanLength P)%P.capacity)
    (hlive : ∀ id, Live P' id ↔
      Live P id ∧ id ∉ chosen (finalScan cfg env required excluded P))
    (hsame : ∀ id, id ∉ window P → P'.entries id = P.entries id) :
    Choice cfg env required excluded P P' n := by
  have hremoved : ∀ id, Removed P P' id ↔
      id ∈ chosen (finalScan cfg env required excluded P) := by
    intro id
    rw [Removed, hlive]
    constructor
    · rintro ⟨hl,hno⟩
      by_contra hid
      exact hno ⟨hl,hid⟩
    · intro hid
      exact ⟨(eligible_live cfg env required excluded P id (chosen_mem id hid)).1,
        fun h => h.2 hid⟩
  obtain ⟨used,unused,hchosen,hperm,hlen,hleast⟩ := chosen_spec cfg env required excluded P
  -- A removed current descriptor was not taken from the stale ones.
  have hused : ∀ c, Removed P P' c → current cfg env P c = true → c ∈ used := by
    intro c hc hcur
    rw [hremoved, hchosen, List.mem_append] at hc
    refine hc.resolve_left (fun hs => ?_)
    have := ((staleIds_mem cfg env required excluded P c).mp (List.mem_of_mem_take hs)).2
    rw [hcur] at this
    cases this
  refine ⟨hcursor,hn.trans chosen_length,⟨_,chosen_nodup,hn.symm,fun id => (hremoved id).symm⟩,
    fun id h => chosen_mem id ((hremoved id).mp h),fun c s hc hcur hs hstale => ?_,
    fun c d hc hcur hd hdcur hnot => ?_,fun id h => ((hlive id).mp h).1,hsame⟩
  · have hpos : 0 < used.length := List.length_pos_of_mem (hused c hc hcur)
    rw [List.length_take] at hlen
    have hs' := (staleIds_mem cfg env required excluded P s).mpr ⟨hs,hstale⟩
    rw [hremoved, hchosen, List.take_of_length_le (by omega)]
    exact List.mem_append_left _ hs'
  · have hd' := (currentIds_mem cfg env required excluded P d).mpr ⟨hd,hdcur⟩
    rw [← hperm.mem_iff, List.mem_append] at hd'
    refine hleast c (hused c hc hcur) d (hd'.resolve_left (fun hdu => hnot ?_))
    rw [hremoved, hchosen]
    exact List.mem_append_right _ hdu

theorem scanEntries_exact :
    Ensures (scanEntries cfg env required excluded P.evictionBucketCursor 0
        (min P.capacity evictionSample) ⟨[],[]⟩) P
      (fun st P1 => st = finalScan cfg env required excluded P ∧
        Swept cfg env excluded P P1 (window P))
      (WornOut cfg env excluded P) := by
  have h : Ensures ((window P).foldlM (fun st id => scanEntry cfg env required excluded id st)
      ⟨[],[]⟩) P _ _ := scan_exact (window P) [] ⟨[],[]⟩ (swept_refl P) (window_nodup P)
  unfold Ensures at h ⊢
  rw [scanEntries_window]
  cases hrun : (windowFrom P.evictionBucketCursor P.capacity 0
      (min P.capacity evictionSample)).foldlM
        (fun st id => scanEntry cfg env required excluded id st) ⟨[],[]⟩ P with
  | ok st P1 =>
    rw [window, scanLength, hrun] at h
    exact h
  | error e P1 =>
    rw [window, scanLength, hrun] at h
    obtain ⟨hfault,hsoft,hcursor,hcounter⟩ := h
    exact ⟨hfault,hcounter,soft_live hsoft,hcursor⟩

theorem evict_choice (hr : EntryRep P held none) :
    Ensures (evictCacheEntries cfg required excluded env) P
      (fun n P' => Choice cfg env required excluded P P' n) (WornOut cfg env excluded P) := by
  unfold evictCacheEntries
  simp only [ensures_bind, ensures_get]
  have hrep := scanEntries_spec cfg env required P.evictionBucketCursor 0
    (min P.capacity evictionSample) ⟨[],[]⟩ hr
    (show Evictable P excluded _ by simp [Evictable, picked])
  refine ensures_mono (ensures_and hrep scanEntries_exact) ?_ (fun _ _ h => h.2)
  rintro st P1 ⟨hscan,rfl,hsw⟩
  simp only [ensures_modify]
  set P2 : Partition := { P1 with evictionBucketCursor := _ } with hP2
  have hlive : ∀ id, Live P2 id ↔ Live P id := soft_live (soft_trans hsw.soft
    ⟨fun _ => hardEq_refl _,rfl,rfl,rfl,rfl,rfl⟩)
  refine ensures_mono (removeVictims_exact (chosen (finalScan cfg env required excluded P)) 0
    (cursor_rep hscan.rep _) chosen_nodup (fun v hv => (hlive v).mpr ?_)) ?_ (fun _ _ h => h.elim)
  · exact (eligible_live cfg env required excluded P v (chosen_mem v hv)).1
  rintro n P' ⟨hn,hcursor,hgone,hsame⟩
  refine choice_of_removed n (by omega) ?_ (fun id => ?_) (fun id hid => ?_)
  · rw [hcursor, hP2]
    simp only [hsw.soft.capacity, scanLength]
  · rw [hgone, hlive]
  · rw [hsame id (fun hc => hid
      (eligible_live cfg env required excluded P id (chosen_mem id hc)).2)]
    exact hsw.same id hid

end Call

/-- One eviction from `P`, and the loops that retry after evictions. -/
structure Exact (cfg : Settings) (hash : KeyTuple → ℕ) (required excluded : ℕ) (env : EvictEnv)
    (P : Partition) : Prop where
  length : (window P).length = min P.capacity evictionSample
  distinct : (window P).Nodup
  scans : scanEntries cfg env required excluded P.evictionBucketCursor 0
      (min P.capacity evictionSample) ⟨[],[]⟩ P =
    (window P).foldlM (fun st id => scanEntry cfg env required excluded id st) ⟨[],[]⟩ P
  returned : ∀ n P', evictCacheEntries cfg required excluded env P = .ok n P' →
    Choice cfg env required excluded P P' n
  raised : ∀ e P', evictCacheEntries cfg required excluded env P = .error e P' →
    WornOut cfg env excluded P e P'
  loop : ∀ len loopEnv turns i P', P.entryCount < turns →
    allocOrEvict cfg len excluded loopEnv turns i P ≠ .error .loopBound P'
  operation : ∀ op P', runOp cfg hash op P ≠ .error .loopBound P'

/-- In every reachable state an eviction scans its window and removes the choice described, and
the loops that retry after it end. -/
theorem eviction_choice (cfg : Settings) (hash : KeyTuple → ℕ) (size : PartitionSize)
    (memory keyMemory : ByteMemory.Memory) (trace : List Event)
    (hrun : Run cfg hash (partitionInit size memory keyMemory) trace)
    (required excluded : ℕ) (env : EvictEnv) :
    Exact cfg hash required excluded env
      (finalState (partitionInit size memory keyMemory) trace) := by
  have hrep := run_rep cfg (partitionInit_rep size memory keyMemory) hrun
  have hcall : Ensures (evictCacheEntries cfg required excluded env) _ _ _ :=
    evict_choice hrep.entries
  refine ⟨window_length _,window_nodup _,scanEntries_window _ _ _ _,ensures_ok hcall,
    ensures_error hcall,fun len loopEnv turns i P' hturns hloop => ?_,fun op P' hop => ?_⟩
  · cases (ensures_error (allocOrEvict_spec cfg len loopEnv turns i hrep.entries hturns) _ _
      hloop).1
  · cases (ensures_error (runOp_spec cfg op hrep) _ _ hop).1

/-- The stored value of a small partition is the one that goes. -/
theorem small_eviction_choice : Run smallSettings (fun _ => 0) smallInit
      [storedEvent,claimedEvent,createdEvent] ∧
    eligibleIds smallSettings calmEvict 0 0
      (finalState smallInit [storedEvent,claimedEvent,createdEvent]) = [1] ∧
    Exact smallSettings (fun _ => 0) 0 0 calmEvict
      (finalState smallInit [storedEvent,claimedEvent,createdEvent]) :=
  ⟨small_run,by decide +kernel,eviction_choice smallSettings (fun _ => 0) smallSize (fun _ => 0)
    (fun _ => 0) _ small_run 0 0 calmEvict⟩

def lastToken : ReadToken := { calmToken with keyVersion := 2^64-1 }

def lateEvict : EvictEnv := ⟨10^9,fun _ => calmSlot⟩

def leasedLast : Partition := resultState (runOp smallSettings (fun _ => 0)
  (.claim smallMapping smallTuple lastToken calmReads) (aged retiredEvent.after 1 (2^64-3)))

/-- With the version counter used up, an eviction that meets an expired lease raises and removes
nothing, although the descriptor is eligible. -/
theorem spent_counter_keeps : ∃ trace P', Run smallSettings (fun _ => 0) smallInit trace ∧
    eligibleIds smallSettings lateEvict 0 0 (finalState smallInit trace) = [1] ∧
    runOp smallSettings (fun _ => 0) (.evict 0 0 lateEvict) (finalState smallInit trace) =
      .error .keyGenerationOverflow P' ∧ Live P' 1 := by
  obtain ⟨trace,hrun,hfinal⟩ : ∃ trace, Run smallSettings (fun _ => 0) smallInit trace ∧
      finalState smallInit trace = leasedLast :=
    spent_next (.claim smallMapping smallTuple lastToken calmReads) (.claimed .owner (2^64-1))
      (by decide +kernel)
  refine ⟨trace,resultState (runOp smallSettings (fun _ => 0) (.evict 0 0 lateEvict) leasedLast),
    hrun,?_,?_,?_⟩
  · rw [hfinal]
    decide +kernel
  · rw [hfinal]
    apply error_of_fault
    decide +kernel
  · refine ⟨?_,?_,?_⟩ <;> decide +kernel

end PgLocalCache.EvictionChoice
