import PgLocalCache.IndexInvariant

/-!
# The probing index refines a finite set

`Table` holds the index and the set of ids that were inserted and not removed.
Every id has a fixed hash and a key selects ids by hash and match predicate. Along
every run of insertions, removals and rebuilds that leaves at most one live id per
key, lookups answer from the set, and the failure exits change no bucket.
-/

namespace PgLocalCache.IndexRuns

open CacheIndex IndexInvariant FreeChain

variable {K : Type}

structure Keying (K : Type) where
  hash : K → ℕ
  entryHash : ℕ → ℕ
  entryMatches : K → ℕ → Bool

def Keying.callbacks (t : Keying K) (k : K) : Callbacks Unit where
  entryHash id c := (t.entryHash id,c)
  entryMatches id c := (t.entryMatches k id,c)

/-- A rebuild asks for hashes only. -/
def Keying.hashes (t : Keying K) : Callbacks Unit where
  entryHash id c := (t.entryHash id,c)
  entryMatches _ c := (false,c)

def Keying.selects (t : Keying K) (k : K) (id : ℕ) : Bool :=
  t.entryHash id == t.hash k && t.entryMatches k id

structure Table where
  index : Index
  live : ℕ → Bool

inductive Op (K : Type) where
  | insert (k : K) (id : ℕ)
  | remove (k : K)
  | rebuild

def find (t : Keying K) (ix : Index) (k : K) : ℕ :=
  (indexFind ix (t.callbacks k) (t.hash k) ()).1

def insert (t : Keying K) (ix : Index) (k : K) (id : ℕ) : InsertResult × Index :=
  let (result,ix,_) := indexInsert ix (t.callbacks k) (t.hash k) id ()
  (result,ix)

def rebuild (t : Keying K) (ix : Index) : Bool × Index :=
  let (done,ix,_) := indexRebuildExisting ix t.hashes ()
  (done,ix)

def noted (s : Table) (id : ℕ) : InsertResult × Index → Table
  | (.inserted,ix) => ⟨ix,fun x => s.live x || x == id⟩
  | (_,ix) => ⟨ix,s.live⟩

def step (t : Keying K) (s : Table) : Op K → Table
  | .insert k id => noted s id (insert t s.index k id)
  | .remove k => ⟨(indexRemove s.index (t.callbacks k) (t.hash k) ()).2.1,
      fun x => s.live x && !t.selects k x⟩
  | .rebuild => ⟨(rebuild t s.index).2,s.live⟩

def steps (t : Keying K) : List (Op K) → Table → Table
  | [], s => s
  | op::ops, s => steps t ops (step t s op)

def blank (bucketCount : ℕ) : Table := ⟨indexInit bucketCount,fun _ => false⟩

/-- No key selects two live ids. -/
def Selective (t : Keying K) (live : ℕ → Bool) : Prop :=
  ∀ k id id', live id = true → live id' = true → t.selects k id = true → t.selects k id' = true →
    id = id'

/-- An inserted id is an id, and its key selects it. -/
def Op.Proper (t : Keying K) : Op K → Prop
  | .insert k id => id ≠ empty ∧ id ≠ tombstone ∧ t.selects k id = true
  | _ => True

def Orderly (t : Keying K) : List (Op K) → Table → Prop
  | [], s => Selective t s.live
  | op::ops, s => Selective t s.live ∧ op.Proper t ∧ Orderly t ops (step t s op)

/-! One operation. -/

variable {t : Keying K} {s : Table}

def Rep (t : Keying K) (s : Table) : Prop :=
  Indexed s.index (fun id => s.live id = true) t.entryHash

theorem callbacks_faithful (t : Keying K) (k : K) (live : ℕ → Prop) :
    Faithful (t.callbacks k) () live t.entryHash (t.entryMatches k) :=
  fun _ _ => ⟨rfl,rfl⟩

theorem hashes_faithful (t : Keying K) (live : ℕ → Prop) :
    Faithful t.hashes () live t.entryHash (fun _ => false) :=
  fun _ _ => ⟨rfl,rfl⟩

theorem selects_iff (k : K) (id : ℕ) :
    t.selects k id = true ↔ t.entryHash id = t.hash k ∧ t.entryMatches k id = true := by
  simp [Keying.selects]

/-- The two loops take the same steps, so a key that find meets makes insert report it. -/
theorem vacancy_taken {κ : Type} (ix : Index) (cb : Callbacks κ) (hash probe n b : ℕ)
    (first : Option ℕ) (c c' : κ) (h : search ix cb hash probe n c = (some b,c')) :
    vacancy ix cb hash probe n first c = (.taken,c') := by
  induction n generalizing probe first c with
  | zero => simp [search] at h
  | succ n ih =>
    simp only [search] at h
    simp only [vacancy]
    by_cases he : ix.buckets (bucketAt ix hash probe) = empty
    · simp [he] at h
    rw [if_neg he] at h
    by_cases ht : ix.buckets (bucketAt ix hash probe) = tombstone
    · rw [if_pos ht] at h ⊢
      exact ih _ _ _ h
    rw [if_neg ht] at h ⊢
    rw [if_neg he]
    cases hit : (candidateHits cb hash (ix.buckets (bucketAt ix hash probe)) c).1 with
    | true =>
      simp only [hit, if_true, Prod.mk.injEq] at h ⊢
      exact ⟨trivial,h.2⟩
    | false =>
      simp only [hit, Bool.false_eq_true, if_false] at h ⊢
      exact ih _ _ _ h

/-- The live id that the key selects, where there is one. -/
def Present (t : Keying K) (s : Table) (k : K) (id : ℕ) : Prop :=
  s.live id = true ∧ t.selects k id = true

def Absent (t : Keying K) (s : Table) (k : K) : Prop :=
  ∀ id, s.live id = true → t.selects k id = false

theorem present_or_absent (t : Keying K) (s : Table) (k : K) :
    (∃ id, Present t s k id) ∨ Absent t s k := by
  by_cases h : ∃ id, Present t s k id
  · exact Or.inl h
  · right
    intro id hl
    by_contra hs
    exact h ⟨id,hl,by simpa using hs⟩

theorem absent_unmatched {k : K} (ha : Absent t s k) (id : ℕ) (hl : s.live id = true)
    (hh : t.entryHash id = t.hash k) : t.entryMatches k id = false := by
  have := ha id hl
  simpa [Keying.selects, hh] using this

theorem present_unique {k : K} {id : ℕ} (hsel : Selective t s.live) (hp : Present t s k id)
    (id' : ℕ) (hl : s.live id' = true) (hh : t.entryHash id' = t.entryHash id)
    (hm : t.entryMatches k id' = true) : id' = id := by
  have hk := ((selects_iff k id).mp hp.2).1
  exact hsel k id' id hl hp.1 ((selects_iff k id').mpr ⟨hh.trans hk,hm⟩) hp.2

theorem find_present {k : K} {id : ℕ} (hi : Rep t s) (hsel : Selective t s.live)
    (hp : Present t s k id) : find t s.index k = id := by
  obtain ⟨hk,hm⟩ := (selects_iff k id).mp hp.2
  have h := find_hit hi (callbacks_faithful t k _) id hp.1 hm (present_unique hsel hp)
  rw [hk] at h
  rw [find, h]

theorem find_absent {k : K} (hi : Rep t s) (ha : Absent t s k) : find t s.index k = empty := by
  rw [find, find_miss hi (callbacks_faithful t k _) (t.hash k) (absent_unmatched ha)]

theorem insert_present {k : K} {id : ℕ} (hi : Rep t s) (hsel : Selective t s.live)
    (hp : Present t s k id) (new : ℕ) : insert t s.index k new = (.exists,s.index) := by
  obtain ⟨hk,hm⟩ := (selects_iff k id).mp hp.2
  obtain ⟨q,hq,_⟩ := search_hit hi (callbacks_faithful t k _) id hp.1 hm (present_unique hsel hp)
  rw [hk] at hq
  simp only [insert, indexInsert, hi.dims, if_true, vacancy_taken _ _ _ _ _ _ none _ _ hq]

theorem insert_absent {k : K} (hi : Rep t s) (ha : Absent t s k) (new : ℕ) :
    (∃ p < maxProbes, ∃ reused, insert t s.index k new =
      (.inserted,putBucket s.index (bucketAt s.index (t.hash k) p) new reused) ∧
      s.index.buckets (bucketAt s.index (t.hash k) p) = (if reused then tombstone else empty) ∧
      ∀ q < p, s.index.buckets (bucketAt s.index (t.hash k) q) ≠ empty) ∨
    (insert t s.index k new =
        (.probeLimit,{ s.index with probeRejections := s.index.probeRejections+1 }) ∧
      FullWindow s.index (t.hash k)) := by
  rcases vacancy_cases hi (callbacks_faithful t k _) (t.hash k) 0 maxProbes none (by simp)
    (absent_unmatched ha) (by simp) (by simp) with ⟨p,reused,h,hp,hv,hg⟩ | h
  · exact Or.inl ⟨p,hp,reused,by simp [insert, indexInsert, hi.dims, h],hv,hg⟩
  · refine Or.inr ⟨by simp [insert, indexInsert, hi.dims, h],fun p hp => ?_⟩
    exact (vacancy_none _ _ _ 0 maxProbes none _ (by rw [h])).2 p (Nat.zero_le p) (by omega)

theorem rebuild_cases (hi : Rep t s) :
    (∃ ix, rebuild t s.index = (true,ix) ∧ Rep t ⟨ix,s.live⟩ ∧ ix.tombstones = 0) ∨
      rebuild t s.index = (false,s.index) := by
  rcases rebuildExisting_cases hi (hashes_faithful t _) with ⟨ix,h,hr,hz⟩ | h
  · exact Or.inl ⟨ix,by simp [rebuild, h],hr,hz⟩
  · exact Or.inr (by simp [rebuild, h])

/-! Runs. -/

theorem insert_rep (hi : Rep t s) (hsel : Selective t s.live) (k : K) (id : ℕ)
    (hp : (Op.insert k id).Proper t) : Rep t (noted s id (insert t s.index k id)) := by
  obtain ⟨he,ht,hs⟩ := hp
  rcases present_or_absent t s k with ⟨old,hold⟩ | ha
  · rw [insert_present hi hsel hold]
    exact hi
  have hnew : ¬s.live id = true := by
    intro hl
    rw [ha id hl] at hs
    cases hs
  rcases insert_absent hi ha id with ⟨p,hp,reused,h,hv,hg⟩ | ⟨h,_⟩
  · rw [h]
    have hput := indexed_put hi (t.hash k) id p reused hp hv hg hnew he ht (fun _ _ => rfl)
      ((selects_iff k id).mp hs).1
    refine indexed_congr hput (fun x => ?_) (fun _ _ => rfl)
    change (s.live x || x == id) = true ↔ _
    simp
  · rw [h]
    exact indexed_rejections hi _

theorem remove_rep (hi : Rep t s) (hsel : Selective t s.live) (k : K) :
    Rep t (step t s (.remove k)) := by
  rcases present_or_absent t s k with ⟨id,hp⟩ | ha
  · obtain ⟨hk,hm⟩ := (selects_iff k id).mp hp.2
    obtain ⟨ix,h,hr⟩ := remove_hit hi (callbacks_faithful t k _) id hp.1 hm
      (present_unique hsel hp)
    rw [hk] at h
    simp only [step, h]
    refine indexed_congr hr (fun x => ?_) (fun _ _ => rfl)
    simp only [Bool.and_eq_true, Bool.not_eq_true', and_congr_right_iff]
    intro hl
    constructor
    · intro hs hx
      rw [hx, hp.2] at hs
      cases hs
    · intro hne
      by_contra hs
      exact hne (hsel k x id hl hp.1 (by simpa using hs) hp.2)
  · have h := search_miss hi (callbacks_faithful t k _) (t.hash k) (absent_unmatched ha)
    simp only [step, indexRemove, hi.dims, if_true, h]
    refine indexed_congr hi (fun x => ?_) (fun _ _ => rfl)
    simp only [Bool.and_eq_true, Bool.not_eq_true', and_iff_left_iff_imp]
    exact ha x

theorem step_rep (hi : Rep t s) (hsel : Selective t s.live) (op : Op K) (hp : op.Proper t) :
    Rep t (step t s op) := by
  cases op with
  | insert k id => exact insert_rep hi hsel k id hp
  | remove k => exact remove_rep hi hsel k
  | rebuild =>
    rcases rebuild_cases hi with ⟨ix,h,hr,_⟩ | h
    · simp only [step, h]
      exact hr
    · simp only [step, h]
      exact hi

theorem steps_rep (ops : List (Op K)) (hi : Rep t s) (ho : Orderly t ops s) :
    Rep t (steps t ops s) ∧ Selective t (steps t ops s).live := by
  induction ops generalizing s with
  | nil => exact ⟨hi,ho⟩
  | cons op ops ih =>
    obtain ⟨hsel,hp,hrest⟩ := ho
    exact ih (step_rep hi hsel op hp) hrest

theorem blank_rep (t : Keying K) (e : ℕ) : Rep t (blank (2^e)) := by
  have hpos : 0 < 2^e := by positivity
  have hand : 2^e &&& (2^e-1) = 0 := by rw [Nat.and_two_pow_sub_one_eq_mod, Nat.mod_self]
  have hd : dimensionsValid (indexInit (2^e)) = true := by
    simp only [dimensionsValid, indexValid, indexInit, hand, beq_self_eq_true, Bool.and_true,
      bne_iff_ne]
    omega
  exact indexed_congr (indexed_blank (indexInit (2^e)) t.entryHash hd) (by simp [blank])
    (fun _ _ => rfl)

/-- The index as a set: lookups, occupancy, the tombstone counter and all three failure exits. -/
structure RefinesSet (t : Keying K) (s : Table) : Prop where
  present : ∀ k id, s.live id = true → t.selects k id = true → find t s.index k = id
  absent : ∀ k, (∀ id, s.live id = true → t.selects k id = false) → find t s.index k = empty
  once : ∀ b < s.index.bucketCount, ∀ b' < s.index.bucketCount,
    s.index.buckets b ≠ empty → s.index.buckets b ≠ tombstone →
      s.index.buckets b = s.index.buckets b' → b = b'
  tombstones : s.index.tombstones =
    ((Finset.range s.index.bucketCount).filter (fun b => s.index.buckets b = tombstone)).card
  probeLimit : ∀ k id, (insert t s.index k id).1 = .probeLimit ↔
    (∀ x, s.live x = true → t.selects k x = false) ∧
      ∀ p < maxProbes, s.index.buckets (bucketAt s.index (t.hash k) p) ≠ empty ∧
        s.index.buckets (bucketAt s.index (t.hash k) p) ≠ tombstone
  insertFailed : ∀ k id, (insert t s.index k id).1 ≠ .inserted →
    (insert t s.index k id).2.buckets = s.index.buckets ∧
      (insert t s.index k id).2.tombstones = s.index.tombstones
  rebuilt : (rebuild t s.index).1 = true →
    (∀ k, find t (rebuild t s.index).2 k = find t s.index k) ∧
      (rebuild t s.index).2.tombstones = 0
  rebuildFailed : (rebuild t s.index).1 = false → (rebuild t s.index).2 = s.index

theorem rep_once (hi : Rep t s) (b b' : ℕ) (hb : b < s.index.bucketCount)
    (hb' : b' < s.index.bucketCount) (he : s.index.buckets b ≠ empty)
    (ht : s.index.buckets b ≠ tombstone) (h : s.index.buckets b = s.index.buckets b') :
    b = b' := by
  rcases hi.content b hb with h1 | h1 | h1
  · exact absurd h1 he
  · exact absurd h1 ht
  · exact hi.once b hb b' hb' h1 h

theorem rep_probeLimit (hi : Rep t s) (hsel : Selective t s.live) (k : K) (id : ℕ) :
    (insert t s.index k id).1 = .probeLimit ↔ Absent t s k ∧ FullWindow s.index (t.hash k) := by
  rcases present_or_absent t s k with ⟨old,hold⟩ | ha
  · rw [insert_present hi hsel hold]
    simp only [reduceCtorEq, false_iff]
    rintro ⟨ha,_⟩
    have hs := hold.2
    rw [ha old hold.1] at hs
    cases hs
  rcases insert_absent hi ha id with ⟨p,hp,reused,h,hv,_⟩ | ⟨h,hfull⟩
  · rw [h]
    simp only [reduceCtorEq, false_iff]
    rintro ⟨_,hfull⟩
    obtain ⟨h1,h2⟩ := hfull p hp
    cases reused with
    | false => exact h1 (by simpa using hv)
    | true => exact h2 (by simpa using hv)
  · rw [h]
    exact ⟨fun _ => ⟨ha,hfull⟩,fun _ => rfl⟩

theorem rep_insertFailed (hi : Rep t s) (hsel : Selective t s.live) (k : K) (id : ℕ)
    (hno : (insert t s.index k id).1 ≠ .inserted) :
    (insert t s.index k id).2.buckets = s.index.buckets ∧
      (insert t s.index k id).2.tombstones = s.index.tombstones := by
  rcases present_or_absent t s k with ⟨old,hold⟩ | ha
  · rw [insert_present hi hsel hold]
    exact ⟨rfl,rfl⟩
  rcases insert_absent hi ha id with ⟨p,hp,reused,h,_⟩ | ⟨h,_⟩
  · rw [h] at hno
    exact absurd rfl hno
  · rw [h]
    exact ⟨rfl,rfl⟩

theorem rep_rebuilt (hi : Rep t s) (hsel : Selective t s.live)
    (hdone : (rebuild t s.index).1 = true) :
    (∀ k, find t (rebuild t s.index).2 k = find t s.index k) ∧
      (rebuild t s.index).2.tombstones = 0 := by
  rcases rebuild_cases hi with ⟨ix,h,hr,hz⟩ | h
  · rw [h]
    refine ⟨fun k => ?_,hz⟩
    rcases present_or_absent t s k with ⟨id,hp⟩ | ha
    · rw [find_present hi hsel hp]
      exact find_present hr hsel hp
    · rw [find_absent hi ha]
      exact find_absent hr ha
  · rw [h] at hdone
    cases hdone

/-- After every orderly sequence of insertions, removals and rebuilds on a table of any
power-of-two size the index refines the set of its live ids. -/
theorem run_refines_set (t : Keying K) (e : ℕ) (ops : List (Op K))
    (ho : Orderly t ops (blank (2^e))) : RefinesSet t (steps t ops (blank (2^e))) := by
  obtain ⟨hi,hsel⟩ := steps_rep ops (blank_rep t e) ho
  refine ⟨fun k id hl hs => find_present hi hsel ⟨hl,hs⟩,fun k ha => find_absent hi ha,
    fun b hb b' hb' he ht h => rep_once hi b b' hb hb' he ht h,?_,rep_probeLimit hi hsel,
    rep_insertFailed hi hsel,rep_rebuilt hi hsel,fun hno => ?_⟩
  · rw [hi.tombs, Finset.card_filter]
    exact total_congr _ _ _ (fun b _ => by simp)
  · rcases rebuild_cases hi with ⟨ix,h,_⟩ | h
    · rw [h] at hno
      cases hno
    · rw [h]

/-- Four buckets, one hash for all keys, and key `k` selects id `k+1`. -/
def crowd : Keying ℕ := ⟨fun _ => 7,fun _ => 7,fun k id => id == k+1⟩

theorem crowd_selective (live : ℕ → Bool) : Selective crowd live := by
  intro k id id' _ _ h h'
  simp only [Keying.selects, crowd, beq_self_eq_true, Bool.true_and, beq_iff_eq] at h h'
  omega

def crowdOps : List (Op ℕ) :=
  [.insert 0 1,.insert 1 2,.insert 2 3,.remove 1,.insert 3 4,.insert 4 5,.insert 5 6,.remove 0,
    .rebuild]

theorem crowd_orderly : Orderly crowd crowdOps (blank (2^2)) := by
  simp only [crowdOps, Orderly, crowd_selective, Op.Proper, true_and, and_true]
  decide

theorem crowd_refines_set : RefinesSet crowd (steps crowd crowdOps (blank (2^2))) ∧
    find crowd (steps crowd crowdOps (blank (2^2))).index 3 = 4 :=
  have h := run_refines_set crowd 2 crowdOps crowd_orderly
  ⟨h,h.present 3 4 (by decide) (by decide)⟩

end PgLocalCache.IndexRuns
