import PgLocalCache.IndexRuns

/-!
# When a rebuild of the probing index succeeds

A rebuild takes the live ids in bucket order and places each one anew. An id that
stands at or behind the first bucket of its probe path finds, at the latest, its
own bucket still free. An id whose path has wrapped past the last bucket is taken
early and goes back to the end of the table, in front of ids that stand there, and
these may then meet a full window. `advances` is a run in which a removal takes out
the id it returns, with no condition on the match predicate.
-/

namespace PgLocalCache.IndexRebuild

open CacheIndex IndexInvariant IndexRuns
open Function (update update_of_ne update_self)

variable {K : Type}

def advance (t : Keying K) (s : Table) : Op K → Table
  | .insert k id => step t s (.insert k id)
  | .remove k =>
    let (id,ix,_) := indexRemove s.index (t.callbacks k) (t.hash k) ()
    ⟨ix,fun x => s.live x && x != id⟩
  | .rebuild => step t s .rebuild

def advances (t : Keying K) : List (Op K) → Table → Table
  | [], s => s
  | op::ops, s => advances t ops (advance t s op)

/-- An inserted id is an id, has the hash it is inserted under, and is inserted while it is live
only under a key that it matches. -/
def Fresh (t : Keying K) (s : Table) : Op K → Prop
  | .insert k id => id ≠ empty ∧ id ≠ tombstone ∧ t.entryHash id = t.hash k ∧
      (s.live id = true → t.entryMatches k id = true)
  | _ => True

def FreshRun (t : Keying K) : List (Op K) → Table → Prop
  | [], _ => True
  | op::ops, s => Fresh t s op ∧ FreshRun t ops (advance t s op)

/-- The number of buckets that hold an id. -/
def occupied (ix : Index) : ℕ :=
  ((Finset.range ix.bucketCount).filter
    (fun b => ix.buckets b ≠ empty ∧ ix.buckets b ≠ tombstone)).card

/-- The probe path of some id has passed the last bucket. -/
def Wraps (t : Keying K) (ix : Index) : Prop :=
  ∃ b < ix.bucketCount, ix.buckets b ≠ empty ∧ ix.buckets b ≠ tombstone ∧
    b < indexStart ix (t.entryHash (ix.buckets b))

/-! Runs. -/

variable {t : Keying K} {s : Table}

theorem meets_or_absent (hi : Rep t s) (k : K) :
    (∃ b < s.index.bucketCount, s.live (s.index.buckets b) = true ∧
      search s.index (t.callbacks k) (t.hash k) 0 maxProbes () = (some b,())) ∨
    (search s.index (t.callbacks k) (t.hash k) 0 maxProbes () = (none,()) ∧ Absent t s k) := by
  rcases search_cases hi (callbacks_faithful t k _) (t.hash k) 0 maxProbes with
    ⟨q,hq,_,_,hl,_,_⟩ | ⟨hnone,hgap⟩
  · exact Or.inl ⟨_,bucketAt_lt hi.dims _ q,hl,hq⟩
  · refine Or.inr ⟨hnone,fun id hl => ?_⟩
    by_contra hs
    obtain ⟨hh,hm⟩ := (selects_iff k id).mp (by simpa using hs)
    obtain ⟨p,hp,hb,hfull⟩ := hi.reach id hl
    rw [hh] at hb hfull
    obtain ⟨r,_,hr,he⟩ := hgap id hl hh hm p (Nat.zero_le p) (by omega) hb
    exact hfull r hr he

theorem insert_fresh (hi : Rep t s) (k : K) (id : ℕ) (hf : Fresh t s (.insert k id)) :
    Rep t (noted s id (insert t s.index k id)) := by
  obtain ⟨he,ht,hh,hm⟩ := hf
  rcases meets_or_absent hi k with ⟨b,_,_,hb⟩ | ⟨_,ha⟩
  · simp only [IndexRuns.insert, indexInsert, hi.dims, if_true,
      vacancy_taken _ _ _ _ _ _ none _ _ hb]
    exact hi
  · have hnew : ¬s.live id = true := by
      intro hl
      have hs := (selects_iff k id).mpr ⟨hh,hm hl⟩
      rw [ha id hl] at hs
      cases hs
    rcases insert_absent hi ha id with ⟨p,hp,reused,h,hv,hg⟩ | ⟨h,_⟩
    · rw [h]
      have hput := indexed_put hi (t.hash k) id p reused hp hv hg hnew he ht (fun _ _ => rfl) hh
      refine indexed_congr hput (fun x => ?_) (fun _ _ => rfl)
      change (s.live x || x == id) = true ↔ _
      simp
    · rw [h]
      exact indexed_rejections hi _

theorem remove_returned (hi : Rep t s) (k : K) : Rep t (advance t s (.remove k)) := by
  rcases meets_or_absent hi k with ⟨b,hlt,hl,hb⟩ | ⟨hnone,_⟩
  · simp only [advance, indexRemove, hi.dims, if_true, hb]
    refine indexed_congr (indexed_clear hi b hlt hl) (fun x => ?_) (fun _ _ => rfl)
    simp
  · simp only [advance, indexRemove, hi.dims, if_true, hnone]
    refine indexed_congr hi (fun x => ?_) (fun _ _ => rfl)
    simp only [Bool.and_eq_true, bne_iff_ne, and_iff_left_iff_imp]
    exact fun hl => (hi.ids x hl).1

theorem advance_rep (hi : Rep t s) (op : Op K) (hf : Fresh t s op) : Rep t (advance t s op) := by
  cases op with
  | insert k id => exact insert_fresh hi k id hf
  | remove k => exact remove_returned hi k
  | rebuild =>
    rcases rebuild_cases hi with ⟨ix,h,hr,_⟩ | h
    · simp only [advance, step, h]
      exact hr
    · simp only [advance, step, h]
      exact hi

theorem noted_index (s : Table) (id : ℕ) (result : InsertResult × Index) :
    (noted s id result).index = result.2 := by
  obtain ⟨outcome,ix⟩ := result
  cases outcome <;> rfl

theorem advance_allocated (s : Table) (op : Op K) :
    (advance t s op).index.allocatedBucketCount = s.index.allocatedBucketCount := by
  cases op with
  | insert k id =>
    rw [advance, step, noted_index]
    exact indexInsert_allocated s.index (t.callbacks k) (t.hash k) id ()
  | remove k => exact indexRemove_allocated s.index (t.callbacks k) (t.hash k) ()
  | rebuild => exact indexRebuild_allocated s.index t.hashes ()

theorem advances_rep (ops : List (Op K)) (hi : Rep t s) (hf : FreshRun t ops s) :
    Rep t (advances t ops s) ∧ (advances t ops s).index.allocatedBucketCount =
      s.index.allocatedBucketCount := by
  induction ops generalizing s with
  | nil => exact ⟨hi,rfl⟩
  | cons op ops ih =>
    obtain ⟨hrep,hsize⟩ := ih (advance_rep hi op hf.1) hf.2
    exact ⟨hrep,hsize.trans (advance_allocated s op)⟩

theorem bucketCount_allocated {ix : Index} (h : dimensionsValid ix = true) :
    ix.bucketCount = ix.allocatedBucketCount := by
  simp only [dimensionsValid, indexValid, Bool.and_eq_true, beq_iff_eq] at h
  exact h.2

/-! A table in which no probe path wraps. -/

variable {κ : Type} {ix : Index} {live : ℕ → Prop} {hf : ℕ → ℕ} {cb : Callbacks κ} {c : κ}
  {sel : ℕ → Bool} {e : ℕ}

theorem bucketAt_mod {ix : Index} {k : ℕ} (hk : ix.bucketCount = 2^k) (hash probe : ℕ) :
    bucketAt ix hash probe = (indexStart ix hash+probe)%2^k := by
  rw [bucketAt, hk, Nat.and_two_pow_sub_one_eq_mod]

theorem bucketAt_injective {ix : Index} {k : ℕ} (hk : ix.bucketCount = 2^k) (hash p q : ℕ)
    (hp : p < 2^k) (hq : q < 2^k) (h : bucketAt ix hash p = bucketAt ix hash q) : p = q := by
  rw [bucketAt_mod hk, bucketAt_mod hk] at h
  exact Nat.ModEq.eq_of_lt_of_lt (Nat.ModEq.add_left_cancel' _ h) hp hq

theorem bucketAt_direct (hk : ix.bucketCount = 2^e) {hash probe : ℕ}
    (h : indexStart ix hash+probe < 2^e) : bucketAt ix hash probe = indexStart ix hash+probe := by
  rw [bucketAt_mod hk, Nat.mod_eq_of_lt h]

theorem own_bucket (hi : Indexed ix live hf) (hk : ix.bucketCount = 2^e) {b : ℕ}
    (hb : b < ix.bucketCount) (hl : live (ix.buckets b))
    (hw : indexStart ix (hf (ix.buckets b)) ≤ b) :
    b-indexStart ix (hf (ix.buckets b)) < maxProbes := by
  obtain ⟨p,hp,hat,_⟩ := hi.reach _ hl
  have hsame := hi.once b hb _ (bucketAt_lt hi.dims _ p) hl hat.symm
  rw [bucketAt_mod hk] at hsame
  have hle := Nat.mod_le (indexStart ix (hf (ix.buckets b))+p) (2^e)
  omega

/-- While every taken bucket of the scratch table lies before the bucket that is read, the next id
is placed there or earlier. -/
theorem rebuildLoop_unwrapped (hi : Indexed ix live hf) (hc : Faithful cb c live hf sel)
    (hk : ix.bucketCount = 2^e)
    (hw : ∀ b < ix.bucketCount, live (ix.buckets b) → indexStart ix (hf (ix.buckets b)) ≤ b)
    (bucket n : ℕ) (scratch : ℕ → ℕ) (hn : bucket+n = ix.bucketCount)
    (hfree : ∀ b, bucket ≤ b → b < ix.bucketCount → scratch b = empty) :
    ∃ scratch', rebuildLoop ix cb bucket n scratch c = (some scratch',c) := by
  induction n generalizing bucket scratch with
  | zero => exact ⟨scratch,rfl⟩
  | succ n ih =>
    rw [rebuildLoop]
    by_cases hd : ix.buckets bucket = empty ∨ ix.buckets bucket = tombstone
    · rw [if_pos hd]
      exact ih (bucket+1) scratch (by omega) (fun b h h' => hfree b (by omega) h')
    · rw [if_neg hd]
      have hl : live (ix.buckets bucket) := by
        rcases hi.content bucket (by omega) with h | h | h
        · exact absurd (Or.inl h) hd
        · exact absurd (Or.inr h) hd
        · exact h
      have hstart := hw bucket (by omega) hl
      have hwindow := own_bucket hi hk (by omega) hl hstart
      have hown : bucketAt ix (hf (ix.buckets bucket))
          (bucket-indexStart ix (hf (ix.buckets bucket))) = bucket := by
        rw [bucketAt_direct hk (by omega)]
        omega
      rw [(hc _ hl).1]
      simp only
      cases hplace : placeScratch ix scratch (hf (ix.buckets bucket)) (ix.buckets bucket) 0
          maxProbes with
      | none =>
        refine absurd (hfree bucket (le_refl _) (by omega)) ?_
        rw [← hown]
        exact placeScratch_none ix scratch _ _ 0 maxProbes hplace _ (Nat.zero_le _) (by omega)
      | some scratch' =>
        obtain ⟨p,_,rfl,_,hgap⟩ := placeScratch_some ix scratch scratch' _ _ 0 maxProbes
          (by simp) hplace
        have hp : p ≤ bucket-indexStart ix (hf (ix.buckets bucket)) := by
          by_contra hlt
          apply hgap _ (Nat.lt_of_not_le hlt)
          rw [hown]
          exact hfree bucket (le_refl _) (by omega)
        refine ih (bucket+1) _ (by omega) (fun b h h' => ?_)
        rw [bucketAt_direct hk (by omega), update_of_ne (by omega)]
        exact hfree b (by omega) h'

theorem rebuild_unwrapped (hi : Rep t s) (hk : s.index.bucketCount = 2^e)
    (hw : ¬Wraps t s.index) : (rebuild t s.index).1 = true := by
  obtain ⟨scratch,h⟩ := rebuildLoop_unwrapped hi (hashes_faithful t _) hk
    (fun b hb hl => by
      by_contra hlt
      exact hw ⟨b,hb,(hi.ids _ hl).1,(hi.ids _ hl).2,Nat.lt_of_not_le hlt⟩)
    0 s.index.bucketCount (fun _ => empty) (by omega) (fun _ _ _ => rfl)
  simp only [rebuild, indexRebuildExisting, hi.dims, if_true, h]

/-! Few ids. -/

theorem card_le_occupied (hi : Indexed ix live hf) (ids : Finset ℕ) (h : ∀ id ∈ ids, live id) :
    ids.card ≤ occupied ix := by
  have hsub : ids ⊆ ((Finset.range ix.bucketCount).filter
      (fun b => ix.buckets b ≠ empty ∧ ix.buckets b ≠ tombstone)).image ix.buckets := by
    intro id hid
    obtain ⟨p,_,hb,_⟩ := hi.reach id (h id hid)
    have hne := hi.ids id (h id hid)
    rw [← hb] at hne
    exact Finset.mem_image.mpr ⟨_,Finset.mem_filter.mpr
      ⟨Finset.mem_range.mpr (bucketAt_lt hi.dims _ p),hne⟩,hb⟩
  exact (Finset.card_le_card hsub).trans Finset.card_image_le

/-- An id in front of a full window of other ids makes one more than the window has buckets. -/
theorem crowded_occupied (hi : Indexed ix live hf) (hk : ix.bucketCount = 2^e)
    (h : Crowded ix.bucketCount live hf) : min maxProbes (2^e) < occupied ix := by
  obtain ⟨id,ix',sub,hl,hnot,hsub,hi',hcount,hfull⟩ := h
  have hk' : ix'.bucketCount = 2^e := hcount.trans hk
  have hlive : ∀ p < maxProbes, sub (ix'.buckets (bucketAt ix' (hf id) p)) := fun p hp =>
    indexed_bucket_live hi' (hf id) p (hfull p hp).1 (hfull p hp).2
  have hinj : Set.InjOn (fun p => ix'.buckets (bucketAt ix' (hf id) p))
      (Finset.range (min maxProbes (2^e))) := by
    intro p hp q hq heq
    simp only [Finset.coe_range, Set.mem_Iio, lt_min_iff] at hp hq
    apply bucketAt_injective hk' (hf id) p q hp.2 hq.2
    exact hi'.once _ (bucketAt_lt hi'.dims _ _) _ (bucketAt_lt hi'.dims _ _) (hlive p hp.1) heq
  have hmem : ∀ x ∈ (Finset.range (min maxProbes (2^e))).image
      (fun p => ix'.buckets (bucketAt ix' (hf id) p)), sub x := by
    intro x hx
    obtain ⟨p,hp,rfl⟩ := Finset.mem_image.mp hx
    exact hlive p (by rw [Finset.mem_range] at hp; omega)
  have hcard := card_le_occupied hi (insert id _) (fun x hx => by
    rcases Finset.mem_insert.mp hx with rfl | hx
    · exact hl
    · exact hsub x (hmem x hx))
  rw [Finset.card_insert_of_notMem (fun hx => hnot (hmem id hx)), Finset.card_image_of_injOn hinj,
    Finset.card_range] at hcard
  omega

theorem occupied_le (ix : Index) : occupied ix ≤ ix.bucketCount := by
  refine (Finset.card_filter_le _ _).trans ?_
  rw [Finset.card_range]

theorem rebuild_few (hi : Rep t s) (hk : s.index.bucketCount = 2^e)
    (hfew : occupied s.index ≤ maxProbes) : (rebuild t s.index).1 = true := by
  rcases rebuildExisting_crowded hi (hashes_faithful t _) with ⟨ix,h,_⟩ | ⟨_,hcrowded⟩
  · simp only [rebuild, h]
  · have hmany := crowded_occupied hi hk hcrowded
    have hall := occupied_le s.index
    omega

/-- On a table of any power-of-two size, after every run of insertions, removals and rebuilds, a
rebuild succeeds if at most as many ids are live as a window has buckets or if no probe path wraps;
a rebuild that fails leaves the index as it was. -/
theorem rebuild_succeeds (t : Keying K) (e : ℕ) (ops : List (Op K))
    (hf : FreshRun t ops (blank (2^e))) :
    (occupied (advances t ops (blank (2^e))).index ≤ maxProbes ∨
        ¬Wraps t (advances t ops (blank (2^e))).index →
      (rebuild t (advances t ops (blank (2^e))).index).1 = true) ∧
    ((rebuild t (advances t ops (blank (2^e))).index).1 = false →
      (rebuild t (advances t ops (blank (2^e))).index).2 =
        (advances t ops (blank (2^e))).index) := by
  obtain ⟨hi,hsize⟩ := advances_rep ops (blank_rep t e) hf
  have hk : (advances t ops (blank (2^e))).index.bucketCount = 2^e :=
    (bucketCount_allocated hi.dims).trans hsize
  refine ⟨?_,fun hno => ?_⟩
  · rintro (hfew | hw)
    · exact rebuild_few hi hk hfew
    · exact rebuild_unwrapped hi hk hw
  · rcases rebuild_cases hi with ⟨ix,h,_⟩ | h
    · rw [h] at hno
      cases hno
    · rw [h]

/-! Sixty-five ids on 256 buckets: sixty-four with one hash fill the last buckets of the table, and
one that hashes to the last bucket wraps to the first. -/

def crossing : Keying ℕ :=
  ⟨fun k => if k < 64 then 192 else 255,fun id => if id ≤ 64 then 192 else 255,
    fun k id => id == k+1⟩

def crossingOps : List (Op ℕ) := (List.range' 0 65).map (fun k => .insert k (k+1))

def tableOf (buckets : ℕ → ℕ) : Index := ⟨buckets,2^8,2^8,0,0⟩

def filled (i b : ℕ) : ℕ := if 192 ≤ b ∧ b < 192+i then b-191 else 0

def wrapped (b : ℕ) : ℕ := if b = 0 then 65 else filled 64 b

/-- The scratch table when `i` of the ids at the end have been placed again. -/
def returned (i b : ℕ) : ℕ := if b = 255 then 65 else filled i b

theorem crossing_bucket (buckets : ℕ → ℕ) (p : ℕ) (hp : p < 64) :
    bucketAt (tableOf buckets) 192 p = 192+p := by
  have hstart : indexStart (tableOf buckets) 192 = 192 := by
    change (192 % 2^32) &&& (2^8-1) = 192
    decide
  rw [bucketAt_direct (show (tableOf buckets).bucketCount = 2^8 from rfl) (by rw [hstart]; omega),
    hstart]

theorem tableOf_dims (buckets : ℕ → ℕ) : dimensionsValid (tableOf buckets) = true := by
  change indexValid (tableOf buckets) (2^8) = true
  simp [indexValid, tableOf]

theorem occupied_tableOf (buckets : ℕ → ℕ) (places : Finset ℕ)
    (h : ∀ b, buckets b ≠ empty → b ∈ places) : occupied (tableOf buckets) ≤ places.card :=
  Finset.card_le_card fun b hb => h b (Finset.mem_filter.mp hb).2.1

theorem filled_next (i : ℕ) : update (filled i) (192+i) (i+1) = filled (i+1) := by
  funext b
  by_cases hb : b = 192+i
  · rw [hb, update_self, filled, if_pos (by omega)]
    omega
  · rw [update_of_ne hb, filled, filled]
    split_ifs <;> omega

theorem filled_vacancy (i m : ℕ) (hi : i < 64) (hm : m ≤ i) :
    vacancy (tableOf (filled i)) (crossing.callbacks i) 192 (i-m) (64-(i-m)) none () =
      (.bucket (192+i) false,()) := by
  induction m with
  | zero =>
    have hempty : filled i (192+i) = empty := by rw [filled, if_neg (by omega)]; rfl
    have hcount : 64-(i-0) = 63-i+1 := by omega
    rw [hcount, vacancy, crossing_bucket _ _ (by omega)]
    simp [tableOf, hempty, empty, tombstone]
  | succ m ih =>
    have hcount : 64-(i-(m+1)) = 64-(i-m)+1 := by omega
    have hnext : i-(m+1)+1 = i-m := by omega
    have hid : (tableOf (filled i)).buckets (192+(i-(m+1))) = i-m := by
      change filled i _ = i-m
      rw [filled, if_pos (by omega)]
      omega
    have hmiss : (candidateHits (crossing.callbacks i) 192 (i-m) ()) = (false,()) := by
      have hhash : (crossing.callbacks i).entryHash (i-m) () = (192,()) := by
        change ((if i-m ≤ 64 then 192 else 255),()) = _
        rw [if_pos (by omega)]
      have hmatch : (crossing.callbacks i).entryMatches (i-m) () = (false,()) := by
        change ((i-m == i+1),()) = _
        rw [beq_eq_false_iff_ne.mpr (by omega)]
      simp [candidateHits, hhash, hmatch]
    rw [hcount, vacancy, crossing_bucket _ _ (by omega)]
    simp only
    rw [hid, if_neg (by unfold tombstone; omega), if_neg (by unfold empty; omega), hmiss]
    simp only [Bool.false_eq_true, if_false]
    rw [hnext, ih (by omega)]

theorem filled_insert (i : ℕ) (hi : i < 64) :
    IndexRuns.insert crossing (tableOf (filled i)) i (i+1) =
      (.inserted,tableOf (filled (i+1))) := by
  have hhash : crossing.hash i = 192 := if_pos hi
  have hv := filled_vacancy i i hi (le_refl i)
  rw [Nat.sub_self] at hv
  simp only [IndexRuns.insert, indexInsert, tableOf_dims, if_true, hhash]
  rw [show maxProbes = 64-0 from rfl, hv]
  simp only [putBucket, tableOf, filled_next, Bool.false_eq_true, if_false]

theorem wrapped_insert : IndexRuns.insert crossing (tableOf (filled 64)) 64 65 =
    (.inserted,tableOf wrapped) := by
  have hv : vacancy (tableOf (filled 64)) (crossing.callbacks 64) 255 0 64 none () =
      (.bucket 0 false,()) := by
    have hlast : bucketAt (tableOf (filled 64)) 255 0 = 255 := by decide +kernel
    have hfirst : bucketAt (tableOf (filled 64)) 255 1 = 0 := by decide +kernel
    have hid : (tableOf (filled 64)).buckets 255 = 64 := rfl
    have hempty : (tableOf (filled 64)).buckets 0 = empty := rfl
    have hmiss : candidateHits (crossing.callbacks 64) 255 64 () = (false,()) := rfl
    rw [vacancy, hlast]
    simp only
    rw [hid, if_neg (by decide), if_neg (by decide), hmiss]
    simp only [Bool.false_eq_true, if_false]
    rw [vacancy, hfirst]
    simp only
    rw [hempty, if_neg (by decide), if_pos rfl]
  have hput : update (filled 64) 0 65 = wrapped := by
    funext b
    by_cases hb : b = 0
    · rw [hb, update_self]
      rfl
    · rw [update_of_ne hb, wrapped, if_neg hb]
  simp only [IndexRuns.insert, indexInsert, tableOf_dims, if_true]
  rw [show crossing.hash 64 = 255 from rfl, show maxProbes = 64 from rfl, hv]
  simp only [putBucket, tableOf, hput, Bool.false_eq_true, if_false]

theorem crossing_fill (i m : ℕ) (him : i+m ≤ 64) (live : ℕ → Bool) :
    ∃ live', advances crossing ((List.range' i m).map (fun k => .insert k (k+1)))
      ⟨tableOf (filled i),live⟩ = ⟨tableOf (filled (i+m)),live'⟩ := by
  induction m generalizing i live with
  | zero => exact ⟨live,rfl⟩
  | succ m ih =>
    rw [List.range'_succ, List.map_cons, advances, advance, step, filled_insert i (by omega), noted]
    obtain ⟨live',h⟩ := ih (i+1) (by omega) _
    exact ⟨live',by rw [h, show i+1+m = i+(m+1) by omega]⟩

theorem advances_append (t : Keying K) (ops ops' : List (Op K)) (s : Table) :
    advances t (ops++ops') s = advances t ops' (advances t ops s) := by
  induction ops generalizing s with
  | nil => rfl
  | cons op ops ih => exact ih _

theorem crossing_filled : ∃ live, advances crossing
    ((List.range' 0 64).map (fun k => .insert k (k+1))) (blank (2^8)) =
      ⟨tableOf (filled 64),live⟩ := by
  have hblank : blank (2^8) = ⟨tableOf (filled 0),fun _ => false⟩ := by
    have hfilled : filled 0 = fun _ => empty := by
      funext b
      rw [filled, if_neg (by omega)]
      rfl
    rw [hfilled]
    rfl
  rw [hblank]
  exact crossing_fill 0 64 (by omega) (fun _ => false)

theorem crossing_index :
    (advances crossing crossingOps (blank (2^8))).index = tableOf wrapped := by
  have hops : crossingOps = (List.range' 0 64).map (fun k => .insert k (k+1))++[.insert 64 65] := by
    rw [crossingOps, show (65 : ℕ) = 64+1 from rfl, List.range'_concat, List.map_append]
    rfl
  obtain ⟨live,hfill⟩ := crossing_filled
  rw [hops, advances_append, hfill]
  simp only [advances, advance, step, wrapped_insert, noted]

theorem crossing_fresh (ks : List ℕ) (hks : ∀ k ∈ ks, k < 65) (s : Table) :
    FreshRun crossing (ks.map (fun k => .insert k (k+1))) s := by
  induction ks generalizing s with
  | nil => exact trivial
  | cons k ks ih =>
    have hk := hks k (by simp)
    refine ⟨⟨by unfold empty; omega,by unfold tombstone; omega,?_,fun _ => beq_self_eq_true _⟩,
      ih (fun j hj => hks j (by simp [hj])) _⟩
    change (if k+1 ≤ 64 then 192 else 255) = if k < 64 then 192 else 255
    rfl

theorem crossing_fresh_range (n : ℕ) (hn : n ≤ 65) :
    FreshRun crossing ((List.range' 0 n).map (fun k => .insert k (k+1))) (blank (2^8)) :=
  crossing_fresh _ (fun k hk => by rw [List.mem_range'_1] at hk; omega) _

/-- Before the last insertion no probe path wraps, and a rebuild succeeds. -/
theorem filled_cluster_rebuilt :
    FreshRun crossing ((List.range' 0 64).map (fun k => .insert k (k+1))) (blank (2^8)) ∧
      (rebuild crossing (advances crossing ((List.range' 0 64).map (fun k => .insert k (k+1)))
        (blank (2^8))).index).1 = true := by
  refine ⟨crossing_fresh_range 64 (by omega),
    (rebuild_succeeds crossing 8 _ (crossing_fresh_range 64 (by omega))).1 (Or.inl ?_)⟩
  obtain ⟨live,hfill⟩ := crossing_filled
  rw [hfill]
  refine (occupied_tableOf (filled 64) (Finset.Ico 192 256) (fun b hb => ?_)).trans ?_
  · by_contra hout
    rw [Finset.mem_Ico] at hout
    exact hb (if_neg (by omega))
  · rw [Nat.card_Ico]
    exact le_refl 64

theorem rebuildLoop_skip (ix : Index) (cb : Callbacks κ) (bucket m n : ℕ) (scratch : ℕ → ℕ) (c : κ)
    (h : ∀ b, bucket ≤ b → b < bucket+m → ix.buckets b = empty) :
    rebuildLoop ix cb bucket (m+n) scratch c = rebuildLoop ix cb (bucket+m) n scratch c := by
  induction m generalizing bucket with
  | zero => rw [Nat.zero_add, Nat.add_zero]
  | succ m ih =>
    rw [show m+1+n = m+n+1 by omega, rebuildLoop,
      if_pos (Or.inl (h bucket (le_refl _) (by omega))),
      ih (bucket+1) (fun b hb hb' => h b (by omega) (by omega)),
      show bucket+1+m = bucket+(m+1) by omega]

theorem returned_place (i m : ℕ) (hi : i < 63) (hm : m ≤ i) :
    placeScratch (tableOf wrapped) (returned i) 192 (i+1) (i-m) (64-(i-m)) =
      some (returned (i+1)) := by
  induction m with
  | zero =>
    have hempty : returned i (192+i) = empty := by
      rw [returned, if_neg (by omega), filled, if_neg (by omega)]
      rfl
    have hput : update (returned i) (192+i) (i+1) = returned (i+1) := by
      funext b
      by_cases hb : b = 255
      · rw [update_of_ne (by omega), returned, returned, if_pos hb, if_pos hb]
      · have hf := congrFun (filled_next i) b
        rw [returned, if_neg hb, ← hf]
        by_cases hb' : b = 192+i
        · rw [hb', update_self, update_self]
        · rw [update_of_ne hb', update_of_ne hb', returned, if_neg hb]
    have hcount : 64-(i-0) = 63-i+1 := by omega
    rw [hcount, placeScratch, crossing_bucket _ _ (by omega)]
    simp only [Nat.sub_zero, hempty, if_true, hput]
  | succ m ih =>
    have hcount : 64-(i-(m+1)) = 64-(i-m)+1 := by omega
    have hnext : i-(m+1)+1 = i-m := by omega
    have hfull : returned i (192+(i-(m+1))) ≠ empty := by
      rw [returned, if_neg (by omega), filled, if_pos (by omega)]
      unfold empty
      omega
    rw [hcount, placeScratch, crossing_bucket _ _ (by omega)]
    simp only [hfull, if_false]
    rw [hnext, ih (by omega)]

theorem returned_stuck (m : ℕ) (hm : m ≤ 64) :
    placeScratch (tableOf wrapped) (returned 63) 192 64 (64-m) m = none := by
  induction m with
  | zero => rfl
  | succ m ih =>
    have hnext : 64-(m+1)+1 = 64-m := by omega
    have hfull : returned 63 (192+(64-(m+1))) ≠ empty := by
      unfold returned filled empty
      split_ifs <;> omega
    rw [placeScratch, crossing_bucket _ _ (by omega)]
    simp only [hfull, if_false]
    rw [hnext, ih (by omega)]

theorem wrapped_at (i : ℕ) (hi : i < 64) : wrapped (192+i) = i+1 := by
  rw [wrapped, if_neg (by omega), filled, if_pos (by omega)]
  omega

theorem crossing_end (m : ℕ) (hm : m ≤ 63) :
    rebuildLoop (tableOf wrapped) crossing.hashes (192+(63-m)) (m+1) (returned (63-m)) () =
      (none,()) := by
  induction m with
  | zero =>
    have hplace := returned_stuck 64 (le_refl 64)
    rw [Nat.sub_self] at hplace
    have hid : (tableOf wrapped).buckets (192+(63-0)) = 64 := wrapped_at 63 (by omega)
    have hhash : crossing.hashes.entryHash 64 () = (192,()) := rfl
    rw [rebuildLoop, hid, if_neg (by decide), hhash]
    simp only
    rw [show maxProbes = 64 from rfl, show 63-0 = 63 from rfl, hplace]
  | succ m ih =>
    have hi : 63-(m+1) < 63 := by omega
    have hplace := returned_place (63-(m+1)) (63-(m+1)) hi (le_refl _)
    rw [Nat.sub_self] at hplace
    have hid : (tableOf wrapped).buckets (192+(63-(m+1))) = 63-(m+1)+1 :=
      wrapped_at _ (by omega)
    have hhash : crossing.hashes.entryHash (63-(m+1)+1) () = (192,()) := by
      change ((if 63-(m+1)+1 ≤ 64 then 192 else 255),()) = _
      rw [if_pos (by omega)]
    rw [rebuildLoop, hid, if_neg (by unfold empty tombstone; omega), hhash]
    simp only
    rw [show maxProbes = 64-0 from rfl, hplace]
    simp only
    rw [show 192+(63-(m+1))+1 = 192+(63-m) by omega, show 63-(m+1)+1 = 63-m by omega,
      ih (by omega)]

theorem rebuild_stuck (hd : dimensionsValid ix = true)
    (h : rebuildLoop ix t.hashes 0 ix.bucketCount (fun _ => empty) () = (none,())) :
    (rebuild t ix).1 = false := by
  simp only [rebuild, indexRebuildExisting, hd, if_true, h]

theorem crossing_first (n : ℕ) :
    rebuildLoop (tableOf wrapped) crossing.hashes 0 (n+1) (fun _ => empty) () =
      rebuildLoop (tableOf wrapped) crossing.hashes 1 n (returned 0) () := by
  have hbucket : bucketAt (tableOf wrapped) 255 0 = 255 := by decide +kernel
  have hput : update (fun _ => empty) 255 65 = returned 0 := by
    funext b
    by_cases hb : b = 255
    · rw [hb, update_self]
      rfl
    · rw [update_of_ne hb, returned, if_neg hb, filled, if_neg (by omega)]
      rfl
  have hplace : placeScratch (tableOf wrapped) (fun _ => empty) 255 65 0 maxProbes =
      some (returned 0) := by
    rw [show maxProbes = 63+1 from rfl, placeScratch, hbucket]
    simp only [if_true, hput]
  have hid : (tableOf wrapped).buckets 0 = 65 := rfl
  have hhash : crossing.hashes.entryHash 65 () = (255,()) := rfl
  rw [rebuildLoop, hid, if_neg (by decide), hhash]
  simp only
  rw [hplace]

theorem crossing_rebuild : (rebuild crossing (tableOf wrapped)).1 = false := by
  have hmiddle := rebuildLoop_skip (tableOf wrapped) crossing.hashes 1 191 64 (returned 0) ()
    (fun b hb hb' => by
      change wrapped b = empty
      rw [wrapped, if_neg (by omega), filled, if_neg (by omega)]
      rfl)
  have hloop : rebuildLoop (tableOf wrapped) crossing.hashes 0 (191+64+1) (fun _ => empty) () =
      (none,()) := by
    rw [crossing_first, hmiddle]
    exact crossing_end 63 (le_refl 63)
  exact rebuild_stuck (tableOf_dims wrapped) hloop

/-- Sixty-five insertions into a table of 256 buckets, and a rebuild that fails. -/
theorem wrapped_cluster_not_rebuilt :
    FreshRun crossing crossingOps (blank (2^8)) ∧
      2*occupied (advances crossing crossingOps (blank (2^8))).index ≤ 2^8 ∧
      (rebuild crossing (advances crossing crossingOps (blank (2^8))).index).1 = false := by
  refine ⟨crossing_fresh_range 65 (le_refl 65),?_,?_⟩
  · have hocc := occupied_tableOf wrapped (insert 0 (Finset.Ico 192 256)) (fun b hb => by
      by_contra hout
      rw [Finset.mem_insert, Finset.mem_Ico] at hout
      apply hb
      rw [wrapped, if_neg (by omega), filled, if_neg (by omega)]
      rfl)
    have hcard := Finset.card_insert_le 0 (Finset.Ico 192 256)
    rw [Nat.card_Ico] at hcard
    rw [crossing_index]
    omega
  · rw [crossing_index]
    exact crossing_rebuild

end PgLocalCache.IndexRebuild
