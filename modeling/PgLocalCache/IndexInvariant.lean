import PgLocalCache.CacheIndex

/-!
# The probing index represents a set of live ids

`Indexed ix live hf` says that the buckets hold exactly the ids in `live`, each
of them once and on the probe path of its own hash with no empty bucket before
it, and that the tombstone counter is exact. Insertion, removal and rebuilding
keep it, also on their failure exits.
-/

namespace PgLocalCache.IndexInvariant

open CacheIndex FreeChain
open Function (update update_of_ne update_self)

structure Indexed (ix : Index) (live : ℕ → Prop) (hf : ℕ → ℕ) : Prop where
  dims : dimensionsValid ix = true
  content : ∀ b < ix.bucketCount,
    ix.buckets b = empty ∨ ix.buckets b = tombstone ∨ live (ix.buckets b)
  ids : ∀ id, live id → id ≠ empty ∧ id ≠ tombstone
  reach : ∀ id, live id → ∃ p < maxProbes, ix.buckets (bucketAt ix (hf id) p) = id ∧
    ∀ q < p, ix.buckets (bucketAt ix (hf id) q) ≠ empty
  once : ∀ b < ix.bucketCount, ∀ b' < ix.bucketCount,
    live (ix.buckets b) → ix.buckets b = ix.buckets b' → b = b'
  tombs : ix.tombstones = tally (fun b => ix.buckets b == tombstone) ix.bucketCount

variable {κ : Type}

def Faithful (cb : Callbacks κ) (c : κ) (live : ℕ → Prop) (hf : ℕ → ℕ) (sel : ℕ → Bool) : Prop :=
  ∀ id, live id → cb.entryHash id c = (hf id,c) ∧ cb.entryMatches id c = (sel id,c)

theorem bucketCount_pos {ix : Index} (hd : dimensionsValid ix = true) : 0 < ix.bucketCount := by
  simp only [dimensionsValid, indexValid, Bool.and_eq_true, bne_iff_ne, beq_iff_eq] at hd
  omega

theorem bucketAt_lt {ix : Index} (hd : dimensionsValid ix = true) (hash probe : ℕ) :
    bucketAt ix hash probe < ix.bucketCount := by
  have h : bucketAt ix hash probe ≤ ix.bucketCount-1 := Nat.and_le_right
  have := bucketCount_pos hd
  omega

variable {ix : Index} {live : ℕ → Prop} {hf : ℕ → ℕ} {cb : Callbacks κ} {c : κ} {sel : ℕ → Bool}

theorem candidateHits_faithful (hc : Faithful cb c live hf sel) (hash id : ℕ) (hl : live id) :
    candidateHits cb hash id c = (decide (hf id = hash) && sel id,c) := by
  obtain ⟨h1,h2⟩ := hc id hl
  by_cases h : hf id = hash <;> simp [candidateHits, h1, h2, h]

theorem indexed_bucket_live (hi : Indexed ix live hf) (hash probe : ℕ)
    (he : ix.buckets (bucketAt ix hash probe) ≠ empty)
    (ht : ix.buckets (bucketAt ix hash probe) ≠ tombstone) :
    live (ix.buckets (bucketAt ix hash probe)) := by
  rcases hi.content _ (bucketAt_lt hi.dims hash probe) with h | h | h
  · exact absurd h he
  · exact absurd h ht
  · exact h

section search

variable (hi : Indexed ix live hf) (hc : Faithful cb c live hf sel)

include hi hc

theorem search_cases (hash probe n : ℕ) :
    (∃ q, search ix cb hash probe n c = (some (bucketAt ix hash q),c) ∧
      probe ≤ q ∧ q < probe+n ∧ live (ix.buckets (bucketAt ix hash q)) ∧
      hf (ix.buckets (bucketAt ix hash q)) = hash ∧
      sel (ix.buckets (bucketAt ix hash q)) = true) ∨
    (search ix cb hash probe n c = (none,c) ∧
      ∀ id, live id → hf id = hash → sel id = true → ∀ q, probe ≤ q → q < probe+n →
        ix.buckets (bucketAt ix hash q) = id →
        ∃ r, probe ≤ r ∧ r < q ∧ ix.buckets (bucketAt ix hash r) = empty) := by
  induction n generalizing probe with
  | zero => exact Or.inr ⟨rfl,fun _ _ _ _ q hq hq' => by omega⟩
  | succ n ih =>
    by_cases he : ix.buckets (bucketAt ix hash probe) = empty
    · refine Or.inr ⟨by simp [search, he],fun id hl _ _ q hq _ hb => ?_⟩
      rcases Nat.eq_or_lt_of_le hq with rfl | hlt
      · exact absurd (hb.symm.trans he) (hi.ids id hl).1
      · exact ⟨probe,le_refl _,hlt,he⟩
    by_cases hn : search ix cb hash probe (n+1) c = search ix cb hash (probe+1) n c ∧
        ∀ id, live id → hf id = hash → sel id = true →
          ix.buckets (bucketAt ix hash probe) ≠ id
    · rw [hn.1]
      rcases ih (probe+1) with ⟨q,h1,h2,h3,h4⟩ | ⟨h1,h2⟩
      · exact Or.inl ⟨q,h1,by omega,by omega,h4⟩
      · refine Or.inr ⟨h1,fun id hl hh hs q hq hq' hb => ?_⟩
        rcases Nat.eq_or_lt_of_le hq with rfl | hlt
        · exact absurd hb (hn.2 id hl hh hs)
        · obtain ⟨r,hr,hr'⟩ := h2 id hl hh hs q (by omega) (by omega) hb
          exact ⟨r,by omega,hr'⟩
    · have ht : ix.buckets (bucketAt ix hash probe) ≠ tombstone := by
        intro ht
        refine hn ⟨by simp [search, ht, tombstone, empty],fun id hl _ _ hb => ?_⟩
        exact (hi.ids id hl).2 (hb.symm.trans ht)
      have hl := indexed_bucket_live hi hash probe he ht
      have hh := candidateHits_faithful hc hash _ hl
      cases hit : (decide (hf (ix.buckets (bucketAt ix hash probe)) = hash) &&
          sel (ix.buckets (bucketAt ix hash probe))) with
      | false =>
        refine absurd ⟨by simp [search, he, ht, hh, hit],fun id _ h1 h2 hb => ?_⟩ hn
        simp [hb, h1, h2] at hit
      | true =>
        refine Or.inl ⟨probe,by simp [search, he, ht, hh, hit],le_refl _,by omega,hl,?_⟩
        simpa using hit

/-- The matching live id is the one that the common loop of find and remove stops at. -/
theorem search_hit (id : ℕ) (hl : live id) (hs : sel id = true)
    (hu : ∀ id', live id' → hf id' = hf id → sel id' = true → id' = id) :
    ∃ q, search ix cb (hf id) 0 maxProbes c = (some (bucketAt ix (hf id) q),c) ∧
      ix.buckets (bucketAt ix (hf id) q) = id := by
  rcases search_cases hi hc (hf id) 0 maxProbes with ⟨q,h1,_,_,h2,h3,h4⟩ | ⟨_,h2⟩
  · exact ⟨q,h1,hu _ h2 h3 h4⟩
  · obtain ⟨p,hp,hb,hg⟩ := hi.reach id hl
    obtain ⟨r,_,hr,he⟩ := h2 id hl rfl hs p (Nat.zero_le _) (by omega) hb
    exact absurd he (hg r hr)

theorem search_miss (hash : ℕ) (hu : ∀ id, live id → hf id = hash → sel id = false) :
    search ix cb hash 0 maxProbes c = (none,c) := by
  rcases search_cases hi hc hash 0 maxProbes with ⟨q,_,_,_,h2,h3,h4⟩ | ⟨h1,_⟩
  · exact absurd h4 (by simp [hu _ h2 h3])
  · exact h1

theorem find_hit (id : ℕ) (hl : live id) (hs : sel id = true)
    (hu : ∀ id', live id' → hf id' = hf id → sel id' = true → id' = id) :
    indexFind ix cb (hf id) c = (id,c) := by
  obtain ⟨q,h1,h2⟩ := search_hit hi hc id hl hs hu
  simp [indexFind, hi.dims, h1, h2]

theorem find_miss (hash : ℕ) (hu : ∀ id, live id → hf id = hash → sel id = false) :
    indexFind ix cb hash c = (empty,c) := by
  simp [indexFind, hi.dims, search_miss hi hc hash hu]

end search

theorem indexed_congr {live' : ℕ → Prop} {hf' : ℕ → ℕ} (hi : Indexed ix live hf)
    (hl : ∀ id, live' id ↔ live id) (hh : ∀ id, live id → hf' id = hf id) :
    Indexed ix live' hf' where
  dims := hi.dims
  content := fun b hb => by simpa only [hl] using hi.content b hb
  ids := fun id h => hi.ids id ((hl id).mp h)
  reach := fun id h => by
    have h' := (hl id).mp h
    rw [hh id h']
    exact hi.reach id h'
  once := fun b hb b' hb' h => hi.once b hb b' hb' ((hl _).mp h)
  tombs := hi.tombs

theorem indexed_blank (ix : Index) (hf : ℕ → ℕ) (hd : dimensionsValid ix = true) :
    Indexed { ix with buckets := fun _ => empty, tombstones := 0 } (fun _ => False) hf where
  dims := hd
  content := fun _ _ => Or.inl rfl
  ids := fun _ h => h.elim
  reach := fun _ h => h.elim
  once := fun _ _ _ _ h => h.elim
  tombs := (tally_none _ _ (fun _ _ => by simp [empty, tombstone])).symm

theorem indexed_clear (hi : Indexed ix live hf) (b : ℕ) (hb : b < ix.bucketCount)
    (hl : live (ix.buckets b)) :
    Indexed (clearBucket ix b) (fun x => live x ∧ x ≠ ix.buckets b) hf where
  dims := hi.dims
  content := fun b' hb' => by
    by_cases h : b' = b
    · simp [clearBucket, h]
    · simp only [clearBucket, update_of_ne h]
      rcases hi.content b' hb' with h1 | h1 | h1
      · exact Or.inl h1
      · exact Or.inr (Or.inl h1)
      · exact Or.inr (Or.inr ⟨h1,fun he => h (hi.once b' hb' b hb h1 he)⟩)
  ids := fun id h => hi.ids id h.1
  reach := fun id h => by
    obtain ⟨p,hp,h1,h2⟩ := hi.reach id h.1
    have hne : bucketAt ix (hf id) p ≠ b := fun he => h.2 (by rw [← h1, he])
    refine ⟨p,hp,?_,fun q hq => ?_⟩
    · exact (update_of_ne hne _ _).trans h1
    · change update ix.buckets b tombstone (bucketAt ix (hf id) q) ≠ empty
      by_cases he : bucketAt ix (hf id) q = b
      · rw [he, update_self]
        simp [tombstone, empty]
      · rw [update_of_ne he]
        exact h2 q hq
  once := fun b1 hb1 b2 hb2 h he => by
    simp only [clearBucket] at h he
    by_cases h1 : b1 = b
    · rw [h1, update_self] at h
      exact absurd rfl (hi.ids _ h.1).2
    · rw [update_of_ne h1] at h he
      by_cases h2 : b2 = b
      · rw [h2, update_self] at he
        exact absurd he (hi.ids _ h.1).2
      · rw [update_of_ne h2] at he
        exact hi.once b1 hb1 b2 hb2 h.1 he
  tombs := by
    change ix.tombstones+1 = _
    rw [hi.tombs]
    refine (tally_set _ _ _ b hb (fun i _ hn => ?_) ?_ ?_).symm
    · simp [clearBucket, update_of_ne hn]
    · simpa using (hi.ids _ hl).2
    · simp [clearBucket]

theorem remove_hit (hi : Indexed ix live hf) (hc : Faithful cb c live hf sel) (id : ℕ)
    (hl : live id) (hs : sel id = true)
    (hu : ∀ id', live id' → hf id' = hf id → sel id' = true → id' = id) :
    ∃ ix', indexRemove ix cb (hf id) c = (id,ix',c) ∧
      Indexed ix' (fun x => live x ∧ x ≠ id) hf := by
  obtain ⟨q,h1,h2⟩ := search_hit hi hc id hl hs hu
  have hi' := indexed_clear hi (bucketAt ix (hf id) q) (bucketAt_lt hi.dims _ _) (by rwa [h2])
  rw [h2] at hi'
  exact ⟨_,by simp [indexRemove, hi.dims, h1, h2, clearBucket],hi'⟩

theorem put_tombs (hi : Indexed ix live hf) (b id : ℕ) (reused : Bool) (hb : b < ix.bucketCount)
    (hv : ix.buckets b = if reused then tombstone else empty) (ht : id ≠ tombstone) :
    (putBucket ix b id reused).tombstones =
      tally (fun x => (putBucket ix b id reused).buckets x == tombstone) ix.bucketCount := by
  cases reused with
  | true =>
    have h := tally_set (fun x => (putBucket ix b id true).buckets x == tombstone)
      (fun x => ix.buckets x == tombstone) ix.bucketCount b hb
      (fun i _ hn => by simp [putBucket, update_of_ne hn])
      (by simpa [putBucket] using ht) (by simpa using hv)
    have := hi.tombs
    simp only [putBucket, if_true] at h ⊢
    omega
  | false =>
    change ix.tombstones = _
    rw [hi.tombs]
    refine tally_congr _ _ _ (fun i _ => ?_)
    by_cases hn : i = b
    · subst hn
      simp only [putBucket, update_self, hv]
      simpa [empty, tombstone] using ht
    · simp [putBucket, update_of_ne hn]

theorem indexed_put {hf' : ℕ → ℕ} (hi : Indexed ix live hf) (hash id p : ℕ) (reused : Bool)
    (hp : p < maxProbes)
    (hv : ix.buckets (bucketAt ix hash p) = if reused then tombstone else empty)
    (hg : ∀ q < p, ix.buckets (bucketAt ix hash q) ≠ empty)
    (hn : ¬live id) (he : id ≠ empty) (ht : id ≠ tombstone)
    (hh : ∀ x, live x → hf' x = hf x) (hid : hf' id = hash) :
    Indexed (putBucket ix (bucketAt ix hash p) id reused) (fun x => live x ∨ x = id) hf' := by
  have hb := bucketAt_lt hi.dims hash p
  have hdead : ¬live (ix.buckets (bucketAt ix hash p)) := by
    intro h
    have := hi.ids _ h
    cases reused <;> simp_all
  have hmono : ∀ hash' q, ix.buckets (bucketAt ix hash' q) ≠ empty →
      (putBucket ix (bucketAt ix hash p) id reused).buckets (bucketAt ix hash' q) ≠ empty := by
    intro hash' q h
    by_cases hx : bucketAt ix hash' q = bucketAt ix hash p
    · simpa [putBucket, hx] using he
    · simpa [putBucket, update_of_ne hx] using h
  refine ⟨hi.dims,fun b hlt => ?_,fun x hx => ?_,fun x hx => ?_,?_,
    put_tombs hi _ _ _ hb hv ht⟩
  · by_cases hx : b = bucketAt ix hash p
    · simp [putBucket, hx]
    · simp only [putBucket, update_of_ne hx]
      rcases hi.content b hlt with h | h | h
      · exact Or.inl h
      · exact Or.inr (Or.inl h)
      · exact Or.inr (Or.inr (Or.inl h))
  · rcases hx with hx | rfl
    · exact hi.ids x hx
    · exact ⟨he,ht⟩
  · rcases hx with hx | rfl
    · obtain ⟨q,hq,h1,h2⟩ := hi.reach x hx
      rw [hh x hx]
      refine ⟨q,hq,?_,fun r hr => hmono _ _ (h2 r hr)⟩
      have hne : bucketAt ix (hf x) q ≠ bucketAt ix hash p := by
        intro h
        rw [← h, h1] at hdead
        exact hdead hx
      exact (update_of_ne hne _ _).trans h1
    · rw [hid]
      exact ⟨p,hp,update_self _ _ _,fun r hr => hmono _ _ (hg r hr)⟩
  · intro b1 hb1 b2 hb2 hx heq
    change b1 < ix.bucketCount at hb1
    change b2 < ix.bucketCount at hb2
    have hnot : ∀ b < ix.bucketCount, ix.buckets b ≠ id := by
      intro b hlt hbid
      rcases hi.content b hlt with h | h | h
      · exact he (hbid.symm.trans h)
      · exact ht (hbid.symm.trans h)
      · exact hn (hbid ▸ h)
    simp only [putBucket] at hx heq
    by_cases h1 : b1 = bucketAt ix hash p
    · by_cases h2 : b2 = bucketAt ix hash p
      · rw [h1, h2]
      · rw [h1, update_self, update_of_ne h2] at heq
        exact absurd heq.symm (hnot b2 hb2)
    · by_cases h2 : b2 = bucketAt ix hash p
      · rw [h2, update_self, update_of_ne h1] at heq
        exact absurd heq (hnot b1 hb1)
      · rw [update_of_ne h1, update_of_ne h2] at heq
        rw [update_of_ne h1] at hx
        rcases hx with hx | hx
        · exact hi.once b1 hb1 b2 hb2 hx heq
        · exact absurd hx (hnot b1 hb1)

theorem vacancy_cases (hi : Indexed ix live hf) (hc : Faithful cb c live hf sel) (hash probe n : ℕ)
    (first : Option ℕ) (hn : probe+n = maxProbes)
    (hu : ∀ id, live id → hf id = hash → sel id = false)
    (hg : ∀ q < probe, ix.buckets (bucketAt ix hash q) ≠ empty)
    (hf1 : ∀ b, first = some b → ∃ p < probe, b = bucketAt ix hash p ∧
      ix.buckets (bucketAt ix hash p) = tombstone) :
    (∃ p reused, vacancy ix cb hash probe n first c = (.bucket (bucketAt ix hash p) reused,c) ∧
      p < maxProbes ∧
      ix.buckets (bucketAt ix hash p) = (if reused then tombstone else empty) ∧
      ∀ q < p, ix.buckets (bucketAt ix hash q) ≠ empty) ∨
    vacancy ix cb hash probe n first c = (.none,c) := by
  induction n generalizing probe first with
  | zero =>
    cases first with
    | none => exact Or.inr rfl
    | some b =>
      obtain ⟨p,hp,rfl,ht⟩ := hf1 b rfl
      exact Or.inl ⟨p,true,rfl,by omega,by simpa using ht,fun q hq => hg q (by omega)⟩
  | succ n ih =>
    by_cases ht : ix.buckets (bucketAt ix hash probe) = tombstone
    · have hstep : vacancy ix cb hash probe (n+1) first c =
          vacancy ix cb hash (probe+1) n (first.or (some (bucketAt ix hash probe))) c := by
        simp [vacancy, ht]
      rw [hstep]
      refine ih (probe+1) _ (by omega) (fun q hq => ?_) (fun b hb => ?_)
      · rcases Nat.lt_succ_iff_lt_or_eq.mp hq with h | rfl
        · exact hg q h
        · rw [ht]
          simp [tombstone, empty]
      · cases first with
        | none => exact ⟨probe,by omega,by simpa using hb.symm,ht⟩
        | some b' =>
          obtain ⟨p,hp,h1,h2⟩ := hf1 b' rfl
          exact ⟨p,by omega,by simpa [h1] using hb.symm,h2⟩
    by_cases he : ix.buckets (bucketAt ix hash probe) = empty
    · refine Or.inl ?_
      cases first with
      | none =>
        exact ⟨probe,false,by simp [vacancy, he, empty, tombstone],by omega,by simpa using he,hg⟩
      | some b =>
        obtain ⟨p,hp,rfl,hb⟩ := hf1 b rfl
        exact ⟨p,true,by simp [vacancy, he, empty, tombstone],by omega,by simpa using hb,
          fun q hq => hg q (by omega)⟩
    · have hl := indexed_bucket_live hi hash probe he ht
      have hm : (decide (hf (ix.buckets (bucketAt ix hash probe)) = hash) &&
          sel (ix.buckets (bucketAt ix hash probe))) = false := by
        by_cases h : hf (ix.buckets (bucketAt ix hash probe)) = hash
        · simp [hu _ hl h]
        · simp [h]
      have hstep : vacancy ix cb hash probe (n+1) first c =
          vacancy ix cb hash (probe+1) n first c := by
        simp [vacancy, ht, he, candidateHits_faithful hc hash _ hl, hm]
      rw [hstep]
      refine ih (probe+1) first (by omega) (fun q hq => ?_) (fun b hb => ?_)
      · rcases Nat.lt_succ_iff_lt_or_eq.mp hq with h | rfl
        · exact hg q h
        · exact he
      · obtain ⟨p,hp,h1⟩ := hf1 b hb
        exact ⟨p,by omega,h1⟩

/-- Every bucket that a probe for this hash looks at holds an id. -/
def FullWindow (ix : Index) (hash : ℕ) : Prop :=
  ∀ p < maxProbes, ix.buckets (bucketAt ix hash p) ≠ empty ∧
    ix.buckets (bucketAt ix hash p) ≠ tombstone

theorem vacancy_none (ix : Index) (cb : Callbacks κ) (hash probe n : ℕ) (first : Option ℕ) (c : κ)
    (h : (vacancy ix cb hash probe n first c).1 = .none) :
    first = none ∧ ∀ p, probe ≤ p → p < probe+n →
      ix.buckets (bucketAt ix hash p) ≠ empty ∧ ix.buckets (bucketAt ix hash p) ≠ tombstone := by
  induction n generalizing probe first c with
  | zero =>
    cases first with
    | none => exact ⟨rfl,fun p _ _ => by omega⟩
    | some b => simp [vacancy, fallbackVacancy] at h
  | succ n ih =>
    simp only [vacancy] at h
    split at h
    · have := (ih _ _ _ h).1
      cases first <;> simp at this
    · rename_i ht
      split at h
      · cases first <;> simp at h
      · rename_i he
        split at h
        · simp at h
        · obtain ⟨h1,h2⟩ := ih _ _ _ h
          refine ⟨h1,fun p hp hn => ?_⟩
          rcases Nat.eq_or_lt_of_le hp with rfl | hlt
          · exact ⟨he,ht⟩
          · exact h2 p hlt (by omega)

theorem insert_window {hf' : ℕ → ℕ} (hi : Indexed ix live hf) (hc : Faithful cb c live hf sel)
    (hash id : ℕ) (hu : ∀ x, live x → hf x = hash → sel x = false)
    (hn : ¬live id) (he : id ≠ empty) (ht : id ≠ tombstone)
    (hh : ∀ x, live x → hf' x = hf x) (hid : hf' id = hash) :
    (∃ ix', indexInsert ix cb hash id c = (.inserted,ix',c) ∧
      Indexed ix' (fun x => live x ∨ x = id) hf') ∨
    (indexInsert ix cb hash id c =
      (.probeLimit,{ ix with probeRejections := ix.probeRejections+1 },c) ∧
      FullWindow ix hash) := by
  rcases vacancy_cases hi hc hash 0 maxProbes none (by simp) hu (by simp) (by simp) with
    ⟨p,reused,h1,hp,hv,hg⟩ | h
  · exact Or.inl ⟨_,by simp [indexInsert, hi.dims, h1],
      indexed_put hi hash id p reused hp hv hg hn he ht hh hid⟩
  · refine Or.inr ⟨by simp [indexInsert, hi.dims, h],fun p hp => ?_⟩
    exact (vacancy_none ix cb hash 0 maxProbes none c (by rw [h])).2 p (Nat.zero_le p) (by omega)

/-- Inserting a new id under a key that no live id has either indexes it or only
counts a probe rejection. -/
theorem insert_new {hf' : ℕ → ℕ} (hi : Indexed ix live hf) (hc : Faithful cb c live hf sel)
    (hash id : ℕ) (hu : ∀ x, live x → hf x = hash → sel x = false)
    (hn : ¬live id) (he : id ≠ empty) (ht : id ≠ tombstone)
    (hh : ∀ x, live x → hf' x = hf x) (hid : hf' id = hash) :
    (∃ ix', indexInsert ix cb hash id c = (.inserted,ix',c) ∧
      Indexed ix' (fun x => live x ∨ x = id) hf') ∨
    indexInsert ix cb hash id c =
      (.probeLimit,{ ix with probeRejections := ix.probeRejections+1 },c) :=
  (insert_window hi hc hash id hu hn he ht hh hid).imp_right And.left

theorem indexed_rejections (hi : Indexed ix live hf) (n : ℕ) :
    Indexed { ix with probeRejections := n } live hf :=
  ⟨hi.dims,hi.content,hi.ids,hi.reach,hi.once,hi.tombs⟩

theorem placeScratch_some (ix : Index) (scratch scratch' : ℕ → ℕ) (hash id probe n : ℕ)
    (hg : ∀ q < probe, scratch (bucketAt ix hash q) ≠ empty)
    (h : placeScratch ix scratch hash id probe n = some scratch') :
    ∃ p < probe+n, scratch' = update scratch (bucketAt ix hash p) id ∧
      scratch (bucketAt ix hash p) = empty ∧ ∀ q < p, scratch (bucketAt ix hash q) ≠ empty := by
  induction n generalizing probe with
  | zero => simp [placeScratch] at h
  | succ n ih =>
    by_cases he : scratch (bucketAt ix hash probe) = empty
    · simp only [placeScratch, he, if_true, Option.some.injEq] at h
      exact ⟨probe,by omega,h.symm,he,hg⟩
    · simp only [placeScratch, he, if_false] at h
      obtain ⟨p,hp,h'⟩ := ih (probe+1) (fun q hq => by
        rcases Nat.lt_succ_iff_lt_or_eq.mp hq with h1 | rfl
        · exact hg q h1
        · exact he) h
      exact ⟨p,by omega,h'⟩

def withTable (ix : Index) (scratch : ℕ → ℕ) : Index :=
  { ix with buckets := scratch, tombstones := 0 }

/-- Some live id finds its window full in a table that holds only other live ids. -/
def Crowded (count : ℕ) (live : ℕ → Prop) (hf : ℕ → ℕ) : Prop :=
  ∃ id ix sub, live id ∧ ¬sub id ∧ (∀ x, sub x → live x) ∧ Indexed ix sub hf ∧
    ix.bucketCount = count ∧ FullWindow ix (hf id)

theorem placeScratch_none (ix : Index) (scratch : ℕ → ℕ) (hash id probe n : ℕ)
    (h : placeScratch ix scratch hash id probe n = none) (p : ℕ) (hp : probe ≤ p)
    (hn : p < probe+n) : scratch (bucketAt ix hash p) ≠ empty := by
  induction n generalizing probe with
  | zero => omega
  | succ n ih =>
    by_cases he : scratch (bucketAt ix hash probe) = empty
    · simp [placeScratch, he] at h
    · simp only [placeScratch, he, if_false] at h
      rcases Nat.eq_or_lt_of_le hp with rfl | hlt
      · exact he
      · exact ih (probe+1) h hlt (by omega)

theorem scratch_full {sub : ℕ → Prop} {scratch : ℕ → ℕ} {hash : ℕ}
    (hs : Indexed (withTable ix scratch) sub hf)
    (he : ∀ p < maxProbes, scratch (bucketAt ix hash p) ≠ empty) :
    FullWindow (withTable ix scratch) hash := by
  intro p hp
  refine ⟨he p hp,fun ht => ?_⟩
  have hb := bucketAt_lt hs.dims hash p
  have hnone := (tally_zero_iff _ _).mp hs.tombs.symm _ hb
  simp only [beq_eq_false_iff_ne] at hnone
  exact hnone ht

theorem rebuildLoop_cases (hi : Indexed ix live hf) (hc : Faithful cb c live hf sel)
    (bucket n : ℕ) (scratch : ℕ → ℕ) (hn : bucket+n = ix.bucketCount)
    (hs : Indexed (withTable ix scratch) (fun id => live id ∧ ∃ b < bucket, ix.buckets b = id) hf) :
    (∃ scratch', rebuildLoop ix cb bucket n scratch c = (some scratch',c) ∧
      Indexed (withTable ix scratch')
        (fun id => live id ∧ ∃ b < ix.bucketCount, ix.buckets b = id) hf) ∨
    (rebuildLoop ix cb bucket n scratch c = (none,c) ∧ Crowded ix.bucketCount live hf) := by
  induction n generalizing bucket scratch with
  | zero => exact Or.inl ⟨scratch,rfl,by rwa [← hn]⟩
  | succ n ih =>
    by_cases hd : ix.buckets bucket = empty ∨ ix.buckets bucket = tombstone
    · have hstep : rebuildLoop ix cb bucket (n+1) scratch c =
          rebuildLoop ix cb (bucket+1) n scratch c := by simp [rebuildLoop, hd]
      rw [hstep]
      refine ih (bucket+1) scratch (by omega) (indexed_congr hs (fun id => ?_) (fun _ _ => rfl))
      refine and_congr_right (fun hl => ⟨?_,fun ⟨b,hb,h⟩ => ⟨b,by omega,h⟩⟩)
      rintro ⟨b,hb,rfl⟩
      rcases Nat.lt_succ_iff_lt_or_eq.mp hb with h | rfl
      · exact ⟨b,h,rfl⟩
      · rcases hd with h | h
        · exact absurd h (hi.ids _ hl).1
        · exact absurd h (hi.ids _ hl).2
    · have hl : live (ix.buckets bucket) := by
        rcases hi.content bucket (by omega) with h | h | h
        · exact absurd (Or.inl h) hd
        · exact absurd (Or.inr h) hd
        · exact h
      have hnew : ¬(live (ix.buckets bucket) ∧ ∃ b < bucket, ix.buckets b = ix.buckets bucket) := by
        rintro ⟨_,b,hb,h⟩
        exact absurd (hi.once bucket (by omega) b (by omega) hl h.symm) (by omega)
      cases hplace : placeScratch ix scratch (hf (ix.buckets bucket)) (ix.buckets bucket) 0
          maxProbes with
      | none =>
        refine Or.inr ⟨by simp [rebuildLoop, hd, (hc _ hl).1, hplace],_,_,_,hl,hnew,
          fun x hx => hx.1,hs,rfl,?_⟩
        exact scratch_full hs (fun p hp =>
          placeScratch_none ix scratch _ _ 0 maxProbes hplace p (Nat.zero_le p) (by omega))
      | some scratch' =>
        have hstep : rebuildLoop ix cb bucket (n+1) scratch c =
            rebuildLoop ix cb (bucket+1) n scratch' c := by
          simp [rebuildLoop, hd, (hc _ hl).1, hplace]
        obtain ⟨p,hp,rfl,hv,hg⟩ := placeScratch_some ix scratch scratch' _ _ 0 maxProbes
          (by simp) hplace
        rw [hstep]
        refine ih (bucket+1) _ (by omega) (indexed_congr (indexed_put hs
          (hf (ix.buckets bucket)) (ix.buckets bucket) p false (by omega) hv hg hnew
          (hi.ids _ hl).1 (hi.ids _ hl).2 (fun _ _ => rfl) rfl) (fun id => ?_) (fun _ _ => rfl))
        constructor
        · rintro ⟨hl',b,hb,rfl⟩
          rcases Nat.lt_succ_iff_lt_or_eq.mp hb with h | rfl
          · exact Or.inl ⟨hl',b,h,rfl⟩
          · exact Or.inr rfl
        · rintro (⟨hl',b,hb,h⟩ | rfl)
          · exact ⟨hl',b,by omega,h⟩
          · exact ⟨hl,bucket,by omega,rfl⟩

theorem rebuildExisting_crowded (hi : Indexed ix live hf) (hc : Faithful cb c live hf sel) :
    (∃ ix', indexRebuildExisting ix cb c = (true,ix',c) ∧ Indexed ix' live hf ∧
      ix'.tombstones = 0) ∨
    (indexRebuildExisting ix cb c = (false,ix,c) ∧ Crowded ix.bucketCount live hf) := by
  have h0 : Indexed (withTable ix (fun _ => empty))
      (fun id => live id ∧ ∃ b < 0, ix.buckets b = id) hf :=
    indexed_congr (indexed_blank ix hf hi.dims) (by simp) (fun _ _ => rfl)
  rcases rebuildLoop_cases hi hc 0 ix.bucketCount (fun _ => empty) (by simp) h0 with
    ⟨scratch,h,hs⟩ | ⟨h,hfull⟩
  · refine Or.inl
      ⟨withTable ix scratch,by simp [indexRebuildExisting, hi.dims, h, withTable],?_,rfl⟩
    refine indexed_congr hs (fun id => ⟨fun hl => ⟨hl,?_⟩,fun hl => hl.1⟩) (fun _ _ => rfl)
    obtain ⟨p,_,hb,_⟩ := hi.reach id hl
    exact ⟨_,bucketAt_lt hi.dims _ p,hb⟩
  · exact Or.inr ⟨by simp [indexRebuildExisting, hi.dims, h],hfull⟩

/-- A rebuild indexes the same ids without tombstones, or fails and changes nothing. -/
theorem rebuildExisting_cases (hi : Indexed ix live hf) (hc : Faithful cb c live hf sel) :
    (∃ ix', indexRebuildExisting ix cb c = (true,ix',c) ∧ Indexed ix' live hf ∧
      ix'.tombstones = 0) ∨
    indexRebuildExisting ix cb c = (false,ix,c) :=
  (rebuildExisting_crowded hi hc).imp_right And.left

theorem indexRemove_allocated (ix : Index) (cb : Callbacks κ) (hash : ℕ) (c : κ) :
    (indexRemove ix cb hash c).2.1.allocatedBucketCount = ix.allocatedBucketCount := by
  unfold indexRemove
  split
  · split <;> rfl
  · rfl

theorem indexInsert_allocated (ix : Index) (cb : Callbacks κ) (hash id : ℕ) (c : κ) :
    (indexInsert ix cb hash id c).2.1.allocatedBucketCount = ix.allocatedBucketCount := by
  unfold indexInsert
  split
  · split <;> rfl
  · rfl

theorem indexRebuild_allocated (ix : Index) (cb : Callbacks κ) (c : κ) :
    (indexRebuildExisting ix cb c).2.1.allocatedBucketCount = ix.allocatedBucketCount := by
  unfold indexRebuildExisting
  split
  · split <;> rfl
  · rfl

end PgLocalCache.IndexInvariant
