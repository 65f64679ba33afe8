import Mathlib.Tactic

/-!
# Regions placed one behind the other

`place a offset sizes` gives every size a region at the next multiple of `a` and
raises its end to a multiple of `a`. The regions are apart, aligned, and end at
`placeEnd`. `slices` cuts a region into equal parts.
-/

namespace PgLocalCache.SerialLayout

structure Region where
  start : ℕ
  bytes : ℕ
  deriving DecidableEq, Repr

def alignUp (a x : ℕ) : ℕ := (x+(a-1))/a*a

def place (a : ℕ) : ℕ → List ℕ → List Region
  | _, [] => []
  | offset, n::sizes => ⟨alignUp a offset,n⟩::place a (alignUp a offset+alignUp a n) sizes

def placeEnd (a : ℕ) : ℕ → List ℕ → ℕ
  | offset, [] => offset
  | offset, n::sizes => placeEnd a (alignUp a offset+alignUp a n) sizes

def slices (start bytes n : ℕ) : List Region :=
  (List.range' 0 n).map (fun i => ⟨start+i*bytes,bytes⟩)

/-- The first region ends before the second one starts. -/
def Before (r s : Region) : Prop := r.start+r.bytes ≤ s.start

def Within (low high : ℕ) (r : Region) : Prop := low ≤ r.start ∧ r.start+r.bytes ≤ high

variable {a : ℕ}

theorem alignUp_dvd (a x : ℕ) : a ∣ alignUp a x := Dvd.intro_left _ rfl

theorem le_alignUp (ha : 0 < a) (x : ℕ) : x ≤ alignUp a x := by
  have hdiv := Nat.div_add_mod (x+(a-1)) a
  have hmod := Nat.mod_lt (x+(a-1)) ha
  rw [Nat.mul_comm] at hdiv
  unfold alignUp
  omega

theorem alignUp_of_dvd (ha : 0 < a) {x : ℕ} (h : a ∣ x) : alignUp a x = x := by
  obtain ⟨k,rfl⟩ := h
  have hdiv : (a*k+(a-1))/a = k := by
    rw [Nat.mul_add_div ha, Nat.div_eq_of_lt (by omega), Nat.add_zero]
  rw [alignUp, hdiv, Nat.mul_comm]

theorem placeEnd_append (offset : ℕ) (sizes more : List ℕ) :
    placeEnd a offset (sizes++more) = placeEnd a (placeEnd a offset sizes) more := by
  induction sizes generalizing offset with
  | nil => rfl
  | cons n sizes ih => exact ih _

theorem place_append (offset : ℕ) (sizes more : List ℕ) :
    place a offset (sizes++more) =
      place a offset sizes++place a (placeEnd a offset sizes) more := by
  induction sizes generalizing offset with
  | nil => rfl
  | cons n sizes ih =>
    rw [List.cons_append, place, ih, place, placeEnd, List.cons_append]

theorem placeEnd_dvd (offset : ℕ) (sizes : List ℕ) (h : a ∣ offset) :
    a ∣ placeEnd a offset sizes := by
  induction sizes generalizing offset with
  | nil => exact h
  | cons n sizes ih => exact ih _ (Nat.dvd_add (alignUp_dvd a offset) (alignUp_dvd a n))

theorem le_placeEnd (ha : 0 < a) (offset : ℕ) (sizes : List ℕ) :
    offset ≤ placeEnd a offset sizes := by
  induction sizes generalizing offset with
  | nil => exact le_refl _
  | cons n sizes ih =>
    have hfirst := le_alignUp ha offset
    have hrest := ih (alignUp a offset+alignUp a n)
    rw [placeEnd]
    omega

theorem place_within (ha : 0 < a) (offset : ℕ) (sizes : List ℕ) :
    ∀ r ∈ place a offset sizes, Within offset (placeEnd a offset sizes) r := by
  induction sizes generalizing offset with
  | nil => simp [place]
  | cons n sizes ih =>
    have hstart := le_alignUp ha offset
    have hbytes := le_alignUp ha n
    have hend := le_placeEnd ha (alignUp a offset+alignUp a n) sizes
    intro r hr
    rcases List.mem_cons.mp hr with rfl | hr
    · refine ⟨hstart,?_⟩
      rw [placeEnd]
      change alignUp a offset+n ≤ _
      omega
    · obtain ⟨hlow,hhigh⟩ := ih _ r hr
      exact ⟨by omega,hhigh⟩

theorem place_apart (ha : 0 < a) (offset : ℕ) (sizes : List ℕ) :
    (place a offset sizes).Pairwise Before := by
  induction sizes generalizing offset with
  | nil => exact List.Pairwise.nil
  | cons n sizes ih =>
    refine List.Pairwise.cons (fun r hr => ?_) (ih _)
    have hbytes := le_alignUp ha n
    have hlow := (place_within ha _ sizes r hr).1
    change alignUp a offset+n ≤ r.start
    omega

theorem place_dvd (offset : ℕ) (sizes : List ℕ) :
    ∀ r ∈ place a offset sizes, a ∣ r.start := by
  induction sizes generalizing offset with
  | nil => simp [place]
  | cons n sizes ih =>
    intro r hr
    rcases List.mem_cons.mp hr with rfl | hr
    · exact alignUp_dvd a offset
    · exact ih _ r hr

theorem place_bytes (offset : ℕ) (sizes : List ℕ) :
    (place a offset sizes).map Region.bytes = sizes := by
  induction sizes generalizing offset with
  | nil => rfl
  | cons n sizes ih => rw [place, List.map_cons, ih]

theorem mem_slices {start bytes n : ℕ} {r : Region} :
    r ∈ slices start bytes n ↔ ∃ i < n, r = ⟨start+i*bytes,bytes⟩ := by
  simp only [slices, List.mem_map, List.mem_range'_1, Nat.zero_le, Nat.zero_add, true_and]
  constructor
  · rintro ⟨i,hi,rfl⟩
    exact ⟨i,hi,rfl⟩
  · rintro ⟨i,hi,rfl⟩
    exact ⟨i,hi,rfl⟩

theorem slices_within (start bytes n : ℕ) :
    ∀ r ∈ slices start bytes n, Within start (start+n*bytes) r := by
  intro r hr
  obtain ⟨i,hi,rfl⟩ := mem_slices.mp hr
  have hmul : (i+1)*bytes ≤ n*bytes := Nat.mul_le_mul_right bytes hi
  rw [Nat.add_mul, Nat.one_mul] at hmul
  refine ⟨Nat.le_add_right _ _,?_⟩
  change start+i*bytes+bytes ≤ start+n*bytes
  omega

theorem slices_apart (start bytes n : ℕ) : (slices start bytes n).Pairwise Before := by
  have hlt : (List.range' 0 n).Pairwise (· < ·) := List.pairwise_lt_range'
  refine List.pairwise_map.mpr (hlt.imp ?_)
  intro i j hij
  have hmul : (i+1)*bytes ≤ j*bytes := Nat.mul_le_mul_right bytes hij
  rw [Nat.add_mul, Nat.one_mul] at hmul
  change start+i*bytes+bytes ≤ start+j*bytes
  omega

theorem slices_dvd {k start bytes : ℕ} (hs : k ∣ start) (hb : k ∣ bytes) (n : ℕ) :
    ∀ r ∈ slices start bytes n, k ∣ r.start := by
  intro r hr
  obtain ⟨i,_,rfl⟩ := mem_slices.mp hr
  exact Nat.dvd_add hs (hb.mul_left i)

theorem apart_append {rs ss : List Region} {low mid high : ℕ} (hr : rs.Pairwise Before)
    (hs : ss.Pairwise Before) (hrw : ∀ r ∈ rs, Within low mid r)
    (hsw : ∀ s ∈ ss, Within mid high s) : (rs++ss).Pairwise Before := by
  refine List.pairwise_append.mpr ⟨hr,hs,fun r h s h' => ?_⟩
  exact (hrw r h).2.trans (hsw s h').1

end PgLocalCache.SerialLayout
