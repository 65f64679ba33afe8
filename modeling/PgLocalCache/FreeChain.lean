import Mathlib.Tactic

/-!
# Free lists threaded through a table, and sums over a table

A free list is a head together with a successor map; `Chain` names the cells it
visits before it stops, and `Lists` says that it visits exactly the free cells,
once each. Taking the head and returning a cell are the only two edits.
Counters that are kept beside a table are sums over its indices, and one cell
changes such a sum by its own term.
-/

namespace PgLocalCache.FreeChain

open Function (update update_of_ne update_self)

def Chain (next : ℕ → ℕ) (stop : ℕ) : ℕ → List ℕ → Prop
  | h, [] => h = stop
  | h, x::xs => h = x ∧ x ≠ stop ∧ Chain next stop (next x) xs

theorem chain_congr (next next' : ℕ → ℕ) (stop h : ℕ) (xs : List ℕ)
    (hn : ∀ x ∈ xs, next' x = next x) (hc : Chain next stop h xs) : Chain next' stop h xs := by
  induction xs generalizing h with
  | nil => exact hc
  | cons x xs ih =>
    obtain ⟨hx,hs,hr⟩ := hc
    refine ⟨hx,hs,?_⟩
    rw [hn x (by simp)]
    exact ih _ (fun y hy => hn y (by simp [hy])) hr

theorem chain_nil_iff (next : ℕ → ℕ) (stop h : ℕ) (xs : List ℕ) (hc : Chain next stop h xs) :
    h = stop ↔ xs = [] := by
  cases xs with
  | nil => exact ⟨fun _ => rfl,fun _ => hc⟩
  | cons x xs => exact ⟨fun h' => absurd (hc.1.symm.trans h') hc.2.1,fun h' => by simp at h'⟩

theorem chain_next_mem (next : ℕ → ℕ) (stop h : ℕ) (xs : List ℕ) (hc : Chain next stop h xs)
    (x : ℕ) (hx : x ∈ xs) : next x = stop ∨ next x ∈ xs := by
  induction xs generalizing h with
  | nil => simp at hx
  | cons y ys ih =>
    obtain ⟨_,_,hr⟩ := hc
    rcases List.mem_cons.mp hx with rfl | hx
    · cases ys with
      | nil => exact Or.inl hr
      | cons z zs => exact Or.inr (by simp [hr.1])
    · rcases ih _ hr hx with h' | h'
      · exact Or.inl h'
      · exact Or.inr (by simp [h'])

/-- The list at `head` visits exactly the free cells, each of them once. -/
def Lists (next : ℕ → ℕ) (stop head : ℕ) (free : ℕ → Prop) : Prop :=
  ∃ xs : List ℕ, Chain next stop head xs ∧ xs.Nodup ∧ ∀ x, x ∈ xs ↔ free x

theorem lists_congr {next next' : ℕ → ℕ} {stop head : ℕ} {free free' : ℕ → Prop}
    (hl : Lists next stop head free) (hf : ∀ x, free' x ↔ free x)
    (hn : ∀ x, free x → next' x = next x) : Lists next' stop head free' := by
  obtain ⟨xs,hc,hd,hm⟩ := hl
  exact ⟨xs,chain_congr _ _ _ _ _ (fun x hx => hn x ((hm x).mp hx)) hc,hd,
    fun x => (hm x).trans (hf x).symm⟩

theorem lists_head_free {next : ℕ → ℕ} {stop head : ℕ} {free : ℕ → Prop}
    (hl : Lists next stop head free) (hh : head ≠ stop) : free head := by
  obtain ⟨xs,hc,_,hm⟩ := hl
  cases xs with
  | nil => exact absurd hc hh
  | cons x xs => exact (hm head).mp (by simp [hc.1])

theorem lists_stop_iff {next : ℕ → ℕ} {stop head : ℕ} {free : ℕ → Prop}
    (hl : Lists next stop head free) : head = stop ↔ ∀ x, ¬free x := by
  obtain ⟨xs,hc,_,hm⟩ := hl
  rw [chain_nil_iff _ _ _ _ hc, List.eq_nil_iff_forall_not_mem]
  exact forall_congr' (fun x => not_congr (hm x))

theorem lists_next {next : ℕ → ℕ} {stop head : ℕ} {free : ℕ → Prop}
    (hl : Lists next stop head free) (x : ℕ) (hx : free x) : next x = stop ∨ free (next x) := by
  obtain ⟨xs,hc,_,hm⟩ := hl
  rcases chain_next_mem _ _ _ _ hc x ((hm x).mpr hx) with h | h
  · exact Or.inl h
  · exact Or.inr ((hm _).mp h)

theorem lists_pop {next : ℕ → ℕ} {stop head : ℕ} {free : ℕ → Prop}
    (hl : Lists next stop head free) (hh : head ≠ stop) :
    Lists next stop (next head) (fun x => free x ∧ x ≠ head) := by
  obtain ⟨xs,hc,hd,hm⟩ := hl
  cases xs with
  | nil => exact absurd hc hh
  | cons x xs =>
    obtain ⟨rfl,_,hr⟩ := hc
    obtain ⟨hx,hd⟩ := List.nodup_cons.mp hd
    refine ⟨xs,hr,hd,fun y => ⟨fun hy => ⟨(hm y).mp (by simp [hy]),?_⟩,fun hy => ?_⟩⟩
    · rintro rfl
      exact hx hy
    · exact (List.mem_cons.mp ((hm y).mpr hy.1)).resolve_left hy.2

theorem lists_push {next : ℕ → ℕ} {stop head : ℕ} {free : ℕ → Prop}
    (hl : Lists next stop head free) (x : ℕ) (hx : ¬free x) (hs : x ≠ stop) :
    Lists (update next x head) stop x (fun y => free y ∨ y = x) := by
  obtain ⟨xs,hc,hd,hm⟩ := hl
  have hxs : x ∉ xs := fun h => hx ((hm x).mp h)
  refine ⟨x::xs,⟨rfl,hs,?_⟩,List.nodup_cons.mpr ⟨hxs,hd⟩,fun y => ?_⟩
  · rw [update_self]
    apply chain_congr next _ _ _ _ _ hc
    intro y hy
    have hne : y ≠ x := fun h => hxs (by rwa [h] at hy)
    exact update_of_ne hne _ _
  · rw [List.mem_cons, hm y, or_comm]

theorem chain_enum (next : ℕ → ℕ) (stop n : ℕ) (ref : ℕ → ℕ) (hn : ∀ i < n, ref i ≠ stop)
    (hl : ∀ i < n, next (ref i) = if i+1 < n then ref (i+1) else stop) :
    Chain next stop (if n = 0 then stop else ref 0) ((List.range n).map ref) := by
  induction n generalizing ref with
  | zero => rfl
  | succ n ih =>
    rw [if_neg (Nat.succ_ne_zero n), List.range_succ_eq_map, List.map_cons, List.map_map]
    refine ⟨rfl,hn 0 (by omega),?_⟩
    have hi := ih (fun i => ref (i+1)) (fun i hi => hn (i+1) (by omega))
      (fun i hi => by
        rw [hl (i+1) (by omega)]
        by_cases hh : i+1 < n
        · rw [if_pos (by omega), if_pos hh]
        · rw [if_neg (by omega), if_neg hh])
    rw [hl 0 (by omega)]
    by_cases hz : n = 0
    · subst hz
      simpa using hi
    · rw [if_pos (by omega)]
      rwa [if_neg hz] at hi

theorem lists_enum (next : ℕ → ℕ) (stop n : ℕ) (ref : ℕ → ℕ) (hn : ∀ i < n, ref i ≠ stop)
    (hinj : ∀ i < n, ∀ j < n, ref i = ref j → i = j)
    (hl : ∀ i < n, next (ref i) = if i+1 < n then ref (i+1) else stop) :
    Lists next stop (if n = 0 then stop else ref 0) (fun x => ∃ i < n, x = ref i) := by
  refine ⟨(List.range n).map ref,chain_enum next stop n ref hn hl,?_,fun x => ?_⟩
  · refine List.Nodup.map_on (fun i hi j hj h => ?_) List.nodup_range
    exact hinj i (List.mem_range.mp hi) j (List.mem_range.mp hj) h
  · simp only [List.mem_map, List.mem_range]
    exact exists_congr (fun i => and_congr_right (fun _ => eq_comm))

def total (f : ℕ → ℕ) (n : ℕ) : ℕ := ∑ i ∈ Finset.range n, f i

theorem total_congr (f g : ℕ → ℕ) (n : ℕ) (h : ∀ i < n, f i = g i) : total f n = total g n :=
  Finset.sum_congr rfl (fun i hi => h i (Finset.mem_range.mp hi))

theorem total_change (f g : ℕ → ℕ) (n k : ℕ) (hk : k < n) (h : ∀ i < n, i ≠ k → g i = f i) :
    total g n+f k = total f n+g k := by
  have hm := Finset.mem_range.mpr hk
  have he : ∑ i ∈ (Finset.range n).erase k, g i = ∑ i ∈ (Finset.range n).erase k, f i :=
    Finset.sum_congr rfl (fun i hi =>
      h i (Finset.mem_range.mp (Finset.mem_of_mem_erase hi)) (Finset.ne_of_mem_erase hi))
  have hf := Finset.add_sum_erase (Finset.range n) f hm
  have hg := Finset.add_sum_erase (Finset.range n) g hm
  simp only [total]
  omega

theorem total_le (f g : ℕ → ℕ) (n : ℕ) (h : ∀ i < n, f i ≤ g i) : total f n ≤ total g n :=
  Finset.sum_le_sum (fun i hi => h i (Finset.mem_range.mp hi))

theorem term_le_total (f : ℕ → ℕ) (n k : ℕ) (hk : k < n) : f k ≤ total f n :=
  Finset.single_le_sum (fun _ _ => Nat.zero_le _) (Finset.mem_range.mpr hk)

theorem total_const (c n : ℕ) : total (fun _ => c) n = n*c := by
  simp [total]

@[simp] theorem total_zero (f : ℕ → ℕ) : total f 0 = 0 := by
  simp [total]

theorem total_multiples (f : ℕ → ℕ) (d n : ℕ) (hd : 0 < d) (hz : ∀ x, x%d ≠ 0 → f x = 0) :
    total f (n*d) = total (fun u => f (u*d)) n := by
  induction n with
  | zero => simp
  | succ n ih =>
    have hblock : ∑ x ∈ Finset.range d, f (n*d+x) = f (n*d) := by
      apply Finset.sum_eq_single 0
      · intro x hx hne
        apply hz
        rw [Nat.add_comm, Nat.add_mul_mod_self_right, Nat.mod_eq_of_lt (Finset.mem_range.mp hx)]
        exact hne
      · intro h
        exact absurd (Finset.mem_range.mpr hd) h
    have hsplit : total f ((n+1)*d) = total f (n*d)+∑ x ∈ Finset.range d, f (n*d+x) := by
      rw [Nat.add_mul, Nat.one_mul]
      exact Finset.sum_range_add f (n*d) d
    rw [hsplit, ih, hblock]
    exact (Finset.sum_range_succ _ n).symm

theorem total_fill (cap : ℕ → ℕ) (n t : ℕ) (h : t ≤ total cap n) :
    ∃ g : ℕ → ℕ, (∀ i, g i ≤ cap i) ∧ total g n = t := by
  induction n generalizing t with
  | zero =>
    rw [total_zero] at h
    exact ⟨fun _ => 0,fun i => Nat.zero_le _,by rw [total_zero]; omega⟩
  | succ n ih =>
    have hsplit : ∀ f : ℕ → ℕ, total f (n+1) = total f n+f n :=
      fun f => Finset.sum_range_succ f n
    rw [hsplit] at h
    obtain ⟨g,hg,hsum⟩ := ih (t-min t (cap n)) (by omega)
    refine ⟨update g n (min t (cap n)),fun i => ?_,?_⟩
    · by_cases hi : i = n
      · subst hi
        rw [update_self]
        exact Nat.min_le_right _ _
      · rw [update_of_ne hi]
        exact hg i
    · rw [hsplit, update_self, total_congr _ g n (fun i hi =>
        update_of_ne (Nat.ne_of_lt hi) _ _), hsum]
      omega

theorem total_fill_at (cap : ℕ → ℕ) (n t u v : ℕ) (hu : u < n) (hv : v ≤ cap u) (hvt : v ≤ t)
    (h : t+cap u ≤ total cap n+v) :
    ∃ g : ℕ → ℕ, (∀ i, g i ≤ cap i) ∧ g u = v ∧ total g n = t := by
  have hrest := total_change cap (update cap u 0) n u hu
    (fun i _ hi => update_of_ne hi _ _)
  rw [update_self] at hrest
  obtain ⟨g,hg,hsum⟩ := total_fill (update cap u 0) n (t-v) (by omega)
  have hzero : g u = 0 := by
    have := hg u
    rw [update_self] at this
    omega
  have hset := total_change g (update g u v) n u hu
    (fun i _ hi => update_of_ne hi _ _)
  rw [update_self, hzero, hsum] at hset
  refine ⟨update g u v,fun i => ?_,update_self _ _ _,by omega⟩
  by_cases hi : i = u
  · subst hi
    rwa [update_self]
  · have := hg i
    rw [update_of_ne hi] at this ⊢
    exact this

/-- The number of indices below `n` with the property. -/
def tally (p : ℕ → Bool) (n : ℕ) : ℕ := total (fun i => if p i then 1 else 0) n

theorem tally_congr (p q : ℕ → Bool) (n : ℕ) (h : ∀ i < n, p i = q i) : tally p n = tally q n :=
  total_congr _ _ n (fun i hi => by simp [h i hi])

theorem tally_set (p q : ℕ → Bool) (n k : ℕ) (hk : k < n) (h : ∀ i < n, i ≠ k → q i = p i)
    (hp : p k = false) (hq : q k = true) : tally q n = tally p n+1 := by
  have := total_change (fun i => if p i then 1 else 0) (fun i => if q i then 1 else 0) n k hk
    (fun i hi hn => by simp [h i hi hn])
  simpa [tally, hp, hq] using this

theorem tally_le (p : ℕ → Bool) (n : ℕ) : tally p n ≤ n := by
  have := total_le (fun i => if p i then 1 else 0) (fun _ => 1) n
    (fun i _ => by split <;> omega)
  rwa [total_const, Nat.mul_one] at this

theorem tally_pos (p : ℕ → Bool) (n k : ℕ) (hk : k < n) (hp : p k = true) : 0 < tally p n := by
  have := term_le_total (fun i => if p i then 1 else 0) n k hk
  simp only [hp, if_true] at this
  exact this

theorem tally_lt (p : ℕ → Bool) (n k : ℕ) (hk : k < n) (hp : p k = false) : tally p n < n := by
  have h := tally_set p (fun i => p i || i == k) n k hk
    (fun i _ hn => by simp [hn]) hp (by simp)
  have := tally_le (fun i => p i || i == k) n
  omega

theorem tally_full (p : ℕ → Bool) (n : ℕ) (h : ∀ i < n, p i = true) : tally p n = n := by
  rw [tally, total_congr _ (fun _ => 1) n (fun i hi => by simp [h i hi]), total_const,
    Nat.mul_one]

theorem tally_none (p : ℕ → Bool) (n : ℕ) (h : ∀ i < n, p i = false) : tally p n = 0 := by
  rw [tally, total_congr _ (fun _ => 0) n (fun i hi => by simp [h i hi]), total_const,
    Nat.mul_zero]

theorem tally_zero_iff (p : ℕ → Bool) (n : ℕ) : tally p n = 0 ↔ ∀ i < n, p i = false := by
  constructor
  · intro h i hi
    cases hp : p i with
    | false => rfl
    | true =>
      have := tally_pos p n i hi hp
      omega
  · exact tally_none p n

end PgLocalCache.FreeChain
