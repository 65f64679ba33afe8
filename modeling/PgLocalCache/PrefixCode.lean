import Mathlib.Tactic

/-!
# Decimal numerals and concatenated length-prefixed words

A numeral is written by taking off its last digit until nothing is left and
reversing what was found. A code is prefix free when a code word in front of any
text can be told apart from every other code word in front of any text; then the
concatenation of a list of code words determines the list. `Splits` is the same
for two words: it follows one field after the other along a stream of fields.
-/

namespace PgLocalCache.PrefixCode

/-- The digits of `n`, last one first; `fuel` bounds their number. -/
def reversedDigits : ℕ → ℕ → List UInt8
  | 0, _ => []
  | fuel+1, n =>
    UInt8.ofNat (48+n%10)::(if n/10 = 0 then [] else reversedDigits fuel (n/10))

def decimal (n : ℕ) : List UInt8 := (reversedDigits (n+1) n).reverse

def readReversed : List UInt8 → ℕ
  | [] => 0
  | b::bs => b.toNat-48+10*readReversed bs

theorem digit_toNat (n : ℕ) : (UInt8.ofNat (48+n%10)).toNat = 48+n%10 := by
  rw [UInt8.toNat_ofNat']
  omega

theorem readReversed_digits (fuel n : ℕ) (h : n < fuel) :
    readReversed (reversedDigits fuel n) = n := by
  induction fuel generalizing n with
  | zero => omega
  | succ fuel ih =>
    simp only [reversedDigits, readReversed, digit_toNat]
    by_cases hz : n/10 = 0
    · simp only [hz, if_true, readReversed]
      omega
    · simp only [hz, if_false]
      rw [ih (n/10) (by omega)]
      omega

theorem reversedDigits_enough (fuel fuel' n : ℕ) (h : n < fuel) (h' : n < fuel') :
    reversedDigits fuel n = reversedDigits fuel' n := by
  induction fuel generalizing fuel' n with
  | zero => omega
  | succ fuel ih =>
    cases fuel' with
    | zero => omega
    | succ fuel' =>
      simp only [reversedDigits]
      by_cases hz : n/10 = 0
      · simp [hz]
      · rw [ih fuel' (n/10) (by omega) (by omega)]

theorem decimal_digits (n : ℕ) :
    decimal n = (if n/10 = 0 then [] else decimal (n/10))++[UInt8.ofNat (48+n%10)] := by
  have hn : decimal n = (reversedDigits (n+1) n).reverse := rfl
  rw [hn, reversedDigits, List.reverse_cons]
  by_cases hz : n/10 = 0
  · simp [hz]
  · rw [if_neg hz, if_neg hz, reversedDigits_enough n (n/10+1) (n/10) (by omega) (by omega)]
    rfl

theorem decimal_snoc (m d : ℕ) (hm : 0 < m) (hd : d < 10) :
    decimal (m*10+d) = decimal m++[UInt8.ofNat (48+d)] := by
  have hq : (m*10+d)/10 = m := by omega
  have hr : (m*10+d)%10 = d := by omega
  rw [decimal_digits, hq, hr, if_neg (by omega)]

theorem decimal_small (d : ℕ) (hd : d < 10) : decimal d = [UInt8.ofNat (48+d)] := by
  have hq : d/10 = 0 := by omega
  have hr : d%10 = d := by omega
  rw [decimal_digits, hq, hr, if_pos rfl, List.nil_append]

theorem decimal_injective (m n : ℕ) (h : decimal m = decimal n) : m = n := by
  have hr : reversedDigits (m+1) m = reversedDigits (n+1) n := List.reverse_injective h
  have hm := readReversed_digits (m+1) m (by omega)
  rw [hr, readReversed_digits (n+1) n (by omega)] at hm
  exact hm.symm

theorem reversedDigits_digit (fuel n : ℕ) (b : UInt8) (h : b ∈ reversedDigits fuel n) :
    48 ≤ b.toNat ∧ b.toNat ≤ 57 := by
  induction fuel generalizing n with
  | zero => simp [reversedDigits] at h
  | succ fuel ih =>
    rcases List.mem_cons.mp h with rfl | h
    · rw [digit_toNat]
      omega
    · split at h
      · simp at h
      · exact ih _ h

theorem decimal_digit (n : ℕ) (b : UInt8) (h : b ∈ decimal n) : 48 ≤ b.toNat ∧ b.toNat ≤ 57 :=
  reversedDigits_digit (n+1) n b (List.mem_reverse.mp h)

theorem decimal_not_mem (n : ℕ) (b : UInt8) (h : 57 < b.toNat) : b ∉ decimal n := by
  intro hm
  have := decimal_digit n b hm
  omega

theorem decimal_ne_nil (n : ℕ) : decimal n ≠ [] := by
  rw [decimal_digits]
  simp

theorem decimal_head (n : ℕ) (hn : 0 < n) : (decimal n).head? ≠ some 48 := by
  induction n using Nat.strong_induction_on with
  | _ n ih =>
    rw [decimal_digits]
    by_cases hz : n/10 = 0
    · rw [if_pos hz, List.nil_append, List.head?_cons, ne_eq, Option.some.injEq]
      intro h
      have := congrArg UInt8.toNat h
      rw [digit_toNat] at this
      have h48 : (48 : UInt8).toNat = 48 := rfl
      omega
    · rw [if_neg hz, List.head?_append_of_ne_nil _ (decimal_ne_nil _)]
      exact ih (n/10) (by omega) (by omega)

/-! Prefix-free codes. -/

variable {α β : Type}

def PrefixFree (enc : α → List β) : Prop :=
  ∀ a b s t, enc a++s = enc b++t → a = b ∧ s = t

theorem flatMap_injective (enc : α → List β) (hp : PrefixFree enc) (hne : ∀ a, enc a ≠ [])
    (as bs : List α) (h : as.flatMap enc = bs.flatMap enc) : as = bs := by
  induction as generalizing bs with
  | nil =>
    cases bs with
    | nil => rfl
    | cons b bs => simp [hne b] at h
  | cons a as ih =>
    cases bs with
    | nil => simp [hne a] at h
    | cons b bs =>
      rw [List.flatMap_cons, List.flatMap_cons] at h
      obtain ⟨h1,h2⟩ := hp a b _ _ h
      rw [h1, ih bs h2]

theorem split_at_separator (c : β) (xs ys s t : List β) (hx : c ∉ xs) (hy : c ∉ ys)
    (h : xs++c::s = ys++c::t) : xs = ys ∧ s = t := by
  induction xs generalizing ys with
  | nil =>
    cases ys with
    | nil => exact ⟨rfl,by simpa using h⟩
    | cons y ys =>
      simp only [List.nil_append, List.cons_append, List.cons.injEq] at h
      exact absurd (by simp [h.1]) hy
  | cons x xs ih =>
    cases ys with
    | nil =>
      simp only [List.nil_append, List.cons_append, List.cons.injEq] at h
      exact absurd (by simp [h.1]) hx
    | cons y ys =>
      simp only [List.cons_append, List.cons.injEq] at h
      obtain ⟨h1,h2⟩ := ih ys (fun hm => hx (by simp [hm])) (fun hm => hy (by simp [hm])) h.2
      exact ⟨by rw [h.1, h1],h2⟩

/-- A word behind its length and a separator, with a terminator at its end. -/
def netstring (separator terminator : UInt8) (w : List UInt8) : List UInt8 :=
  decimal w.length++separator::(w++[terminator])

theorem netstring_ne_nil (separator terminator : UInt8) (w : List UInt8) :
    netstring separator terminator w ≠ [] := by
  simp [netstring]

theorem netstring_prefixFree (separator terminator : UInt8) (hs : 57 < separator.toNat) :
    PrefixFree (netstring separator terminator) := by
  intro v w s t h
  simp only [netstring, List.append_assoc, List.cons_append] at h
  obtain ⟨hlen,hrest⟩ := split_at_separator separator _ _ _ _
    (decimal_not_mem v.length separator hs) (decimal_not_mem w.length separator hs) h
  have heq := decimal_injective v.length w.length hlen
  obtain ⟨hw,htail⟩ := List.append_inj hrest heq
  exact ⟨hw,by simpa using htail⟩

/-! Streams of fields. -/

/-- In front of two equal texts the words satisfy `R`, and what is behind them is equal. -/
def Splits (e e' : List β) (R : Prop) : Prop := ∀ s t, e++s = e'++t → R ∧ s = t

section Streams

variable {e e' f f' : List β} {R Q : Prop}

theorem splits_length (h : e.length = e'.length) : Splits e e' (e = e') :=
  fun _ _ heq => List.append_inj heq h

theorem splits_append (h : Splits e e' R) (h' : R → Splits f f' Q) :
    Splits (e++f) (e'++f') (R ∧ Q) := by
  intro s t heq
  rw [List.append_assoc, List.append_assoc] at heq
  obtain ⟨hr,hrest⟩ := h _ _ heq
  obtain ⟨hq,htail⟩ := h' hr _ _ hrest
  exact ⟨⟨hr,hq⟩,htail⟩

theorem splits_imp (h : Splits e e' R) (hq : R → Q) : Splits e e' Q :=
  fun s t heq => ⟨hq (h s t heq).1,(h s t heq).2⟩

theorem splits_flatten {es es' : List (List β)}
    (h : List.Forall₂ (fun e e' => Splits e e' (e = e')) es es') :
    Splits es.flatten es'.flatten (es = es') := by
  induction h with
  | nil => exact fun s t heq => ⟨rfl,heq⟩
  | cons hword _ ih =>
    rw [List.flatten_cons, List.flatten_cons]
    refine splits_imp (splits_append hword (fun _ => ih)) ?_
    rintro ⟨rfl,rfl⟩
    rfl

theorem splits_eq (h : Splits e e' R) (heq : e = e') : R :=
  (h [] [] (by rw [heq])).1

theorem splits_initial (h : Splits e e' R) (hp : e <+: e') : e = e' := by
  obtain ⟨rest,hrest⟩ := hp
  have hnil : rest = [] := (h rest [] (by rw [hrest, List.append_nil])).2
  rw [← hrest, hnil, List.append_nil]

end Streams

/-- The low `width` bytes of a number, lowest first. -/
def lowBytes : ℕ → ℕ → List UInt8
  | 0, _ => []
  | width+1, value => UInt8.ofNat value::lowBytes width (value/256)

@[simp] theorem lowBytes_length (width value : ℕ) : (lowBytes width value).length = width := by
  induction width generalizing value with
  | zero => rfl
  | succ width ih => rw [lowBytes, List.length_cons, ih]

theorem lowBytes_inj {width m n : ℕ} (hm : m < 256^width) (hn : n < 256^width) :
    lowBytes width m = lowBytes width n ↔ m = n := by
  refine ⟨fun h => ?_,fun h => by rw [h]⟩
  induction width generalizing m n with
  | zero => omega
  | succ width ih =>
    rw [pow_succ] at hm hn
    rw [lowBytes, lowBytes, List.cons.injEq] at h
    have hlow := congrArg UInt8.toNat h.1
    rw [UInt8.toNat_ofNat', UInt8.toNat_ofNat'] at hlow
    have hhigh : m/256 = n/256 := ih (by omega) (by omega) h.2
    omega

end PgLocalCache.PrefixCode
