import Mathlib.Tactic

/-!
# UTF-8 texts

A text is the concatenation of the encodings of Unicode scalar values other than
zero, as RFC 3629 defines them. The lemmas add one character in front of a text,
given by its bytes and the ranges they lie in.
-/

namespace PgLocalCache.Utf8

def Scalar (c : ℕ) : Prop := 0 < c ∧ c < 0x110000 ∧ ¬(0xd800 ≤ c ∧ c < 0xe000)

def encodeScalar (c : ℕ) : List UInt8 :=
  if c < 0x80 then [UInt8.ofNat c]
  else if c < 0x800 then [UInt8.ofNat (0xc0+c/64),UInt8.ofNat (0x80+c%64)]
  else if c < 0x10000 then
    [UInt8.ofNat (0xe0+c/4096),UInt8.ofNat (0x80+c/64%64),UInt8.ofNat (0x80+c%64)]
  else [UInt8.ofNat (0xf0+c/262144),UInt8.ofNat (0x80+c/4096%64),UInt8.ofNat (0x80+c/64%64),
    UInt8.ofNat (0x80+c%64)]

def WellFormed (s : List UInt8) : Prop :=
  ∃ cs : List ℕ, (∀ c ∈ cs, Scalar c) ∧ s = cs.flatMap encodeScalar

theorem wellFormed_nil : WellFormed [] := ⟨[],by simp,rfl⟩

theorem wellFormed_cons (c : ℕ) (s t : List UInt8) (hc : Scalar c) (hs : encodeScalar c = s)
    (ht : WellFormed t) : WellFormed (s++t) := by
  obtain ⟨cs,hcs,rfl⟩ := ht
  refine ⟨c::cs,fun d hd => ?_,by rw [List.flatMap_cons, hs]⟩
  rcases List.mem_cons.mp hd with rfl | hd
  · exact hc
  · exact hcs d hd

theorem byte_eq (n : ℕ) (b : UInt8) (h : n = b.toNat) : UInt8.ofNat n = b := by
  rw [h]
  exact UInt8.ofNat_toNat

theorem wellFormed_one (a : UInt8) (t : List UInt8) (ha : 0 < a.toNat ∧ a.toNat < 0x80)
    (ht : WellFormed t) : WellFormed (a::t) := by
  apply wellFormed_cons a.toNat [a] t ?_ ?_ ht
  · unfold Scalar
    omega
  · rw [encodeScalar, if_pos ha.2, byte_eq _ a rfl]

theorem wellFormed_two (a b : UInt8) (t : List UInt8) (ha : 0xc2 ≤ a.toNat ∧ a.toNat ≤ 0xdf)
    (hb : 0x80 ≤ b.toNat ∧ b.toNat ≤ 0xbf) (ht : WellFormed t) : WellFormed (a::b::t) := by
  apply wellFormed_cons ((a.toNat-0xc0)*64+(b.toNat-0x80)) [a,b] t ?_ ?_ ht
  · unfold Scalar
    omega
  · rw [encodeScalar, if_neg (by omega), if_pos (by omega), byte_eq _ a (by omega),
      byte_eq _ b (by omega)]

theorem wellFormed_three (a b c : UInt8) (t : List UInt8)
    (ha : 0xe0 ≤ a.toNat ∧ a.toNat ≤ 0xef) (hb : 0x80 ≤ b.toNat ∧ b.toNat ≤ 0xbf)
    (hlow : a.toNat = 0xe0 → 0xa0 ≤ b.toNat) (hsurrogate : a.toNat = 0xed → b.toNat ≤ 0x9f)
    (hc : 0x80 ≤ c.toNat ∧ c.toNat ≤ 0xbf) (ht : WellFormed t) : WellFormed (a::b::c::t) := by
  apply wellFormed_cons ((a.toNat-0xe0)*4096+(b.toNat-0x80)*64+(c.toNat-0x80)) [a,b,c] t ?_ ?_ ht
  · unfold Scalar
    omega
  · rw [encodeScalar, if_neg (by omega), if_neg (by omega), if_pos (by omega),
      byte_eq _ a (by omega), byte_eq _ b (by omega), byte_eq _ c (by omega)]

theorem wellFormed_four (a b c d : UInt8) (t : List UInt8)
    (ha : 0xf0 ≤ a.toNat ∧ a.toNat ≤ 0xf4) (hb : 0x80 ≤ b.toNat ∧ b.toNat ≤ 0xbf)
    (hlow : a.toNat = 0xf0 → 0x90 ≤ b.toNat) (hhigh : a.toNat = 0xf4 → b.toNat ≤ 0x8f)
    (hc : 0x80 ≤ c.toNat ∧ c.toNat ≤ 0xbf) (hd : 0x80 ≤ d.toNat ∧ d.toNat ≤ 0xbf)
    (ht : WellFormed t) : WellFormed (a::b::c::d::t) := by
  apply wellFormed_cons
    ((a.toNat-0xf0)*262144+(b.toNat-0x80)*4096+(c.toNat-0x80)*64+(d.toNat-0x80)) [a,b,c,d] t
    ?_ ?_ ht
  · unfold Scalar
    omega
  · rw [encodeScalar, if_neg (by omega), if_neg (by omega), if_neg (by omega),
      byte_eq _ a (by omega), byte_eq _ b (by omega), byte_eq _ c (by omega),
      byte_eq _ d (by omega)]

end PgLocalCache.Utf8
