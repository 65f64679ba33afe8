import PgLocalCache.KeyScan

/-!
# The positions of valid_utf8

`validUtf8At` is the loop of the source over positions: it takes a lead byte,
compares the number of bytes left with the number that must follow, then reads
the second byte and the continuation bytes. A read behind the end of the value is
`none`. It never happens, and the answer is that of the list loop the key scanner
is modelled with. Both accept exactly the encodings of Unicode scalar values.
-/

namespace PgLocalCache.Utf8Scan

open KeyCodec KeyScan

/-- The inner loop: the position behind the continuation bytes, unless one is out of range. -/
def continueAt (value : Bytes) : ℕ → ℕ → Option (Option ℕ)
  | i, 0 => some (some i)
  | i, remaining+1 => do
    let c ← value[i]?
    if c < 0x80 ∨ 0xbf < c then some none else continueAt value (i+1) remaining

/-- The bytes behind a lead byte. -/
def followAt (value : Bytes) (i remaining : ℕ) (secondMin secondMax : UInt8) :
    Option (Option ℕ) :=
  if value.length-i < remaining then some none
  else do
    let second ← value[i]?
    if second < secondMin ∨ secondMax < second then some none
    else continueAt value (i+1) (remaining-1)

def utf8At (value : Bytes) : ℕ → ℕ → Option Bool
  | 0, i => if i < value.length then none else some true
  | n+1, i =>
    if i < value.length then do
      let c ← value[i]?
      if c = 0 then some false
      else if c < 0x80 then utf8At value n (i+1)
      else
        match utf8Lead c with
        | none => some false
        | some (remaining,secondMin,secondMax) =>
          match ← followAt value (i+1) remaining secondMin secondMax with
          | none => some false
          | some i => utf8At value n i
    else some true

def validUtf8At (value : Bytes) : Option Bool := utf8At value value.length 0

/-! Well-formed texts pass `valid_utf8`. -/

theorem utf8Loop_step (remaining : ℕ) (least greatest b : UInt8) (rest : Bytes)
    (h : least.toNat ≤ b.toNat ∧ b.toNat ≤ greatest.toNat) :
    utf8Loop (remaining+1) least greatest (b::rest) = utf8Loop remaining 0x80 0xbf rest := by
  rw [utf8Loop, if_pos (by omega), if_neg]
  · rfl
  · rw [UInt8.lt_iff_toNat_lt, UInt8.lt_iff_toNat_lt]
    omega

theorem ofNat_toNat_small (n : ℕ) (h : n < 256) : (UInt8.ofNat n).toNat = n := by
  rw [UInt8.toNat_ofNat']
  omega

theorem utf8Loop_lead (c : UInt8) (following : ℕ) (least greatest : UInt8) (rest : Bytes)
    (h80 : 0x80 ≤ c.toNat) (h : utf8Lead c = some (following,least,greatest)) :
    utf8Loop 0 0x80 0xbf (c::rest) = utf8Loop following least greatest rest := by
  have hzero : c ≠ 0 := by
    rintro rfl
    exact absurd h80 (by decide)
  have hascii : ¬c < 0x80 := by
    rw [UInt8.lt_iff_toNat_lt]
    exact Nat.not_lt.mpr h80
  rw [utf8Loop, if_neg (by simp), if_neg hzero, if_neg hascii, h]

theorem utf8Lead_two (c : UInt8) (h : 0xc2 ≤ c.toNat ∧ c.toNat ≤ 0xdf) :
    utf8Lead c = some (1,0x80,0xbf) := by
  rw [utf8Lead, if_pos (by rw [UInt8.le_iff_toNat_le, UInt8.le_iff_toNat_le]; exact h)]

theorem utf8Lead_three (c : UInt8) (h : 0xe0 ≤ c.toNat ∧ c.toNat ≤ 0xef) : utf8Lead c =
    some (2,if c = 0xe0 then 0xa0 else 0x80,if c = 0xed then 0x9f else 0xbf) := by
  have h2 : ¬(0xc2 ≤ c ∧ c ≤ 0xdf) := by
    rw [UInt8.le_iff_toNat_le, UInt8.le_iff_toNat_le]
    show ¬(194 ≤ c.toNat ∧ c.toNat ≤ 223)
    omega
  rw [utf8Lead, if_neg h2, if_pos (by rw [UInt8.le_iff_toNat_le, UInt8.le_iff_toNat_le]; exact h)]

theorem utf8Lead_four (c : UInt8) (h : 0xf0 ≤ c.toNat ∧ c.toNat ≤ 0xf4) : utf8Lead c =
    some (3,if c = 0xf0 then 0x90 else 0x80,if c = 0xf4 then 0x8f else 0xbf) := by
  have h2 : ¬(0xc2 ≤ c ∧ c ≤ 0xdf) := by
    rw [UInt8.le_iff_toNat_le, UInt8.le_iff_toNat_le]
    show ¬(194 ≤ c.toNat ∧ c.toNat ≤ 223)
    omega
  have h3 : ¬(0xe0 ≤ c ∧ c ≤ 0xef) := by
    rw [UInt8.le_iff_toNat_le, UInt8.le_iff_toNat_le]
    show ¬(224 ≤ c.toNat ∧ c.toNat ≤ 239)
    omega
  rw [utf8Lead, if_neg h2, if_neg h3,
    if_pos (by rw [UInt8.le_iff_toNat_le, UInt8.le_iff_toNat_le]; exact h)]

theorem narrowed (a b first last least greatest : UInt8)
    (h : 0x80 ≤ b.toNat ∧ b.toNat ≤ 0xbf)
    (hlow : a.toNat = first.toNat → least.toNat ≤ b.toNat)
    (hhigh : a.toNat = last.toNat → b.toNat ≤ greatest.toNat) :
    (if a = first then least else 0x80).toNat ≤ b.toNat ∧
      b.toNat ≤ (if a = last then greatest else 0xbf).toNat := by
  constructor
  · split
    · rename_i ha
      exact hlow (by rw [ha])
    · exact h.1
  · split
    · rename_i ha
      exact hhigh (by rw [ha])
    · exact h.2

theorem validUtf8_scalar (c : ℕ) (rest : Bytes) (hc : Utf8.Scalar c) :
    validUtf8 (Utf8.encodeScalar c++rest) = validUtf8 rest := by
  obtain ⟨hpos,hmax,hsurrogate⟩ := hc
  have hcont : ∀ n, (UInt8.ofNat (0x80+n%64)).toNat = 0x80+n%64 := fun n =>
    ofNat_toNat_small _ (by omega)
  have htail : ∀ n, (0x80 : UInt8).toNat ≤ (UInt8.ofNat (0x80+n%64)).toNat ∧
      (UInt8.ofNat (0x80+n%64)).toNat ≤ (0xbf : UInt8).toNat := by
    intro n
    rw [hcont]
    show 128 ≤ 0x80+n%64 ∧ 0x80+n%64 ≤ 191
    omega
  unfold Utf8.encodeScalar validUtf8
  by_cases h1 : c < 0x80
  · have hval := ofNat_toNat_small c (by omega)
    have hzero : UInt8.ofNat c ≠ 0 := by
      intro he
      rw [he] at hval
      exact absurd hval (by simp; omega)
    rw [if_pos h1, List.singleton_append, utf8Loop, if_neg (by simp), if_neg hzero, if_pos]
    rw [UInt8.lt_iff_toNat_lt, hval]
    exact h1
  rw [if_neg h1]
  by_cases h2 : c < 0x800
  · have hval := ofNat_toNat_small (0xc0+c/64) (by omega)
    rw [if_pos h2, List.cons_append, List.singleton_append, utf8Loop_lead _ 1 0x80 0xbf _
      (by omega) (utf8Lead_two _ (by omega)), utf8Loop_step 0 _ _ _ _ (htail c)]
  rw [if_neg h2]
  by_cases h3 : c < 0x10000
  · have hval := ofNat_toNat_small (0xe0+c/4096) (by omega)
    rw [if_pos h3, List.cons_append, List.cons_append, List.singleton_append,
      utf8Loop_lead _ 2 _ _ _ (by omega) (utf8Lead_three _ (by omega)),
      utf8Loop_step 1 _ _ _ _ (narrowed _ _ _ _ _ _ (htail (c/64)) ?_ ?_),
      utf8Loop_step 0 _ _ _ _ (htail c)]
    · rw [hval, hcont]
      show 0xe0+c/4096 = 224 → 160 ≤ 0x80+c/64%64
      omega
    · rw [hval, hcont]
      show 0xe0+c/4096 = 237 → 0x80+c/64%64 ≤ 159
      omega
  · have hval := ofNat_toNat_small (0xf0+c/262144) (by omega)
    rw [if_neg h3, List.cons_append, List.cons_append, List.cons_append, List.singleton_append,
      utf8Loop_lead _ 3 _ _ _ (by omega) (utf8Lead_four _ (by omega)),
      utf8Loop_step 2 _ _ _ _ (narrowed _ _ _ _ _ _ (htail (c/4096)) ?_ ?_),
      utf8Loop_step 1 _ _ _ _ (htail (c/64)), utf8Loop_step 0 _ _ _ _ (htail c)]
    · rw [hval, hcont]
      show 0xf0+c/262144 = 240 → 144 ≤ 0x80+c/4096%64
      omega
    · rw [hval, hcont]
      show 0xf0+c/262144 = 244 → 0x80+c/4096%64 ≤ 143
      omega

theorem validUtf8_complete (s : Bytes) (h : Utf8.WellFormed s) : validUtf8 s = true := by
  obtain ⟨cs,hcs,rfl⟩ := h
  induction cs with
  | nil => rfl
  | cons c cs ih =>
    rw [List.flatMap_cons, validUtf8_scalar c _ (hcs c (by simp))]
    exact ih (fun d hd => hcs d (by simp [hd]))

/-! Positions and rests. -/

theorem utf8Loop_short (remaining : ℕ) (least greatest : UInt8) (rest : Bytes)
    (h : rest.length < remaining) : utf8Loop remaining least greatest rest = false := by
  induction rest generalizing remaining least greatest with
  | nil =>
    have hpos : remaining ≠ 0 := by simp at h; omega
    simp [utf8Loop, hpos]
  | cons c rest ih =>
    rw [List.length_cons] at h
    rw [utf8Loop, if_pos (by omega)]
    split
    · rfl
    · exact ih (remaining-1) 0x80 0xbf (by omega)

theorem drop_at (value : Bytes) (i : ℕ) (h : i < value.length) :
    ∃ c, value[i]? = some c ∧ value.drop i = c::value.drop (i+1) :=
  ⟨value[i],List.getElem?_eq_getElem h,List.drop_eq_getElem_cons h⟩

theorem continueAt_loop (value : Bytes) (remaining i : ℕ) (h : i+remaining ≤ value.length) :
    ∃ found, continueAt value i remaining = some found ∧ (∀ j ∈ found, i ≤ j) ∧
      utf8Loop remaining 0x80 0xbf (value.drop i) =
        found.elim false (fun j => validUtf8 (value.drop j)) := by
  induction remaining generalizing i with
  | zero => exact ⟨some i,rfl,by simp,rfl⟩
  | succ remaining ih =>
    obtain ⟨c,hc,hdrop⟩ := drop_at value i (by omega)
    rw [continueAt, hc, hdrop, utf8Loop, if_pos (by omega), Nat.add_sub_cancel]
    simp only [Option.bind_eq_bind, Option.bind_some]
    split
    · exact ⟨none,rfl,by simp,rfl⟩
    · obtain ⟨found,hfound,hle,hloop⟩ := ih (i+1) (by omega)
      exact ⟨found,hfound,fun j hj => by have := hle j hj; omega,hloop⟩

theorem followAt_loop (value : Bytes) (remaining i : ℕ) (least greatest : UInt8)
    (hpos : 0 < remaining) :
    ∃ found, followAt value i remaining least greatest = some found ∧ (∀ j ∈ found, i ≤ j) ∧
      utf8Loop remaining least greatest (value.drop i) =
        found.elim false (fun j => validUtf8 (value.drop j)) := by
  unfold followAt
  by_cases hshort : value.length-i < remaining
  · rw [if_pos hshort]
    exact ⟨none,rfl,by simp,utf8Loop_short _ _ _ _ (by rw [List.length_drop]; exact hshort)⟩
  · rw [if_neg hshort]
    obtain ⟨c,hc,hdrop⟩ := drop_at value i (by omega)
    rw [hc, hdrop, utf8Loop, if_pos (by omega)]
    simp only [Option.bind_eq_bind, Option.bind_some]
    split
    · exact ⟨none,rfl,by simp,rfl⟩
    · obtain ⟨found,hfound,hle,hloop⟩ := continueAt_loop value (remaining-1) (i+1) (by omega)
      exact ⟨found,hfound,fun j hj => by have := hle j hj; omega,hloop⟩

theorem utf8Lead_pos {c : UInt8} {remaining : ℕ} {least greatest : UInt8}
    (h : utf8Lead c = some (remaining,least,greatest)) : 0 < remaining := by
  unfold utf8Lead at h
  split at h
  · cases h
    decide
  split at h
  · cases h
    decide
  split at h
  · cases h
    decide
  · cases h

theorem utf8At_loop (value : Bytes) (n i : ℕ) (h : value.length ≤ n+i) :
    utf8At value n i = some (validUtf8 (value.drop i)) := by
  induction n generalizing i with
  | zero =>
    rw [utf8At, if_neg (by omega), List.drop_eq_nil_of_le (by omega)]
    rfl
  | succ n ih =>
    rw [utf8At]
    split
    · rename_i hi
      obtain ⟨c,hc,hdrop⟩ := drop_at value i hi
      rw [hc, hdrop, validUtf8, utf8Loop, if_neg (by simp)]
      simp only [Option.bind_eq_bind, Option.bind_some]
      split
      · rfl
      · split
        · exact ih (i+1) (by omega)
        · cases hlead : utf8Lead c with
          | none => rfl
          | some ranges =>
            obtain ⟨remaining,least,greatest⟩ := ranges
            obtain ⟨found,hfound,hle,hloop⟩ :=
              followAt_loop value remaining (i+1) least greatest (utf8Lead_pos hlead)
            simp only [hfound, hloop, Option.bind_some]
            cases found with
            | none => rfl
            | some j =>
              have := hle j rfl
              exact ih j (by omega)
    · rw [List.drop_eq_nil_of_le (by omega)]
      rfl

/-- The positions stay inside the value and tell what the list loop tells. -/
theorem validUtf8At_eq (value : Bytes) : validUtf8At value = some (validUtf8 value) :=
  utf8At_loop value value.length 0 (by omega)

theorem validUtf8_iff (value : Bytes) : validUtf8 value = true ↔ Utf8.WellFormed value :=
  ⟨validUtf8_sound value,validUtf8_complete value⟩

/-- `valid_utf8` answers for every byte string without reading behind its end, and answers true
exactly if the string is a concatenation of encodings of Unicode scalar values other than zero. -/
theorem valid_utf8_exact (value : Bytes) :
    (validUtf8At value = some true ↔ Utf8.WellFormed value) ∧
      (validUtf8At value = some false ↔ ¬Utf8.WellFormed value) := by
  rw [validUtf8At_eq, Option.some.injEq, Option.some.injEq, ← validUtf8_iff, Bool.not_eq_true]
  exact ⟨Iff.rfl,Iff.rfl⟩

end PgLocalCache.Utf8Scan
