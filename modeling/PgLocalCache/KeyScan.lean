import PgLocalCache.KeyCodec
import PgLocalCache.Utf8

/-!
# The JSON key scanner of key_codec.c

`keyScanJsonSingle` reads an object with one plainly spelled field and writes the
canonical key of its value. A position in the input is the list of bytes behind
it. `Spelled` is the part of the JSON grammar the scanner stays inside, and every
text it accepts is shown to be one of those spellings.
-/

namespace PgLocalCache.KeyScan

open PrefixCode KeyCodec CacheState

def quote : UInt8 := 34
def backslash : UInt8 := 92
def braceOpen : UInt8 := 123
def braceClose : UInt8 := 125
def digitZero : UInt8 := 48

def textOid : ℕ := 25
def varcharOid : ℕ := 1043

def isJsonSpace (ch : UInt8) : Bool := ch = 32 || ch = 9 || ch = 10 || ch = 13

def isJsonDigit (ch : UInt8) : Bool := decide (48 ≤ ch.toNat ∧ ch.toNat ≤ 57)

def skipJsonSpace (input : Bytes) : Bytes := input.dropWhile isJsonSpace

/-- What a lead byte of `valid_utf8` asks for: the number of bytes that follow and the range of
the first of them. -/
def utf8Lead (c : UInt8) : Option (ℕ × UInt8 × UInt8) :=
  if 0xc2 ≤ c ∧ c ≤ 0xdf then some (1,0x80,0xbf)
  else if 0xe0 ≤ c ∧ c ≤ 0xef then
    some (2,if c = 0xe0 then 0xa0 else 0x80,if c = 0xed then 0x9f else 0xbf)
  else if 0xf0 ≤ c ∧ c ≤ 0xf4 then
    some (3,if c = 0xf0 then 0x90 else 0x80,if c = 0xf4 then 0x8f else 0xbf)
  else none

/-- The loop of `valid_utf8` while `remaining` bytes of a character are still expected. -/
def utf8Loop (remaining : ℕ) (least greatest : UInt8) : Bytes → Bool
  | [] => remaining = 0
  | c::rest =>
    if remaining ≠ 0 then
      if c < least ∨ greatest < c then false else utf8Loop (remaining-1) 0x80 0xbf rest
    else if c = 0 then false
    else if c < 0x80 then utf8Loop 0 0x80 0xbf rest
    else
      match utf8Lead c with
      | none => false
      | some (following,least',greatest') => utf8Loop following least' greatest' rest

def validUtf8 (value : Bytes) : Bool := utf8Loop 0 0x80 0xbf value

def uint64Max : ℕ := 2^64-1

/-- The digit loop of `parse_json_integer`. -/
def integerDigits (magnitude : ℕ) : Bytes → Option (ℕ × Bytes)
  | [] => some (magnitude,[])
  | ch::rest =>
    if isJsonDigit ch then
      if (uint64Max-(ch.toNat-48))/10 < magnitude then none
      else integerDigits (magnitude*10+(ch.toNat-48)) rest
    else some (magnitude,ch::rest)

def integerLimit (negative : Bool) : KeyType → ℕ
  | .int2 => if negative then 2^15 else 2^15-1
  | .int4 => if negative then 2^31 else 2^31-1
  | _ => if negative then 2^63 else 2^63-1

/-- `parse_json_integer` behind the sign. -/
def parseMagnitude (keyType : KeyType) (negative : Bool) : Bytes → Option (ℕ × Bytes)
  | [] => none
  | first::rest =>
    if !isJsonDigit first then none
    else if first = digitZero ∧ negative then none
    else if first = digitZero ∧ rest.head?.any isJsonDigit then none
    else do
      let found ← integerDigits 0 (first::rest)
      if integerLimit negative keyType < found.1 then none else some found

def signedValue (negative : Bool) (magnitude : ℕ) : ℤ :=
  if negative then -(magnitude : ℤ) else magnitude

def parseJsonInteger (keyType : KeyType) (input : Bytes) : Option (Bytes × Bytes) :=
  let negative := decide (input.head? = some minusSign)
  (parseMagnitude keyType negative (if negative then input.tail else input)).map
    (fun found => (renderInteger (signedValue negative found.1),found.2))

/-- The bytes up to the next quote, if `plain` allows all of them. -/
def scanString (plain : UInt8 → Bool) : Bytes → Option (Bytes × Bytes)
  | [] => none
  | ch::rest =>
    if ch = quote then some ([],rest)
    else if !plain ch then none
    else (scanString plain rest).map (fun found => (ch::found.1,found.2))

def expect (ch : UInt8) : Bytes → Option Bytes
  | [] => none
  | first::rest => if first = ch then some rest else none

def plainName (ch : UInt8) : Bool := decide (0x20 ≤ ch ∧ ch < 0x80 ∧ ch ≠ backslash)

def plainText (ch : UInt8) : Bool := decide (0x20 ≤ ch ∧ ch ≠ backslash)

def plainColumn (ch : UInt8) : Bool :=
  decide (0x21 ≤ ch ∧ ch ≤ 0x7e ∧ ch ≠ quote ∧ ch ≠ backslash)

def isTextType (keyType : KeyType) : Bool :=
  keyType = .other textOid || keyType = .other varcharOid

/-- The value part of the scan: the rendered value and what follows it. -/
def scanValue (keyType : KeyType) (input : Bytes) : Option (Bytes × Bytes) :=
  if isIntegerType keyType then
    if input.head? = some quote then do
      let found ← parseJsonInteger keyType input.tail
      let rest ← expect quote found.2
      some (found.1,rest)
    else parseJsonInteger keyType input
  else do
    let rest ← expect quote input
    let found ← scanString plainText rest
    if validUtf8 found.1 then some found else none

def keyScanJsonSingle (input column : Bytes) (keyType : KeyType) (typmod : ℤ)
    (databaseIsUtf8 : Bool) (capacity : ℕ) : Option Bytes :=
  if column.length = 0 ∨ capacity = 0 then none
  else if ¬((isIntegerType keyType ∧ typmod = -1) ∨ (isTextType keyType ∧ typmod = -1)) then none
  else if !column.all plainColumn then none
  else do
    let rest ← expect braceOpen (skipJsonSpace input)
    let rest ← expect quote (skipJsonSpace rest)
    let name ← scanString plainName rest
    if name.1 ≠ column then none
    else do
      let rest ← expect colon (skipJsonSpace name.2)
      if !databaseIsUtf8 && !isIntegerType keyType then none
      else do
        let value ← scanValue keyType (skipJsonSpace rest)
        let rest ← expect braceClose (skipJsonSpace value.2)
        if skipJsonSpace rest ≠ [] then none
        else
          let key := encodeComponent value.1
          if 1024 ≤ key.length ∨ capacity ≤ key.length then none else some key

/-! The spellings. -/

def Blank (s : Bytes) : Prop := ∀ ch ∈ s, isJsonSpace ch = true

inductive FieldValue where
  | number (value : ℤ)
  | text (bytes : Bytes)
  deriving DecidableEq, Repr

def FieldValue.spelling : FieldValue → Bytes
  | .number value => renderInteger value
  | .text bytes => quote::(bytes++[quote])

/-- An object text with one field, written without escapes. -/
structure Spelled (column : Bytes) (value : FieldValue) (input : Bytes) : Prop where
  split : ∃ s1 s2 s3 s4 s5 s6 : Bytes,
    (Blank s1 ∧ Blank s2 ∧ Blank s3 ∧ Blank s4 ∧ Blank s5 ∧ Blank s6) ∧
    input = s1++braceOpen::(s2++quote::(column++quote::(s3++colon::(s4++(value.spelling++
      (s5++braceClose::s6))))))
  name : ∀ ch ∈ column, plainName ch = true ∧ ch ≠ quote
  text : ∀ bytes, value = .text bytes → ∀ ch ∈ bytes, plainText ch = true ∧ ch ≠ quote

theorem skip_split (input : Bytes) : ∃ s, Blank s ∧ input = s++skipJsonSpace input := by
  refine ⟨input.takeWhile isJsonSpace,fun ch h => ?_,?_⟩
  · exact (List.mem_takeWhile_imp h)
  · exact (List.takeWhile_append_dropWhile).symm

theorem expect_some (ch : UInt8) (input rest : Bytes) (h : expect ch input = some rest) :
    input = ch::rest := by
  cases input with
  | nil => cases h
  | cons first tail =>
    simp only [expect] at h
    split at h
    · cases h
      simp_all
    · cases h

theorem expect_skip (ch : UInt8) (input rest : Bytes)
    (h : expect ch (skipJsonSpace input) = some rest) :
    ∃ s, Blank s ∧ input = s++ch::rest := by
  obtain ⟨s,hs,hin⟩ := skip_split input
  rw [expect_some ch _ rest h] at hin
  exact ⟨s,hs,hin⟩

theorem scanString_some (plain : UInt8 → Bool) (input bytes rest : Bytes)
    (h : scanString plain input = some (bytes,rest)) :
    input = bytes++quote::rest ∧ ∀ ch ∈ bytes, plain ch = true ∧ ch ≠ quote := by
  induction input generalizing bytes with
  | nil => cases h
  | cons ch tail ih =>
    simp only [scanString] at h
    split at h
    · rename_i hq
      cases h
      simp [hq]
    · split at h
      · cases h
      · rename_i hq hp
        cases hs : scanString plain tail with
        | none => simp [hs] at h
        | some found =>
          simp only [hs, Option.map_some, Option.some.injEq, Prod.mk.injEq] at h
          obtain ⟨rfl,rfl⟩ := h
          obtain ⟨htail,hall⟩ := ih found.1 hs
          constructor
          · rw [htail]
            rfl
          · intro c hc
            rcases List.mem_cons.mp hc with rfl | hc
            · exact ⟨by simpa using hp,hq⟩
            · exact hall c hc

theorem digit_byte (ch : UInt8) (h : isJsonDigit ch = true) :
    UInt8.ofNat (48+(ch.toNat-48)) = ch ∧ ch.toNat-48 < 10 := by
  have hr : 48 ≤ ch.toNat ∧ ch.toNat ≤ 57 := by simpa [isJsonDigit] using h
  constructor
  · rw [show 48+(ch.toNat-48) = ch.toNat by omega]
    exact UInt8.ofNat_toNat
  · omega

/-- The digits read so far, in front of the unread input, stay the same text. -/
theorem integerDigits_some (magnitude n : ℕ) (input rest : Bytes) (hm : 0 < magnitude)
    (h : integerDigits magnitude input = some (n,rest)) :
    decimal magnitude++input = decimal n++rest := by
  induction input generalizing magnitude with
  | nil =>
    cases h
    rfl
  | cons ch tail ih =>
    simp only [integerDigits] at h
    split at h
    · rename_i hd
      split at h
      · cases h
      · obtain ⟨hbyte,hlt⟩ := digit_byte ch hd
        rw [← ih _ (by omega) h, decimal_snoc magnitude _ hm hlt, hbyte]
        simp
    · cases h
      rfl

theorem integerDigits_first (first : UInt8) (tail rest : Bytes) (n : ℕ)
    (hd : isJsonDigit first = true)
    (hz : ¬(first = digitZero ∧ tail.head?.any isJsonDigit = true))
    (h : integerDigits 0 (first::tail) = some (n,rest)) : first::tail = decimal n++rest := by
  obtain ⟨hbyte,hlt⟩ := digit_byte first hd
  have hfirst : decimal (first.toNat-48) = [first] := by rw [decimal_small _ hlt, hbyte]
  simp only [integerDigits, hd, if_true, Nat.zero_mul, Nat.zero_add, Nat.not_lt_zero,
    if_false] at h
  by_cases hpos : 0 < first.toNat-48
  · have := integerDigits_some _ n tail rest hpos h
    rw [hfirst] at this
    exact this
  · have hzero : first.toNat-48 = 0 := by omega
    have hf : first = digitZero := by
      rw [← hbyte, hzero]
      rfl
    -- A leading zero stands alone, so the loop stops right behind it.
    have hstop : integerDigits 0 tail = some (0,tail) := by
      cases tail with
      | nil => rfl
      | cons ch tail =>
        have hch : isJsonDigit ch = false := by
          by_contra hne
          exact hz ⟨hf,by simpa using hne⟩
        simp [integerDigits, hch]
    rw [hzero, hstop] at h
    cases h
    rw [hzero] at hfirst
    simp [hfirst]

/-- The values an integer key type can hold. -/
def InRange (keyType : KeyType) (value : ℤ) : Prop :=
  -(integerLimit true keyType : ℤ) ≤ value ∧ value ≤ integerLimit false keyType

theorem renderInteger_negative (magnitude : ℕ) (h : 0 < magnitude) :
    renderInteger (-(magnitude : ℤ)) = minusSign::decimal magnitude := by
  rw [renderInteger, if_pos (by omega), Int.natAbs_neg, Int.natAbs_natCast]

theorem renderInteger_natural (magnitude : ℕ) :
    renderInteger (magnitude : ℤ) = decimal magnitude := by
  rw [renderInteger, if_neg (by omega), Int.natAbs_natCast]

theorem parseMagnitude_some (keyType : KeyType) (negative : Bool) (input rest : Bytes) (n : ℕ)
    (h : parseMagnitude keyType negative input = some (n,rest)) :
    input = decimal n++rest ∧ n ≤ integerLimit negative keyType ∧
      (negative = true → 0 < n) := by
  cases input with
  | nil => cases h
  | cons first tail =>
    simp only [parseMagnitude] at h
    split at h
    · cases h
    · rename_i hd
      split at h
      · cases h
      · rename_i hz
        split at h
        · cases h
        · rename_i hzz
          cases hdig : integerDigits 0 (first::tail) with
          | none => simp [hdig] at h
          | some found =>
            simp only [hdig, Option.bind_eq_bind, Option.bind_some] at h
            split at h
            · cases h
            · rename_i hlim
              cases h
              have htext := integerDigits_first first tail rest n (by simpa using hd) hzz hdig
              refine ⟨htext,by simpa using hlim,fun hneg => ?_⟩
              by_contra hzero
              rw [show n = 0 by omega, decimal_small 0 (by omega)] at htext
              exact hz ⟨(List.cons.inj htext).1,hneg⟩

theorem parseJsonInteger_some (keyType : KeyType) (input rendered rest : Bytes)
    (h : parseJsonInteger keyType input = some (rendered,rest)) :
    ∃ value : ℤ, rendered = renderInteger value ∧ input = renderInteger value++rest ∧
      InRange keyType value := by
  simp only [parseJsonInteger, Option.map_eq_some_iff, Prod.mk.injEq] at h
  obtain ⟨⟨n,behind⟩,hfound,rfl,rfl⟩ := h
  obtain ⟨htext,hlim,hpos⟩ := parseMagnitude_some keyType _ _ _ n hfound
  refine ⟨_,rfl,?_,?_⟩
  · by_cases hneg : input.head? = some minusSign
    · simp only [hneg, decide_true, if_true] at htext hpos
      simp only [hneg, decide_true, signedValue, if_true]
      rw [renderInteger_negative n (hpos trivial), List.cons_append, ← htext]
      cases input with
      | nil => cases hneg
      | cons ch tail => simpa using hneg
    · simp only [hneg, decide_false] at htext
      simp only [hneg, decide_false, signedValue]
      rw [if_neg (by simp), renderInteger_natural]
      exact htext
  · unfold InRange signedValue
    split
    · rename_i hneg
      rw [hneg] at hlim
      constructor
      · exact_mod_cast Int.neg_le_neg (by exact_mod_cast hlim)
      · omega
    · rename_i hneg
      rw [Bool.not_eq_true] at hneg
      rw [hneg] at hlim
      constructor
      · omega
      · exact_mod_cast hlim

/-! Texts. -/

theorem utf8Loop_next (remaining : ℕ) (least greatest : UInt8) (s : Bytes)
    (h : utf8Loop (remaining+1) least greatest s = true) :
    ∃ b rest, s = b::rest ∧ (least.toNat ≤ b.toNat ∧ b.toNat ≤ greatest.toNat) ∧
      utf8Loop remaining 0x80 0xbf rest = true := by
  cases s with
  | nil => simp [utf8Loop] at h
  | cons b rest =>
    simp only [utf8Loop, ne_eq, Nat.add_eq_zero_iff, one_ne_zero, and_false, not_false_iff,
      if_true, Nat.add_sub_cancel] at h
    split at h
    · cases h
    · rename_i hrange
      rw [not_or, UInt8.lt_iff_toNat_lt, UInt8.lt_iff_toNat_lt] at hrange
      exact ⟨b,rest,rfl,by omega,h⟩

theorem second_range (a b first last least greatest : UInt8) (hl : 0x80 ≤ least.toNat)
    (hg : greatest.toNat ≤ 0xbf)
    (h : (if a = first then least else 0x80).toNat ≤ b.toNat ∧
      b.toNat ≤ (if a = last then greatest else 0xbf).toNat) :
    (0x80 ≤ b.toNat ∧ b.toNat ≤ 0xbf) ∧ (a.toNat = first.toNat → least.toNat ≤ b.toNat) ∧
      (a.toNat = last.toNat → b.toNat ≤ greatest.toNat) := by
  refine ⟨⟨le_trans ?_ h.1,le_trans h.2 ?_⟩,fun ha => ?_,fun ha => ?_⟩
  · split
    · exact hl
    · decide
  · split
    · exact hg
    · decide
  · rw [if_pos (UInt8.toNat_inj.mp ha)] at h
    exact h.1
  · rw [if_pos (UInt8.toNat_inj.mp ha)] at h
    exact h.2

theorem validUtf8_sound (s : Bytes) (h : validUtf8 s = true) : Utf8.WellFormed s := by
  -- The loop takes one whole character at a time, so the induction is on the length.
  induction hn : s.length using Nat.strong_induction_on generalizing s with
  | _ n ih =>
    subst hn
    cases s with
    | nil => exact Utf8.wellFormed_nil
    | cons a rest =>
      have step : ∀ t : Bytes, t.length < (a::rest).length → utf8Loop 0 0x80 0xbf t = true →
          Utf8.WellFormed t := fun t hlen ht => ih t.length hlen t ht rfl
      simp only [validUtf8, utf8Loop, ne_eq, not_true_eq_false, if_false] at h
      split at h
      · cases h
      · rename_i hzero
        have hpos : 0 < a.toNat := by
          by_contra hne
          apply hzero
          rw [← UInt8.toNat_inj]
          show a.toNat = 0
          omega
        split at h
        · rename_i hascii
          rw [UInt8.lt_iff_toNat_lt] at hascii
          exact Utf8.wellFormed_one a rest ⟨hpos,hascii⟩ (step rest (by simp) h)
        · unfold utf8Lead at h
          by_cases h2 : 0xc2 ≤ a ∧ a ≤ 0xdf
          · rw [if_pos h2] at h
            obtain ⟨b,t,rfl,hb,ht⟩ := utf8Loop_next 0 0x80 0xbf rest h
            rw [UInt8.le_iff_toNat_le, UInt8.le_iff_toNat_le] at h2
            exact Utf8.wellFormed_two a b t h2 hb (step t (by simp) ht)
          · rw [if_neg h2] at h
            by_cases h3 : 0xe0 ≤ a ∧ a ≤ 0xef
            · rw [if_pos h3] at h
              obtain ⟨b,t,rfl,hb,ht⟩ := utf8Loop_next 1 _ _ rest h
              obtain ⟨c,t,rfl,hc,ht⟩ := utf8Loop_next 0 0x80 0xbf t ht
              obtain ⟨hrange,hlow,hhigh⟩ := second_range a b _ _ _ _ (by decide) (by decide) hb
              rw [UInt8.le_iff_toNat_le, UInt8.le_iff_toNat_le] at h3
              exact Utf8.wellFormed_three a b c t h3 hrange hlow hhigh hc
                (step t (by simp only [List.length_cons]; omega) ht)
            · rw [if_neg h3] at h
              by_cases h4 : 0xf0 ≤ a ∧ a ≤ 0xf4
              · rw [if_pos h4] at h
                obtain ⟨b,t,rfl,hb,ht⟩ := utf8Loop_next 2 _ _ rest h
                obtain ⟨c,t,rfl,hc,ht⟩ := utf8Loop_next 1 0x80 0xbf t ht
                obtain ⟨d,t,rfl,hd,ht⟩ := utf8Loop_next 0 0x80 0xbf t ht
                obtain ⟨hrange,hlow,hhigh⟩ := second_range a b _ _ _ _ (by decide) (by decide) hb
                rw [UInt8.le_iff_toNat_le, UInt8.le_iff_toNat_le] at h4
                exact Utf8.wellFormed_four a b c d t h4 hrange hlow hhigh hc hd
                  (step t (by simp only [List.length_cons]; omega) ht)
              · rw [if_neg h4] at h
                cases h

theorem decimal_plain (n : ℕ) (ch : UInt8) (h : ch ∈ decimal n) :
    plainText ch = true ∧ ch ≠ quote ∧ ch.toNat < 128 := by
  obtain ⟨hlo,hhi⟩ := decimal_digit n ch h
  refine ⟨?_,?_,by omega⟩
  · simp only [plainText, decide_eq_true_eq]
    constructor
    · rw [UInt8.le_iff_toNat_le]
      exact le_trans (by decide) hlo
    · intro hb
      rw [hb] at hhi
      revert hhi
      decide
  · intro hq
    rw [hq] at hlo
    revert hlo
    decide

theorem renderInteger_plain (value : ℤ) (ch : UInt8) (h : ch ∈ renderInteger value) :
    plainText ch = true ∧ ch ≠ quote ∧ ch.toNat < 128 := by
  unfold renderInteger at h
  split at h
  · rcases List.mem_cons.mp h with rfl | h
    · decide
    · exact decimal_plain _ ch h
  · exact decimal_plain _ ch h

/-- What a scanned value is, by the type of the key column. -/
inductive Scanned (keyType : KeyType) (databaseIsUtf8 : Bool) : FieldValue → Bytes → Prop
  | number (v : ℤ) : isIntegerType keyType = true → InRange keyType v →
      Scanned keyType databaseIsUtf8 (.number v) (renderInteger v)
  | quoted (v : ℤ) : isIntegerType keyType = true → InRange keyType v →
      Scanned keyType databaseIsUtf8 (.text (renderInteger v)) (renderInteger v)
  | text (bytes : Bytes) : isTextType keyType = true → databaseIsUtf8 = true →
      validUtf8 bytes = true → (∀ ch ∈ bytes, plainText ch = true ∧ ch ≠ quote) →
      Scanned keyType databaseIsUtf8 (.text bytes) bytes

theorem scanned_plain (keyType : KeyType) (databaseIsUtf8 : Bool) (value : FieldValue)
    (rendered bytes : Bytes) (h : Scanned keyType databaseIsUtf8 value rendered)
    (hv : value = .text bytes) : ∀ ch ∈ bytes, plainText ch = true ∧ ch ≠ quote := by
  intro ch hch
  cases h with
  | number v _ _ => cases hv
  | quoted v _ _ =>
    cases hv
    exact ⟨(renderInteger_plain v ch hch).1,(renderInteger_plain v ch hch).2.1⟩
  | text b _ _ _ hp =>
    cases hv
    exact hp ch hch

theorem scanValue_some (keyType : KeyType) (databaseIsUtf8 : Bool) (input rendered rest : Bytes)
    (htype : isIntegerType keyType = true ∨ (isTextType keyType = true ∧ databaseIsUtf8 = true))
    (h : scanValue keyType input = some (rendered,rest)) :
    ∃ value : FieldValue, Scanned keyType databaseIsUtf8 value rendered ∧
      input = value.spelling++rest := by
  unfold scanValue at h
  split at h
  · rename_i hint
    split at h
    · rename_i hq
      obtain ⟨tail,rfl⟩ : ∃ tail, input = quote::tail := by
        cases input with
        | nil => cases hq
        | cons ch tail => exact ⟨tail,by simpa using hq⟩
      simp only [List.tail_cons, Option.bind_eq_bind, Option.bind_eq_some_iff] at h
      obtain ⟨⟨found,behind⟩,hparse,rest',hend,hout⟩ := h
      cases hout
      obtain ⟨v,hr,htext,hrange⟩ := parseJsonInteger_some keyType tail found behind hparse
      subst hr
      refine ⟨_,Scanned.quoted v hint hrange,?_⟩
      rw [htext, expect_some quote behind rest hend]
      simp [FieldValue.spelling]
    · obtain ⟨v,hr,htext,hrange⟩ := parseJsonInteger_some keyType input rendered rest h
      subst hr
      exact ⟨_,Scanned.number v hint hrange,htext⟩
  · rename_i hint
    have ht := htype.resolve_left (by simpa using hint)
    simp only [Option.bind_eq_bind, Option.bind_eq_some_iff] at h
    obtain ⟨tail,hquote,⟨found,behind⟩,hscan,hout⟩ := h
    split at hout
    · rename_i hutf
      cases hout
      obtain ⟨htext,hplain⟩ := scanString_some plainText tail rendered rest hscan
      refine ⟨_,Scanned.text rendered ht.1 ht.2 hutf hplain,?_⟩
      rw [expect_some quote input tail hquote, htext]
      simp [FieldValue.spelling]
    · cases hout

/-- An accepted text spells one field of the expected name, and the key is the encoding of its
value. -/
theorem keyScanJsonSingle_some (input column : Bytes) (keyType : KeyType) (typmod : ℤ)
    (databaseIsUtf8 : Bool) (capacity : ℕ) (key : Bytes)
    (h : keyScanJsonSingle input column keyType typmod databaseIsUtf8 capacity = some key) :
    typmod = -1 ∧ ∃ value rendered, Scanned keyType databaseIsUtf8 value rendered ∧
      Spelled column value input ∧ key = encodeComponent rendered ∧ key.length < keyMax ∧
      key.length < capacity := by
  unfold keyScanJsonSingle at h
  split at h
  · cases h
  · split at h
    · cases h
    · rename_i hsupported
      rw [not_not] at hsupported
      split at h
      · cases h
      · simp only [Option.bind_eq_bind, Option.bind_eq_some_iff] at h
        obtain ⟨r1,h1,r2,h2,⟨name,r3⟩,h3,h⟩ := h
        split at h
        · cases h
        · rename_i hname
          simp only [ne_eq, not_not] at hname
          subst hname
          simp only [Option.bind_eq_some_iff] at h
          obtain ⟨r4,h4,h⟩ := h
          split at h
          · cases h
          · rename_i hutf
            simp only [Option.bind_eq_some_iff] at h
            obtain ⟨⟨rendered,r5⟩,h5,r6,h6,h⟩ := h
            split at h
            · cases h
            · rename_i hend
              split at h
              · cases h
              · rename_i hfit
                cases h
                have htype : isIntegerType keyType = true ∨
                    (isTextType keyType = true ∧ databaseIsUtf8 = true) := by
                  rcases hsupported with hs | hs
                  · exact Or.inl hs.1
                  · by_cases hi : isIntegerType keyType = true
                    · exact Or.inl hi
                    · refine Or.inr ⟨hs.1,?_⟩
                      by_contra hu
                      exact hutf (by simp [hi, hu])
                obtain ⟨s1,hs1,e1⟩ := expect_skip braceOpen input r1 h1
                obtain ⟨s2,hs2,e2⟩ := expect_skip quote r1 r2 h2
                obtain ⟨e3,hplain⟩ := scanString_some plainName r2 name r3 h3
                obtain ⟨s3,hs3,e4⟩ := expect_skip colon r3 r4 h4
                obtain ⟨s4,hs4,e5⟩ := skip_split r4
                obtain ⟨value,hscan,e6⟩ := scanValue_some keyType databaseIsUtf8 _ rendered r5
                  htype h5
                obtain ⟨s5,hs5,e7⟩ := expect_skip braceClose r5 r6 h6
                obtain ⟨s6,hs6,e8⟩ := skip_split r6
                have hnil : skipJsonSpace r6 = [] := by simpa using hend
                rw [hnil, List.append_nil] at e8
                refine ⟨by tauto,value,rendered,hscan,?_,rfl,?_,by omega⟩
                · refine ⟨⟨s1,s2,s3,s4,s5,s6,⟨hs1,hs2,hs3,hs4,hs5,hs6⟩,?_⟩,hplain,
                    fun bytes hb => scanned_plain keyType databaseIsUtf8 value rendered bytes
                      hscan hb⟩
                  rw [e1, e2, e3, e4, e5, e6, e7, e8]
                · unfold keyMax
                  omega

example : keyScanJsonSingle [123,34,97,34,58,32,45,49,50,125] [97] .int4 (-1) true 1024 =
      some [51,58,45,49,50,59] ∧
    keyScanJsonSingle [123,34,97,34,58,34,55,34,125] [97] .int2 (-1) false 1024 =
      some [49,58,55,59] ∧
    keyScanJsonSingle [123,34,97,34,58,48,55,125] [97] .int2 (-1) true 1024 = none := by decide

end PgLocalCache.KeyScan
