import PgLocalCache.FastAgreement
import PgLocalCache.RespGrammar
import PgLocalCache.Utf8Scan

/-!
# What the key scanner accepts

`IsKeyObject` describes the object texts with one field that have a canonical key
without running the scanner: blanks, the column name as it is, and a canonical
decimal or a text of well-formed UTF-8. The scanner accepts exactly these, with the
key that the general path builds, and writes nothing for any other input.
-/

namespace PgLocalCache.KeyScanExact

open PrefixCode ByteMemory KeyCodec KeyScan Utf8Scan WireKey FastAgreement
open RespGrammar (numeral numeral_ge numeral_decimal)
open RespParser (digitValue)
open MgetReply (plainField plainMapping)

/-- A column name whose spelling in JSON is the name itself. -/
def PlainColumn (column : Bytes) : Prop :=
  column ≠ [] ∧ ∀ ch ∈ column, 0x21 ≤ ch ∧ ch ≤ 0x7e ∧ ch ≠ quote ∧ ch ≠ backslash

/-- The value as it is spelled and as it enters the key. -/
inductive Denotes (keyType : KeyType) (databaseIsUtf8 : Bool) : Bytes → Bytes → Prop
  | number (v : ℤ) : isIntegerType keyType = true → InRange keyType v →
      Denotes keyType databaseIsUtf8 (renderInteger v) (renderInteger v)
  | quoted (v : ℤ) : isIntegerType keyType = true → InRange keyType v →
      Denotes keyType databaseIsUtf8 (quote::(renderInteger v++[quote])) (renderInteger v)
  | text (bytes : Bytes) : isTextType keyType = true → databaseIsUtf8 = true →
      Utf8.WellFormed bytes → (∀ ch ∈ bytes, 0x20 ≤ ch ∧ ch ≠ quote ∧ ch ≠ backslash) →
      Denotes keyType databaseIsUtf8 (quote::(bytes++[quote])) bytes

structure IsKeyObject (input column : Bytes) (keyType : KeyType) (typmod : ℤ)
    (databaseIsUtf8 : Bool) (rendered : Bytes) : Prop where
  plain : PlainColumn column
  unmodified : typmod = -1
  spelled : ∃ value s1 s2 s3 s4 s5 s6 : Bytes, Denotes keyType databaseIsUtf8 value rendered ∧
    (Blank s1 ∧ Blank s2 ∧ Blank s3 ∧ Blank s4 ∧ Blank s5 ∧ Blank s6) ∧
    input = s1++braceOpen::(s2++quote::(column++quote::(s3++colon::(s4++(value++
      (s5++braceClose::s6))))))

/-! The loops of the scanner on the texts that it should accept. -/

theorem skip_blank (s : Bytes) (ch : UInt8) (rest : Bytes) (hs : Blank s)
    (hch : isJsonSpace ch = false) : skipJsonSpace (s++ch::rest) = ch::rest := by
  induction s with
  | nil => simp [skipJsonSpace, hch]
  | cons c s ih =>
    have hc := hs c (by simp)
    rw [skipJsonSpace, List.cons_append, List.dropWhile_cons_of_pos hc]
    exact ih (fun d hd => hs d (by simp [hd]))

theorem skip_all (s : Bytes) (hs : Blank s) : skipJsonSpace s = [] := by
  unfold skipJsonSpace
  rw [List.dropWhile_eq_nil_iff]
  exact hs

theorem scanString_complete (plain : UInt8 → Bool) (bytes rest : Bytes)
    (h : ∀ ch ∈ bytes, plain ch = true ∧ ch ≠ quote) :
    scanString plain (bytes++quote::rest) = some (bytes,rest) := by
  induction bytes with
  | nil => simp [scanString]
  | cons ch bytes ih =>
    obtain ⟨hp,hq⟩ := h ch (by simp)
    rw [List.cons_append, scanString, if_neg hq, if_neg (by simp [hp]),
      ih (fun c hc => h c (by simp [hc]))]
    rfl

/-- No digit follows. -/
def Ended (rest : Bytes) : Prop := ∀ ch ∈ rest.head?, isJsonDigit ch = false

theorem integerDigits_complete (magnitude : ℕ) (digits rest : Bytes)
    (hd : ∀ ch ∈ digits, isJsonDigit ch = true) (hr : Ended rest)
    (hmax : numeral magnitude digits ≤ uint64Max) :
    integerDigits magnitude (digits++rest) = some (numeral magnitude digits,rest) := by
  induction digits generalizing magnitude with
  | nil =>
    cases rest with
    | nil => rfl
    | cons ch rest =>
      have := hr ch (by simp)
      simp [integerDigits, this, numeral]
  | cons ch digits ih =>
    have hch := hd ch (by simp)
    obtain ⟨_,hlt⟩ := digit_byte ch hch
    have hstep : numeral magnitude (ch::digits) = numeral (magnitude*10+(ch.toNat-48)) digits := rfl
    have hge := numeral_ge (magnitude*10+(ch.toNat-48)) digits
    rw [hstep] at hmax ⊢
    rw [List.cons_append, integerDigits, if_pos hch, if_neg (by unfold uint64Max at *; omega)]
    exact ih _ (fun c hc => hd c (by simp [hc])) hmax

theorem decimal_json_digit (n : ℕ) (ch : UInt8) (h : ch ∈ decimal n) : isJsonDigit ch = true := by
  simpa [isJsonDigit] using decimal_digit n ch h

theorem decimal_zero_alone (n : ℕ) (first : UInt8) (tail : Bytes)
    (h : decimal n = first::tail) (hz : first = digitZero) : n = 0 ∧ tail = [] := by
  by_contra hne
  have hpos : 0 < n := by
    rcases Nat.eq_zero_or_pos n with rfl | hp
    · rw [decimal_small 0 (by omega)] at h
      exact absurd ⟨rfl,(List.cons.inj h).2.symm⟩ hne
    · exact hp
  exact decimal_head n hpos (by rw [h, hz]; rfl)

theorem parseMagnitude_complete (keyType : KeyType) (negative : Bool) (n : ℕ) (rest : Bytes)
    (hr : Ended rest) (hn : negative = true → 0 < n) (hlim : n ≤ integerLimit negative keyType) :
    parseMagnitude keyType negative (decimal n++rest) = some (n,rest) := by
  have hsmall : integerLimit negative keyType ≤ uint64Max := by
    cases keyType <;> cases negative <;> simp [integerLimit, uint64Max]
  have hdigits := integerDigits_complete 0 (decimal n) rest (decimal_json_digit n) hr
    (by rw [numeral_decimal]; omega)
  rw [numeral_decimal] at hdigits
  cases hd : decimal n with
  | nil => exact absurd hd (decimal_ne_nil n)
  | cons first tail =>
    have hfirst := decimal_json_digit n first (by rw [hd]; simp)
    rw [hd, List.cons_append] at hdigits
    rw [List.cons_append, parseMagnitude, if_neg (by simp [hfirst]), if_neg, if_neg, hdigits]
    · simp only [Option.bind_eq_bind, Option.bind_some]
      rw [if_neg (by omega)]
    · rintro ⟨hz,hnext⟩
      obtain ⟨_,rfl⟩ := decimal_zero_alone n first tail hd hz
      cases rest with
      | nil => simp at hnext
      | cons ch rest =>
        have := hr ch (by simp)
        simp [this] at hnext
    · rintro ⟨hz,hneg⟩
      have := (decimal_zero_alone n first tail hd hz).1
      have := hn hneg
      omega

theorem parseJsonInteger_complete (keyType : KeyType) (v : ℤ) (rest : Bytes) (hr : Ended rest)
    (hrange : InRange keyType v) :
    parseJsonInteger keyType (renderInteger v++rest) = some (renderInteger v,rest) := by
  obtain ⟨hlo,hhi⟩ := hrange
  by_cases hneg : v < 0
  · have hform : renderInteger v = minusSign::decimal v.natAbs := by rw [renderInteger, if_pos hneg]
    have hp := parseMagnitude_complete keyType true v.natAbs rest hr (by omega) (by omega)
    have hback : signedValue true v.natAbs = v := by
      simp only [signedValue, if_true]
      omega
    rw [hform, parseJsonInteger]
    simp only [List.cons_append, List.head?_cons, decide_true, if_true, List.tail_cons, hp,
      Option.map_some, hback]
    rw [hform]
  · have hform : renderInteger v = decimal v.natAbs := by rw [renderInteger, if_neg hneg]
    have hp := parseMagnitude_complete keyType false v.natAbs rest hr (by simp) (by omega)
    have hback : signedValue false v.natAbs = v := by
      simp only [signedValue, Bool.false_eq_true, if_false]
      omega
    have hhead : (decimal v.natAbs++rest).head? ≠ some minusSign := by
      cases hd : decimal v.natAbs with
      | nil => exact absurd hd (decimal_ne_nil _)
      | cons first tail =>
        have := decimal_json_digit v.natAbs first (by rw [hd]; simp)
        rw [List.cons_append, List.head?_cons, ne_eq, Option.some.injEq]
        rintro rfl
        exact absurd this (by decide)
    rw [hform, parseJsonInteger]
    simp only [hhead, decide_false, Bool.false_eq_true, if_false, hp, Option.map_some, hback]
    rw [hform]

theorem scanValue_complete (keyType : KeyType) (databaseIsUtf8 : Bool) (value rendered rest : Bytes)
    (h : Denotes keyType databaseIsUtf8 value rendered) (hr : Ended rest) :
    scanValue keyType (value++rest) = some (rendered,rest) := by
  cases h with
  | number v hint hrange =>
    have hp := parseJsonInteger_complete keyType v rest hr hrange
    have hhead : (renderInteger v++rest).head? ≠ some quote := by
      intro hq
      cases hv : renderInteger v with
      | nil =>
        unfold renderInteger at hv
        split at hv
        · cases hv
        · exact decimal_ne_nil _ hv
      | cons first tail =>
        rw [hv, List.cons_append, List.head?_cons, Option.some.injEq] at hq
        exact (renderInteger_plain v first (by rw [hv]; simp)).2.1 hq
    rw [scanValue, if_pos hint, if_neg hhead]
    exact hp
  | quoted v hint hrange =>
    have hend : Ended (quote::rest) := by
      intro ch hch
      simp only [List.head?_cons, Option.mem_def, Option.some.injEq] at hch
      rw [← hch]
      rfl
    have hp := parseJsonInteger_complete keyType v (quote::rest) hend hrange
    rw [scanValue, if_pos hint, List.cons_append, if_pos (by simp), List.tail_cons,
      List.append_assoc, List.singleton_append, hp]
    simp [expect]
  | text bytes htext hutf hwell hplain =>
    have hint : ¬isIntegerType keyType = true := by
      intro hi
      cases keyType <;> simp [isIntegerType, isTextType] at hi htext
    have hs := scanString_complete plainText rendered rest (fun ch hc => by
      obtain ⟨h1,h2,h3⟩ := hplain ch hc
      exact ⟨by simp [plainText, h1, h3],h2⟩)
    rw [scanValue, if_neg hint, List.cons_append, List.append_assoc, List.singleton_append]
    simp only [expect, if_true, Option.bind_eq_bind, Option.bind_some, hs,
      validUtf8_complete rendered hwell]

/-! The scanner. -/

theorem plainColumn_all (column : Bytes) (h : PlainColumn column) :
    column.all plainColumn = true := by
  rw [List.all_eq_true]
  intro ch hch
  simpa [plainColumn] using h.2 ch hch

theorem plainColumn_name (column : Bytes) (h : PlainColumn column) :
    ∀ ch ∈ column, plainName ch = true ∧ ch ≠ quote := by
  intro ch hch
  obtain ⟨hlo,hhi,hq,hb⟩ := h.2 ch hch
  refine ⟨?_,hq⟩
  simp only [UInt8.le_iff_toNat_le] at hlo hhi
  simp only [plainName, decide_eq_true_eq, UInt8.le_iff_toNat_le, UInt8.lt_iff_toNat_lt]
  have h21 : (0x21 : UInt8).toNat = 33 := rfl
  have h7e : (0x7e : UInt8).toNat = 126 := rfl
  have h20 : (0x20 : UInt8).toNat = 32 := rfl
  have h80 : (0x80 : UInt8).toNat = 128 := rfl
  exact ⟨by omega,by omega,hb⟩

theorem denotes_supported (keyType : KeyType) (databaseIsUtf8 : Bool) (value rendered : Bytes)
    (h : Denotes keyType databaseIsUtf8 value rendered) :
    isIntegerType keyType = true ∨ isTextType keyType = true ∧ databaseIsUtf8 = true := by
  cases h with
  | number v hint _ => exact Or.inl hint
  | quoted v hint _ => exact Or.inl hint
  | text _ htext hutf _ _ => exact Or.inr ⟨htext,hutf⟩

theorem denotes_head (keyType : KeyType) (databaseIsUtf8 : Bool) (value rendered : Bytes)
    (h : Denotes keyType databaseIsUtf8 value rendered) :
    ∃ ch tail, value = ch::tail ∧ isJsonSpace ch = false := by
  cases h with
  | number v _ _ =>
    by_cases hneg : v < 0
    · exact ⟨minusSign,decimal v.natAbs,by rw [renderInteger, if_pos hneg],rfl⟩
    · cases hd : decimal v.natAbs with
      | nil => exact absurd hd (decimal_ne_nil _)
      | cons ch tail =>
        refine ⟨ch,tail,by rw [renderInteger, if_neg hneg, hd],?_⟩
        have hdigit := decimal_json_digit v.natAbs ch (by rw [hd]; simp)
        by_contra hs
        simp only [Bool.not_eq_false, isJsonSpace, Bool.or_eq_true, decide_eq_true_eq] at hs
        rcases hs with ((rfl | rfl) | rfl) | rfl
        all_goals exact absurd hdigit (by decide)
  | quoted v _ _ => exact ⟨quote,_,rfl,rfl⟩
  | text _ _ _ _ _ => exact ⟨quote,_,rfl,rfl⟩

theorem scan_complete (input column : Bytes) (keyType : KeyType) (typmod : ℤ)
    (databaseIsUtf8 : Bool) (capacity : ℕ) (rendered : Bytes)
    (h : IsKeyObject input column keyType typmod databaseIsUtf8 rendered)
    (hkey : (encodeComponent rendered).length < 1024)
    (hcap : (encodeComponent rendered).length < capacity) :
    keyScanJsonSingle input column keyType typmod databaseIsUtf8 capacity =
      some (encodeComponent rendered) := by
  obtain ⟨value,s1,s2,s3,s4,s5,s6,hden,⟨h1,h2,h3,h4,h5,h6⟩,rfl⟩ := h.spelled
  obtain ⟨ch,tail,hvalue,hch⟩ := denotes_head keyType databaseIsUtf8 value rendered hden
  have hsupported := denotes_supported keyType databaseIsUtf8 value rendered hden
  have hlen : column.length ≠ 0 := by simpa using h.plain.1
  have htypes : (isIntegerType keyType = true ∧ typmod = -1) ∨
      (isTextType keyType = true ∧ typmod = -1) :=
    hsupported.imp (fun hi => ⟨hi,h.unmodified⟩) (fun ht => ⟨ht.1,h.unmodified⟩)
  have hutf : ¬(!databaseIsUtf8 && !isIntegerType keyType) = true := by
    rcases hsupported with hi | ht
    · simp [hi]
    · simp [ht.2]
  have hend : Ended (s5++braceClose::s6) := by
    intro c hc
    cases s5 with
    | nil =>
      simp only [List.nil_append, List.head?_cons, Option.mem_def, Option.some.injEq] at hc
      rw [← hc]
      rfl
    | cons d s5 =>
      simp only [List.cons_append, List.head?_cons, Option.mem_def, Option.some.injEq] at hc
      have hblank := h5 d (by simp)
      rw [← hc]
      simp only [isJsonSpace, Bool.or_eq_true, decide_eq_true_eq] at hblank
      rcases hblank with ((rfl | rfl) | rfl) | rfl
      all_goals decide
  have hskip : skipJsonSpace (s4++(value++(s5++braceClose::s6))) = value++(s5++braceClose::s6) := by
    rw [hvalue, List.cons_append]
    exact skip_blank s4 ch _ h4 hch
  have hname := scanString_complete plainName column
    (s3++colon::(s4++(value++(s5++braceClose::s6)))) (plainColumn_name column h.plain)
  unfold keyScanJsonSingle
  rw [if_neg (by omega), if_neg (not_not.mpr htypes),
    if_neg (by simp [plainColumn_all column h.plain]), skip_blank s1 braceOpen _ h1 rfl]
  simp only [expect, if_true, Option.bind_eq_bind, Option.bind_some]
  rw [skip_blank s2 quote _ h2 rfl]
  simp only [if_true, Option.bind_some, hname, ne_eq, not_true, if_false]
  rw [skip_blank s3 colon _ h3 rfl]
  simp only [if_true, Option.bind_some]
  rw [if_neg hutf, hskip, scanValue_complete keyType databaseIsUtf8 value rendered _ hden hend]
  simp only [Option.bind_some]
  rw [skip_blank s5 braceClose _ h5 rfl]
  simp only [if_true, Option.bind_some, skip_all s6 h6, not_true, if_false]
  rw [if_neg (by omega)]

theorem scanned_denotes (keyType : KeyType) (databaseIsUtf8 : Bool) (value : FieldValue)
    (rendered : Bytes) (h : Scanned keyType databaseIsUtf8 value rendered) :
    Denotes keyType databaseIsUtf8 value.spelling rendered := by
  cases h with
  | number v hint hrange => exact .number v hint hrange
  | quoted v hint hrange => exact .quoted v hint hrange
  | text _ htext hutf hvalid hplain =>
    refine .text rendered htext hutf (validUtf8_sound rendered hvalid) (fun ch hch => ?_)
    obtain ⟨hp,hq⟩ := hplain ch hch
    simp only [plainText, decide_eq_true_eq] at hp
    exact ⟨hp.1,hq,hp.2⟩

theorem scan_column (input column : Bytes) (keyType : KeyType) (typmod : ℤ)
    (databaseIsUtf8 : Bool) (capacity : ℕ) (key : Bytes)
    (h : keyScanJsonSingle input column keyType typmod databaseIsUtf8 capacity = some key) :
    PlainColumn column := by
  unfold keyScanJsonSingle at h
  split at h
  · cases h
  rename_i hlen
  split at h
  · cases h
  split at h
  · cases h
  rename_i hall
  refine ⟨?_,fun ch hch => ?_⟩
  · rintro rfl
    simp at hlen
  · have hplain : column.all plainColumn = true := by simpa using hall
    simpa [plainColumn] using List.all_eq_true.mp hplain ch hch

/-- The scanner accepts exactly the key objects whose key fits. -/
theorem scan_iff (input column : Bytes) (keyType : KeyType) (typmod : ℤ) (databaseIsUtf8 : Bool)
    (capacity : ℕ) (key : Bytes) :
    keyScanJsonSingle input column keyType typmod databaseIsUtf8 capacity = some key ↔
      ∃ rendered, IsKeyObject input column keyType typmod databaseIsUtf8 rendered ∧
        key = encodeComponent rendered ∧ key.length < 1024 ∧ key.length < capacity := by
  constructor
  · intro h
    obtain ⟨htypmod,value,rendered,hscan,hspelled,hkey,hshort,hcap⟩ :=
      keyScanJsonSingle_some _ _ _ _ _ _ _ h
    obtain ⟨s1,s2,s3,s4,s5,s6,hblank,hin⟩ := hspelled.split
    refine ⟨rendered,⟨scan_column _ _ _ _ _ _ _ h,htypmod,value.spelling,s1,s2,s3,s4,s5,s6,
      scanned_denotes _ _ _ _ hscan,hblank,hin⟩,hkey,hshort,hcap⟩
  · rintro ⟨rendered,hobject,rfl,hkey,hcap⟩
    exact scan_complete _ _ _ _ _ _ _ hobject hkey hcap

/-- The effect of `pglc_key_scan_json_single`: its answer, the destination and `key_length`. -/
def keyScanInto (destination : Memory) (base : ℕ) (input column : Bytes) (keyType : KeyType)
    (typmod : ℤ) (databaseIsUtf8 : Bool) (capacity : ℕ) : Bool × Memory × ℕ :=
  match keyScanJsonSingle input column keyType typmod databaseIsUtf8 capacity with
  | none => (false,destination,0)
  | some key => (true,write destination base (key++[0]),key.length)

/-- The scanner accepts exactly the objects with one plainly spelled field whose key fits, its
key is the one the general path builds, and it writes only when it accepts. -/
theorem key_scan_exact (input column : Bytes) (keyType : KeyType) (typmod : ℤ)
    (databaseIsUtf8 : Bool) (capacity : ℕ) :
    (∀ destination base, (keyScanInto destination base input column keyType typmod databaseIsUtf8
        capacity).1 = true ↔
      ∃ rendered, IsKeyObject input column keyType typmod databaseIsUtf8 rendered ∧
        (encodeComponent rendered).length < 1024 ∧ (encodeComponent rendered).length < capacity) ∧
    (∀ destination base rendered,
      IsKeyObject input column keyType typmod databaseIsUtf8 rendered →
      (encodeComponent rendered).length < 1024 → (encodeComponent rendered).length < capacity →
      keyScanInto destination base input column keyType typmod databaseIsUtf8 capacity =
        (true,write destination base (encodeComponent rendered++[0]),
          (encodeComponent rendered).length)) ∧
    (∀ destination base, (keyScanInto destination base input column keyType typmod databaseIsUtf8
        capacity).1 = false →
      keyScanInto destination base input column keyType typmod databaseIsUtf8 capacity =
        (false,destination,0)) ∧
    ∀ {D : Type} (S : Server D) (mappings : List (WorkerMapping D)) (m : WorkerMapping D)
      (field : KeyField D) (key : Bytes), Documented S mappings → m ∈ mappings →
      m.keyFields = [field] → field.name = column → field.column.keyType = keyType →
      field.typmod = typmod → S.databaseIsUtf8 = databaseIsUtf8 →
      keyScanJsonSingle input column keyType typmod databaseIsUtf8 capacity = some key →
      ∃ values, canonicalizeKey S m input = .ok (values,key) := by
  refine ⟨fun destination base => ?_,fun destination base rendered hobject hkey hcap => ?_,
    fun destination base h => ?_,?_⟩
  · unfold keyScanInto
    cases hscan : keyScanJsonSingle input column keyType typmod databaseIsUtf8 capacity with
    | none =>
      simp only [Bool.false_eq_true, false_iff]
      rintro ⟨rendered,hobject,hkey,hcap⟩
      rw [scan_complete _ _ _ _ _ _ _ hobject hkey hcap] at hscan
      cases hscan
    | some key =>
      simp only [true_iff]
      obtain ⟨rendered,hobject,rfl,hkey,hcap⟩ := (scan_iff _ _ _ _ _ _ _).mp hscan
      exact ⟨rendered,hobject,hkey,hcap⟩
  · rw [keyScanInto, scan_complete _ _ _ _ _ _ _ hobject hkey hcap]
  · unfold keyScanInto at h ⊢
    cases hscan : keyScanJsonSingle input column keyType typmod databaseIsUtf8 capacity with
    | none => rfl
    | some key =>
      rw [hscan] at h
      cases h
  · rintro D S mappings m field key hd hm hfields rfl rfl rfl rfl hscan
    exact (canonicalizeKey_single hd m hm field hfields capacity input key hscan).2

def quotedSeven : Bytes := [32,123,34,97,34,58,34,55,34,125]

theorem quoted_seven_scan_exact :
    (keyScanInto (fun _ => 165) 64 quotedSeven [97] plainField.column.keyType (-1) true 16).1 =
        true ∧
      (∃ rendered, IsKeyObject quotedSeven [97] plainField.column.keyType (-1) true rendered ∧
        (encodeComponent rendered).length < 1024 ∧ (encodeComponent rendered).length < 16) ∧
      ∃ values, canonicalizeKey readingServer plainMapping quotedSeven =
        .ok (values,[49,58,55,59]) := by
  have h := key_scan_exact quotedSeven [97] plainField.column.keyType (-1) true 16
  have hscan : (keyScanInto (fun _ => 165) 64 quotedSeven [97] plainField.column.keyType (-1) true
      16).1 = true := by decide
  exact ⟨hscan,(h.1 (fun _ => 165) 64).mp hscan,h.2.2.2 readingServer [plainMapping] plainMapping
    plainField [49,58,55,59] reading_documented (by simp) rfl rfl rfl rfl rfl (by decide)⟩

/-- The space is a printable character, but the scanner leaves a column name that holds one to
the general path. -/
theorem spaced_column_rejected :
    (∀ ch ∈ ([97,32,98] : Bytes), 0x20 ≤ ch ∧ ch ≤ 0x7e ∧ ch ≠ quote ∧ ch ≠ backslash) ∧
      keyScanInto (fun _ => 165) 64 (braceOpen::quote::([97,32,98]++quote::colon::
        (renderInteger 1++[braceClose]))) [97,32,98] .int4 (-1) true 1024 =
          (false,fun _ => 165,0) := by
  constructor
  · simp only [List.forall_mem_cons, List.not_mem_nil, false_imp_iff, implies_true, and_true]
    decide
  · rfl

end PgLocalCache.KeyScanExact
