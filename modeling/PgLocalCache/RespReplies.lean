import PgLocalCache.RespGrammar

/-!
# Replies and a strict reader

`readValue` is a reader of RESP2 values that knows nothing of the encoders: lines
end in CR LF and hold neither byte inside, numbers are canonical and integers fit
64 bits. Every reply that the encoders and the array header build is one value for
it, whatever the texts are, so a stream of replies has one reading. The in-place
writers are restated with the wrapping subtraction of `Size`.
-/

namespace PgLocalCache.RespReplies

open PrefixCode ByteMemory RespGrammar
open RespParser (isDigit)
open RespWriter

inductive Value where
  | simple (text : Bytes)
  | error (text : Bytes)
  | integer (value : ℤ)
  | bulk (bytes : Bytes)
  | null
  | array (items : List Value)
  | nullArray

/-! The reader. -/

def readLineEnd : Bytes → Option (Bytes × Bytes)
  | 10::rest => some ([],rest)
  | _ => none

/-- The bytes before the next CR LF and the bytes behind it. -/
def readLine : Bytes → Option (Bytes × Bytes)
  | [] => none
  | ch::rest =>
    if ch = 13 then readLineEnd rest
    else if ch = 10 then none
    else (readLine rest).map (fun line => (ch::line.1,line.2))

def readNat (digits : Bytes) : Option ℕ :=
  if digits = [] ∨ !digits.all isDigit ∨ (digits.head? = some 48 ∧ digits ≠ [48]) then none
  else some (numeral 0 digits)

def readInteger : Bytes → Option ℤ
  | [] => none
  | ch::digits =>
    if ch = minusByte then
      (readNat digits).bind (fun n => if n = 0 ∨ 2^63 < n then none else some (-(n : ℤ)))
    else (readNat (ch::digits)).bind (fun n => if 2^63 ≤ n then none else some (n : ℤ))

def readBulk (line rest : Bytes) : Option (Value × Bytes) :=
  if line = [minusByte,49] then some (.null,rest)
  else (readNat line).bind (fun n =>
    if rest.length < n+2 ∨ (rest.drop n).take 2 ≠ crlf then none
    else some (.bulk (rest.take n),rest.drop (n+2)))

def readItems (read : Bytes → Option (Value × Bytes)) : ℕ → Bytes → Option (List Value × Bytes)
  | 0, rest => some ([],rest)
  | n+1, rest =>
    (read rest).bind (fun item =>
      (readItems read n item.2).map (fun items => (item.1::items.1,items.2)))

def readArray (read : Bytes → Option (Value × Bytes)) (line rest : Bytes) :
    Option (Value × Bytes) :=
  if line = [minusByte,49] then some (.nullArray,rest)
  else (readNat line).bind (fun n =>
    (readItems read n rest).map (fun items => (.array items.1,items.2)))

/-- One value; the fuel bounds the nesting of arrays. -/
def readValue : ℕ → Bytes → Option (Value × Bytes)
  | 0, _ => none
  | _+1, [] => none
  | fuel+1, kind::rest =>
    (readLine rest).bind (fun line =>
      if kind = plusByte then some (.simple line.1,line.2)
      else if kind = minusByte then some (.error line.1,line.2)
      else if kind = colonByte then (readInteger line.1).map (fun n => (.integer n,line.2))
      else if kind = dollarByte then readBulk line.1 line.2
      else if kind = starByte then readArray (readValue fuel) line.1 line.2
      else none)

/-- A whole stream of values. -/
def readStream : ℕ → Bytes → Option (List Value)
  | _, [] => some []
  | 0, _::_ => none
  | n+1, ch::bytes =>
    (readValue (ch::bytes).length (ch::bytes)).bind (fun first =>
      (readStream n first.2).map (fun values => first.1::values))

def readReplies (bytes : Bytes) : Option (List Value) := readStream bytes.length bytes

/-! The replies. -/

inductive Reply where
  | simple (message : Bytes)
  | error (message : Bytes)
  | integer (value : Int64)
  | bulk (value : Bytes)
  | null
  | array (items : List Reply)

mutual

def encode : Reply → Bytes
  | .simple message => respSimple message
  | .error message => respError message
  | .integer value => respInteger value.toInt
  | .bulk value => respBulk value
  | .null => respNull
  | .array items => arrayHeader items.length++encodeAll items

def encodeAll : List Reply → Bytes
  | [] => []
  | reply::replies => encode reply++encodeAll replies

end

/-- Message texts lose their line ends. -/
def flattened (message : Bytes) : Bytes :=
  message.map (fun ch => if ch = 13 ∨ ch = 10 then spaceByte else ch)

mutual

def meaning : Reply → Value
  | .simple message => .simple (flattened message)
  | .error message => .error (flattened message)
  | .integer value => .integer value.toInt
  | .bulk value => .bulk value
  | .null => .null
  | .array items => .array (meanings items)

def meanings : List Reply → List Value
  | [] => []
  | reply::replies => meaning reply::meanings replies

end

/-! Reading what was encoded. -/

def Plain (text : Bytes) : Prop := ∀ ch ∈ text, ch ≠ 13 ∧ ch ≠ 10

theorem readLine_plain (text rest : Bytes) (h : Plain text) :
    readLine (text++crlf++rest) = some (text,rest) := by
  induction text with
  | nil => simp [crlf, readLine, readLineEnd]
  | cons ch text ih =>
    have hch := h ch (by simp)
    have hrest := ih (fun c hc => h c (by simp [hc]))
    rw [List.cons_append, List.cons_append, readLine, if_neg hch.1, if_neg hch.2, hrest]
    rfl

theorem flattened_plain (message : Bytes) : Plain (flattened message) := by
  intro ch hm
  obtain ⟨c,_,rfl⟩ := List.mem_map.mp hm
  by_cases h : c = 13 ∨ c = 10
  · rw [if_pos h]
    decide
  · rw [if_neg h]
    exact not_or.mp h

theorem decimal_plain_line (n : ℕ) : Plain (decimal n) := by
  intro ch hm
  have := decimal_digit n ch hm
  constructor
  · rintro rfl
    exact absurd this (by decide)
  · rintro rfl
    exact absurd this (by decide)

theorem readNat_decimal (n : ℕ) : readNat (decimal n) = some n := by
  obtain ⟨hne,hd,hval⟩ := decimal_numeral n
  have hall : (decimal n).all isDigit = true := List.all_eq_true.mpr hd
  have hlead : ¬((decimal n).head? = some 48 ∧ decimal n ≠ [48]) := by
    rintro ⟨hhead,hne48⟩
    rcases Nat.eq_zero_or_pos n with rfl | hpos
    · exact hne48 rfl
    · exact decimal_head n hpos hhead
  rw [readNat, if_neg (by simp [hne, hall, hlead]), hval]

theorem decimal_minus (n : ℕ) (tail : Bytes) : decimal n ≠ minusByte::tail := by
  intro h
  have := decimal_digit n minusByte (by rw [h]; simp)
  exact absurd this (by decide)

theorem readInteger_written (value : ℤ) (hlo : -2^63 ≤ value) (hhi : value < 2^63) :
    readInteger (if value < 0 then minusByte::decimal value.natAbs else decimal value.natAbs) =
      some value := by
  by_cases hneg : value < 0
  · rw [if_pos hneg, readInteger, if_pos rfl, readNat_decimal, Option.bind_some,
      if_neg (by omega)]
    congr 1
    omega
  · rw [if_neg hneg]
    cases hd : decimal value.natAbs with
    | nil => exact absurd hd (decimal_ne_nil _)
    | cons ch digits =>
      have hm : ch ≠ minusByte := by
        rintro rfl
        exact decimal_minus _ _ hd
      rw [readInteger, if_neg hm, ← hd, readNat_decimal, Option.bind_some, if_neg (by omega)]
      congr 1
      omega

theorem readBulk_written (value rest : Bytes) :
    readBulk (decimal value.length) (value++crlf++rest) = some (.bulk value,rest) := by
  have hterm : ((value++crlf++rest).drop value.length).take 2 = crlf := by
    rw [List.append_assoc, List.drop_left]
    exact List.take_left' rfl
  have htake : (value++crlf++rest).take value.length = value := by
    rw [List.append_assoc, List.take_left]
  have hdrop : (value++crlf++rest).drop (value.length+2) = rest :=
    List.drop_left' (by simp)
  rw [readBulk, if_neg (decimal_minus _ _), readNat_decimal, Option.bind_some, if_neg, htake, hdrop]
  rintro (h | h)
  · simp at h
    omega
  · exact h hterm

theorem readValue_line (fuel : ℕ) (kind : UInt8) (text rest : Bytes) (h : Plain text) :
    readValue (fuel+1) (kind::text++crlf++rest) =
      if kind = plusByte then some (.simple text,rest)
      else if kind = minusByte then some (.error text,rest)
      else if kind = colonByte then (readInteger text).map (fun n => (.integer n,rest))
      else if kind = dollarByte then readBulk text rest
      else if kind = starByte then readArray (readValue fuel) text rest
      else none := by
  rw [List.cons_append, List.cons_append, readValue, readLine_plain text rest h, Option.bind_some]

theorem integer_plain (value : ℤ) : Plain (if value < 0 then minusByte::decimal value.natAbs
    else decimal value.natAbs) := by
  split
  · intro ch hm
    rcases List.mem_cons.mp hm with rfl | hm
    · decide
    · exact decimal_plain_line _ ch hm
  · exact decimal_plain_line _

theorem encode_pos (reply : Reply) : 0 < (encode reply).length := by
  cases reply <;>
    simp [encode, respSimple, respError, respInteger, lineResponse, crlf]

mutual

theorem encode_read (reply : Reply) (fuel : ℕ) (rest : Bytes)
    (hf : (encode reply).length ≤ fuel) :
    readValue fuel (encode reply++rest) = some (meaning reply,rest) := by
  have hpos := encode_pos reply
  obtain ⟨fuel,rfl⟩ : ∃ n, fuel = n+1 := ⟨fuel-1,by omega⟩
  cases reply with
  | simple message => exact readValue_line fuel plusByte _ rest (flattened_plain message)
  | error message => exact readValue_line fuel minusByte _ rest (flattened_plain message)
  | integer value =>
    refine (readValue_line fuel colonByte _ rest (integer_plain value.toInt)).trans ?_
    rw [readInteger_written value.toInt value.le_toInt value.toInt_lt]
    rfl
  | bulk value =>
    have hform : encode (.bulk value)++rest =
        dollarByte::decimal value.length++crlf++(value++crlf++rest) := by
      simp [encode, respBulk, bulkHeader]
    rw [hform]
    refine (readValue_line fuel dollarByte _ _ (decimal_plain_line _)).trans ?_
    exact readBulk_written value rest
  | null =>
    refine (readValue_line fuel dollarByte [minusByte,49] rest ?_).trans rfl
    simp [Plain, minusByte]
  | array items =>
    rw [encode, List.length_append, arrayHeader_length] at hf
    have hitems := encodeAll_read items fuel rest (by omega)
    have hform : encode (.array items)++rest =
        starByte::decimal items.length++crlf++(encodeAll items++rest) := by
      simp [encode, arrayHeader]
    rw [hform]
    refine (readValue_line fuel starByte _ _ (decimal_plain_line _)).trans ?_
    change readArray (readValue fuel) (decimal items.length) (encodeAll items++rest) = _
    rw [readArray, if_neg (decimal_minus _ _), readNat_decimal, Option.bind_some, hitems]
    rfl

theorem encodeAll_read (replies : List Reply) (fuel : ℕ) (rest : Bytes)
    (hf : (encodeAll replies).length ≤ fuel) :
    readItems (readValue fuel) replies.length (encodeAll replies++rest) =
      some (meanings replies,rest) := by
  cases replies with
  | nil => rfl
  | cons reply replies =>
    rw [encodeAll, List.length_append] at hf
    rw [encodeAll, List.length_cons, readItems, List.append_assoc,
      encode_read reply fuel _ (by omega), Option.bind_some,
      encodeAll_read replies fuel rest (by omega)]
    rfl

end

theorem readStream_encodeAll (replies : List Reply) (n : ℕ) (hn : (encodeAll replies).length ≤ n) :
    readStream n (encodeAll replies) = some (meanings replies) := by
  induction replies generalizing n with
  | nil => cases n <;> rfl
  | cons reply replies ih =>
    have hpos := encode_pos reply
    rw [encodeAll, List.length_append] at hn
    obtain ⟨n,rfl⟩ : ∃ m, n = m+1 := ⟨n-1,by omega⟩
    have hread := encode_read reply (encode reply++encodeAll replies).length (encodeAll replies)
      (by rw [List.length_append]; omega)
    rw [encodeAll]
    cases hform : encode reply++encodeAll replies with
    | nil =>
      rw [List.append_eq_nil_iff] at hform
      rw [hform.1] at hpos
      cases hpos
    | cons ch bytes =>
      rw [hform] at hread
      rw [readStream, hread, Option.bind_some, ih n (by omega)]
      rfl

/-! The in-place writers over `Size`. -/

/-- Subtraction of two values of type `Size`. -/
def sizeSub (a b : ℕ) : ℕ := (a+2^64-b)%2^64

theorem sizeSub_exact (a b : ℕ) (ha : a < 2^64) (hb : b ≤ a) : sizeSub a b = a-b := by
  unfold sizeSub
  omega

/-- The state that a writer leaves: its answer, the memory and the length. -/
abbrev Written := Bool × Memory × ℕ

def writeArray (destination : Memory) (base capacity length count responseMax : ℕ) : Written :=
  if capacity < length ∨ responseMax < length then (false,destination,length)
  else
    let header := arrayHeader count
    if sizeSub capacity length < header.length ∨ sizeSub responseMax length < header.length then
      (false,destination,length)
    else (true,write destination (base+length) header,length+header.length)

def remainingSize (capacity length responseMax : ℕ) : ℕ :=
  if sizeSub responseMax length < sizeSub capacity length then sizeSub responseMax length
  else sizeSub capacity length

def writeBulk (destination : Memory) (base capacity length : ℕ) (value : Bytes)
    (responseMax : ℕ) : Written :=
  if capacity < length ∨ responseMax < length then (false,destination,length)
  else
    let header := bulkHeader value.length
    let remaining := remainingSize capacity length responseMax
    if remaining < header.length ∨ sizeSub remaining header.length < 2 ∨
        sizeSub (sizeSub remaining header.length) 2 < value.length then (false,destination,length)
    else
      let destination := write destination (base+length) header
      let destination := write destination (base+length+header.length) value
      (true,write destination (base+length+header.length+value.length) crlf,
        length+(header.length+value.length+2))

def writeNull (destination : Memory) (base capacity length responseMax : ℕ) : Written :=
  if capacity < length ∨ responseMax < length then (false,destination,length)
  else if remainingSize capacity length responseMax < respNull.length then
    (false,destination,length)
  else (true,write destination (base+length) respNull,length+respNull.length)

/-- The bytes are appended when both bounds leave room for them, and nothing happens otherwise. -/
def appendIfFits (destination : Memory) (base capacity length responseMax : ℕ) (bytes : Bytes) :
    Written :=
  if length+bytes.length ≤ capacity ∧ length+bytes.length ≤ responseMax then
    (true,write destination (base+length) bytes,length+bytes.length)
  else (false,destination,length)

variable (destination : Memory) (base capacity length responseMax : ℕ)

theorem writeArray_exact (count : ℕ) (hc : capacity < 2^64) (hr : responseMax < 2^64)
    (hlc : length ≤ capacity) (hlr : length ≤ responseMax) :
    writeArray destination base capacity length count responseMax =
      appendIfFits destination base capacity length responseMax (arrayHeader count) := by
  unfold writeArray appendIfFits
  rw [if_neg (by omega), sizeSub_exact capacity length hc hlc,
    sizeSub_exact responseMax length hr hlr]
  simp only
  by_cases h : length+(arrayHeader count).length ≤ capacity ∧
      length+(arrayHeader count).length ≤ responseMax
  · rw [if_pos h, if_neg (by omega)]
  · rw [if_neg h, if_pos (by omega)]

theorem remainingSize_exact (hc : capacity < 2^64) (hr : responseMax < 2^64)
    (hlc : length ≤ capacity) (hlr : length ≤ responseMax) :
    remainingSize capacity length responseMax = min (capacity-length) (responseMax-length) := by
  rw [remainingSize, sizeSub_exact capacity length hc hlc, sizeSub_exact responseMax length hr hlr]
  split <;> omega

theorem writeNull_exact (hc : capacity < 2^64) (hr : responseMax < 2^64)
    (hlc : length ≤ capacity) (hlr : length ≤ responseMax) :
    writeNull destination base capacity length responseMax =
      appendIfFits destination base capacity length responseMax respNull := by
  unfold writeNull appendIfFits
  rw [if_neg (by omega), remainingSize_exact capacity length responseMax hc hr hlc hlr]
  by_cases h : length+respNull.length ≤ capacity ∧ length+respNull.length ≤ responseMax
  · rw [if_pos h, if_neg (by omega)]
  · rw [if_neg h, if_pos (by omega)]

theorem writeBulk_exact (value : Bytes) (hc : capacity < 2^64) (hr : responseMax < 2^64)
    (hlc : length ≤ capacity) (hlr : length ≤ responseMax) :
    writeBulk destination base capacity length value responseMax =
      appendIfFits destination base capacity length responseMax (respBulk value) := by
  have hlen : (respBulk value).length = (bulkHeader value.length).length+value.length+2 := by
    simp [respBulk, Nat.add_assoc]
  have hmin := remainingSize_exact capacity length responseMax hc hr hlc hlr
  -- each subtraction is reached only when the test before it has shown that it is exact
  have hguard : (remainingSize capacity length responseMax < (bulkHeader value.length).length ∨
      sizeSub (remainingSize capacity length responseMax) (bulkHeader value.length).length < 2 ∨
      sizeSub (sizeSub (remainingSize capacity length responseMax)
        (bulkHeader value.length).length) 2 < value.length) ↔
      ¬(length+(respBulk value).length ≤ capacity ∧
        length+(respBulk value).length ≤ responseMax) := by
    by_cases h1 : remainingSize capacity length responseMax < (bulkHeader value.length).length
    · simp only [h1, true_or, true_iff]
      omega
    have hs1 := sizeSub_exact (remainingSize capacity length responseMax)
      (bulkHeader value.length).length (by omega) (by omega)
    by_cases h2 : remainingSize capacity length responseMax-(bulkHeader value.length).length < 2
    · rw [hs1]
      simp only [h2, true_or, or_true, true_iff]
      omega
    rw [hs1, sizeSub_exact _ 2 (by omega) (by omega)]
    omega
  unfold writeBulk appendIfFits
  rw [if_neg (by omega)]
  simp only
  by_cases h : length+(respBulk value).length ≤ capacity ∧
      length+(respBulk value).length ≤ responseMax
  · have hwrite : write (write (write destination (base+length) (bulkHeader value.length))
        (base+length+(bulkHeader value.length).length) value)
        (base+length+(bulkHeader value.length).length+value.length) crlf =
          write destination (base+length) (respBulk value) := by
      rw [write_append, write_append, respBulk, List.append_assoc]
    rw [if_pos h, if_neg (hguard.not.mpr (not_not.mpr h)), hwrite, hlen]
  · rw [if_neg h, if_pos (hguard.mpr h)]

/-- Reply framing: every reply is one value to the strict reader, a stream of replies reads back
as their sequence, and the bounded writers append exactly the encoded bytes or do nothing. -/
theorem reply_framing :
    (∀ reply rest, readValue (encode reply++rest).length (encode reply++rest) =
      some (meaning reply,rest)) ∧
    (∀ replies, readReplies (encodeAll replies) = some (meanings replies)) ∧
    ∀ destination base capacity length responseMax, capacity < 2^64 → responseMax < 2^64 →
      length ≤ capacity → length ≤ responseMax →
      (∀ count, writeArray destination base capacity length count responseMax =
        appendIfFits destination base capacity length responseMax (arrayHeader count)) ∧
      (∀ value, writeBulk destination base capacity length value responseMax =
        appendIfFits destination base capacity length responseMax (encode (.bulk value))) ∧
      writeNull destination base capacity length responseMax =
        appendIfFits destination base capacity length responseMax (encode .null) := by
  refine ⟨fun reply rest => ?_,fun replies => ?_,
    fun destination base capacity length responseMax hc hr hlc hlr => ⟨fun count => ?_,
      fun value => ?_,?_⟩⟩
  · exact encode_read reply _ rest (by rw [List.length_append]; omega)
  · exact readStream_encodeAll replies _ (Nat.le_refl _)
  · exact writeArray_exact destination base capacity length responseMax count hc hr hlc hlr
  · exact writeBulk_exact destination base capacity length responseMax value hc hr hlc hlr
  · exact writeNull_exact destination base capacity length responseMax hc hr hlc hlr

def sampleReplies : List Reply :=
  [.simple [79,75],.error [97,13,10,43,79,75],.array [.bulk [13,10],.null,.integer (-9)]]

theorem sample_framing : readReplies (encodeAll sampleReplies) = some (meanings sampleReplies) ∧
    writeNull (fun _ => 7) 100 8 3 8 = appendIfFits (fun _ => 7) 100 8 3 8 respNull :=
  ⟨reply_framing.2.1 sampleReplies,
    (reply_framing.2.2 (fun _ => 7) 100 8 3 8 (by decide) (by decide) (by decide) (by decide)).2.2⟩

end PgLocalCache.RespReplies
