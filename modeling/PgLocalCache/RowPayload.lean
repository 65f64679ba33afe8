import PgLocalCache.CacheState

/-!
# Row payloads of row_payload.c

A cached row is its JSON text behind a header of 36 bytes that names the row type
and a fingerprint of its descriptor, with all integers in big-endian order. The
checksum is taken over the payload with its own field set to zero; CRC32C is a
parameter. A payload that does not fit the mapping it is read through is refused.
-/

namespace PgLocalCache.RowPayload

open CacheState

def payloadMagic : ℕ := 0x50474c43
def payloadVersion : ℕ := 2
def headerSize : ℕ := 36
def flagHasJson : ℕ := 1
def maxTupleAttributes : ℕ := 1664

def openBrace : UInt8 := 123
def closeBrace : UInt8 := 125

structure RowDescriptor where
  typeOid : ℕ
  typmod : ℤ
  natts : ℕ
  fingerprint : ℕ
  deriving DecidableEq, Repr

/-- `pglc_row_put_u16`, `_u32` and `_u64`: the low `width` bytes of a value, first one highest. -/
def rowPut : ℕ → ℕ → Bytes
  | 0, _ => []
  | width+1, value => rowPut width (value/256)++[UInt8.ofNat value]

/-- `pglc_row_get_u16`, `_u32` and `_u64` at an offset of the payload. -/
def rowGet (payload : Bytes) (offset width : ℕ) : ℕ :=
  ((payload.drop offset).take width).foldl (fun value byte => value*256+byte.toNat) 0

def unsigned32 (value : ℤ) : ℕ := (value%2^32).toNat

def signed32 (value : ℕ) : ℤ := if value < 2^31 then value else value-2^32

def payloadChecksum (crc32c : Bytes → ℕ) (payload : Bytes) : ℕ :=
  crc32c (payload.take 32++[0,0,0,0]++payload.drop headerSize)

def payloadEncode (crc32c : Bytes → ℕ) (row : RowDescriptor) (json : Bytes) (capacity : ℕ) :
    Option Bytes :=
  let limit := min capacity valueMax
  if row.typeOid = 0 ∨ maxTupleAttributes < row.natts ∨ row.fingerprint = 0 ∨
      limit < headerSize ∨ json.length < 2 ∨ limit-headerSize < json.length then none
  else if json.head? ≠ some openBrace ∨ json.getLast? ≠ some closeBrace then none
  else
    let front := rowPut 4 payloadMagic++rowPut 2 payloadVersion++rowPut 2 flagHasJson++
      rowPut 4 row.typeOid++rowPut 4 (unsigned32 row.typmod)++rowPut 4 row.natts++
      rowPut 8 row.fingerprint++rowPut 4 json.length
    let checksum := payloadChecksum crc32c (front++[0,0,0,0]++json)
    some (front++rowPut 4 checksum++json)

def payloadGetJsonChecked (crc32c : Bytes → ℕ) (row : RowDescriptor) (payload : Bytes) :
    Option Bytes :=
  if payload.length < headerSize ∨ valueMax < payload.length ∨ row.fingerprint = 0 ∨
      rowGet payload 0 4 ≠ payloadMagic ∨ rowGet payload 4 2 ≠ payloadVersion then none
  else if rowGet payload 6 2 ≠ flagHasJson ∨ rowGet payload 8 4 ≠ row.typeOid ∨
      signed32 (rowGet payload 12 4) ≠ row.typmod ∨ rowGet payload 16 4 ≠ row.natts ∨
      rowGet payload 20 8 ≠ row.fingerprint then none
  else
    let storedJsonLen := rowGet payload 28 4
    if storedJsonLen < 2 ∨ storedJsonLen ≠ payload.length-headerSize ∨
        payload[headerSize]? ≠ some openBrace ∨ payload[payload.length-1]? ≠ some closeBrace ∨
        rowGet payload 32 4 ≠ payloadChecksum crc32c payload then none
    else some ((payload.drop headerSize).take storedJsonLen)

theorem payloadGetJsonChecked_some (crc32c : Bytes → ℕ) (row : RowDescriptor)
    (payload json : Bytes) (h : payloadGetJsonChecked crc32c row payload = some json) :
    json = payload.drop headerSize ∧ json.length ≤ valueMax := by
  unfold payloadGetJsonChecked at h
  split at h
  · cases h
  · split at h
    · cases h
    · simp only at h
      split at h
      · cases h
      · rename_i h1 h2 h3
        have hlen : rowGet payload 28 4 = payload.length-headerSize := by
          by_contra hne
          exact h3 (Or.inr (Or.inl hne))
        have hjson : json = payload.drop headerSize := by
          cases h
          rw [hlen]
          exact List.take_of_length_le (by simp)
        constructor
        · exact hjson
        · rw [hjson, List.length_drop]
          omega

/-! Big-endian fields. -/

def fieldValue (bytes : Bytes) : ℕ := bytes.foldl (fun value byte => value*256+byte.toNat) 0

theorem fieldValue_snoc (bytes : Bytes) (byte : UInt8) :
    fieldValue (bytes++[byte]) = fieldValue bytes*256+byte.toNat := by
  simp [fieldValue, List.foldl_append]

@[simp] theorem rowPut_length (width value : ℕ) : (rowPut width value).length = width := by
  induction width generalizing value with
  | zero => rfl
  | succ width ih => simp [rowPut, ih]

theorem fieldValue_rowPut (width value : ℕ) :
    fieldValue (rowPut width value) = value%256^width := by
  induction width generalizing value with
  | zero => simp [rowPut, fieldValue, Nat.mod_one]
  | succ width ih =>
    have hsplit : value%256^(width+1) = value%256+256*(value/256%256^width) := by
      rw [pow_succ, Nat.mul_comm (256^width), Nat.mod_mul]
    rw [rowPut, fieldValue_snoc, ih, UInt8.toNat_ofNat', hsplit]
    omega

theorem rowPut_fieldValue (bytes : Bytes) : rowPut bytes.length (fieldValue bytes) = bytes := by
  induction bytes using List.reverseRecOn with
  | nil => rfl
  | append_singleton bytes byte ih =>
    have hb := byte.toNat_lt
    have hdiv : (fieldValue bytes*256+byte.toNat)/256 = fieldValue bytes := by omega
    have hlow : UInt8.ofNat (fieldValue bytes*256+byte.toNat) = byte := by
      apply UInt8.toNat_inj.mp
      rw [UInt8.toNat_ofNat']
      omega
    rw [List.length_append, List.length_singleton, rowPut, fieldValue_snoc, hdiv, ih, hlow]

theorem rowGet_here (width value : ℕ) (rest : Bytes) (h : value < 256^width) :
    rowGet (rowPut width value++rest) 0 width = value := by
  have htake : ((rowPut width value++rest).drop 0).take width = rowPut width value := by
    rw [List.drop_zero]
    exact List.take_left' (rowPut_length width value)
  calc rowGet (rowPut width value++rest) 0 width = fieldValue (rowPut width value) := by
        rw [rowGet, htake, fieldValue]
    _ = value := by rw [fieldValue_rowPut, Nat.mod_eq_of_lt h]

theorem rowGet_skip (width value offset n : ℕ) (rest : Bytes) (h : width ≤ offset) :
    rowGet (rowPut width value++rest) offset n = rowGet rest (offset-width) n := by
  have hdrop : (rowPut width value++rest).drop offset = rest.drop (offset-width) := by
    rw [List.drop_append, List.drop_of_length_le (by simpa using h), List.nil_append,
      rowPut_length]
  rw [rowGet, rowGet, hdrop]

theorem rowPut_rowGet (payload : Bytes) (offset width : ℕ) (h : offset+width ≤ payload.length) :
    rowPut width (rowGet payload offset width) = (payload.drop offset).take width := by
  have hlen : ((payload.drop offset).take width).length = width := by
    rw [List.length_take, List.length_drop]
    omega
  have hback := rowPut_fieldValue ((payload.drop offset).take width)
  rw [hlen] at hback
  exact hback

theorem fields_join (payload : Bytes) (offset width width' : ℕ) :
    (payload.drop offset).take width++(payload.drop (offset+width)).take width' =
      (payload.drop offset).take (width+width') := by
  rw [List.take_add, List.drop_drop]

theorem signed32_unsigned32 (value : ℤ) (h : -2^31 ≤ value) (h' : value < 2^31) :
    signed32 (unsigned32 value) = value := by
  unfold signed32 unsigned32
  omega

theorem unsigned32_lt (value : ℤ) : unsigned32 value < 256^4 := by
  unfold unsigned32
  omega

theorem unsigned32_signed32 (value : ℕ) (h : value < 2^32) :
    unsigned32 (signed32 value) = value := by
  unfold signed32 unsigned32
  split <;> omega

theorem rowGet_lt (payload : Bytes) (offset width : ℕ) (h : offset+width ≤ payload.length) :
    rowGet payload offset width < 256^width := by
  have hput := congrArg fieldValue (rowPut_rowGet payload offset width h)
  have hself : fieldValue ((payload.drop offset).take width) = rowGet payload offset width := rfl
  rw [fieldValue_rowPut, hself] at hput
  rw [← hput]
  exact Nat.mod_lt _ (by positivity)

/-! The codec. -/

/-- The parameters that the source's types and checks admit. -/
structure Admissible (row : RowDescriptor) : Prop where
  typeOid : 0 < row.typeOid ∧ row.typeOid < 2^32
  typmod : -2^31 ≤ row.typmod ∧ row.typmod < 2^31
  natts : row.natts ≤ maxTupleAttributes
  fingerprint : 0 < row.fingerprint ∧ row.fingerprint < 2^64

def front (row : RowDescriptor) (jsonLen : ℕ) : Bytes :=
  rowPut 4 payloadMagic++rowPut 2 payloadVersion++rowPut 2 flagHasJson++
    rowPut 4 row.typeOid++rowPut 4 (unsigned32 row.typmod)++rowPut 4 row.natts++
    rowPut 8 row.fingerprint++rowPut 4 jsonLen

def Braced (json : Bytes) : Prop :=
  2 ≤ json.length ∧ json.head? = some openBrace ∧ json.getLast? = some closeBrace

variable {crc32c : Bytes → ℕ} {row : RowDescriptor} {json payload : Bytes}

theorem front_length (jsonLen : ℕ) : (front row jsonLen).length = 32 := by
  simp [front]

theorem checksum_field (head field : Bytes) (hh : head.length = 32) (hf : field.length = 4)
    (json : Bytes) :
    payloadChecksum crc32c (head++field++json) = crc32c (head++[0,0,0,0]++json) := by
  have htake : (head++field++json).take 32 = head := by
    rw [List.append_assoc]
    exact List.take_left' hh
  have hdrop : (head++field++json).drop headerSize = json :=
    List.drop_left' (by rw [List.length_append, hh, hf]; rfl)
  rw [payloadChecksum, htake, hdrop]

theorem payloadEncode_some (hv : Admissible row) (capacity : ℕ) :
    payloadEncode crc32c row json capacity = some payload ↔
      Braced json ∧ headerSize+json.length ≤ min capacity valueMax ∧
      payload = front row json.length++
        rowPut 4 (crc32c (front row json.length++[0,0,0,0]++json))++json := by
  have h1 := hv.typeOid
  have h2 := hv.natts
  have h3 := hv.fingerprint
  have hsum : payloadChecksum crc32c (front row json.length++[0,0,0,0]++json) =
      crc32c (front row json.length++[0,0,0,0]++json) :=
    checksum_field _ _ (front_length _) rfl json
  unfold payloadEncode Braced
  by_cases hfit : 2 ≤ json.length ∧ headerSize+json.length ≤ min capacity valueMax
  · rw [if_neg (by omega)]
    by_cases hshape : json.head? = some openBrace ∧ json.getLast? = some closeBrace
    · rw [if_neg (by simp [hshape])]
      simp only [hfit, hshape, true_and, and_true, Option.some.injEq]
      rw [← hsum]
      exact eq_comm
    · rw [if_pos (not_and_or.mp hshape)]
      simp only [reduceCtorEq, false_iff]
      exact fun h => hshape h.1.2
  · rw [if_pos (by omega)]
    simp only [reduceCtorEq, false_iff]
    exact fun h => hfit ⟨h.1.1,h.2.1⟩

theorem front_read (hlen : headerSize ≤ payload.length)
    (hm : rowGet payload 0 4 = payloadMagic) (hver : rowGet payload 4 2 = payloadVersion)
    (hflag : rowGet payload 6 2 = flagHasJson) (hoid : rowGet payload 8 4 = row.typeOid)
    (htyp : signed32 (rowGet payload 12 4) = row.typmod) (hn : rowGet payload 16 4 = row.natts)
    (hfp : rowGet payload 20 8 = row.fingerprint) :
    front row (rowGet payload 28 4) = payload.take 32 := by
  have hl : 36 ≤ payload.length := hlen
  have hput := rowPut_rowGet payload
  have hu : unsigned32 row.typmod = rowGet payload 12 4 := by
    rw [← htyp]
    exact unsigned32_signed32 _ (by simpa using rowGet_lt payload 12 4 (by omega))
  unfold front
  rw [← hm, ← hver, ← hflag, ← hoid, hu, ← hn, ← hfp, hput 0 4 (by omega), hput 4 2 (by omega),
    hput 6 2 (by omega), hput 8 4 (by omega), hput 12 4 (by omega), hput 16 4 (by omega),
    hput 20 8 (by omega), hput 28 4 (by omega)]
  rw [fields_join payload 0 4 2, fields_join payload 0 6 2, fields_join payload 0 8 4,
    fields_join payload 0 12 4, fields_join payload 0 16 4, fields_join payload 0 20 8,
    fields_join payload 0 28 4, List.drop_zero]

theorem braced_drop (h : headerSize+2 ≤ payload.length) :
    Braced (payload.drop headerSize) ↔
      payload[headerSize]? = some openBrace ∧ payload[payload.length-1]? = some closeBrace := by
  have hlen : 2 ≤ (payload.drop headerSize).length := by
    rw [List.length_drop]
    omega
  have hlast : (payload.drop headerSize).getLast? = payload[payload.length-1]? := by
    rw [List.getLast?_drop, if_neg (by omega), List.getLast?_eq_getElem?]
  rw [Braced, hlast, List.head?_drop]
  exact ⟨fun hb => hb.2,fun hb => ⟨hlen,hb⟩⟩

/-- What the checks of the decoder say about the payload. -/
structure Checked (crc32c : Bytes → ℕ) (row : RowDescriptor) (payload json : Bytes) : Prop where
  least : headerSize ≤ payload.length
  most : payload.length ≤ valueMax
  magic : rowGet payload 0 4 = payloadMagic
  version : rowGet payload 4 2 = payloadVersion
  flags : rowGet payload 6 2 = flagHasJson
  typeOid : rowGet payload 8 4 = row.typeOid
  typmod : signed32 (rowGet payload 12 4) = row.typmod
  natts : rowGet payload 16 4 = row.natts
  fingerprint : rowGet payload 20 8 = row.fingerprint
  jsonLen : rowGet payload 28 4 = json.length
  checksum : rowGet payload 32 4 = payloadChecksum crc32c payload
  text : json = payload.drop headerSize
  braced : Braced json

theorem payloadGetJsonChecked_checked (h : payloadGetJsonChecked crc32c row payload = some json) :
    Checked crc32c row payload json := by
  obtain ⟨hjson,_⟩ := payloadGetJsonChecked_some crc32c row payload json h
  unfold payloadGetJsonChecked at h
  split at h
  · cases h
  rename_i h1
  split at h
  · cases h
  rename_i h2
  simp only at h
  split at h
  · cases h
  rename_i h3
  simp only [not_or, not_not, Nat.not_lt] at h1 h2 h3
  have hlen : json.length = payload.length-headerSize := by rw [hjson, List.length_drop]
  refine ⟨h1.1,h1.2.1,h1.2.2.2.1,h1.2.2.2.2,h2.1,h2.2.1,h2.2.2.1,h2.2.2.2.1,h2.2.2.2.2,
    h3.2.1.trans hlen.symm,h3.2.2.2.2,hjson,?_⟩
  rw [hjson]
  exact (braced_drop (by omega)).mpr ⟨h3.2.2.1,h3.2.2.2.1⟩

theorem checked_payloadGetJsonChecked (hv : Admissible row)
    (h : Checked crc32c row payload json) :
    payloadGetJsonChecked crc32c row payload = some json := by
  have hlen : json.length = payload.length-headerSize := by rw [h.text, List.length_drop]
  have htwo := h.braced.1
  have hleast := h.least
  have hbraces := (braced_drop (by omega)).mp (h.text ▸ h.braced)
  have hv' := hv.fingerprint
  have hstored := h.jsonLen
  have hmost := h.most
  unfold payloadGetJsonChecked
  rw [if_neg (by
    simp only [h.magic, h.version, ne_eq, not_true, or_false]
    omega), if_neg (by simp [h.flags, h.typeOid, h.typmod, h.natts, h.fingerprint])]
  simp only
  rw [if_neg (by
    simp only [hbraces, h.checksum, ne_eq, not_true, or_false]
    omega), hstored, hlen]
  rw [h.text, List.take_of_length_le (by simp)]

theorem encoded_fields (hv : Admissible row) (checksum : ℕ) (hlen : json.length < 2^32)
    (hsum : checksum < 2^32) (hp : payload = front row json.length++rowPut 4 checksum++json) :
    rowGet payload 0 4 = payloadMagic ∧ rowGet payload 4 2 = payloadVersion ∧
      rowGet payload 6 2 = flagHasJson ∧ rowGet payload 8 4 = row.typeOid ∧
      rowGet payload 12 4 = unsigned32 row.typmod ∧ rowGet payload 16 4 = row.natts ∧
      rowGet payload 20 8 = row.fingerprint ∧ rowGet payload 28 4 = json.length ∧
      rowGet payload 32 4 = checksum := by
  have h1 := hv.typeOid
  have h2 := unsigned32_lt row.typmod
  have h3 := hv.natts
  have h4 := hv.fingerprint
  unfold maxTupleAttributes at h3
  simp only [hp, front, List.append_assoc]
  refine ⟨rowGet_here _ _ _ (by decide),?_,?_,?_,?_,?_,?_,?_,?_⟩
  all_goals
    simp (disch := decide) only [rowGet_skip, Nat.reduceSub]
    refine rowGet_here _ _ _ ?_
    first | decide | omega

theorem encoded_checked (hv : Admissible row) (hcrc : ∀ bytes, crc32c bytes < 2^32)
    (capacity : ℕ) (h : payloadEncode crc32c row json capacity = some payload) :
    Checked crc32c row payload json := by
  obtain ⟨hb,hfit,hp⟩ := (payloadEncode_some hv capacity).mp h
  have hmax : headerSize+json.length ≤ valueMax := le_trans hfit (Nat.min_le_right _ _)
  have hsmall : json.length < 2^32 := by
    have : valueMax < 2^32 := by decide
    omega
  obtain ⟨f1,f2,f3,f4,f5,f6,f7,f8,f9⟩ := encoded_fields hv _ hsmall (hcrc _) hp
  have hlen : payload.length = headerSize+json.length := by
    rw [hp, List.length_append, List.length_append, front_length, rowPut_length]
    rfl
  have htext : payload.drop headerSize = json := by
    rw [hp]
    exact List.drop_left' (by rw [List.length_append, front_length, rowPut_length]; rfl)
  refine ⟨by omega,by omega,f1,f2,f3,f4,?_,f6,f7,f8,?_,htext.symm,hb⟩
  · rw [f5, signed32_unsigned32 _ hv.typmod.1 hv.typmod.2]
  · rw [f9, hp, checksum_field _ _ (front_length _) (rowPut_length _ _)]

theorem checked_encoded (hv : Admissible row) (h : Checked crc32c row payload json) :
    payloadEncode crc32c row json valueMax = some payload := by
  have hl : 36 ≤ payload.length := h.least
  have hlen : json.length = payload.length-headerSize := by rw [h.text, List.length_drop]
  have hfront := front_read h.least h.magic h.version h.flags h.typeOid h.typmod h.natts
    h.fingerprint
  rw [h.jsonLen] at hfront
  have hfield : rowPut 4 (rowGet payload 32 4) = (payload.drop 32).take 4 :=
    rowPut_rowGet payload 32 4 (by omega)
  have hjoin : payload.take 32++(payload.drop 32).take 4++payload.drop 36 = payload := by
    have h36 := fields_join payload 0 32 4
    rw [List.drop_zero] at h36
    rw [h36, List.take_append_drop]
  have hmost := h.most
  refine (payloadEncode_some hv valueMax).mpr ⟨h.braced,?_,?_⟩
  · rw [Nat.min_self, hlen]
    unfold headerSize
    omega
  · have hsum : crc32c (front row json.length++[0,0,0,0]++json) = rowGet payload 32 4 := by
      rw [h.checksum, payloadChecksum, hfront, h.text]
    rw [hsum, hfield, hfront, h.text]
    exact hjoin.symm

/-- CRC32C as any function to 32-bit words. -/
def checksum32 (crc : Bytes → UInt32) (bytes : Bytes) : ℕ := (crc bytes).toNat

/-- For admissible parameters and any checksum function the decoder inverts the encoder, accepts
nothing else, and different rows and texts have different encodings. -/
theorem payload_codec_exact (crc : Bytes → UInt32) (row : RowDescriptor) (hv : Admissible row) :
    (∀ json capacity payload,
      payloadEncode (checksum32 crc) row json capacity = some payload →
        payloadGetJsonChecked (checksum32 crc) row payload = some json) ∧
    (∀ payload json, payloadGetJsonChecked (checksum32 crc) row payload = some json ↔
      json.head? = some openBrace ∧ json.getLast? = some closeBrace ∧
        ∃ capacity, payloadEncode (checksum32 crc) row json capacity = some payload) ∧
    ∀ row' json json' capacity capacity' payload, Admissible row' →
      payloadEncode (checksum32 crc) row json capacity = some payload →
      payloadEncode (checksum32 crc) row' json' capacity' = some payload →
        row = row' ∧ json = json' := by
  have hcrc : ∀ bytes, checksum32 crc bytes < 2^32 := fun bytes => (crc bytes).toNat_lt
  refine ⟨fun json capacity payload h => ?_,fun payload json => ⟨fun h => ?_,fun h => ?_⟩,
    fun row' json json' capacity capacity' payload hv' h h' => ?_⟩
  · exact checked_payloadGetJsonChecked hv (encoded_checked hv hcrc capacity h)
  · have hc := payloadGetJsonChecked_checked h
    exact ⟨hc.braced.2.1,hc.braced.2.2,valueMax,checked_encoded hv hc⟩
  · obtain ⟨_,_,capacity,he⟩ := h
    exact checked_payloadGetJsonChecked hv (encoded_checked hv hcrc capacity he)
  · have hc := encoded_checked hv hcrc capacity h
    have hc' := encoded_checked hv' hcrc capacity' h'
    refine ⟨?_,hc.text.trans hc'.text.symm⟩
    cases row
    cases row'
    simp only [RowDescriptor.mk.injEq]
    exact ⟨hc.typeOid.symm.trans hc'.typeOid,hc.typmod.symm.trans hc'.typmod,
      hc.natts.symm.trans hc'.natts,hc.fingerprint.symm.trans hc'.fingerprint⟩

def pairRow : RowDescriptor := ⟨16400,-1,2,2^63+5⟩

theorem pairRow_admissible : Admissible pairRow := by
  constructor <;> decide

theorem pair_codec_exact : Admissible pairRow ∧
    ∃ payload, payloadEncode (checksum32 (fun bytes => UInt32.ofNat (bytes.length*77))) pairRow
        [123,34,97,34,58,49,125] 8192 = some payload ∧
      payloadGetJsonChecked (checksum32 (fun bytes => UInt32.ofNat (bytes.length*77))) pairRow
        payload = some [123,34,97,34,58,49,125] :=
  ⟨pairRow_admissible,_,rfl,(payload_codec_exact (fun bytes => UInt32.ofNat (bytes.length*77))
    pairRow pairRow_admissible).1 _ 8192 _ rfl⟩

-- The shortest payload of an object text, read back through the mapping that wrote it and
-- refused through one with another fingerprint.
example : (payloadEncode List.length ⟨7,-1,2,9⟩ [123,125] 8192).bind
      (payloadGetJsonChecked List.length ⟨7,-1,2,9⟩) = some [123,125] ∧
    (payloadEncode List.length ⟨7,-1,2,9⟩ [123,125] 8192).bind
      (payloadGetJsonChecked List.length ⟨7,-1,2,8⟩) = none := by decide

end PgLocalCache.RowPayload
