import PgLocalCache.ByteMemory
import PgLocalCache.PrefixCode

/-!
# Replies of resp.c

The allocating encoders return the bytes of one reply. The in-place writers add
to a buffer that starts at `base` and holds `length` bytes already, within its
capacity and a limit on the whole reply; `none` is their `false`, and the buffer
is written only after every check has passed.
-/

namespace PgLocalCache.RespWriter

open ByteMemory PrefixCode

def responseValueMax : ℕ := 64*1024
def responseMax : ℕ := responseValueMax+1024

def plusByte : UInt8 := 43
def minusByte : UInt8 := 45
def colonByte : UInt8 := 58
def dollarByte : UInt8 := 36
def starByte : UInt8 := 42
def spaceByte : UInt8 := 32
def crlf : Bytes := [13,10]

/-- The bytes of an ASCII text of the source. -/
def ascii (s : String) : Bytes := s.toList.map (fun c => UInt8.ofNat c.toNat)

def lineResponse (kind : UInt8) (message : Bytes) : Bytes :=
  kind::message.map (fun ch => if ch = 13 ∨ ch = 10 then spaceByte else ch)++crlf

def respSimple (message : Bytes) : Bytes := lineResponse plusByte message

def respError (message : Bytes) : Bytes := lineResponse minusByte message

def respInteger (value : ℤ) : Bytes :=
  colonByte::(if value < 0 then minusByte::decimal value.natAbs else decimal value.natAbs)++crlf

def bulkHeader (length : ℕ) : Bytes := dollarByte::decimal length++crlf

def respBulk (value : Bytes) : Bytes := bulkHeader value.length++value++crlf

def respNull : Bytes := [dollarByte,minusByte,49]++crlf

def arrayHeader (count : ℕ) : Bytes := starByte::decimal count++crlf

/-! The in-place writers. -/

def respWriteArray (destination : Memory) (base capacity length count limit : ℕ) :
    Option (Memory × ℕ) :=
  if capacity < length ∨ limit < length then none
  else if capacity-length < (arrayHeader count).length ∨
      limit-length < (arrayHeader count).length then none
  else some (write destination (base+length) (arrayHeader count),
    length+(arrayHeader count).length)

def respWriteBulk (destination : Memory) (base capacity length : ℕ) (value : Bytes)
    (limit : ℕ) : Option (Memory × ℕ) :=
  if capacity < length ∨ limit < length then none
  else
    let header := bulkHeader value.length
    let remaining := min (capacity-length) (limit-length)
    if remaining < header.length ∨ remaining-header.length < 2 ∨
        remaining-header.length-2 < value.length then none
    else some (write destination (base+length) (header++value++crlf),
      length+(header.length+value.length+2))

def respWriteNull (destination : Memory) (base capacity length limit : ℕ) :
    Option (Memory × ℕ) :=
  if capacity < length ∨ limit < length then none
  else if min (capacity-length) (limit-length) < respNull.length then none
  else some (write destination (base+length) respNull,length+respNull.length)

/-! Lengths. -/

@[simp] theorem crlf_length : crlf.length = 2 := rfl

@[simp] theorem respNull_length : respNull.length = 5 := rfl

@[simp] theorem arrayHeader_length (count : ℕ) :
    (arrayHeader count).length = 1+(decimal count).length+2 := by
  simp [arrayHeader]
  omega

@[simp] theorem respBulk_length (value : Bytes) :
    (respBulk value).length = 1+(decimal value.length).length+2+value.length+2 := by
  simp [respBulk, bulkHeader]
  omega

/-! What a successful write adds. -/

/-- The buffer that starts at `base` holds `bytes` behind its first `length` bytes, and no
other address has changed. -/
structure Appended (destination destination' : Memory) (base length : ℕ) (bytes : Bytes) :
    Prop where
  held : read destination' (base+length) bytes.length = bytes
  kept : ∀ a, a < base+length → destination' a = destination a

variable (destination : Memory)

theorem appended_write (base length : ℕ) (bytes : Bytes) :
    Appended destination (write destination (base+length) bytes) base length bytes :=
  ⟨read_write_same _ _ _,fun a h => write_outside _ _ _ a (Or.inl h)⟩

theorem appended_trans (m0 m1 m2 : Memory) (base length : ℕ) (b c : Bytes)
    (h : Appended m0 m1 base length b) (h' : Appended m1 m2 base (length+b.length) c) :
    Appended m0 m2 base length (b++c) := by
  refine ⟨?_,fun a ha => ?_⟩
  · have hb : read m2 (base+length) b.length = read m1 (base+length) b.length := by
      apply read_congr
      intro a _ ha
      exact h'.kept a (by omega)
    rw [List.length_append, read_add, hb, h.held, Nat.add_assoc, h'.held]
  · rw [h'.kept a (by omega), h.kept a ha]

theorem respWriteArray_some (base capacity length count limit : ℕ) (out : Memory × ℕ)
    (h : respWriteArray destination base capacity length count limit = some out) :
    Appended destination out.1 base length (arrayHeader count) ∧
      out.2 = length+(arrayHeader count).length ∧ out.2 ≤ capacity ∧ out.2 ≤ limit := by
  unfold respWriteArray at h
  split at h
  · cases h
  · split at h
    · cases h
    · cases h
      exact ⟨appended_write _ _ _ _,rfl,by simp only; omega,by simp only; omega⟩

theorem respWriteBulk_some (base capacity length : ℕ) (value : Bytes) (limit : ℕ) (out : Memory × ℕ)
    (h : respWriteBulk destination base capacity length value limit = some out) :
    Appended destination out.1 base length (respBulk value) ∧
      out.2 = length+(respBulk value).length ∧ out.2 ≤ capacity ∧ out.2 ≤ limit := by
  unfold respWriteBulk at h
  split at h
  · cases h
  · simp only at h
    split at h
    · cases h
    · cases h
      have hlen : (respBulk value).length = (bulkHeader value.length).length+value.length+2 := by
        simp [respBulk, Nat.add_assoc]
      exact ⟨appended_write _ _ _ _,by simp only; omega,by simp only; omega,by simp only; omega⟩

theorem respWriteNull_some (base capacity length limit : ℕ) (out : Memory × ℕ)
    (h : respWriteNull destination base capacity length limit = some out) :
    Appended destination out.1 base length respNull ∧
      out.2 = length+respNull.length ∧ out.2 ≤ capacity ∧ out.2 ≤ limit := by
  unfold respWriteNull at h
  split at h
  · cases h
  · split at h
    · cases h
    · cases h
      exact ⟨appended_write _ _ _ _,rfl,by simp only; omega,by simp only; omega⟩

/-! The bounds are exact. -/

theorem appended_nil (base length : ℕ) :
    Appended destination destination base length [] :=
  ⟨rfl,fun _ _ => rfl⟩

theorem respWriteArray_exact (base capacity length count limit : ℕ) (hc : length ≤ capacity)
    (hl : length ≤ limit) :
    respWriteArray destination base capacity length count limit =
      if length+(arrayHeader count).length ≤ min capacity limit then
        some (write destination (base+length) (arrayHeader count),
          length+(arrayHeader count).length)
      else none := by
  unfold respWriteArray
  rw [if_neg (by omega)]
  by_cases h : length+(arrayHeader count).length ≤ min capacity limit
  · rw [if_pos h, if_neg (by omega)]
  · rw [if_neg h, if_pos (by omega)]

theorem respWriteBulk_exact (base capacity length : ℕ) (value : Bytes) (limit : ℕ)
    (hc : length ≤ capacity) (hl : length ≤ limit) :
    respWriteBulk destination base capacity length value limit =
      if length+(respBulk value).length ≤ min capacity limit then
        some (write destination (base+length) (respBulk value),length+(respBulk value).length)
      else none := by
  have hlen : (respBulk value).length = (bulkHeader value.length).length+value.length+2 := by
    simp [respBulk, Nat.add_assoc]
  unfold respWriteBulk
  rw [if_neg (by omega)]
  simp only
  by_cases h : length+(respBulk value).length ≤ min capacity limit
  · rw [if_pos h, if_neg (by omega), hlen]
    rfl
  · rw [if_neg h, if_pos (by omega)]

theorem respWriteArray_fits (base capacity length count limit : ℕ)
    (hc : length+(arrayHeader count).length ≤ capacity)
    (hl : length+(arrayHeader count).length ≤ limit) :
    respWriteArray destination base capacity length count limit =
      some (write destination (base+length) (arrayHeader count),
        length+(arrayHeader count).length) := by
  rw [respWriteArray_exact _ _ _ _ _ _ (by omega) (by omega), if_pos (by omega)]

theorem respWriteBulk_fits (base capacity length : ℕ) (value : Bytes) (limit : ℕ)
    (hc : length+(respBulk value).length ≤ capacity) (hl : length+(respBulk value).length ≤ limit) :
    respWriteBulk destination base capacity length value limit =
      some (write destination (base+length) (respBulk value),length+(respBulk value).length) := by
  rw [respWriteBulk_exact _ _ _ _ _ _ (by omega) (by omega), if_pos (by omega)]

example : respError (ascii "a\r\nb") = ascii "-a  b\r\n" ∧
    respBulk (ascii "hey") = ascii "$3\r\nhey\r\n" ∧ respNull = ascii "$-1\r\n" ∧
    respInteger (-42) = ascii ":-42\r\n" := by decide

end PgLocalCache.RespWriter
