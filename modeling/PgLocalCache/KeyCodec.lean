import PgLocalCache.PrefixCode
import PgLocalCache.CacheState
import Mathlib.Data.List.DropRight

/-!
# Canonical keys of key_codec.c and their routing

A canonical key is the concatenation of the rendered key components, each behind
its length. The row trigger renders integer columns itself and the reader calls
the output function of every column. A dirty record and a lookup both hash the
database, the namespace and the canonical key and take the partition from the
high bits. The hash, the Datum accessors and the output functions belong to the
server and are parameters.
-/

namespace PgLocalCache.KeyCodec

open PrefixCode CacheState

def maxKeyColumns : ℕ := 16
def namespaceMax : ℕ := 64

def colon : UInt8 := 58
def semicolon : UInt8 := 59
def space : UInt8 := 32
def minusSign : UInt8 := 45

inductive KeyType where
  | int2
  | int4
  | int8
  | other (oid : ℕ)
  deriving DecidableEq, Repr

structure DatumInts (D : Type) where
  int16 : D → ℤ
  int32 : D → ℤ
  int64 : D → ℤ

structure OutputFunction (D : Type) where
  isBpcharOut : Bool
  call : D → Bytes

structure KeyPart (D : Type) where
  value : D
  isNull : Bool
  keyType : Option KeyType
  output : OutputFunction D

variable {D : Type} (ints : DatumInts D)

/-- `pg_ltoa` and `pg_lltoa`: plain decimal with a leading minus sign. -/
def renderInteger (value : ℤ) : Bytes :=
  if value < 0 then minusSign::decimal value.natAbs else decimal value.natAbs

def render (part : KeyPart D) : Bytes :=
  match part.keyType with
  | some .int2 => renderInteger (ints.int16 part.value)
  | some .int4 => renderInteger (ints.int32 part.value)
  | some .int8 => renderInteger (ints.int64 part.value)
  | _ => part.output.call part.value

def stripSpaces (rendered : Bytes) : Bytes := rendered.rdropWhile (· == space)

/-- The bytes of one component that enter the key. -/
def component (part : KeyPart D) : Bytes :=
  if part.output.isBpcharOut then stripSpaces (render ints part) else render ints part

def encodeComponent : Bytes → Bytes := netstring colon semicolon

def canonicalLoop (capacity : ℕ) : List (KeyPart D) → Bytes → Option Bytes
  | [], destination => some destination
  | part::parts, destination =>
    if part.isNull then none
    else
      let piece := encodeComponent (component ints part)
      if keyMax ≤ piece.length ∨ keyMax-piece.length ≤ destination.length ∨
          capacity ≤ piece.length ∨ capacity-piece.length ≤ destination.length then none
      else canonicalLoop capacity parts (destination++piece)

def canonicalKeyTyped (parts : List (KeyPart D)) (capacity : ℕ) : Option Bytes :=
  if parts.length = 0 ∨ maxKeyColumns < parts.length ∨ capacity = 0 then none
  else canonicalLoop ints capacity parts []

/-! The two producers. -/

structure KeyColumn (D : Type) where
  keyType : KeyType
  output : OutputFunction D

def isIntegerType : KeyType → Bool
  | .other _ => false
  | _ => true

/-- `trigger_key_metadata` leaves the output function of an integer column unset. -/
def triggerPart (unset : D → Bytes) (column : KeyColumn D) (value : D) (isNull : Bool) :
    KeyPart D where
  value := value
  isNull := isNull
  keyType := some column.keyType
  output := if isIntegerType column.keyType then ⟨false,unset⟩ else column.output

def readerPart (column : KeyColumn D) (value : D) : KeyPart D where
  value := value
  isNull := false
  keyType := none
  output := column.output

inductive Collected where
  | key (canonical : Bytes)
  | relation
  deriving DecidableEq, Repr

def collectTupleKey (unset : D → Bytes) (row : List (KeyColumn D × D × Bool)) : Collected :=
  match canonicalKeyTyped ints (row.map (fun c => triggerPart unset c.1 c.2.1 c.2.2)) keyMax with
  | some canonical => .key canonical
  | none => .relation

def canonicalizeValues (row : List (KeyColumn D × D)) : Option Bytes :=
  canonicalKeyTyped ints (row.map (fun c => readerPart c.1 c.2)) keyMax

/-! Routing. -/

def strlcpy (s : Bytes) (size : ℕ) : Bytes := s.take (size-1)

def strnlen (s : Bytes) (size : ℕ) : ℕ := min s.length size

def cacheKeyHash64 (hashBytes : Bytes → ℕ → ℕ) (databaseOid : Bytes) (nspace key : Bytes)
    (keyLen : ℕ) : ℕ :=
  hashBytes (key.take keyLen)
    (hashBytes (nspace.take (strnlen nspace namespaceMax)) (hashBytes databaseOid 0))

def partitionBits : ℕ → ℕ → ℕ
  | 0, _ => 0
  | fuel+1, count => if 1 < count then partitionBits fuel (count/2)+1 else 0

def cachePartitionForHash (partitionCount hash : ℕ) : ℕ :=
  hash/2^(64-partitionBits 32 partitionCount)

structure Route where
  keyHash : ℕ
  partition : ℕ
  deriving DecidableEq, Repr

def routeOf (hashBytes : Bytes → ℕ → ℕ) (partitionCount : ℕ) (databaseOid nspace key : Bytes)
    (keyLen : ℕ) : Route :=
  let hash := cacheKeyHash64 hashBytes databaseOid nspace key keyLen
  ⟨hash,cachePartitionForHash partitionCount hash⟩

/-- `make_local_dirty_key` and the routing fields that `collect_dirty` fills in. -/
def collectDirtyRoute (hashBytes : Bytes → ℕ → ℕ) (partitionCount : ℕ)
    (databaseOid nspace key : Bytes) : Route :=
  let dirtyNspace := strlcpy nspace namespaceMax
  let dirtyKey := strlcpy key keyMax
  routeOf hashBytes partitionCount databaseOid dirtyNspace dirtyKey (strnlen dirtyKey keyMax)

/-- The routing of `get_cache_entry_internal` without a cached hash. -/
def lookupRoute (hashBytes : Bytes → ℕ → ℕ) (partitionCount : ℕ)
    (databaseOid nspace key : Bytes) : Option Route :=
  let keyLen := strnlen key keyMax
  if keyLen = keyMax then none
  else some (routeOf hashBytes partitionCount databaseOid nspace key keyLen)

/-- `cache_partition_for`, which copies the key before it hashes it. -/
def cachePartitionFor (hashBytes : Bytes → ℕ → ℕ) (partitionCount : ℕ)
    (databaseOid nspace key : Bytes) : ℕ :=
  let copiedNspace := strlcpy nspace namespaceMax
  let copiedKey := strlcpy key keyMax
  (routeOf hashBytes partitionCount databaseOid copiedNspace copiedKey
    (strnlen copiedKey keyMax)).partition

/-! Faithfulness of the encoding. -/

def encodeAll (components : List Bytes) : Bytes := components.flatMap encodeComponent

theorem encodeAll_injective (cs ds : List Bytes) (h : encodeAll cs = encodeAll ds) : cs = ds :=
  flatMap_injective encodeComponent (netstring_prefixFree colon semicolon (by decide))
    (netstring_ne_nil colon semicolon) cs ds h

theorem canonicalLoop_eq (capacity : ℕ) (parts : List (KeyPart D)) (destination : Bytes)
    (hnull : ∀ part ∈ parts, part.isNull = false)
    (hd : destination.length < keyMax ∧ destination.length < capacity) :
    canonicalLoop ints capacity parts destination =
      if (destination++encodeAll (parts.map (component ints))).length < keyMax ∧
          (destination++encodeAll (parts.map (component ints))).length < capacity then
        some (destination++encodeAll (parts.map (component ints)))
      else none := by
  induction parts generalizing destination with
  | nil => simp [canonicalLoop, encodeAll, hd]
  | cons part parts ih =>
    have hpart := hnull part (by simp)
    have hsplit : destination++encodeAll ((part::parts).map (component ints)) =
        destination++encodeComponent (component ints part)++
          encodeAll (parts.map (component ints)) := by
      simp [encodeAll]
    rw [hsplit]
    simp only [canonicalLoop, hpart]
    by_cases hfit : (destination++encodeComponent (component ints part)).length < keyMax ∧
        (destination++encodeComponent (component ints part)).length < capacity
    · rw [← ih _ (fun p hp => hnull p (by simp [hp])) hfit]
      rw [List.length_append] at hfit
      rw [if_neg (by simp), if_neg (by omega)]
    · rw [List.length_append] at hfit
      rw [if_neg (by simp), if_pos (by omega), if_neg]
      simp only [List.length_append]
      omega

/-- The key of a list of one to sixteen components is their encoding, if it is short enough. -/
theorem canonicalKeyTyped_eq (parts : List (KeyPart D)) (capacity : ℕ)
    (hnull : ∀ part ∈ parts, part.isNull = false) (hpos : 0 < parts.length)
    (hmax : parts.length ≤ maxKeyColumns) :
    canonicalKeyTyped ints parts capacity =
      if (encodeAll (parts.map (component ints))).length < keyMax ∧
          (encodeAll (parts.map (component ints))).length < capacity then
        some (encodeAll (parts.map (component ints)))
      else none := by
  unfold canonicalKeyTyped
  by_cases hcap : capacity = 0
  · simp [hcap]
  · rw [if_neg (by omega)]
    exact canonicalLoop_eq ints capacity parts [] hnull ⟨by simp [keyMax],by simp; omega⟩

theorem canonicalLoop_some (capacity : ℕ) (parts : List (KeyPart D)) (destination key : Bytes)
    (hd : destination.length < keyMax)
    (h : canonicalLoop ints capacity parts destination = some key) :
    key = destination++encodeAll (parts.map (component ints)) ∧ key.length < keyMax := by
  induction parts generalizing destination with
  | nil =>
    cases h
    simpa [encodeAll] using hd
  | cons part parts ih =>
    simp only [canonicalLoop] at h
    split at h
    · cases h
    · split at h
      · cases h
      · obtain ⟨hkey,hlen⟩ := ih _ (by rw [List.length_append]; omega) h
        exact ⟨by simp [hkey, encodeAll],hlen⟩

theorem canonicalKeyTyped_some (parts : List (KeyPart D)) (capacity : ℕ) (key : Bytes)
    (h : canonicalKeyTyped ints parts capacity = some key) :
    key = encodeAll (parts.map (component ints)) ∧ key.length < keyMax := by
  unfold canonicalKeyTyped at h
  split at h
  · cases h
  · simpa using canonicalLoop_some ints capacity parts [] key (by simp [keyMax]) h

/-- The server's integer output functions print plain decimal and are not `bpcharout`. -/
def PlainIntegers (column : KeyColumn D) : Prop :=
  (column.keyType = .int2 → column.output.isBpcharOut = false ∧
    ∀ v, column.output.call v = renderInteger (ints.int16 v)) ∧
  (column.keyType = .int4 → column.output.isBpcharOut = false ∧
    ∀ v, column.output.call v = renderInteger (ints.int32 v)) ∧
  (column.keyType = .int8 → column.output.isBpcharOut = false ∧
    ∀ v, column.output.call v = renderInteger (ints.int64 v))

/-- Two Datums print the same key component; `bpchar` values may be padded differently. -/
def SameKeyValue (column : KeyColumn D) (v w : D) : Prop :=
  if column.output.isBpcharOut then
    stripSpaces (column.output.call v) = stripSpaces (column.output.call w)
  else column.output.call v = column.output.call w

theorem component_agrees (unset : D → Bytes) (column : KeyColumn D) (v w : D)
    (hp : PlainIntegers ints column) (hv : SameKeyValue column v w) :
    component ints (triggerPart unset column v false) = component ints (readerPart column w) := by
  obtain ⟨h2,h4,h8⟩ := hp
  have hint : ∀ value : D → ℤ, column.output.isBpcharOut = false ∧
      (∀ v, column.output.call v = renderInteger (value v)) →
      renderInteger (value v) = column.output.call w := by
    intro value h
    rw [SameKeyValue, if_neg (by simp [h.1])] at hv
    rw [← hv, h.2]
  cases ht : column.keyType with
  | int2 =>
    simp [component, triggerPart, readerPart, render, isIntegerType, ht, (h2 ht).1,
      hint _ (h2 ht)]
  | int4 =>
    simp [component, triggerPart, readerPart, render, isIntegerType, ht, (h4 ht).1,
      hint _ (h4 ht)]
  | int8 =>
    simp [component, triggerPart, readerPart, render, isIntegerType, ht, (h8 ht).1,
      hint _ (h8 ht)]
  | other oid =>
    by_cases hb : column.output.isBpcharOut = true
    · simpa [component, triggerPart, readerPart, render, isIntegerType, ht, hb, SameKeyValue]
        using hv
    · simpa [component, triggerPart, readerPart, render, isIntegerType, ht, hb, SameKeyValue]
        using hv

theorem canonicalKeyTyped_components (parts parts' : List (KeyPart D)) (capacity : ℕ)
    (hnull : ∀ part ∈ parts, part.isNull = false)
    (hnull' : ∀ part ∈ parts', part.isNull = false)
    (h : parts.map (component ints) = parts'.map (component ints)) :
    canonicalKeyTyped ints parts capacity = canonicalKeyTyped ints parts' capacity := by
  have hlen : parts.length = parts'.length := by simpa using congrArg List.length h
  by_cases hcount : 0 < parts.length ∧ parts.length ≤ maxKeyColumns
  · rw [canonicalKeyTyped_eq ints parts capacity hnull hcount.1 hcount.2,
      canonicalKeyTyped_eq ints parts' capacity hnull' (by omega) (by omega), h]
  · rw [canonicalKeyTyped, canonicalKeyTyped, if_pos (by omega), if_pos (by omega)]

theorem trigger_agrees (unset : D → Bytes) (row : List (KeyColumn D × D × D))
    (h : ∀ c ∈ row, PlainIntegers ints c.1 ∧ SameKeyValue c.1 c.2.1 c.2.2) :
    collectTupleKey ints unset (row.map (fun c => (c.1,c.2.1,false))) =
      match canonicalizeValues ints (row.map (fun c => (c.1,c.2.2))) with
      | some canonical => .key canonical
      | none => .relation := by
  unfold collectTupleKey canonicalizeValues
  simp only [List.map_map]
  rw [canonicalKeyTyped_components ints _ (row.map ((fun c => readerPart c.1 c.2) ∘
    fun c => (c.1,c.2.2))) keyMax]
  · intro part hpart
    obtain ⟨c,_,rfl⟩ := List.mem_map.mp hpart
    rfl
  · intro part hpart
    obtain ⟨c,_,rfl⟩ := List.mem_map.mp hpart
    rfl
  · simp only [List.map_map]
    apply List.map_congr_left
    intro c hc
    exact component_agrees ints unset c.1 c.2.1 c.2.2 (h c hc).1 (h c hc).2

theorem strlcpy_short (s : Bytes) (size : ℕ) (h : s.length < size) : strlcpy s size = s := by
  unfold strlcpy
  exact List.take_of_length_le (by omega)

theorem strlcpy_twice (s : Bytes) (size : ℕ) :
    strlcpy (strlcpy s size) size = strlcpy s size := by
  simp [strlcpy, List.take_take]

/-- The namespace of a mapping is the catalog text cut to the size of its field, and the row
trigger passes the catalog text itself. -/
theorem route_agrees (hashBytes : Bytes → ℕ → ℕ) (partitionCount : ℕ)
    (databaseOid nspace key : Bytes) (h : key.length < keyMax) :
    lookupRoute hashBytes partitionCount databaseOid (strlcpy nspace namespaceMax) key =
      some (collectDirtyRoute hashBytes partitionCount databaseOid nspace key) ∧
    cachePartitionFor hashBytes partitionCount databaseOid (strlcpy nspace namespaceMax) key =
      (collectDirtyRoute hashBytes partitionCount databaseOid nspace key).partition := by
  have hlen : strnlen key keyMax ≠ keyMax := by
    unfold strnlen
    omega
  constructor
  · simp only [lookupRoute, collectDirtyRoute, if_neg hlen, strlcpy_short key keyMax h]
  · simp only [cachePartitionFor, collectDirtyRoute, strlcpy_twice]

/-- Canonical keys separate the component lists they are built from, exactly the encodings
that fit are accepted, and the row trigger and the reader of a key produce the same key, hash
and partition. -/
theorem canonical_keys_faithful :
    (∀ (parts : List (KeyPart D)) capacity, (∀ part ∈ parts, part.isNull = false) →
      0 < parts.length → parts.length ≤ maxKeyColumns →
      ((canonicalKeyTyped ints parts capacity).isSome = true ↔
        (encodeAll (parts.map (component ints))).length < keyMax ∧
          (encodeAll (parts.map (component ints))).length < capacity)) ∧
    (∀ (parts parts' : List (KeyPart D)) capacity capacity' key key',
      canonicalKeyTyped ints parts capacity = some key →
      canonicalKeyTyped ints parts' capacity' = some key' →
      (key = key' ↔ parts.map (component ints) = parts'.map (component ints))) ∧
    ∀ (unset : D → Bytes) (row : List (KeyColumn D × D × D)) canonical,
      (∀ c ∈ row, PlainIntegers ints c.1 ∧ SameKeyValue c.1 c.2.1 c.2.2) →
      (collectTupleKey ints unset (row.map (fun c => (c.1,c.2.1,false))) = .key canonical ↔
        canonicalizeValues ints (row.map (fun c => (c.1,c.2.2))) = some canonical) ∧
      (canonicalizeValues ints (row.map (fun c => (c.1,c.2.2))) = some canonical →
        ∀ hashBytes partitionCount databaseOid nspace,
          lookupRoute hashBytes partitionCount databaseOid (strlcpy nspace namespaceMax)
              canonical =
            some (collectDirtyRoute hashBytes partitionCount databaseOid nspace canonical) ∧
          cachePartitionFor hashBytes partitionCount databaseOid (strlcpy nspace namespaceMax)
              canonical =
          (collectDirtyRoute hashBytes partitionCount databaseOid nspace canonical).partition) := by
  refine ⟨fun parts capacity hnull hpos hmax => ?_,
    fun parts parts' capacity capacity' key key' h h' => ?_,
    fun unset row canonical hrow => ⟨?_,fun h hashBytes partitionCount databaseOid nspace => ?_⟩⟩
  · rw [canonicalKeyTyped_eq ints parts capacity hnull hpos hmax]
    by_cases hfit : (encodeAll (parts.map (component ints))).length < keyMax ∧
        (encodeAll (parts.map (component ints))).length < capacity
    · simp [hfit]
    · rw [if_neg hfit]
      exact ⟨fun h => absurd h (by simp),fun h => absurd h hfit⟩
  · rw [(canonicalKeyTyped_some ints parts capacity key h).1,
      (canonicalKeyTyped_some ints parts' capacity' key' h').1]
    constructor
    · exact encodeAll_injective _ _
    · intro heq
      rw [heq]
  · rw [trigger_agrees ints unset row hrow]
    cases canonicalizeValues ints (row.map (fun c => (c.1,c.2.2))) with
    | none => simp
    | some key => simp
  · exact route_agrees hashBytes partitionCount databaseOid nspace canonical
      (canonicalKeyTyped_some ints _ keyMax canonical h).2

/-! An integer and a padded column; a value is a number with its padding. -/

def paddedInts : DatumInts (ℤ × ℕ) := ⟨Prod.fst,Prod.fst,Prod.fst⟩

def twoColumns : List (KeyColumn (ℤ × ℕ) × (ℤ × ℕ) × (ℤ × ℕ)) :=
  [(⟨.int4,⟨false,fun v => renderInteger v.1⟩⟩,(-7,0),(-7,3)),
    (⟨.other 1042,⟨true,fun v => renderInteger v.1++List.replicate v.2 space⟩⟩,(5,1),(5,4))]

theorem two_columns_faithful :
    (∀ c ∈ twoColumns, PlainIntegers paddedInts c.1 ∧ SameKeyValue c.1 c.2.1 c.2.2) ∧
    collectTupleKey paddedInts (fun _ => []) (twoColumns.map (fun c => (c.1,c.2.1,false))) =
      .key [50,58,45,55,59,49,58,53,59] := by
  have hrow : ∀ c ∈ twoColumns, PlainIntegers paddedInts c.1 ∧ SameKeyValue c.1 c.2.1 c.2.2 := by
    simp [twoColumns, PlainIntegers, SameKeyValue, paddedInts]
    decide +kernel
  exact ⟨hrow,((canonical_keys_faithful paddedInts).2.2 _ twoColumns _ hrow).1.mpr
    (by decide +kernel)⟩

-- The components "1;2" and "1", "2" stay apart, and padding of a bpchar component does not.
example : encodeAll [[49,59,50]] = [51,58,49,59,50,59] ∧
    encodeAll [[49],[50]] = [49,58,49,59,49,58,50,59] ∧
    stripSpaces [97,32,32] = [97] := by decide

end PgLocalCache.KeyCodec
