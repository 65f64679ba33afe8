import PgLocalCache.KeyScan
import PgLocalCache.RowPayload
import PgLocalCache.RespWriter

/-!
# Wire keys of pg_local_cache_worker.c

A key on the wire names a database, a schema and a relation and ends in a JSON
object with the primary key. `resolveWireKey` picks the mapping and
`canonicalizeKey` turns the object into the canonical key. The encoding check,
`jsonb_in` and the type input and output functions belong to the server; a fault
is either the text of an error reply or an error the server raised.
-/

namespace PgLocalCache.WireKey

open KeyCodec KeyScan CacheState RowPayload RespWriter

def requestMax : ℕ := 65536

structure PgError where
  message : Bytes
  deriving DecidableEq, Repr

inductive JsonValue where
  | string (bytes : Bytes)
  | numeric (printed : Bytes)
  | boolean (value : Bool)
  | null
  | container
  deriving DecidableEq, Repr

inductive JsonDocument where
  | object (fields : List (Bytes × JsonValue))
  | other
  deriving DecidableEq, Repr

structure KeyField (D : Type) where
  name : Bytes
  column : KeyColumn D
  typmod : ℤ
  input : Bytes → Except PgError D

structure WorkerMapping (D : Type) where
  cache : Mapping
  schemaName : Bytes
  relationName : Bytes
  keyFields : List (KeyField D)
  row : RowDescriptor

structure Server (D : Type) where
  database : Bytes
  databaseIsUtf8 : Bool
  verifymbstr : Bytes → Option PgError
  jsonbIn : Bytes → Except PgError JsonDocument
  ints : DatumInts D
  crc32c : Bytes → ℕ

inductive KeyFault where
  | reply (message : Bytes)
  | raise (error : PgError)
  deriving DecidableEq, Repr

variable {D : Type} (S : Server D)

def crudMark : Bytes := ascii "CRUD:"

def dot : UInt8 := 46

def wirePrefix (mapping : WorkerMapping D) : Bytes :=
  crudMark++S.database++[dot]++mapping.schemaName++[dot]++mapping.relationName++[colon]

/-- The loop of `resolve_wire_key` over the loaded mappings. -/
def resolveLoop (wireKey : Bytes) :
    List (WorkerMapping D) → Except KeyFault (WorkerMapping D × Bytes)
  | [] =>
    if wireKey.length < (crudMark++S.database++[dot]).length ∨
        wireKey.take (crudMark++S.database++[dot]).length ≠ crudMark++S.database++[dot] then
      .error (.reply (ascii "ERR KVik key targets a different database"))
    else .error (.reply (ascii "ERR unknown KVik table mapping"))
  | candidate::candidates =>
    let head := wirePrefix S candidate
    if wireKey.length ≤ head.length ∨ wireKey.take head.length ≠ head then
      resolveLoop wireKey candidates
    else if wireKey[head.length]? ≠ some braceOpen ∨
        wireKey[wireKey.length-1]? ≠ some braceClose then
      .error (.reply (ascii "ERR KVik key must end with a primary-key JSON object"))
    else .ok (candidate,wireKey.drop head.length)

def resolveWireKey (mappings : List (WorkerMapping D)) (wireKey : Bytes) :
    Except KeyFault (WorkerMapping D × Bytes) :=
  if wireKey.length = 0 ∨ requestMax ≤ wireKey.length then
    .error (.reply (ascii "ERR invalid key"))
  else if wireKey.any (· = 0) then
    .error (.reply (ascii "ERR NUL bytes are not supported in keys"))
  else
    match S.verifymbstr wireKey with
    | some error => .error (.raise error)
    | none =>
      if 5 < wireKey.length ∧ wireKey.take 5 = crudMark then resolveLoop S wireKey mappings
      else .error (.reply
        (ascii "ERR key must use CRUD:database.schema.table:\x7bprimary-key-json\x7d"))

def quoted (name : Bytes) : Bytes := quote::(name++[quote])

def jsonbKeyValueAsCstring (columnName : Bytes) : JsonValue → Except KeyFault Bytes
  | .string bytes => .ok bytes
  | .numeric printed => .ok printed
  | .boolean value => .ok (if value then ascii "true" else ascii "false")
  | .null => .error (.reply
      (ascii "ERR primary-key field "++quoted columnName++ascii " cannot be null"))
  | .container => .error (.reply
      (ascii "ERR primary-key field "++quoted columnName++ascii " must be a JSON scalar"))

def keyFieldValue (fields : List (Bytes × JsonValue)) (field : KeyField D) :
    Except KeyFault D := do
  match fields.lookup field.name with
  | none => .error (.reply (ascii "ERR missing primary-key field "++quoted field.name))
  | some value =>
    let input ← jsonbKeyValueAsCstring field.name value
    match field.input input with
    | .error error => .error (.raise error)
    | .ok datum => .ok datum

def canonicalizeKey (mapping : WorkerMapping D) (rawKey : Bytes) :
    Except KeyFault (List D × Bytes) :=
  match S.jsonbIn rawKey with
  | .error error => .error (.raise error)
  | .ok .other => .error (.reply (ascii "ERR primary key must be a JSON object"))
  | .ok (.object fields) =>
    if fields.length ≠ mapping.keyFields.length then
      .error (.reply (ascii "ERR primary-key JSON must contain exactly "++
        PrefixCode.decimal mapping.keyFields.length++
        (if mapping.keyFields.length = 1 then ascii " field" else ascii " fields")))
    else do
      let values ← mapping.keyFields.mapM (keyFieldValue fields)
      match canonicalizeValues S.ints ((mapping.keyFields.map KeyField.column).zip values) with
      | none => .error (.reply (ascii "ERR canonical primary key is too long"))
      | some canonical => .ok (values,canonical)

/-- One key of a request, resolved. -/
structure ResolvedKey (D : Type) where
  mapping : WorkerMapping D
  values : List D
  canonical : Bytes

def resolveKey (mappings : List (WorkerMapping D)) (wireKey : Bytes) :
    Except KeyFault (ResolvedKey D) := do
  let found ← resolveWireKey S mappings wireKey
  let key ← canonicalizeKey S found.1 found.2
  return ⟨found.1,key.1,key.2⟩

def cachedRowJson (mapping : WorkerMapping D) (payload : Bytes) : Option Bytes :=
  payloadGetJsonChecked S.crc32c mapping.row payload

theorem resolveLoop_mem (wireKey rawKey : Bytes) (mapping : WorkerMapping D)
    (candidates : List (WorkerMapping D))
    (h : resolveLoop S wireKey candidates = .ok (mapping,rawKey)) : mapping ∈ candidates := by
  induction candidates with
  | nil =>
    simp only [resolveLoop] at h
    split at h <;> cases h
  | cons candidate candidates ih =>
    simp only [resolveLoop] at h
    split at h
    · exact List.mem_cons_of_mem _ (ih h)
    · split at h
      · cases h
      · cases h
        exact List.mem_cons_self

theorem resolveLoop_split (wireKey rawKey : Bytes) (mapping : WorkerMapping D)
    (candidates : List (WorkerMapping D))
    (h : resolveLoop S wireKey candidates = .ok (mapping,rawKey)) :
    wireKey = wirePrefix S mapping++rawKey := by
  induction candidates with
  | nil =>
    simp only [resolveLoop] at h
    split at h <;> cases h
  | cons candidate candidates ih =>
    simp only [resolveLoop] at h
    split at h
    · exact ih h
    · rename_i hmatch
      rw [not_or, not_not] at hmatch
      split at h
      · cases h
      · cases h
        conv_lhs => rw [← List.take_append_drop (wirePrefix S mapping).length wireKey]
        rw [hmatch.2]

theorem resolveKey_mem (mappings : List (WorkerMapping D)) (wireKey : Bytes)
    (key : ResolvedKey D) (h : resolveKey S mappings wireKey = .ok key) :
    key.mapping ∈ mappings := by
  unfold resolveKey at h
  cases hfound : resolveWireKey S mappings wireKey with
  | error e => simp [hfound, bind, Except.bind] at h
  | ok found =>
    simp only [hfound, bind, Except.bind] at h
    cases hkey : canonicalizeKey S found.1 found.2 with
    | error e => simp [hkey] at h
    | ok value =>
      simp only [hkey, pure, Except.pure, Except.ok.injEq] at h
      rw [← h]
      unfold resolveWireKey at hfound
      split at hfound
      · cases hfound
      · split at hfound
        · cases hfound
        · cases hv : S.verifymbstr wireKey with
          | some e => simp [hv] at hfound
          | none =>
            simp only [hv] at hfound
            split at hfound
            · exact resolveLoop_mem S wireKey found.2 found.1 mappings hfound
            · cases hfound

end PgLocalCache.WireKey
