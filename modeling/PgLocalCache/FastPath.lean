import PgLocalCache.MgetCommand

/-!
# Clients and the fast MGET path of pg_local_cache_worker.c

`tryFastMgetHit` answers an MGET of one plainly spelled key straight from the
cache into the output buffer of the client. Whatever it cannot answer it leaves to
the general path, and then no byte of the output in front of `outputUsed` has
changed. Statistics, idle times and the TLS transport are left out.
-/

namespace PgLocalCache.FastPath

open CacheState ByteMemory KeyScan WireKey WorkerBackend
open KeyCodec (isIntegerType)
open RespWriter

def outputBufferMax : ℕ := responseMax+16*1024

structure DeferredMiss where
  requestOffset : ℕ
  requestLength : ℕ
  deadline : ℕ
  deriving DecidableEq, Repr

/-- A connected client; `input` is the used part of its input buffer. -/
structure Client where
  authenticated : Bool
  authenticationFailures : ℕ
  closeAfterFlush : Bool
  inputReady : Bool
  outputReady : Bool
  inputEof : Bool
  peerHungUp : Bool
  inputStart : ℕ
  input : Bytes
  output : Memory
  outputUsed : ℕ
  outputSent : ℕ
  deferredMiss : Option DeferredMiss
  deferredDeadline : ℕ
  deferredDeadlineExpired : Bool
  retryingDeferredMiss : Bool

def lowerByte (ch : UInt8) : UInt8 := if 65 ≤ ch ∧ ch ≤ 90 then ch+32 else ch

/-- `pglc_resp_arg_equals`: the same length and the same letters in either case. -/
def respArgEquals (arg : Bytes) (literal : String) : Bool :=
  decide (arg.length = (ascii literal).length ∧
    arg.map lowerByte = (ascii literal).map lowerByte)

theorem respArgEquals_unique (name : Bytes) (a b : String) (ha : respArgEquals name a = true)
    (hb : respArgEquals name b = true) : (ascii a).map lowerByte = (ascii b).map lowerByte := by
  unfold respArgEquals at *
  rw [decide_eq_true_eq] at *
  exact ha.2.symm.trans hb.2

variable {W D : Type} (S : Server D) (B : Backend W D)

/-- The one key column of a mapping whose shape the fast path supports. -/
def fastPathField (mapping : WorkerMapping D) : Option (KeyField D) :=
  match mapping.keyFields with
  | [field] =>
    if field.typmod = -1 ∧
        (isIntegerType field.column.keyType ∨ isTextType field.column.keyType) then some field
    else none
  | _ => none

/-- The bytes of a hit behind the array header; `none` is a negative entry. -/
def fastWriteElement (output : Memory) (base available length : ℕ) :
    Option Bytes → Option (Memory × ℕ)
  | none => respWriteNull output base available length responseMax
  | some json => respWriteBulk output base available length json responseMax

/-- The end of a hit. The array header may have been written when the element does not fit, but
only behind `outputUsed`. -/
def fastWrite (client : Client) (json : Option Bytes) : Bool × Client :=
  if client.outputSent ≠ 0 ∨ outputBufferMax < client.outputUsed then (false,client)
  else
    let available := outputBufferMax-client.outputUsed
    match respWriteArray client.output client.outputUsed available 0 1 responseMax with
    | none => (false,client)
    | some (output,length) =>
      match fastWriteElement output client.outputUsed available length json with
      | none => (false,{ client with output := output })
      | some (output,length) => (true,{ client with
          output := output
          outputUsed := client.outputUsed+length
          outputReady := true })

def fastLookup (client : Client) (mapping : WorkerMapping D) (canonical : Bytes) :
    WorldM W (Bool × Client) := do
  let found ← call (B.cacheLookupQuiet mapping canonical)
  match found.result with
  | .miss => return (false,client)
  | .negative => return fastWrite client none
  | .value bytes =>
    match cachedRowJson S mapping bytes with
    | some json => return fastWrite client (some json)
    | none =>
      let _ ← call (B.cacheInvalidateKey mapping canonical)
      return (false,client)

def fastScan (mapping : WorkerMapping D) (rawJson : Bytes) : Option Bytes :=
  match fastPathField mapping with
  | none => none
  | some field =>
    if rawJson.length < 2 ∨ rawJson.head? ≠ some braceOpen ∨ rawJson.getLast? ≠ some braceClose then
      none
    else keyScanJsonSingle rawJson field.name field.column.keyType field.typmod S.databaseIsUtf8
      keyMax

def fastLoop (client : Client) (wireKey : Bytes) :
    List (WorkerMapping D) → WorldM W (Bool × Client)
  | [] => return (false,client)
  | mapping::mappings =>
    let head := wirePrefix S mapping
    if wireKey.length < head.length ∨ wireKey.take head.length ≠ head then
      fastLoop client wireKey mappings
    else if wireKey.length ≤ head.length then return (false,client)
    else
      match fastScan S mapping (wireKey.drop head.length) with
      | none => return (false,client)
      | some canonical => fastLookup S B client mapping canonical

def tryFastMgetHit (mappings : List (WorkerMapping D)) (client : Client) :
    List Bytes → WorldM W (Bool × Client)
  | [name,wireKey] =>
    if !respArgEquals name "MGET" then return (false,client)
    else if !client.authenticated then return (false,client)
    else do
      let enabled ← call B.cacheIsEnabled
      if !enabled then return (false,client)
      else if wireKey.length = 0 ∨ requestMax ≤ wireKey.length ∨ wireKey.any (· = 0) then
        return (false,client)
      else fastLoop S B client wireKey mappings
  | _ => return (false,client)

end PgLocalCache.FastPath
