import PgLocalCache.ByteMemory
import PgLocalCache.PrefixParser

/-!
# The RESP request parser of resp.c

`respParse` restarts at the first byte of the buffer on every call, as
`pglc_resp_parse` does. A position in the buffer is the list of bytes behind it,
and an argument is the bytes it spans.
-/

namespace PgLocalCache.RespParser

open PrefixParser

def requestMax : ℕ := 65536
def mgetMaxKeys : ℕ := 1024
def respMaxArgs : ℕ := mgetMaxKeys+2
def int64Max : ℕ := 2^63-1

def star : UInt8 := 42
def dollar : UInt8 := 36
def minus : UInt8 := 45
def cr : UInt8 := 13
def lf : UInt8 := 10

inductive RespError where
  | onlyArrays
  | invalidDecimal
  | decimalOverflow
  | emptyDecimal
  | expectedCrlf
  | invalidArgumentCount
  | argumentsNotBulk
  | invalidBulkLength
  | bulkNotTerminated
  deriving DecidableEq, Repr

def RespError.text : RespError → String
  | .onlyArrays => "only RESP2 arrays are accepted"
  | .invalidDecimal => "invalid decimal length"
  | .decimalOverflow => "decimal length overflow"
  | .emptyDecimal => "empty decimal length"
  | .expectedCrlf => "expected CRLF"
  | .invalidArgumentCount => "invalid argument count"
  | .argumentsNotBulk => "command arguments must be bulk strings"
  | .invalidBulkLength => "invalid bulk string length"
  | .bulkNotTerminated => "bulk string is not terminated by CRLF"

abbrev RespStep := Parser UInt8 RespError

def isDigit (ch : UInt8) : Bool := decide (48 ≤ ch ∧ ch ≤ 57)

def digitValue (ch : UInt8) : ℕ := ch.toNat-48

/-- The digit loop of `parse_decimal_line` and the checks behind it. -/
def decimalDigits (negative : Bool) (value : ℕ) (haveDigit : Bool) : RespStep ℤ
  | [] => if haveDigit then .incomplete else .error .emptyDecimal
  | ch::rest =>
    if ch = cr then
      if !haveDigit then .error .emptyDecimal
      else token (fun next =>
        if next ≠ lf then reject .expectedCrlf
        else accept (if negative then -(value : ℤ) else value)) rest
    else if !isDigit ch then .error .invalidDecimal
    else if (int64Max-digitValue ch)/10 < value then .error .decimalOverflow
    else decimalDigits negative (value*10+digitValue ch) true rest

def parseDecimalLine : RespStep ℤ
  | [] => .incomplete
  | ch::rest =>
    if ch = minus then
      match rest with
      | [] => .incomplete
      | _ => decimalDigits true 0 false rest
    else decimalDigits false 0 false (ch::rest)

def parseArgument : RespStep Bytes := token (fun ch =>
  if ch ≠ dollar then reject .argumentsNotBulk
  else andThen parseDecimalLine (fun length =>
    if length < 0 ∨ requestMax < length then reject .invalidBulkLength
    else andThen (window (length.toNat+2)) (fun bytes =>
      if bytes.drop length.toNat ≠ [cr,lf] then reject .bulkNotTerminated
      else accept (bytes.take length.toNat))))

def parseRequest : RespStep (List Bytes) := token (fun ch =>
  if ch ≠ star then reject .onlyArrays
  else andThen parseDecimalLine (fun nargs =>
    if nargs ≤ 0 ∨ respMaxArgs < nargs then reject .invalidArgumentCount
    else times parseArgument nargs.toNat))

structure Request where
  args : List Bytes
  consumed : ℕ
  deriving DecidableEq, Repr

def respParse (buffer : Bytes) : Parsed RespError Request :=
  match parseRequest buffer with
  | .incomplete => .incomplete
  | .error e => .error e
  | .complete (args,rest) => .complete ⟨args,buffer.length-rest.length⟩

/-- A parse and the removal of the bytes it consumed. -/
def takeRequest : RespStep (List Bytes) := fun buffer =>
  match respParse buffer with
  | .incomplete => .incomplete
  | .error e => .error e
  | .complete request => .complete (request.args,buffer.drop request.consumed)

theorem decimalEnd_stable (value : ℤ) : Stable (token (fun next =>
    if next ≠ lf then reject .expectedCrlf else accept value) : RespStep ℤ) := by
  apply stable_token
  intro next
  split
  · exact stable_reject _
  · exact stable_accept _

theorem decimalDigits_cons (negative : Bool) (value : ℕ) (haveDigit : Bool) (ch : UInt8)
    (rest : Bytes) (ih : ∀ value, StableAt (decimalDigits negative value true) rest) :
    StableAt (fun t => decimalDigits negative value haveDigit (ch::t)) rest := by
  simp only [decimalDigits]
  by_cases hcr : ch = cr
  · simp only [hcr, if_true]
    by_cases hd : haveDigit = true
    · simp only [hd]
      exact decimalEnd_stable _ rest
    · simp only [hd]
      exact stable_reject _ rest
  · simp only [hcr, if_false]
    by_cases hdigit : isDigit ch = true
    · by_cases hbig : (int64Max-digitValue ch)/10 < value
      · simp only [hdigit, hbig, if_true]
        exact stable_reject _ rest
      · simp only [hdigit, hbig, if_false]
        exact ih _
    · simp only [hdigit]
      exact stable_reject _ rest

theorem decimalDigits_stable (negative : Bool) (value : ℕ) :
    Stable (decimalDigits negative value true) := by
  intro s
  induction s generalizing value with
  | nil => exact stableAt_incomplete _ _ rfl
  | cons ch rest ih =>
    exact stableAt_cons _ ch rest (decimalDigits_cons negative value true ch rest ih)

theorem parseDecimalLine_stable : Stable parseDecimalLine := by
  intro s
  cases s with
  | nil => exact stableAt_incomplete _ _ rfl
  | cons ch rest =>
    by_cases hm : ch = minus
    · cases rest with
      | nil => exact stableAt_incomplete _ _ (by simp [parseDecimalLine, hm])
      | cons ch' rest =>
        apply stableAt_cons
        apply stableAt_cons
        simp only [parseDecimalLine, hm, if_true]
        exact decimalDigits_cons true 0 false ch' rest
          (fun value => decimalDigits_stable true value rest)
    · apply stableAt_cons
      simp only [parseDecimalLine, hm, if_false]
      exact decimalDigits_cons false 0 false ch rest
        (fun value => decimalDigits_stable false value rest)

theorem parseArgument_stable : Stable parseArgument := by
  apply stable_token
  intro ch
  split
  · exact stable_reject _
  · apply stable_andThen _ _ parseDecimalLine_stable
    intro length
    split
    · exact stable_reject _
    · apply stable_andThen _ _ (stable_window _)
      intro bytes
      split
      · exact stable_reject _
      · exact stable_accept _

theorem requestBody_stable (ch : UInt8) : Stable (if ch ≠ star then reject .onlyArrays
    else andThen parseDecimalLine (fun nargs =>
      if nargs ≤ 0 ∨ respMaxArgs < nargs then reject .invalidArgumentCount
      else times parseArgument nargs.toNat) : RespStep (List Bytes)) := by
  split
  · exact stable_reject _
  · apply stable_andThen _ _ parseDecimalLine_stable
    intro nargs
    split
    · exact stable_reject _
    · exact stable_times _ parseArgument_stable _

theorem parseRequest_stable : Stable parseRequest :=
  stable_token _ requestBody_stable

theorem parseRequest_progress : Progress parseRequest :=
  progress_token _ requestBody_stable

theorem respParse_complete (s : Bytes) (request : Request)
    (h : respParse s = .complete request) :
    parseRequest s = .complete (request.args,s.drop request.consumed) ∧
      0 < request.consumed ∧ request.consumed ≤ s.length := by
  unfold respParse at h
  cases hp : parseRequest s with
  | incomplete => simp [hp] at h
  | error e => simp [hp] at h
  | complete x =>
    simp only [hp, Parsed.complete.injEq] at h
    subst h
    obtain ⟨used,hu⟩ := (parseRequest_stable s).suffix x.1 x.2 hp
    have hlt := parseRequest_progress s x.1 x.2 hp
    have hdrop : s.drop (s.length-x.2.length) = x.2 := by
      have hlen : s.length-x.2.length = used.length := by simp [hu]
      rw [hlen, hu, List.drop_left]
    exact ⟨by rw [hdrop],by simp only; omega,Nat.sub_le _ _⟩

theorem respParse_of_rest (s : Bytes) (args : List Bytes) (rest : Bytes)
    (h : parseRequest s = .complete (args,rest)) :
    respParse s = .complete ⟨args,s.length-rest.length⟩ := by
  simp [respParse, h]

theorem takeRequest_eq : takeRequest = parseRequest := by
  funext s
  cases h : parseRequest s with
  | incomplete => simp [takeRequest, respParse, h]
  | error e => simp [takeRequest, respParse, h]
  | complete x =>
    have hr := respParse_of_rest s x.1 x.2 h
    have hc := (respParse_complete s _ hr).1
    rw [h] at hc
    simp only [takeRequest, hr]
    exact hc.symm

theorem respParse_append (a b : Bytes) (request : Request) (h : respParse a = .complete request) :
    respParse (a++b) = .complete request := by
  obtain ⟨h1,h2,h3⟩ := respParse_complete a request h
  rw [respParse_of_rest _ _ _ ((parseRequest_stable a).complete _ _ h1 b)]
  simp only [List.length_append, List.length_drop]
  congr 2
  omega

/-- A complete request and an error are final, a request that reaches beyond the bytes
received is not reported early, and cutting a stream into pieces changes neither the
requests found in it nor the first error. -/
theorem resp_stream_stable :
    (∀ a b request, respParse a = .complete request → respParse (a++b) = .complete request) ∧
    (∀ a b e, respParse a = .error e → respParse (a++b) = .error e) ∧
    (∀ a b request, respParse (a++b) = .complete request → a.length < request.consumed →
      respParse a = .incomplete) ∧
    ∀ stream (chunks : List Bytes), chunks.flatten = stream →
      (feed takeRequest chunks []).values = (drain takeRequest stream).values ∧
        (feed takeRequest chunks []).failure = (drain takeRequest stream).failure := by
  have hp := parseRequest_stable
  refine ⟨respParse_append,fun a b e h => ?_,fun a b request h hlt => ?_,
    fun stream chunks h => ?_⟩
  · cases ha : parseRequest a with
    | incomplete => simp [respParse, ha] at h
    | error e' =>
      rw [respParse, ha] at h
      rw [respParse, (hp a).error e' ha b]
      exact h
    | complete x => simp [respParse, ha] at h
  · obtain ⟨h1,h2,h3⟩ := respParse_complete (a++b) request h
    have hnone := stable_incomplete parseRequest hp a b _ _ h1 (by
      rw [List.length_append] at h3
      rw [List.length_drop, List.length_append]
      omega)
    simp [respParse, hnone]
  · rw [takeRequest_eq, ← h]
    simpa using feed_drain parseRequest hp parseRequest_progress chunks [] rfl

-- A request cut inside its first line end and inside its argument, then a stray byte.
example : (feed takeRequest [[42,49,13],[10,36,52,13,10,80,73],[78,71,13,10,43]] []) =
    ⟨[[[80,73,78,71]]],some .onlyArrays,[43]⟩ := by decide

end PgLocalCache.RespParser
