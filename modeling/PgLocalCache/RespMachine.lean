import PgLocalCache.RespGrammar

/-!
# Request parsing by position

`pglc_resp_parse` walks the buffer by index and reports arguments as slices of it.
Here every addition of the source is checked: a sum that a `Size` cannot hold and a
product that an `int64` cannot hold make the run `none`. For a buffer that is a C
object no run is `none`, the outcome is the one of the list parser, and the slices
are disjoint parts of the consumed bytes.
-/

namespace PgLocalCache.RespMachine

open PrefixParser RespGrammar RespParser

structure Span where
  start : ℕ
  len : ℕ
  deriving DecidableEq, Repr

def size64 (n : ℕ) : Option ℕ := if n < 2^64 then some n else none

def int64 (n : ℕ) : Option ℕ := if n ≤ int64Max then some n else none

inductive LineScan where
  | bad (e : RespError)
  | stop (i value : ℕ) (haveDigit : Bool)
  deriving DecidableEq, Repr

/-- The loop of `parse_decimal_line`; the fuel is the number of bytes left. -/
def scanDigits (buffer : Bytes) : ℕ → ℕ → ℕ → Bool → Option LineScan
  | 0, i, value, haveDigit => some (.stop i value haveDigit)
  | n+1, i, value, haveDigit =>
    match buffer[i]? with
    | none => some (.stop i value haveDigit)
    | some ch =>
      if ch = cr then some (.stop i value haveDigit)
      else if !isDigit ch then some (.bad .invalidDecimal)
      else if (int64Max-digitValue ch)/10 < value then some (.bad .decimalOverflow)
      else (int64 (value*10+digitValue ch)).bind (fun value =>
        (size64 (i+1)).bind (fun i => scanDigits buffer n i value true))

def finishLine (buffer : Bytes) (negative : Bool) :
    LineScan → Option (Parsed RespError (ℤ × ℕ))
  | .bad e => some (.error e)
  | .stop i value haveDigit =>
    if !haveDigit then some (.error .emptyDecimal)
    else (size64 (i+1)).bind (fun next =>
      if buffer.length ≤ next then some .incomplete
      else if buffer[i]? ≠ some cr ∨ buffer[next]? ≠ some lf then some (.error .expectedCrlf)
      else (size64 (i+2)).map (fun position => .complete (signed negative value,position)))

def parseDecimalLineAt (buffer : Bytes) (position : ℕ) : Option (Parsed RespError (ℤ × ℕ)) :=
  if buffer.length ≤ position then some .incomplete
  else if buffer[position]? = some minus then
    (size64 (position+1)).bind (fun i =>
      if buffer.length ≤ i then some .incomplete
      else (scanDigits buffer (buffer.length-i) i 0 false).bind (finishLine buffer true))
  else (scanDigits buffer (buffer.length-position) position 0 false).bind (finishLine buffer false)

/-- The part of an argument behind its length line. -/
def sliceAt (buffer : Bytes) :
    Parsed RespError (ℤ × ℕ) → Option (Parsed RespError (Span × ℕ))
  | .incomplete => some .incomplete
  | .error e => some (.error e)
  | .complete (length,position) =>
    if length < 0 ∨ requestMax < length then some (.error .invalidBulkLength)
    else (size64 (position+length.toNat+2)).bind (fun stop =>
      if buffer.length < stop then some .incomplete
      else if buffer[position+length.toNat]? ≠ some cr ∨
          buffer[position+length.toNat+1]? ≠ some lf then some (.error .bulkNotTerminated)
      else some (.complete (⟨position,length.toNat⟩,stop)))

def parseArgumentAt (buffer : Bytes) (position : ℕ) : Option (Parsed RespError (Span × ℕ)) :=
  if buffer.length ≤ position then some .incomplete
  else if buffer[position]? ≠ some dollar then some (.error .argumentsNotBulk)
  else (size64 (position+1)).bind (fun position =>
    (parseDecimalLineAt buffer position).bind (sliceAt buffer))

/-- One more argument in front of the others. -/
def consSpan (span : Span) : Parsed RespError (List Span × ℕ) → Parsed RespError (List Span × ℕ)
  | .incomplete => .incomplete
  | .error e => .error e
  | .complete (spans,position) => .complete (span::spans,position)

def parseArgumentsAt (buffer : Bytes) : ℕ → ℕ → Option (Parsed RespError (List Span × ℕ))
  | 0, position => some (.complete ([],position))
  | n+1, position =>
    (parseArgumentAt buffer position).bind (fun
      | .incomplete => some .incomplete
      | .error e => some (.error e)
      | .complete (span,position) => (parseArgumentsAt buffer n position).map (consSpan span))

def countAt (buffer : Bytes) :
    Parsed RespError (ℤ × ℕ) → Option (Parsed RespError (List Span × ℕ))
  | .incomplete => some .incomplete
  | .error e => some (.error e)
  | .complete (nargs,position) =>
    if nargs ≤ 0 ∨ respMaxArgs < nargs then some (.error .invalidArgumentCount)
    else parseArgumentsAt buffer nargs.toNat position

def respParseAt (buffer : Bytes) : Option (Parsed RespError (List Span × ℕ)) :=
  if buffer.length = 0 then some .incomplete
  else if buffer[0]? ≠ some star then some (.error .onlyArrays)
  else (parseDecimalLineAt buffer 1).bind (countAt buffer)

/-! Lines. -/

variable {buffer : Bytes}

/-- A result of the list parser with the rest replaced by the position it starts at. -/
def located {α : Type} (buffer : Bytes) : Parsed RespError (α × Bytes) → Parsed RespError (α × ℕ)
  | .incomplete => .incomplete
  | .error e => .error e
  | .complete (v,rest) => .complete (v,buffer.length-rest.length)

theorem size64_small (n : ℕ) (h : n < 2^64) : size64 n = some n := if_pos h

theorem drop_next (i : ℕ) (ch : UInt8) (h : buffer[i]? = some ch) :
    buffer.drop i = ch::buffer.drop (i+1) := by
  obtain ⟨hi,rfl⟩ := List.getElem?_eq_some_iff.mp h
  exact List.drop_eq_getElem_cons hi

theorem located_drop {α : Type} (v : α) (position : ℕ) (h : position ≤ buffer.length) :
    located buffer (.complete (v,buffer.drop position)) = .complete (v,position) := by
  simp only [located, List.length_drop]
  congr 2
  omega

theorem finishLine_end (negative : Bool) (i value : ℕ) (hb : buffer.length < 2^63)
    (hi : buffer[i]? = some cr) :
    finishLine buffer negative (.stop i value true) = some (located buffer
      (decimalDigits negative value true (cr::buffer.drop (i+1)))) := by
  have hlt := (List.getElem?_eq_some_iff.mp hi).1
  simp only [finishLine, Bool.not_true, Bool.false_eq_true, if_false,
    size64_small (i+1) (by omega), Option.bind_some, decimalDigits, if_true]
  by_cases hend : buffer.length ≤ i+1
  · rw [if_pos hend, List.drop_of_length_le hend]
    rfl
  · obtain ⟨next,hnext⟩ : ∃ next, buffer[i+1]? = some next :=
      ⟨_,List.getElem?_eq_getElem (by omega)⟩
    rw [if_neg hend, drop_next (i+1) next hnext]
    by_cases hlf : next = lf
    · rw [if_neg (by simp [hi, hnext, hlf]), size64_small (i+2) (by omega)]
      simp only [Option.map_some, token, hlf, ne_eq, not_true, if_false, accept]
      rw [located_drop _ (i+1+1) (by omega)]
      rfl
    · rw [if_pos (by simp [hnext, hlf])]
      simp [token, hlf, reject, located]

theorem scanDigits_located (negative : Bool) (n i value : ℕ) (haveDigit : Bool)
    (hb : buffer.length < 2^63) (hn : i+n = buffer.length) :
    (scanDigits buffer n i value haveDigit).bind (finishLine buffer negative) =
      some (located buffer (decimalDigits negative value haveDigit (buffer.drop i))) := by
  induction n generalizing i value haveDigit with
  | zero =>
    have hnil : buffer.drop i = [] := List.drop_of_length_le (by omega)
    rw [hnil]
    cases haveDigit with
    | false => rfl
    | true =>
      simp only [scanDigits, Option.bind_some, finishLine, Bool.not_true, Bool.false_eq_true,
        if_false, size64_small (i+1) (by omega)]
      rw [if_pos (by omega)]
      rfl
  | succ n ih =>
    obtain ⟨ch,hch⟩ : ∃ ch, buffer[i]? = some ch := ⟨_,List.getElem?_eq_getElem (by omega)⟩
    rw [drop_next i ch hch]
    simp only [scanDigits, hch]
    by_cases hcr : ch = cr
    · rw [if_pos hcr, Option.bind_some]
      subst hcr
      cases haveDigit with
      | false => rfl
      | true => exact finishLine_end negative i value hb hch
    rw [if_neg hcr]
    by_cases hdigit : isDigit ch = true
    swap
    · simp [hdigit, decimalDigits, hcr, finishLine, located]
    rw [if_neg (by simp [hdigit])]
    by_cases hbig : (int64Max-digitValue ch)/10 < value
    · rw [if_pos hbig]
      simp [decimalDigits, hcr, hdigit, hbig, finishLine, located]
    · -- the guard leaves exactly the values that fit
      have hfits : int64 (value*10+digitValue ch) = some (value*10+digitValue ch) := by
        have := (guard_exact ch hdigit value).not.mp hbig
        exact if_pos (by omega)
      have hstep : decimalDigits negative value haveDigit (ch::buffer.drop (i+1)) =
          decimalDigits negative (value*10+digitValue ch) true (buffer.drop (i+1)) := by
        simp [decimalDigits, hcr, hdigit, hbig]
      rw [if_neg hbig, hfits, Option.bind_some, size64_small (i+1) (by omega), Option.bind_some,
        hstep]
      exact ih (i+1) _ true (by omega)

theorem parseDecimalLineAt_located (position : ℕ) (hb : buffer.length < 2^63) :
    parseDecimalLineAt buffer position =
      some (located buffer (parseDecimalLine (buffer.drop position))) := by
  unfold parseDecimalLineAt
  by_cases hend : buffer.length ≤ position
  · rw [if_pos hend, List.drop_of_length_le hend]
    rfl
  obtain ⟨ch,hch⟩ : ∃ ch, buffer[position]? = some ch :=
    ⟨_,List.getElem?_eq_getElem (by omega)⟩
  rw [if_neg hend]
  by_cases hm : ch = minus
  · rw [if_pos (by rw [hch, hm]), size64_small (position+1) (by omega), Option.bind_some]
    by_cases hlast : buffer.length ≤ position+1
    · rw [if_pos hlast, drop_next position ch hch, List.drop_of_length_le hlast, hm]
      rfl
    · obtain ⟨d,hd⟩ : ∃ d, buffer[position+1]? = some d :=
        ⟨_,List.getElem?_eq_getElem (by omega)⟩
      rw [if_neg hlast, scanDigits_located true _ (position+1) 0 false hb (by omega),
        drop_next position ch hch, drop_next (position+1) d hd]
      simp [parseDecimalLine, hm]
  · rw [if_neg (by rw [hch]; simpa using hm),
      scanDigits_located false _ position 0 false hb (by omega), drop_next position ch hch]
    simp [parseDecimalLine, hm]

/-! Arguments. -/

/-- The slices stand for the arguments, follow one another and lie between the two positions. -/
structure Placed (buffer : Bytes) (position : ℕ) (spans : List Span) (consumed : ℕ)
    (args : List Bytes) : Prop where
  held : List.Forall₂ (fun span arg => (buffer.drop span.start).take span.len = arg ∧
    arg.length = span.len) spans args
  apart : spans.Pairwise (fun a b => a.start+a.len ≤ b.start)
  inside : ∀ span ∈ spans, position ≤ span.start ∧ span.start+span.len ≤ consumed
  within : position ≤ consumed ∧ consumed ≤ buffer.length

/-- What the positions have to say about an outcome of the list parser. -/
def Agrees (buffer : Bytes) (position : ℕ) (out : Option (Parsed RespError (List Span × ℕ))) :
    Parsed RespError (List Bytes × Bytes) → Prop
  | .incomplete => out = some .incomplete
  | .error e => out = some (.error e)
  | .complete (args,rest) => ∃ spans,
      out = some (.complete (spans,buffer.length-rest.length)) ∧
        Placed buffer position spans (buffer.length-rest.length) args

theorem parsed_rest {α : Type} (p : RespStep α) (hp : Stable p) (position : ℕ)
    (hle : position ≤ buffer.length) (v : α) (rest : Bytes)
    (h : p (buffer.drop position) = .complete (v,rest)) :
    position ≤ buffer.length-rest.length ∧ buffer.length-rest.length ≤ buffer.length ∧
      rest = buffer.drop (buffer.length-rest.length) := by
  obtain ⟨used,hu⟩ := (hp _).suffix v rest h
  have hlen := congrArg List.length hu
  rw [List.length_drop, List.length_append] at hlen
  refine ⟨by omega,by omega,?_⟩
  have hat : buffer.length-rest.length = position+used.length := by omega
  rw [hat, ← List.drop_drop, hu, List.drop_left]

theorem terminator_at (position n : ℕ) (h : position+n+2 ≤ buffer.length) :
    ((buffer.drop position).take (n+2)).drop n = [cr,lf] ↔
      buffer[position+n]? = some cr ∧ buffer[position+n+1]? = some lf := by
  obtain ⟨x,hx⟩ : ∃ x, buffer[position+n]? = some x := ⟨_,List.getElem?_eq_getElem (by omega)⟩
  obtain ⟨y,hy⟩ : ∃ y, buffer[position+n+1]? = some y := ⟨_,List.getElem?_eq_getElem (by omega)⟩
  have htwo : ((buffer.drop position).take (n+2)).drop n = [x,y] := by
    rw [List.drop_take, List.drop_drop, drop_next _ x hx, drop_next _ y hy]
    simp
  rw [htwo, hx, hy]
  simp

/-- One slice against one argument of the list parser. -/
def AgreesOne (buffer : Bytes) (position : ℕ) (out : Option (Parsed RespError (Span × ℕ))) :
    Parsed RespError (Bytes × Bytes) → Prop
  | .incomplete => out = some .incomplete
  | .error e => out = some (.error e)
  | .complete (arg,rest) => ∃ start,
      out = some (.complete (⟨start,arg.length⟩,buffer.length-rest.length)) ∧
        (buffer.drop start).take arg.length = arg ∧ position ≤ start ∧
        start+arg.length ≤ buffer.length-rest.length

theorem agreesOne_earlier (position position' : ℕ) (out : Option (Parsed RespError (Span × ℕ)))
    (result : Parsed RespError (Bytes × Bytes)) (hle : position' ≤ position)
    (h : AgreesOne buffer position out result) : AgreesOne buffer position' out result := by
  cases result with
  | incomplete => exact h
  | error e => exact h
  | complete x =>
    obtain ⟨start,hout,hslice,hfrom,hto⟩ := h
    exact ⟨start,hout,hslice,le_trans hle hfrom,hto⟩

/-- What the list parser does behind the length line of an argument. -/
def argumentBody (length : ℤ) : RespStep Bytes :=
  if length < 0 ∨ requestMax < length then reject .invalidBulkLength
  else andThen (window (length.toNat+2)) (fun bytes =>
    if bytes.drop length.toNat ≠ [cr,lf] then reject .bulkNotTerminated
    else accept (bytes.take length.toNat))

theorem parseArgument_body : parseArgument = token (fun ch =>
    if ch ≠ dollar then reject .argumentsNotBulk else andThen parseDecimalLine argumentBody) :=
  rfl

theorem sliceAt_agrees (position : ℕ) (length : ℤ) (hb : buffer.length < 2^63)
    (hp : position ≤ buffer.length) :
    AgreesOne buffer position (sliceAt buffer (.complete (length,position)))
      (argumentBody length (buffer.drop position)) := by
  rw [sliceAt, argumentBody]
  by_cases hbad : length < 0 ∨ requestMax < length
  · rw [if_pos hbad, if_pos hbad]
    rfl
  have hmax : length ≤ 65536 := by
    have : (requestMax : ℤ) = 65536 := rfl
    omega
  rw [if_neg hbad, if_neg hbad, size64_small (position+length.toNat+2) (by omega),
    Option.bind_some]
  simp only [andThen, window, List.length_drop]
  by_cases hshort : buffer.length < position+length.toNat+2
  · rw [if_pos hshort, if_pos (by omega)]
    rfl
  rw [if_neg hshort, if_neg (show ¬buffer.length-position < length.toNat+2 by omega)]
  simp only
  by_cases hend : ((buffer.drop position).take (length.toNat+2)).drop length.toNat = [cr,lf]
  · have hat := (terminator_at position length.toNat (by omega)).mp hend
    rw [if_neg (not_not.mpr hend), if_neg (by simp [hat])]
    have harg : ((buffer.drop position).take (length.toNat+2)).take length.toNat =
        (buffer.drop position).take length.toNat := by
      rw [List.take_take]
      congr 1
      omega
    have hlen : ((buffer.drop position).take length.toNat).length = length.toNat := by
      rw [List.length_take, List.length_drop]
      omega
    have hrest : buffer.length-((buffer.drop position).drop (length.toNat+2)).length =
        position+length.toNat+2 := by
      rw [List.length_drop, List.length_drop]
      omega
    rw [accept, harg, AgreesOne, hlen, hrest]
    exact ⟨position,rfl,rfl,Nat.le_refl _,by omega⟩
  · have hat := (terminator_at position length.toNat (by omega)).not.mp hend
    rw [if_pos hend, if_pos (not_and_or.mp hat)]
    rfl

theorem parseArgumentAt_agrees (position : ℕ) (hb : buffer.length < 2^63) :
    AgreesOne buffer position (parseArgumentAt buffer position)
      (parseArgument (buffer.drop position)) := by
  rw [parseArgument_body]
  unfold parseArgumentAt
  by_cases hend : buffer.length ≤ position
  · rw [if_pos hend, List.drop_of_length_le hend]
    rfl
  obtain ⟨ch,hch⟩ : ∃ ch, buffer[position]? = some ch :=
    ⟨_,List.getElem?_eq_getElem (by omega)⟩
  rw [if_neg hend, drop_next position ch hch, token, hch]
  by_cases hd : ch = dollar
  swap
  · rw [if_pos (by simpa using hd), if_pos (by simpa using hd)]
    rfl
  rw [if_neg (by simp [hd]), if_neg (by simp [hd]), size64_small (position+1) (by omega),
    Option.bind_some, parseDecimalLineAt_located (position+1) hb, Option.bind_some,
    andThen]
  cases hline : parseDecimalLine (buffer.drop (position+1)) with
  | incomplete => rfl
  | error e => rfl
  | complete x =>
    obtain ⟨length,rest⟩ := x
    obtain ⟨h1,h2,h3⟩ := parsed_rest _ parseDecimalLine_stable (position+1) (by omega) length rest
      hline
    have hslice := sliceAt_agrees (buffer.length-rest.length) length hb h2
    rw [← h3] at hslice
    refine agreesOne_earlier _ _ _ _ ?_ hslice
    omega

theorem parseArgumentsAt_agrees (n position : ℕ) (hb : buffer.length < 2^63)
    (hp : position ≤ buffer.length) :
    Agrees buffer position (parseArgumentsAt buffer n position)
      (times parseArgument n (buffer.drop position)) := by
  induction n generalizing position with
  | zero =>
    rw [times, accept, Agrees, List.length_drop]
    have hat : buffer.length-(buffer.length-position) = position := by omega
    rw [hat]
    exact ⟨[],rfl,.nil,List.Pairwise.nil,by simp,Nat.le_refl _,hp⟩
  | succ n ih =>
    have hone := parseArgumentAt_agrees position hb
    rw [times, parseArgumentsAt, andThen]
    cases harg : parseArgument (buffer.drop position) with
    | incomplete =>
      rw [harg] at hone
      rw [show parseArgumentAt buffer position = some .incomplete from hone]
      rfl
    | error e =>
      rw [harg] at hone
      rw [show parseArgumentAt buffer position = some (.error e) from hone]
      rfl
    | complete x =>
      obtain ⟨arg,rest⟩ := x
      obtain ⟨h1,h2,h3⟩ := parsed_rest _ parseArgument_stable position hp arg rest harg
      rw [harg] at hone
      obtain ⟨start,hout,hslice,hfrom,hto⟩ := hone
      have hmore := ih (buffer.length-rest.length) h2
      rw [← h3] at hmore
      rw [hout, Option.bind_some]
      simp only [andThen]
      cases hargs : times parseArgument n rest with
      | incomplete =>
        rw [hargs] at hmore
        rw [show parseArgumentsAt buffer n _ = some .incomplete from hmore]
        rfl
      | error e =>
        rw [hargs] at hmore
        rw [show parseArgumentsAt buffer n _ = some (.error e) from hmore]
        rfl
      | complete y =>
        obtain ⟨args,rest'⟩ := y
        rw [hargs] at hmore
        obtain ⟨spans,hspans,hplaced⟩ := hmore
        rw [hspans]
        refine ⟨⟨start,arg.length⟩::spans,rfl,.cons ⟨hslice,rfl⟩ hplaced.held,?_,?_,?_⟩
        · refine List.pairwise_cons.mpr ⟨fun b hm => ?_,hplaced.apart⟩
          exact le_trans hto (hplaced.inside b hm).1
        · intro b hm
          rcases List.mem_cons.mp hm with rfl | hm
          · exact ⟨hfrom,le_trans hto hplaced.within.1⟩
          · have := hplaced.inside b hm
            exact ⟨by omega,this.2⟩
        · exact ⟨le_trans h1 hplaced.within.1,hplaced.within.2⟩

/-- What the list parser does behind the count line. -/
def requestBody (nargs : ℤ) : RespStep (List Bytes) :=
  if nargs ≤ 0 ∨ respMaxArgs < nargs then reject .invalidArgumentCount
  else times parseArgument nargs.toNat

theorem parseRequest_body : parseRequest = token (fun ch =>
    if ch ≠ star then reject .onlyArrays else andThen parseDecimalLine requestBody) :=
  rfl

theorem countAt_agrees (position : ℕ) (nargs : ℤ) (hb : buffer.length < 2^63)
    (hp : position ≤ buffer.length) :
    Agrees buffer position (countAt buffer (.complete (nargs,position)))
      (requestBody nargs (buffer.drop position)) := by
  rw [countAt, requestBody]
  by_cases hbad : nargs ≤ 0 ∨ respMaxArgs < nargs
  · rw [if_pos hbad, if_pos hbad]
    rfl
  · rw [if_neg hbad, if_neg hbad]
    exact parseArgumentsAt_agrees _ _ hb hp

/-- The positions tell the outcome of the list parser, from some position on. -/
theorem respParseAt_agrees (hb : buffer.length < 2^63) :
    ∃ position, Agrees buffer position (respParseAt buffer) (parseRequest buffer) := by
  rw [parseRequest_body]
  unfold respParseAt
  cases hbuf : buffer with
  | nil => exact ⟨0,rfl⟩
  | cons ch rest =>
    rw [← hbuf]
    have hch : buffer[0]? = some ch := by rw [hbuf]; rfl
    have hlen : 0 < buffer.length := by rw [hbuf]; simp
    have hfirst : ∀ f : UInt8 → RespStep (List Bytes), token f buffer = f ch (buffer.drop 1) := by
      intro f
      rw [hbuf]
      rfl
    rw [if_neg (by omega), hfirst, hch]
    by_cases hs : ch = star
    swap
    · rw [if_pos (by simpa using hs), if_pos (by simpa using hs)]
      exact ⟨0,rfl⟩
    rw [if_neg (by simp [hs]), if_neg (by simp [hs]), parseDecimalLineAt_located 1 hb,
      Option.bind_some, andThen]
    cases hline : parseDecimalLine (buffer.drop 1) with
    | incomplete => exact ⟨0,rfl⟩
    | error e => exact ⟨0,rfl⟩
    | complete x =>
      obtain ⟨nargs,tail⟩ := x
      obtain ⟨_,h2,h3⟩ := parsed_rest _ parseDecimalLine_stable 1 hlen nargs tail hline
      have hcount := countAt_agrees (buffer.length-tail.length) nargs hb h2
      rw [← h3] at hcount
      exact ⟨_,hcount⟩

/-- The request codec: what the writers encode is read back, a buffer is complete exactly when
it starts with a word of the grammar, and on a buffer that is a C object no sum overflows and
the arguments are disjoint slices of the consumed bytes. -/
theorem resp_request_codec :
    (∀ args : List Bytes, 1 ≤ args.length → args.length ≤ 1026 →
      (∀ arg ∈ args, arg.length ≤ 65536) → ∀ destination base capacity limit,
      (encodeRequest args).length ≤ capacity → (encodeRequest args).length ≤ limit →
      ∃ m, writeRequest destination base capacity limit args =
          some (m,(encodeRequest args).length) ∧
        ∀ trailing, respParse (ByteMemory.read m base (encodeRequest args).length++trailing) =
          .complete ⟨args,(encodeRequest args).length⟩) ∧
    (∀ buffer args consumed, respParse buffer = .complete ⟨args,consumed⟩ ↔
      ∃ word rest, buffer = word++rest ∧ IsRequest word args ∧ consumed = word.length) ∧
    ∀ buffer : Bytes, buffer.length < 2^63 →
      (respParse buffer = .incomplete → respParseAt buffer = some .incomplete) ∧
      (∀ e, respParse buffer = .error e → respParseAt buffer = some (.error e)) ∧
      ∀ args consumed, respParse buffer = .complete ⟨args,consumed⟩ →
        ∃ spans, respParseAt buffer = some (.complete (spans,consumed)) ∧
          args = spans.map (fun span => (buffer.drop span.start).take span.len) ∧
          spans.Pairwise (fun a b => a.start+a.len ≤ b.start) ∧
          ∀ span ∈ spans, span.start+span.len ≤ consumed ∧ consumed ≤ buffer.length := by
  refine ⟨fun args hlo hhi hargs destination base capacity limit hc hl => ?_,respParse_iff,
    fun buffer hb => ?_⟩
  · obtain ⟨m,hm,hread⟩ := writeRequest_fits destination base capacity limit args hc hl
    refine ⟨m,hm,fun trailing => ?_⟩
    rw [hread]
    exact (respParse_iff _ _ _).mpr
      ⟨_,trailing,rfl,encodeRequest_request args hlo hhi hargs,rfl⟩
  · obtain ⟨position,hagree⟩ := respParseAt_agrees hb
    cases hp : parseRequest buffer with
    | incomplete =>
      rw [hp] at hagree
      have hr : respParse buffer = .incomplete := by rw [respParse, hp]
      rw [hr]
      exact ⟨fun _ => hagree,(fun e h => by cases h),(fun args consumed h => by cases h)⟩
    | error e =>
      rw [hp] at hagree
      have hr : respParse buffer = .error e := by rw [respParse, hp]
      rw [hr]
      refine ⟨(fun h => by cases h),fun e' h => ?_,(fun args consumed h => by cases h)⟩
      cases h
      exact hagree
    | complete x =>
      obtain ⟨args,rest⟩ := x
      rw [hp] at hagree
      obtain ⟨spans,hout,hplaced⟩ := hagree
      rw [respParse_of_rest buffer args rest hp]
      refine ⟨(fun h => by cases h),(fun e h => by cases h),fun args' consumed h => ?_⟩
      cases h
      refine ⟨spans,hout,?_,hplaced.apart,fun span hm =>
        ⟨(hplaced.inside span hm).2,hplaced.within.2⟩⟩
      have hmap := List.forall₂_map_left_iff.mpr (hplaced.held.imp (fun _ _ h => h.1))
      rw [List.forall₂_eq_eq_eq] at hmap
      exact hmap.symm

theorem ping_request_codec : (encodeRequest [[80,73,78,71],[]]).length = 20 ∧
    ∃ m, writeRequest (fun _ => 0) 512 64 64 [[80,73,78,71],[]] = some (m,20) ∧
      respParse (ByteMemory.read m 512 20++[42]) = .complete ⟨[[80,73,78,71],[]],20⟩ := by
  have hlen : (encodeRequest [[80,73,78,71],[]]).length = 20 := by decide
  obtain ⟨m,hm,hread⟩ := resp_request_codec.1 [[80,73,78,71],[]] (by decide) (by decide) (by decide)
    (fun _ => 0) 512 64 64 (by rw [hlen]; decide) (by rw [hlen]; decide)
  rw [hlen] at hm hread
  exact ⟨hlen,m,hm,hread [42]⟩

end PgLocalCache.RespMachine
