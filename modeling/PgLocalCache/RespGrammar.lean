import PgLocalCache.RespParser
import PgLocalCache.RespWriter

/-!
# The grammar of RESP requests

What the request parser accepts, as relations between words and values that do not
mention it: numerals with any number of leading zeros, bulk strings behind their
length, and an array of them behind its count. The encoding of the in-place writers
is one word of the grammar.
-/

namespace PgLocalCache.RespGrammar

open PrefixParser PrefixCode ByteMemory RespParser RespWriter

def numeral (value : ℕ) (digits : Bytes) : ℕ :=
  digits.foldl (fun value ch => value*10+digitValue ch) value

/-- One or more decimal digits with this value; leading zeros are allowed. -/
def IsNumeral (digits : Bytes) (n : ℕ) : Prop :=
  digits ≠ [] ∧ (∀ ch ∈ digits, isDigit ch = true) ∧ numeral 0 digits = n

/-- The length of a bulk string; a sign is allowed in front of zero only. -/
def IsLength (word : Bytes) (n : ℕ) : Prop :=
  IsNumeral word n ∨ ∃ digits, word = minus::digits ∧ IsNumeral digits 0 ∧ n = 0

def IsItem (word arg : Bytes) : Prop :=
  arg.length ≤ requestMax ∧
    ∃ length, IsLength length arg.length ∧ word = dollar::length++crlf++arg++crlf

def IsRequest (word : Bytes) (args : List Bytes) : Prop :=
  1 ≤ args.length ∧ args.length ≤ respMaxArgs ∧ ∃ count items, IsNumeral count args.length ∧
    word = star::count++crlf++items.flatten ∧ List.Forall₂ IsItem items args

/-! Numerals. -/

theorem digitValue_le (ch : UInt8) (h : isDigit ch = true) : digitValue ch ≤ 9 := by
  simp only [isDigit, decide_eq_true_eq, UInt8.le_iff_toNat_le] at h
  have h57 : (57 : UInt8).toNat = 57 := rfl
  unfold digitValue
  omega

theorem numeral_ge (value : ℕ) (digits : Bytes) : value ≤ numeral value digits := by
  induction digits generalizing value with
  | nil => exact Nat.le_refl _
  | cons ch digits ih => exact le_trans (by omega) (ih (value*10+digitValue ch))

theorem guard_exact (ch : UInt8) (h : isDigit ch = true) (value : ℕ) :
    (int64Max-digitValue ch)/10 < value ↔ int64Max < value*10+digitValue ch := by
  have := digitValue_le ch h
  unfold int64Max
  omega

theorem isDigit_cr : isDigit cr = false := by decide

/-- The value that a line stands for. -/
def signed (negative : Bool) (value : ℕ) : ℤ := if negative then -(value : ℤ) else value

/-- The rest of a line from inside its digits, with a value that an `int64` holds. -/
def LineFrom (negative : Bool) (value : ℕ) (haveDigit : Bool) (s : Bytes) (z : ℤ) (r : Bytes) :
    Prop :=
  ∃ digits, s = digits++cr::lf::r ∧ (∀ ch ∈ digits, isDigit ch = true) ∧
    (haveDigit = true ∨ digits ≠ []) ∧ (digits ≠ [] → numeral value digits ≤ int64Max) ∧
    z = signed negative (numeral value digits)

section line

variable (negative : Bool) (value : ℕ) (haveDigit : Bool) (s : Bytes) (z : ℤ) (r : Bytes)

theorem decimalDigits_cr :
    decimalDigits negative value haveDigit (cr::s) = .complete (z,r) ↔
      haveDigit = true ∧ s = lf::r ∧ z = signed negative value := by
  cases haveDigit with
  | false => simp [decimalDigits]
  | true =>
    cases s with
    | nil => simp [decimalDigits, token]
    | cons next s =>
      by_cases hlf : next = lf
      · simp [decimalDigits, token, accept, hlf, signed, and_comm, eq_comm]
      · simp [decimalDigits, token, reject, hlf]

theorem lineFrom_cr :
    LineFrom negative value haveDigit (cr::s) z r ↔
      haveDigit = true ∧ s = lf::r ∧ z = signed negative value := by
  constructor
  · rintro ⟨digits,hs,hd,hhave,_,hz⟩
    cases digits with
    | nil => exact ⟨by simpa using hhave,by simpa using hs,hz⟩
    | cons d digits =>
      simp only [List.cons_append, List.cons.injEq] at hs
      have := hd d (by simp)
      rw [← hs.1, isDigit_cr] at this
      cases this
  · rintro ⟨hhave,rfl,hz⟩
    exact ⟨[],rfl,by simp,Or.inl hhave,by simp,hz⟩

variable (ch : UInt8) (hcr : ch ≠ cr)

include hcr

theorem decimalDigits_digit :
    decimalDigits negative value haveDigit (ch::s) = .complete (z,r) ↔
      isDigit ch = true ∧ value*10+digitValue ch ≤ int64Max ∧
        decimalDigits negative (value*10+digitValue ch) true s = .complete (z,r) := by
  by_cases hdigit : isDigit ch = true
  · have hguard := guard_exact ch hdigit value
    by_cases hbig : (int64Max-digitValue ch)/10 < value
    · have hover := Nat.not_le.mpr (hguard.mp hbig)
      simp [decimalDigits, hcr, hdigit, hbig, hover]
    · have hsmall := Nat.not_lt.mp (hguard.not.mp hbig)
      simp [decimalDigits, hcr, hdigit, hbig, hsmall]
  · simp [decimalDigits, hcr, hdigit]

theorem lineFrom_digit :
    LineFrom negative value haveDigit (ch::s) z r ↔
      isDigit ch = true ∧ value*10+digitValue ch ≤ int64Max ∧
        LineFrom negative (value*10+digitValue ch) true s z r := by
  constructor
  · rintro ⟨digits,hs,hd,_,hle,hz⟩
    cases digits with
    | nil =>
      simp only [List.nil_append, List.cons.injEq] at hs
      exact absurd hs.1 hcr
    | cons d rest =>
      simp only [List.cons_append, List.cons.injEq] at hs
      obtain ⟨rfl,hrest⟩ := hs
      have hle' : numeral (value*10+digitValue ch) rest ≤ int64Max := hle (by simp)
      exact ⟨hd ch (by simp),le_trans (numeral_ge _ rest) hle',rest,hrest,
        fun d hm => hd d (by simp [hm]),Or.inl rfl,fun _ => hle',hz⟩
  · rintro ⟨hdigit,hsmall,digits,rfl,hd,_,hle,hz⟩
    refine ⟨ch::digits,rfl,List.forall_mem_cons.mpr ⟨hdigit,hd⟩,Or.inr (by simp),fun _ => ?_,hz⟩
    by_cases hnil : digits = []
    · subst hnil
      exact hsmall
    · exact hle hnil

end line

theorem decimalDigits_iff (negative : Bool) (value : ℕ) (haveDigit : Bool) (s : Bytes) (z : ℤ)
    (r : Bytes) :
    decimalDigits negative value haveDigit s = .complete (z,r) ↔
      LineFrom negative value haveDigit s z r := by
  induction s generalizing value haveDigit with
  | nil => cases haveDigit <;> simp [decimalDigits, LineFrom]
  | cons ch s ih =>
    by_cases hcr : ch = cr
    · rw [hcr, decimalDigits_cr, lineFrom_cr]
    · rw [decimalDigits_digit _ _ _ _ _ _ _ hcr, lineFrom_digit _ _ _ _ _ _ _ hcr, ih]

/-- A line with a number that an `int64` holds. -/
def IsLine (word : Bytes) (z : ℤ) : Prop :=
  ∃ digits n, IsNumeral digits n ∧ n ≤ int64Max ∧
    (word = digits++crlf ∧ z = n ∨ word = minus::digits++crlf ∧ z = -(n : ℤ))

theorem decimalDigits_start (negative : Bool) (s : Bytes) (z : ℤ) (r : Bytes) :
    decimalDigits negative 0 false s = .complete (z,r) ↔
      ∃ digits n, s = digits++crlf++r ∧ IsNumeral digits n ∧ n ≤ int64Max ∧
        z = signed negative n := by
  rw [decimalDigits_iff]
  constructor
  · rintro ⟨digits,hs,hd,hne,hle,hz⟩
    have hne' : digits ≠ [] := by simpa using hne
    exact ⟨digits,_,by simpa [crlf, cr, lf] using hs,⟨hne',hd,rfl⟩,hle hne',hz⟩
  · rintro ⟨digits,n,hs,⟨hne,hd,rfl⟩,hle,hz⟩
    exact ⟨digits,by simpa [crlf, cr, lf] using hs,hd,Or.inr hne,fun _ => hle,hz⟩

theorem numeral_head (digits : Bytes) (n : ℕ) (h : IsNumeral digits n) :
    ∃ ch rest, digits = ch::rest ∧ ch ≠ minus := by
  obtain ⟨hne,hd,_⟩ := h
  cases digits with
  | nil => exact absurd rfl hne
  | cons ch rest =>
    refine ⟨ch,rest,rfl,?_⟩
    rintro rfl
    exact absurd (hd minus (by simp)) (by decide)

theorem line_recognized : Recognizes parseDecimalLine IsLine := by
  intro s z r
  cases s with
  | nil =>
    simp only [parseDecimalLine, reduceCtorEq, false_iff]
    rintro ⟨w,hs,digits,n,_,_,⟨rfl,_⟩ | ⟨rfl,_⟩⟩
    · simp [crlf] at hs
    · cases hs
  | cons ch rest =>
    by_cases hm : ch = minus
    · subst hm
      have hstep : parseDecimalLine (minus::rest) = .complete (z,r) ↔
          decimalDigits true 0 false rest = .complete (z,r) := by
        cases rest with
        | nil => simp [parseDecimalLine, decimalDigits]
        | cons d rest => simp [parseDecimalLine]
      rw [hstep, decimalDigits_start]
      constructor
      · rintro ⟨digits,n,rfl,hn,hle,rfl⟩
        exact ⟨minus::digits++crlf,rfl,digits,n,hn,hle,Or.inr ⟨rfl,rfl⟩⟩
      · rintro ⟨w,hs,digits,n,hn,hle,⟨rfl,_⟩ | ⟨rfl,rfl⟩⟩
        · obtain ⟨d,more,rfl,hne⟩ := numeral_head digits n hn
          simp only [List.cons_append, List.cons.injEq] at hs
          exact absurd hs.1.symm hne
        · simp only [List.cons_append, List.cons.injEq, true_and] at hs
          exact ⟨digits,n,hs,hn,hle,rfl⟩
    · have hstep : parseDecimalLine (ch::rest) = decimalDigits false 0 false (ch::rest) := by
        simp [parseDecimalLine, hm]
      rw [hstep, decimalDigits_start]
      constructor
      · rintro ⟨digits,n,hs,hn,hle,rfl⟩
        exact ⟨digits++crlf,hs,digits,n,hn,hle,Or.inl ⟨rfl,rfl⟩⟩
      · rintro ⟨w,hs,digits,n,hn,hle,⟨rfl,rfl⟩ | ⟨rfl,_⟩⟩
        · exact ⟨digits,n,hs,hn,hle,rfl⟩
        · simp only [List.cons_append, List.cons.injEq] at hs
          exact absurd hs.1 hm

/-! Items and requests. -/

theorem length_line (word : Bytes) (n : ℕ) (h : IsLength word n) (hn : n ≤ int64Max) :
    IsLine (word++crlf) n := by
  rcases h with h | ⟨digits,rfl,hd,rfl⟩
  · exact ⟨word,n,h,hn,Or.inl ⟨rfl,rfl⟩⟩
  · exact ⟨digits,0,hd,hn,Or.inr ⟨rfl,rfl⟩⟩

theorem line_length (word : Bytes) (z : ℤ) (h : IsLine word z) (hz : 0 ≤ z) :
    ∃ length, word = length++crlf ∧ IsLength length z.toNat := by
  obtain ⟨digits,n,hn,_,⟨rfl,rfl⟩ | ⟨rfl,rfl⟩⟩ := h
  · exact ⟨digits,rfl,Or.inl (by simpa using hn)⟩
  · have hzero : n = 0 := by omega
    subst hzero
    exact ⟨minus::digits,rfl,Or.inr ⟨digits,rfl,hn,rfl⟩⟩

theorem line_count (word : Bytes) (z : ℤ) (h : IsLine word z) (hz : 0 < z) :
    ∃ count, word = count++crlf ∧ IsNumeral count z.toNat := by
  obtain ⟨digits,n,hn,_,⟨rfl,rfl⟩ | ⟨rfl,rfl⟩⟩ := h
  · exact ⟨digits,rfl,by simpa using hn⟩
  · omega

theorem terminated_split (bytes : Bytes) (n : ℕ) (hlen : bytes.length = n+2)
    (hend : bytes.drop n = [cr,lf]) :
    (bytes.take n).length = n ∧ bytes = bytes.take n++crlf := by
  constructor
  · rw [List.length_take]
    omega
  · have h := List.take_append_drop n bytes
    rw [hend] at h
    exact h.symm

theorem item_recognized : Recognizes parseArgument IsItem := by
  refine recognizes_congr _ _ _ (recognizes_token _ _ (fun ch =>
    recognizes_ite (ch ≠ dollar) _ _ _ _ (fun _ => recognizes_reject _) (fun _ =>
      recognizes_andThen _ _ _ _ line_recognized (fun length =>
        recognizes_ite (length < 0 ∨ requestMax < length) _ _ _ _ (fun _ => recognizes_reject _)
          (fun _ => recognizes_andThen _ _ _ _ (recognizes_window _) (fun bytes =>
            recognizes_ite (bytes.drop length.toNat ≠ [cr,lf]) _ _ _ _
              (fun _ => recognizes_reject _) (fun _ => recognizes_accept _))))))) ?_
  intro w arg
  constructor
  · rintro ⟨ch,x,rfl,h⟩
    split_ifs at h with hch
    obtain ⟨z,line,y,rfl,hline,h⟩ := h
    split_ifs at h with hz
    obtain ⟨bytes,_,tail,rfl,⟨hlen,rfl⟩,h⟩ := h
    split_ifs at h with hend
    obtain ⟨rfl,rfl⟩ := h
    obtain ⟨length,rfl,hl⟩ := line_length line z hline (by omega)
    obtain ⟨htake,hbytes⟩ := terminated_split bytes z.toNat hlen (not_not.mp hend)
    refine ⟨by omega,length,by rwa [htake],?_⟩
    rw [not_not.mp hch, List.append_nil]
    nth_rewrite 1 [hbytes]
    simp
  · rintro ⟨hle,length,hlen,rfl⟩
    refine ⟨dollar,length++crlf++arg++crlf,rfl,?_⟩
    rw [if_neg (by simp)]
    refine ⟨arg.length,length++crlf,arg++crlf,by simp,
      length_line length _ hlen (le_trans hle (by decide)),?_⟩
    rw [if_neg (by omega)]
    refine ⟨arg++crlf,arg++crlf,[],by simp,⟨by simp,rfl⟩,?_⟩
    rw [if_neg (by simp [crlf, cr, lf])]
    exact ⟨rfl,by simp⟩

theorem request_recognized : Recognizes parseRequest IsRequest := by
  refine recognizes_congr _ _ _ (recognizes_token _ _ (fun ch =>
    recognizes_ite (ch ≠ star) _ _ _ _ (fun _ => recognizes_reject _) (fun _ =>
      recognizes_andThen _ _ _ _ line_recognized (fun nargs =>
        recognizes_ite (nargs ≤ 0 ∨ respMaxArgs < nargs) _ _ _ _ (fun _ => recognizes_reject _)
          (fun _ => recognizes_times _ _ item_recognized _))))) ?_
  intro w args
  constructor
  · rintro ⟨ch,x,rfl,h⟩
    split_ifs at h with hch
    obtain ⟨z,line,y,rfl,hline,h⟩ := h
    split_ifs at h with hz
    obtain ⟨hlen,items,rfl,hall⟩ := h
    obtain ⟨count,rfl,hc⟩ := line_count line z hline (by omega)
    refine ⟨by omega,by omega,count,items,by rwa [hlen],?_,hall⟩
    rw [not_not.mp hch]
    rfl
  · rintro ⟨hlo,hhi,count,items,hcount,rfl,hall⟩
    refine ⟨star,count++crlf++items.flatten,rfl,?_⟩
    rw [if_neg (by simp)]
    refine ⟨args.length,count++crlf,items.flatten,rfl,
      length_line count _ (Or.inl hcount) (le_trans hhi (by decide)),?_⟩
    rw [if_neg (by omega)]
    exact ⟨by simp,items,rfl,hall⟩

/-- A buffer is a complete request exactly when it starts with a word of the grammar. -/
theorem respParse_iff (buffer : Bytes) (args : List Bytes) (consumed : ℕ) :
    respParse buffer = .complete ⟨args,consumed⟩ ↔
      ∃ word rest, buffer = word++rest ∧ IsRequest word args ∧ consumed = word.length := by
  constructor
  · intro h
    obtain ⟨hp,_,hle⟩ := respParse_complete buffer _ h
    obtain ⟨word,hb,hg⟩ := (request_recognized buffer args _).mp hp
    refine ⟨word,buffer.drop consumed,hb,hg,?_⟩
    have hlen := congrArg List.length hb
    rw [List.length_append, List.length_drop] at hlen
    simp only at hle hlen
    omega
  · rintro ⟨word,rest,rfl,hg,rfl⟩
    rw [respParse_of_rest _ args rest ((request_recognized _ args rest).mpr ⟨word,rfl,hg⟩)]
    simp

/-! The encoding of the writers. -/

theorem numeral_decimal (n : ℕ) : numeral 0 (decimal n) = n := by
  induction n using Nat.strong_induction_on with
  | _ n ih =>
    have hval : digitValue (UInt8.ofNat (48+n%10)) = n%10 := by
      unfold digitValue
      rw [digit_toNat]
      omega
    have hsnoc : ∀ front : Bytes, numeral 0 (front++[UInt8.ofNat (48+n%10)]) =
        numeral 0 front*10+n%10 := by
      intro front
      rw [numeral, List.foldl_append, List.foldl_cons, List.foldl_nil, hval]
      rfl
    rw [decimal_digits, hsnoc]
    by_cases hz : n/10 = 0
    · rw [if_pos hz]
      simp only [numeral, List.foldl_nil]
      omega
    · rw [if_neg hz, ih (n/10) (by omega)]
      omega

theorem decimal_numeral (n : ℕ) : IsNumeral (decimal n) n := by
  refine ⟨decimal_ne_nil n,fun ch hm => ?_,numeral_decimal n⟩
  have h := decimal_digit n ch hm
  simp only [isDigit, decide_eq_true_eq, UInt8.le_iff_toNat_le]
  exact h

def encodeRequest (args : List Bytes) : Bytes := arrayHeader args.length++args.flatMap respBulk

theorem respBulk_item (arg : Bytes) (h : arg.length ≤ requestMax) : IsItem (respBulk arg) arg :=
  ⟨h,decimal arg.length,Or.inl (decimal_numeral _),rfl⟩

theorem encodeRequest_request (args : List Bytes) (hlo : 1 ≤ args.length)
    (hhi : args.length ≤ respMaxArgs) (hargs : ∀ arg ∈ args, arg.length ≤ requestMax) :
    IsRequest (encodeRequest args) args := by
  refine ⟨hlo,hhi,decimal args.length,args.map respBulk,decimal_numeral _,?_,?_⟩
  · rw [encodeRequest, List.flatMap_def]
    rfl
  · rw [List.forall₂_map_left_iff, List.forall₂_same]
    exact fun arg hm => respBulk_item arg (hargs arg hm)

/-- The bulk strings of a request, one `pglc_resp_write_bulk` each. -/
def writeBulks (base capacity limit : ℕ) :
    List Bytes → Memory × ℕ → Option (Memory × ℕ)
  | [], out => some out
  | arg::args, out =>
    (respWriteBulk out.1 base capacity out.2 arg limit).bind (writeBulks base capacity limit args)

def writeRequest (destination : Memory) (base capacity limit : ℕ) (args : List Bytes) :
    Option (Memory × ℕ) :=
  (respWriteArray destination base capacity 0 args.length limit).bind
    (writeBulks base capacity limit args)

theorem writeBulks_fits (base capacity limit : ℕ) (args : List Bytes) (out : Memory × ℕ)
    (hc : out.2+(args.flatMap respBulk).length ≤ capacity)
    (hl : out.2+(args.flatMap respBulk).length ≤ limit) :
    ∃ m, writeBulks base capacity limit args out =
        some (m,out.2+(args.flatMap respBulk).length) ∧
      Appended out.1 m base out.2 (args.flatMap respBulk) := by
  induction args generalizing out with
  | nil => exact ⟨out.1,rfl,appended_nil _ _ _⟩
  | cons arg args ih =>
    rw [List.flatMap_cons, List.length_append] at hc hl
    have hfirst := respWriteBulk_fits out.1 base capacity out.2 arg limit (by omega) (by omega)
    obtain ⟨m,hm,happ⟩ := ih (write out.1 (base+out.2) (respBulk arg),
      out.2+(respBulk arg).length) (by simp only; omega) (by simp only; omega)
    refine ⟨m,?_,?_⟩
    · rw [writeBulks, hfirst, Option.bind_some, hm, List.flatMap_cons, List.length_append,
        Nat.add_assoc]
    · rw [List.flatMap_cons]
      exact appended_trans _ _ _ _ _ _ _ (appended_write _ _ _ _) happ

theorem writeRequest_fits (destination : Memory) (base capacity limit : ℕ) (args : List Bytes)
    (hc : (encodeRequest args).length ≤ capacity) (hl : (encodeRequest args).length ≤ limit) :
    ∃ m, writeRequest destination base capacity limit args =
        some (m,(encodeRequest args).length) ∧
      read m base (encodeRequest args).length = encodeRequest args := by
  rw [encodeRequest, List.length_append] at hc hl
  have hfirst := respWriteArray_fits destination base capacity 0 args.length limit
    (by omega) (by omega)
  rw [Nat.zero_add] at hfirst
  obtain ⟨m,hm,happ⟩ := writeBulks_fits base capacity limit args
    (write destination (base+0) (arrayHeader args.length),(arrayHeader args.length).length) hc hl
  refine ⟨m,?_,?_⟩
  · rw [writeRequest, hfirst, Option.bind_some, hm, encodeRequest, List.length_append]
  · have hall := appended_trans destination _ m base 0 (arrayHeader args.length)
      (args.flatMap respBulk) (appended_write _ _ _ _) (by rwa [Nat.zero_add])
    exact hall.held

end PgLocalCache.RespGrammar
