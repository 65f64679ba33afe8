import PgLocalCache.PrefixCode
import PgLocalCache.RowPayload

/-!
# The descriptor fingerprint of row_payload.c

The fingerprint of a tuple descriptor is an FNV-1a hash that takes one byte at a
time. The writers are stated over an arbitrary consumer of bytes: with the hash
step they are the functions of the source, and with a list that grows at its end
they give the sequence of bytes the hash is fed. A name is the text in front of
the first zero byte of its storage.
-/

namespace PgLocalCache.RowFingerprint

open PrefixCode RowPayload

def nameDataLen : ℕ := 64
def fnvOffset : UInt64 := 14695981039346656037
def fnvPrime : UInt64 := 1099511628211

structure Attribute where
  attnum : ℤ
  attname : Bytes
  atttypid : ℕ
  atttypmod : ℤ
  attcollation : ℕ
  attlen : ℤ
  attndims : ℤ
  attbyval : Bool
  attalign : UInt8
  attstorage : UInt8
  attcompression : UInt8
  attisdropped : Bool
  atthasmissing : Bool
  attgenerated : UInt8
  attidentity : UInt8
  deriving DecidableEq, Repr

structure TupleDesc where
  tdtypeid : ℕ
  tdtypmod : ℤ
  natts : ℤ
  attrs : ℕ → Attribute

def nameStr (name : Bytes) : Bytes := name.takeWhile (· ≠ 0)

def unsigned16 (value : ℤ) : ℕ := (value%2^16).toNat

def flagByte (flag : Bool) : UInt8 := if flag then 1 else 0

section Writers

variable {σ : Type} (put : σ → UInt8 → σ)

def fingerprintUint (s : σ) : ℕ → ℕ → σ
  | _, 0 => s
  | value, width+1 => fingerprintUint (put s (UInt8.ofNat value)) (value/256) width

def fingerprintName (s : σ) (name : Bytes) : σ :=
  (nameStr name).foldl put (fingerprintUint put s (nameStr name).length 2)

def fingerprintAttribute (s : σ) (a : Attribute) : σ :=
  let s := fingerprintUint put s (unsigned16 a.attnum) 2
  let s := fingerprintName put s a.attname
  let s := fingerprintUint put s a.atttypid 4
  let s := fingerprintUint put s (unsigned32 a.atttypmod) 4
  let s := fingerprintUint put s a.attcollation 4
  let s := fingerprintUint put s (unsigned16 a.attlen) 2
  let s := fingerprintUint put s (unsigned16 a.attndims) 2
  let s := put s (flagByte a.attbyval)
  let s := put s a.attalign
  let s := put s a.attstorage
  let s := put s a.attcompression
  let s := put s (flagByte a.attisdropped)
  let s := put s (flagByte a.atthasmissing)
  let s := put s a.attgenerated
  put s a.attidentity

def fingerprintLoop (attrs : ℕ → Attribute) : ℕ → ℕ → σ → σ
  | _, 0, s => s
  | i, n+1, s => fingerprintLoop attrs (i+1) n (fingerprintAttribute put s (attrs i))

def fingerprintDescriptor (s : σ) (d : TupleDesc) : σ :=
  let s := fingerprintUint put s d.tdtypeid 4
  let s := fingerprintUint put s (unsigned32 d.tdtypmod) 4
  let s := fingerprintUint put s d.natts.toNat 4
  fingerprintLoop put d.attrs 0 d.natts.toNat s

end Writers

def attributesNumbered (attrs : ℕ → Attribute) : ℕ → ℕ → Bool
  | _, 0 => true
  | i, n+1 => if (attrs i).attnum ≠ i+1 then false else attributesNumbered attrs (i+1) n

def rowDescriptorSupported : Option TupleDesc → Bool
  | none => false
  | some d =>
    if d.tdtypeid = 0 ∨ d.natts < 0 ∨ (maxTupleAttributes : ℤ) < d.natts then false
    else attributesNumbered d.attrs 0 d.natts.toNat

def fingerprintByte (hash : UInt64) (value : UInt8) : UInt64 :=
  (hash ^^^ value.toUInt64)*fnvPrime

def tupledescFingerprint (descriptor : Option TupleDesc) : UInt64 :=
  match descriptor with
  | none => 0
  | some d =>
    if rowDescriptorSupported (some d) then fingerprintDescriptor fingerprintByte fnvOffset d
    else 0

/-- The bytes that the hash is fed, in order. -/
def fingerprintInput (d : TupleDesc) : Bytes :=
  fingerprintDescriptor (fun fed byte => fed++[byte]) [] d

/-! The fields of the stream. -/

def attributeFields (a : Attribute) : List Bytes :=
  [lowBytes 2 (unsigned16 a.attnum),lowBytes 2 (nameStr a.attname).length++nameStr a.attname,
    lowBytes 4 a.atttypid,lowBytes 4 (unsigned32 a.atttypmod),lowBytes 4 a.attcollation,
    lowBytes 2 (unsigned16 a.attlen),lowBytes 2 (unsigned16 a.attndims),[flagByte a.attbyval],
    [a.attalign],[a.attstorage],[a.attcompression],[flagByte a.attisdropped],
    [flagByte a.atthasmissing],[a.attgenerated],[a.attidentity]]

def headerFields (d : TupleDesc) : List Bytes :=
  [lowBytes 4 d.tdtypeid,lowBytes 4 (unsigned32 d.tdtypmod),lowBytes 4 d.natts.toNat]

def descriptorStream (d : TupleDesc) : Bytes :=
  (headerFields d).flatten++
    (List.range' 0 d.natts.toNat).flatMap (fun i => (attributeFields (d.attrs i)).flatten)

section Writers

variable {σ : Type} (put : σ → UInt8 → σ)

theorem fingerprintUint_fold (s : σ) (value width : ℕ) :
    fingerprintUint put s value width = (lowBytes width value).foldl put s := by
  induction width generalizing s value with
  | zero => rfl
  | succ width ih => exact ih (put s (UInt8.ofNat value)) (value/256)

theorem fingerprintName_fold (s : σ) (name : Bytes) : fingerprintName put s name =
    (lowBytes 2 (nameStr name).length++nameStr name).foldl put s := by
  rw [fingerprintName, fingerprintUint_fold, List.foldl_append]

theorem fingerprintAttribute_fold (s : σ) (a : Attribute) :
    fingerprintAttribute put s a = (attributeFields a).flatten.foldl put s := by
  simp only [fingerprintAttribute, fingerprintUint_fold, fingerprintName_fold, attributeFields,
    List.flatten_cons, List.flatten_nil, List.foldl_append, List.foldl_cons, List.foldl_nil]

theorem fingerprintLoop_fold (attrs : ℕ → Attribute) (i n : ℕ) (s : σ) :
    fingerprintLoop put attrs i n s =
      ((List.range' i n).flatMap (fun i => (attributeFields (attrs i)).flatten)).foldl put s := by
  induction n generalizing i s with
  | zero => rfl
  | succ n ih =>
    rw [fingerprintLoop, ih, fingerprintAttribute_fold, List.range'_succ, List.flatMap_cons,
      List.foldl_append]

theorem fingerprintDescriptor_fold (s : σ) (d : TupleDesc) :
    fingerprintDescriptor put s d = (descriptorStream d).foldl put s := by
  simp only [fingerprintDescriptor, fingerprintUint_fold, fingerprintLoop_fold, descriptorStream,
    headerFields, List.flatten_cons, List.flatten_nil, List.foldl_append, List.foldl_nil]

end Writers

theorem foldl_snoc (bytes fed : Bytes) :
    bytes.foldl (fun fed byte => fed++[byte]) fed = fed++bytes := by
  induction bytes generalizing fed with
  | nil => rw [List.foldl_nil, List.append_nil]
  | cons byte bytes ih => rw [List.foldl_cons, ih, List.append_assoc, List.singleton_append]

theorem fingerprintInput_stream (d : TupleDesc) : fingerprintInput d = descriptorStream d := by
  rw [fingerprintInput, fingerprintDescriptor_fold, foldl_snoc, List.nil_append]

theorem tupledescFingerprint_input (d : TupleDesc) (h : rowDescriptorSupported (some d) = true) :
    tupledescFingerprint (some d) = (fingerprintInput d).foldl fingerprintByte fnvOffset := by
  rw [tupledescFingerprint, if_pos h, fingerprintDescriptor_fold, fingerprintInput_stream]

/-! Descriptors whose values fit the widths that are written. -/

structure AttributeFits (a : Attribute) : Prop where
  name : (nameStr a.attname).length < nameDataLen
  typid : a.atttypid < 2^32
  typmod : -2^31 ≤ a.atttypmod ∧ a.atttypmod < 2^31
  collation : a.attcollation < 2^32
  len : -2^15 ≤ a.attlen ∧ a.attlen < 2^15
  ndims : -2^15 ≤ a.attndims ∧ a.attndims < 2^15

structure Fits (d : TupleDesc) : Prop where
  typeid : d.tdtypeid < 2^32
  typmod : -2^31 ≤ d.tdtypmod ∧ d.tdtypmod < 2^31
  attributes : ∀ i < d.natts.toNat, AttributeFits (d.attrs i)

structure SameAttribute (a b : Attribute) : Prop where
  name : nameStr a.attname = nameStr b.attname
  typid : a.atttypid = b.atttypid
  typmod : a.atttypmod = b.atttypmod
  collation : a.attcollation = b.attcollation
  len : a.attlen = b.attlen
  ndims : a.attndims = b.attndims
  byval : a.attbyval = b.attbyval
  align : a.attalign = b.attalign
  storage : a.attstorage = b.attstorage
  compression : a.attcompression = b.attcompression
  dropped : a.attisdropped = b.attisdropped
  missing : a.atthasmissing = b.atthasmissing
  generated : a.attgenerated = b.attgenerated
  identity : a.attidentity = b.attidentity

structure SameDescriptor (d d' : TupleDesc) : Prop where
  typeid : d.tdtypeid = d'.tdtypeid
  typmod : d.tdtypmod = d'.tdtypmod
  natts : d.natts = d'.natts
  attributes : ∀ i < d.natts.toNat, SameAttribute (d.attrs i) (d'.attrs i)

theorem attributesNumbered_iff (attrs : ℕ → Attribute) (i n : ℕ) :
    attributesNumbered attrs i n = true ↔ ∀ j < n, (attrs (i+j)).attnum = (i+j : ℕ)+1 := by
  induction n generalizing i with
  | zero => simp [attributesNumbered]
  | succ n ih =>
    rw [attributesNumbered]
    constructor
    · intro h j hj
      split at h
      · cases h
      · rename_i hi
        cases j with
        | zero => exact not_not.mp hi
        | succ j =>
          have hnext := (ih (i+1)).mp h j (by omega)
          rw [show i+1+j = i+(j+1) by omega] at hnext
          exact hnext
    · intro h
      have hi : (attrs i).attnum = (i : ℤ)+1 := h 0 (by omega)
      rw [if_neg (not_not.mpr hi), ih]
      intro j hj
      have hnext := h (j+1) (by omega)
      rw [show i+(j+1) = i+1+j by omega] at hnext
      exact hnext

theorem supported_iff (d : TupleDesc) : rowDescriptorSupported (some d) = true ↔
    d.tdtypeid ≠ 0 ∧ 0 ≤ d.natts ∧ d.natts ≤ maxTupleAttributes ∧
      ∀ i < d.natts.toNat, (d.attrs i).attnum = (i : ℤ)+1 := by
  rw [rowDescriptorSupported]
  split
  · rename_i h
    simp only [Bool.false_eq_true, false_iff]
    omega
  · rename_i h
    rw [attributesNumbered_iff]
    simp only [Nat.zero_add]
    constructor
    · intro hnum
      exact ⟨by omega,by omega,by omega,hnum⟩
    · exact fun hs => hs.2.2.2

theorem unsigned32_inj {m n : ℤ} (hm : -2^31 ≤ m ∧ m < 2^31) (hn : -2^31 ≤ n ∧ n < 2^31) :
    unsigned32 m = unsigned32 n ↔ m = n := by
  unfold unsigned32
  omega

theorem unsigned32_lt (n : ℤ) : unsigned32 n < 256^4 := by
  unfold unsigned32
  omega

theorem unsigned16_inj {m n : ℤ} (hm : -2^15 ≤ m ∧ m < 2^15) (hn : -2^15 ≤ n ∧ n < 2^15) :
    unsigned16 m = unsigned16 n ↔ m = n := by
  unfold unsigned16
  omega

theorem unsigned16_lt (n : ℤ) : unsigned16 n < 256^2 := by
  unfold unsigned16
  omega

theorem flagByte_inj {x y : Bool} : flagByte x = flagByte y ↔ x = y := by
  cases x <;> cases y <;> decide

/-- A name behind its length is told apart from every other name. -/
theorem nameField_splits {a b : Bytes} (ha : (nameStr a).length < nameDataLen)
    (hb : (nameStr b).length < nameDataLen) :
    Splits (lowBytes 2 (nameStr a).length++nameStr a) (lowBytes 2 (nameStr b).length++nameStr b)
      (nameStr a = nameStr b) := by
  unfold nameDataLen at ha hb
  have hlen : Splits (lowBytes 2 (nameStr a).length) (lowBytes 2 (nameStr b).length)
      ((nameStr a).length = (nameStr b).length) :=
    splits_imp (splits_length (by simp)) (lowBytes_inj (by omega) (by omega)).mp
  exact splits_imp (splits_append hlen splits_length) And.right

theorem nameField_inj {a b : Bytes} (ha : (nameStr a).length < nameDataLen)
    (hb : (nameStr b).length < nameDataLen) :
    lowBytes 2 (nameStr a).length++nameStr a = lowBytes 2 (nameStr b).length++nameStr b ↔
      nameStr a = nameStr b :=
  ⟨splits_eq (nameField_splits ha hb),fun h => by rw [h]⟩

theorem attributeFields_iff {a b : Attribute} (ha : AttributeFits a) (hb : AttributeFits b)
    (hnum : a.attnum = b.attnum) : attributeFields a = attributeFields b ↔ SameAttribute a b := by
  have htypid := ha.typid
  have htypid' := hb.typid
  have hcoll := ha.collation
  have hcoll' := hb.collation
  simp only [attributeFields, List.cons.injEq, and_true, hnum, true_and,
    nameField_inj ha.name hb.name,
    lowBytes_inj (show a.atttypid < 256^4 by omega) (show b.atttypid < 256^4 by omega),
    lowBytes_inj (unsigned32_lt a.atttypmod) (unsigned32_lt b.atttypmod),
    unsigned32_inj ha.typmod hb.typmod,
    lowBytes_inj (show a.attcollation < 256^4 by omega) (show b.attcollation < 256^4 by omega),
    lowBytes_inj (unsigned16_lt a.attlen) (unsigned16_lt b.attlen), unsigned16_inj ha.len hb.len,
    lowBytes_inj (unsigned16_lt a.attndims) (unsigned16_lt b.attndims),
    unsigned16_inj ha.ndims hb.ndims, flagByte_inj]
  constructor
  · rintro ⟨h1,h2,h3,h4,h5,h6,h7,h8,h9,h10,h11,h12,h13,h14⟩
    exact ⟨h1,h2,h3,h4,h5,h6,h7,h8,h9,h10,h11,h12,h13,h14⟩
  · rintro ⟨h1,h2,h3,h4,h5,h6,h7,h8,h9,h10,h11,h12,h13,h14⟩
    exact ⟨h1,h2,h3,h4,h5,h6,h7,h8,h9,h10,h11,h12,h13,h14⟩

theorem attributeFields_splits {a b : Attribute} (ha : AttributeFits a) (hb : AttributeFits b) :
    Splits (attributeFields a).flatten (attributeFields b).flatten
      (attributeFields a = attributeFields b) := by
  have hname := splits_imp (nameField_splits ha.name hb.name) (nameField_inj ha.name hb.name).mpr
  refine splits_flatten ?_
  unfold attributeFields
  refine .cons (splits_length (by simp)) (.cons hname ?_)
  iterate 13 refine .cons (splits_length (by simp)) ?_
  exact .nil

theorem headerFields_iff {d d' : TupleDesc} (h : Fits d) (h' : Fits d')
    (hs : 0 ≤ d.natts ∧ d.natts ≤ maxTupleAttributes)
    (hs' : 0 ≤ d'.natts ∧ d'.natts ≤ maxTupleAttributes) :
    headerFields d = headerFields d' ↔
      d.tdtypeid = d'.tdtypeid ∧ d.tdtypmod = d'.tdtypmod ∧ d.natts = d'.natts := by
  have htypeid := h.typeid
  have htypeid' := h'.typeid
  unfold maxTupleAttributes at hs hs'
  have hnatts : d.natts.toNat = d'.natts.toNat ↔ d.natts = d'.natts := by omega
  simp only [headerFields, List.cons.injEq, and_true,
    lowBytes_inj (show d.tdtypeid < 256^4 by omega) (show d'.tdtypeid < 256^4 by omega),
    lowBytes_inj (unsigned32_lt d.tdtypmod) (unsigned32_lt d'.tdtypmod),
    unsigned32_inj h.typmod h'.typmod,
    lowBytes_inj (show d.natts.toNat < 256^4 by omega) (show d'.natts.toNat < 256^4 by omega),
    hnatts]

theorem headerFields_splits (d d' : TupleDesc) :
    Splits (headerFields d).flatten (headerFields d').flatten
      (headerFields d = headerFields d') := by
  refine splits_flatten ?_
  unfold headerFields
  iterate 3 refine .cons (splits_length (by simp)) ?_
  exact .nil

theorem attributes_splits {attrs attrs' : ℕ → Attribute} (is : List ℕ)
    (h : ∀ i ∈ is, AttributeFits (attrs i)) (h' : ∀ i ∈ is, AttributeFits (attrs' i))
    (hnum : ∀ i ∈ is, (attrs i).attnum = (attrs' i).attnum) :
    Splits (is.flatMap (fun i => (attributeFields (attrs i)).flatten))
      (is.flatMap (fun i => (attributeFields (attrs' i)).flatten))
      (∀ i ∈ is, SameAttribute (attrs i) (attrs' i)) := by
  induction is with
  | nil => exact fun s t heq => ⟨by simp,heq⟩
  | cons i is ih =>
    have hi := h i (by simp)
    have hi' := h' i (by simp)
    have hfirst := splits_imp (attributeFields_splits hi hi')
      (attributeFields_iff hi hi' (hnum i (by simp))).mp
    have hrest := ih (fun j hj => h j (by simp [hj])) (fun j hj => h' j (by simp [hj]))
      (fun j hj => hnum j (by simp [hj]))
    rw [List.flatMap_cons, List.flatMap_cons]
    refine splits_imp (splits_append hfirst (fun _ => hrest)) ?_
    rintro ⟨hsame,hall⟩ j hj
    rcases List.mem_cons.mp hj with rfl | hj
    · exact hsame
    · exact hall j hj

theorem descriptorStream_splits {d d' : TupleDesc} (h : Fits d) (h' : Fits d')
    (hs : rowDescriptorSupported (some d) = true) (hs' : rowDescriptorSupported (some d') = true) :
    Splits (descriptorStream d) (descriptorStream d') (SameDescriptor d d') := by
  obtain ⟨_,hpos,hmax,hnum⟩ := (supported_iff d).mp hs
  obtain ⟨_,hpos',hmax',hnum'⟩ := (supported_iff d').mp hs'
  have hheader := splits_imp (headerFields_splits d d')
    (headerFields_iff h h' ⟨hpos,hmax⟩ ⟨hpos',hmax'⟩).mp
  have hattrs : d.tdtypeid = d'.tdtypeid ∧ d.tdtypmod = d'.tdtypmod ∧ d.natts = d'.natts →
      Splits
        ((List.range' 0 d.natts.toNat).flatMap (fun i => (attributeFields (d.attrs i)).flatten))
        ((List.range' 0 d'.natts.toNat).flatMap (fun i => (attributeFields (d'.attrs i)).flatten))
        (∀ i ∈ List.range' 0 d.natts.toNat, SameAttribute (d.attrs i) (d'.attrs i)) := by
    rintro ⟨_,_,hnatts⟩
    have hmem : ∀ i ∈ List.range' 0 d.natts.toNat, i < d.natts.toNat := fun i hi => by
      rw [List.mem_range'_1] at hi
      omega
    have hfits := h'.attributes
    rw [← hnatts] at hnum' hfits ⊢
    exact attributes_splits _ (fun i hi => h.attributes i (hmem i hi))
      (fun i hi => hfits i (hmem i hi))
      (fun i hi => (hnum i (hmem i hi)).trans (hnum' i (hmem i hi)).symm)
  refine splits_imp (splits_append hheader hattrs) ?_
  rintro ⟨⟨htypeid,htypmod,hnatts⟩,hall⟩
  exact ⟨htypeid,htypmod,hnatts,fun i hi => hall i (by rw [List.mem_range'_1]; omega)⟩

theorem descriptorStream_same {d d' : TupleDesc} (h : Fits d) (h' : Fits d')
    (hs : rowDescriptorSupported (some d) = true) (hs' : rowDescriptorSupported (some d') = true)
    (hsame : SameDescriptor d d') : descriptorStream d = descriptorStream d' := by
  obtain ⟨_,hpos,hmax,hnum⟩ := (supported_iff d).mp hs
  obtain ⟨_,hpos',hmax',hnum'⟩ := (supported_iff d').mp hs'
  have hfits : ∀ i < d.natts.toNat, AttributeFits (d'.attrs i) := by
    rw [hsame.natts]
    exact h'.attributes
  rw [← hsame.natts] at hnum'
  have hheader : headerFields d = headerFields d' :=
    (headerFields_iff h h' ⟨hpos,hmax⟩ ⟨hpos',hmax'⟩).mpr ⟨hsame.typeid,hsame.typmod,hsame.natts⟩
  unfold descriptorStream
  rw [hheader, ← hsame.natts]
  congr 1
  refine List.flatMap_congr fun i hi => ?_
  rw [List.mem_range'_1] at hi
  have hlt : i < d.natts.toNat := by omega
  rw [(attributeFields_iff (h.attributes i hlt) (hfits i hlt)
    ((hnum i hlt).trans (hnum' i hlt).symm)).mpr (hsame.attributes i hlt)]

/-- The hash of a supported descriptor is fed a sequence of bytes that determines the row type,
the number of attributes and every field of every attribute, and that no other descriptor's
sequence properly extends. -/
theorem fingerprint_input_unambiguous (d d' : TupleDesc) (h : Fits d) (h' : Fits d')
    (hs : rowDescriptorSupported (some d) = true) (hs' : rowDescriptorSupported (some d') = true) :
    tupledescFingerprint (some d) = (fingerprintInput d).foldl fingerprintByte fnvOffset ∧
      (fingerprintInput d = fingerprintInput d' ↔ SameDescriptor d d') ∧
      (fingerprintInput d <+: fingerprintInput d' ∨ fingerprintInput d' <+: fingerprintInput d →
        fingerprintInput d = fingerprintInput d') := by
  have hsplits := descriptorStream_splits h h' hs hs'
  refine ⟨tupledescFingerprint_input d hs,?_,?_⟩
  · rw [fingerprintInput_stream, fingerprintInput_stream]
    exact ⟨splits_eq hsplits,descriptorStream_same h h' hs hs'⟩
  · rw [fingerprintInput_stream, fingerprintInput_stream]
    rintro (hp | hp)
    · exact splits_initial hsplits hp
    · exact (splits_initial (descriptorStream_splits h' h hs' hs) hp).symm

def plainAttribute (attnum : ℤ) (attname : Bytes) : Attribute :=
  ⟨attnum,attname,23,-1,0,4,0,true,105,112,0,false,false,0,0⟩

def oneColumn (attname : Bytes) : TupleDesc := ⟨16400,-1,1,fun i => plainAttribute (i+1) attname⟩

theorem oneColumn_fits (attname : Bytes) (h : (nameStr attname).length < nameDataLen) :
    Fits (oneColumn attname) := by
  refine ⟨?_,?_,fun i _ => ⟨h,?_,?_,?_,?_,?_⟩⟩ <;> simp [oneColumn, plainAttribute]

/-- Two tables whose only column has a name of one letter and a name that extends it. -/
theorem extended_name_told_apart :
    Fits (oneColumn [97,0]) ∧ Fits (oneColumn [97,98,0]) ∧
      rowDescriptorSupported (some (oneColumn [97,0])) = true ∧
      rowDescriptorSupported (some (oneColumn [97,98,0])) = true ∧
      ¬fingerprintInput (oneColumn [97,0]) <+: fingerprintInput (oneColumn [97,98,0]) := by
  have hshort := oneColumn_fits [97,0] (by decide)
  have hlong := oneColumn_fits [97,98,0] (by decide)
  obtain ⟨_,hiff,hinitial⟩ := fingerprint_input_unambiguous _ _ hshort hlong rfl rfl
  refine ⟨hshort,hlong,rfl,rfl,fun hp => ?_⟩
  have hname : nameStr [97,0] = nameStr [97,98,0] :=
    ((hiff.mp (hinitial (Or.inl hp))).attributes 0 (by decide)).name
  exact absurd hname (by decide)

end PgLocalCache.RowFingerprint
