import PgLocalCache.FastPath
import PgLocalCache.MgetReply

/-!
# The fast MGET path against the general one

Whenever the fast path answers, the general path picks the same mapping, builds
the same canonical key and replies with the same bytes. The server enters through
`Documented`: its encoding check accepts texts of the encoding, `jsonb_in` reads a
plainly spelled object as the field it spells, and the integer and text types
print what they read.
-/

namespace PgLocalCache.FastAgreement

open PrefixCode CacheState ByteMemory KeyCodec KeyScan WireKey WorkerBackend MgetCommand Outcome
open MgetResults MgetSweeps MgetReply FastPath RespWriter

variable {W D : Type} (S : Server D) (B : Backend W D) (cfg : WorkerSettings)

def jsonOf : FieldValue → JsonValue
  | .number value => .numeric (renderInteger value)
  | .text bytes => .string bytes

/-- A type whose input function reads these texts and whose output function prints them back. -/
def Prints (field : KeyField D) (texts : Bytes → Prop) : Prop :=
  field.column.output.isBpcharOut = false ∧ ∀ text, texts text → ∃ datum,
    field.input text = .ok datum ∧ field.column.output.call datum = text

structure Documented (mappings : List (WorkerMapping D)) : Prop where
  verify_append : ∀ a b, S.verifymbstr a = none → S.verifymbstr b = none →
    S.verifymbstr (a++b) = none
  verify_ascii : ∀ s : Bytes, (∀ ch ∈ s, 0 < ch.toNat ∧ ch.toNat < 128) → S.verifymbstr s = none
  verify_utf8 : S.databaseIsUtf8 = true → ∀ s, Utf8.WellFormed s → S.verifymbstr s = none
  verify_database : S.verifymbstr S.database = none
  verify_names : ∀ m ∈ mappings, S.verifymbstr m.schemaName = none ∧
    S.verifymbstr m.relationName = none
  json : ∀ column value input, S.verifymbstr input = none → Spelled column value input →
    S.jsonbIn input = .ok (.object [(column,jsonOf value)])
  integers : ∀ m ∈ mappings, ∀ field ∈ m.keyFields, field.typmod = -1 →
    isIntegerType field.column.keyType = true →
    Prints field (fun text => ∃ v, InRange field.column.keyType v ∧ text = renderInteger v)
  texts : ∀ m ∈ mappings, ∀ field ∈ m.keyFields, field.typmod = -1 →
    isTextType field.column.keyType = true →
    Prints field (fun text => (∀ ch ∈ text, ch ≠ 0) ∧ S.verifymbstr text = none)

/-! The two ways to pick a mapping. -/

/-- The answer of a lookup that the fast path can serve: a text, or `none` for a negative
entry. -/
def Gives (w : W) (mapping : WorkerMapping D) (canonical : Bytes) : Option Bytes → Prop
  | none => (B.cacheLookupQuiet mapping canonical w).1.result = .negative
  | some json => ∃ bytes, (B.cacheLookupQuiet mapping canonical w).1.result = .value bytes ∧
      cachedRowJson S mapping bytes = some json

/-- What the fast path has done with a client. -/
structure Untaken (client client' : Client) : Prop where
  rest : client' = { client with output := client'.output }
  kept : ∀ a, a < client.outputUsed → client'.output a = client.output a

theorem untaken_refl (client : Client) : Untaken client client := ⟨rfl,fun _ _ => rfl⟩

theorem fastWrite_false (client : Client) (json : Option Bytes)
    (h : (fastWrite client json).1 = false) : Untaken client (fastWrite client json).2 := by
  unfold fastWrite at *
  split at h
  · rename_i hfull
    rw [if_pos hfull]
    exact untaken_refl client
  · rename_i hroom
    rw [if_neg hroom]
    simp only at *
    cases ha : respWriteArray client.output client.outputUsed
        (outputBufferMax-client.outputUsed) 0 1 responseMax with
    | none => exact untaken_refl client
    | some out =>
      simp only [ha] at h
      cases he : fastWriteElement out.1 client.outputUsed (outputBufferMax-client.outputUsed)
          out.2 json with
      | some out' => simp [he] at h
      | none =>
        simp only [he]
        refine ⟨rfl,fun a hlt => ?_⟩
        exact (respWriteArray_some _ _ _ _ _ _ out ha).1.kept a (by omega)

def elementOf (json : Option Bytes) : Bytes := (RowResult.ofRow json).encode

theorem fastWriteElement_some (output : Memory) (base available length : ℕ) (json : Option Bytes)
    (out : Memory × ℕ) (h : fastWriteElement output base available length json = some out) :
    Appended output out.1 base length (elementOf json) ∧
      out.2 = length+(elementOf json).length ∧ out.2 ≤ available ∧ out.2 ≤ responseMax := by
  cases json with
  | none => exact respWriteNull_some output base available length responseMax out h
  | some json => exact respWriteBulk_some output base available length json responseMax out h

/-- The reply of one hit. -/
def hitReply (json : Option Bytes) : Bytes := arrayHeader 1++elementOf json

structure Taken (client client' : Client) (reply : Bytes) : Prop where
  rest : client' = { client with
    output := client'.output
    outputUsed := client.outputUsed+reply.length
    outputReady := true }
  unsent : client.outputSent = 0
  appended : Appended client.output client'.output client.outputUsed 0 reply
  room : client.outputUsed+reply.length ≤ outputBufferMax
  short : reply.length ≤ responseMax

theorem fastWrite_true (client : Client) (json : Option Bytes)
    (h : (fastWrite client json).1 = true) :
    Taken client (fastWrite client json).2 (hitReply json) := by
  unfold fastWrite at *
  split at h
  · cases h
  · rename_i hroom
    rw [not_or, not_not] at hroom
    rw [if_neg (by tauto)]
    simp only at *
    cases ha : respWriteArray client.output client.outputUsed
        (outputBufferMax-client.outputUsed) 0 1 responseMax with
    | none => simp [ha] at h
    | some out =>
      simp only [ha] at h
      cases he : fastWriteElement out.1 client.outputUsed (outputBufferMax-client.outputUsed)
          out.2 json with
      | none => simp [he] at h
      | some out' =>
        simp only [he]
        obtain ⟨happ,hlen,_,_⟩ := respWriteArray_some _ _ _ _ _ _ out ha
        obtain ⟨happ',hlen',hcap',hmax'⟩ := fastWriteElement_some _ _ _ _ _ out' he
        have htotal : out'.2 = (hitReply json).length := by
          rw [hlen', hlen, hitReply, List.length_append, Nat.zero_add]
        rw [hlen] at happ'
        have hboth := appended_trans _ _ _ _ _ _ _ happ happ'
        refine ⟨by rw [htotal],hroom.1,hboth,?_,?_⟩
        · omega
        · omega

/-- The lookup of a fast answer: one mapping, one key and what the cache holds for it. -/
structure Served (w : W) (mappings : List (WorkerMapping D)) (client client' : Client)
    (wireKey : Bytes) : Prop where
  found : ∃ mapping rawKey canonical json, resolveLoop S wireKey mappings = .ok (mapping,rawKey) ∧
    fastScan S mapping rawKey = some canonical ∧
    fastLoop S B client wireKey mappings w = fastLookup S B client mapping canonical w ∧
    Gives S B w mapping canonical json ∧ Taken client client' (hitReply json)

theorem fastLookup_ensures (client : Client) (mapping : WorkerMapping D) (canonical : Bytes)
    (w : W) :
    Ensures (fastLookup S B client mapping canonical) w (fun r _ =>
      (r.1 = false → Untaken client r.2) ∧ (r.1 = true → ∃ json,
        Gives S B w mapping canonical json ∧ Taken client r.2 (hitReply json))) Never := by
  simp only [fastLookup, ensures_bind, ensures_call]
  cases hr : (B.cacheLookupQuiet mapping canonical w).1.result with
  | miss => exact ⟨fun _ => untaken_refl client,(fun h => by cases h)⟩
  | negative =>
    exact ⟨fastWrite_false client none,fun h => ⟨none,hr,fastWrite_true client none h⟩⟩
  | value bytes =>
    simp only
    cases hj : cachedRowJson S mapping bytes with
    | some json =>
      exact ⟨fastWrite_false client (some json),
        fun h => ⟨some json,⟨bytes,hr,hj⟩,fastWrite_true client (some json) h⟩⟩
    | none => exact ⟨fun _ => untaken_refl client,(fun h => by cases h)⟩

theorem fastScan_braces (mapping : WorkerMapping D) (rawJson canonical : Bytes)
    (h : fastScan S mapping rawJson = some canonical) :
    rawJson.head? = some braceOpen ∧ rawJson.getLast? = some braceClose := by
  unfold fastScan at h
  cases hf : fastPathField mapping with
  | none => simp [hf] at h
  | some field =>
    simp only [hf] at h
    split at h
    · cases h
    · rename_i hshape
      rw [not_or, not_or, not_not, not_not] at hshape
      exact hshape.2

/-- The first mapping whose prefix the fast path accepts is the one the general path takes. -/
theorem fastLoop_ensures (client : Client) (wireKey : Bytes) (mappings : List (WorkerMapping D))
    (w : W) :
    Ensures (fastLoop S B client wireKey mappings) w (fun r _ =>
      (r.1 = false → Untaken client r.2) ∧
        (r.1 = true → Served S B w mappings client r.2 wireKey)) Never := by
  induction mappings with
  | nil => exact ⟨fun _ => untaken_refl client,fun h => nomatch h⟩
  | cons mapping mappings ih =>
    simp only [fastLoop]
    split
    · rename_i hskip
      apply ensures_imp ih
      intro r _ hr
      refine ⟨hr.1,fun h => ?_⟩
      obtain ⟨m,raw,canonical,json,hres,hscan,hrun,hrest⟩ := (hr.2 h).found
      refine ⟨m,raw,canonical,json,?_,hscan,?_,hrest⟩
      · rw [resolveLoop, if_pos (by
          rcases hskip with hlt | hne
          · exact Or.inl (le_of_lt hlt)
          · exact Or.inr hne)]
        exact hres
      · rw [← hrun]
        simp only [fastLoop, if_pos hskip]
    · rename_i hmatch
      rw [not_or, not_not] at hmatch
      split
      · exact ⟨fun _ => untaken_refl client,fun h => nomatch h⟩
      · rename_i hlong
        cases hscan : fastScan S mapping (wireKey.drop (wirePrefix S mapping).length) with
        | none => exact ⟨fun _ => untaken_refl client,fun h => nomatch h⟩
        | some canonical =>
          apply ensures_imp (fastLookup_ensures S B client mapping canonical w)
          intro r _ hr
          refine ⟨hr.1,fun h => ?_⟩
          obtain ⟨json,hgives,htaken⟩ := hr.2 h
          refine ⟨mapping,_,canonical,json,?_,hscan,?_,hgives,htaken⟩
          · obtain ⟨hhead,hlast⟩ := fastScan_braces S mapping _ canonical hscan
            rw [List.head?_drop] at hhead
            rw [List.getLast?_drop, if_neg (by omega), List.getLast?_eq_getElem?] at hlast
            rw [resolveLoop, if_neg (by rw [not_or, not_not]; exact ⟨by omega,hmatch.2⟩),
              if_neg (by rw [not_or, not_not, not_not]; exact ⟨hhead,hlast⟩)]
          · have hfits : ¬(wireKey.length < (wirePrefix S mapping).length ∨
                wireKey.take (wirePrefix S mapping).length ≠ wirePrefix S mapping) := by
              rw [not_or, not_not]
              exact hmatch
            simp only [fastLoop, if_neg hfits, if_neg hlong, hscan]

/-! The two ways to build a key. -/

section
variable {S} {mappings : List (WorkerMapping D)} (hd : Documented S mappings)

include hd

theorem ascii_verified (s : Bytes) (h : ∀ ch ∈ s, 0x20 ≤ ch.toNat ∧ ch.toNat < 128) :
    S.verifymbstr s = none := by
  apply hd.verify_ascii
  intro ch hch
  have := h ch hch
  omega

theorem blank_verified (s : Bytes) (h : Blank s) :
    S.verifymbstr s = none := by
  apply hd.verify_ascii
  intro ch hch
  have := h ch hch
  simp only [isJsonSpace, Bool.or_eq_true, decide_eq_true_eq] at this
  rcases this with ((rfl | rfl) | rfl) | rfl
  all_goals decide

theorem name_verified (s : Bytes) (h : ∀ ch ∈ s, plainName ch = true ∧ ch ≠ quote) :
    S.verifymbstr s = none := by
  apply ascii_verified hd
  intro ch hch
  have := (h ch hch).1
  simp only [plainName, decide_eq_true_eq, UInt8.le_iff_toNat_le, UInt8.lt_iff_toNat_lt] at this
  exact ⟨this.1,this.2.1⟩

theorem integer_verified (v : ℤ) :
    S.verifymbstr (renderInteger v) = none := by
  apply ascii_verified hd
  intro ch hch
  obtain ⟨hplain,_,hlt⟩ := renderInteger_plain v ch hch
  simp only [plainText, decide_eq_true_eq, UInt8.le_iff_toNat_le] at hplain
  exact ⟨hplain.1,hlt⟩

theorem value_verified (keyType : KeyType) (value : FieldValue) (rendered : Bytes)
    (h : Scanned keyType S.databaseIsUtf8 value rendered) :
    S.verifymbstr value.spelling = none ∧ S.verifymbstr rendered = none := by
  have hquoted : ∀ bytes, S.verifymbstr bytes = none →
      S.verifymbstr (quote::(bytes++[quote])) = none := by
    intro bytes hb
    have hq : S.verifymbstr [quote] = none := hd.verify_ascii _ (by simp [quote])
    exact hd.verify_append [quote] _ hq (hd.verify_append bytes [quote] hb hq)
  cases h with
  | number v _ _ => exact ⟨integer_verified hd v,integer_verified hd v⟩
  | quoted v _ _ => exact ⟨hquoted _ (integer_verified hd v),integer_verified hd v⟩
  | text _ _ hutf hvalid _ =>
    have hb := hd.verify_utf8 hutf rendered (validUtf8_sound rendered hvalid)
    exact ⟨hquoted _ hb,hb⟩

theorem spelled_verified (column : Bytes) (keyType : KeyType) (value : FieldValue)
    (rendered input : Bytes) (h : Scanned keyType S.databaseIsUtf8 value rendered)
    (hs : Spelled column value input) :
    S.verifymbstr input = none := by
  obtain ⟨s1,s2,s3,s4,s5,s6,⟨h1,h2,h3,h4,h5,h6⟩,hin⟩ := hs.split
  have mark : ∀ (ch : UInt8) t, 0 < ch.toNat ∧ ch.toNat < 128 → S.verifymbstr t = none →
      S.verifymbstr (ch::t) = none := by
    intro ch t hch ht
    apply hd.verify_append [ch] t ?_ ht
    apply hd.verify_ascii
    intro c hc
    rw [List.mem_singleton.mp hc]
    exact hch
  rw [hin]
  apply hd.verify_append _ _ (blank_verified hd s1 h1)
  apply mark _ _ (by decide)
  apply hd.verify_append _ _ (blank_verified hd s2 h2)
  apply mark _ _ (by decide)
  apply hd.verify_append _ _ (name_verified hd column hs.name)
  apply mark _ _ (by decide)
  apply hd.verify_append _ _ (blank_verified hd s3 h3)
  apply mark _ _ (by decide)
  apply hd.verify_append _ _ (blank_verified hd s4 h4)
  apply hd.verify_append _ _ (value_verified hd keyType value rendered h).1
  apply hd.verify_append _ _ (blank_verified hd s5 h5)
  exact mark _ _ (by decide) (blank_verified hd s6 h6)

theorem prefix_verified (m : WorkerMapping D) (hm : m ∈ mappings) :
    S.verifymbstr (wirePrefix S m) = none := by
  have hmark : S.verifymbstr crudMark = none :=
    hd.verify_ascii _ (by simp [crudMark, ascii])
  have hdot : S.verifymbstr [dot] = none := hd.verify_ascii _ (by simp [dot])
  have hcolon : S.verifymbstr [colon] = none := hd.verify_ascii _ (by simp [colon])
  obtain ⟨hschema,hrelation⟩ := hd.verify_names m hm
  unfold wirePrefix
  apply hd.verify_append _ _ ?_ hcolon
  apply hd.verify_append _ _ ?_ hrelation
  apply hd.verify_append _ _ ?_ hdot
  apply hd.verify_append _ _ ?_ hschema
  apply hd.verify_append _ _ ?_ hdot
  exact hd.verify_append _ _ hmark hd.verify_database

theorem printed (m : WorkerMapping D) (hm : m ∈ mappings) (field : KeyField D)
    (hfield : field ∈ m.keyFields) (htypmod : field.typmod = -1) (value : FieldValue)
    (rendered : Bytes) (h : Scanned field.column.keyType S.databaseIsUtf8 value rendered) :
    field.column.output.isBpcharOut = false ∧ ∃ datum, field.input rendered = .ok datum ∧
      field.column.output.call datum = rendered := by
  cases h with
  | number v hint hrange =>
    obtain ⟨hb,hp⟩ := hd.integers m hm field hfield htypmod hint
    exact ⟨hb,hp _ ⟨v,hrange,rfl⟩⟩
  | quoted v hint hrange =>
    obtain ⟨hb,hp⟩ := hd.integers m hm field hfield htypmod hint
    exact ⟨hb,hp _ ⟨v,hrange,rfl⟩⟩
  | text bytes htext hutf hvalid hplain =>
    obtain ⟨hb,hp⟩ := hd.texts m hm field hfield htypmod htext
    refine ⟨hb,hp _ ⟨fun ch hch hzero => ?_,hd.verify_utf8 hutf _ (validUtf8_sound _ hvalid)⟩⟩
    have := (hplain ch hch).1
    rw [hzero] at this
    revert this
    decide

/-- The general path reads the scanned text as the same canonical key. -/
theorem canonicalizeKey_single (m : WorkerMapping D) (hm : m ∈ mappings) (field : KeyField D)
    (hfields : m.keyFields = [field]) (capacity : ℕ) (rawKey canonical : Bytes)
    (h : keyScanJsonSingle rawKey field.name field.column.keyType field.typmod S.databaseIsUtf8
      capacity = some canonical) :
    S.verifymbstr rawKey = none ∧
      ∃ values, canonicalizeKey S m rawKey = .ok (values,canonical) := by
  obtain ⟨htypmod,value,rendered,hscan,hspelled,hkey,hshort,_⟩ :=
    keyScanJsonSingle_some _ _ _ _ _ _ _ h
  have hverify := spelled_verified hd field.name field.column.keyType value rendered rawKey
    hscan hspelled
  obtain ⟨hbpchar,datum,hinput,houtput⟩ := printed hd m hm field (by simp [hfields]) htypmod
    value rendered hscan
  have hcstring : jsonbKeyValueAsCstring field.name (jsonOf value) = .ok rendered := by
    cases hscan <;> rfl
  have hvalue : keyFieldValue [(field.name,jsonOf value)] field = .ok datum := by
    simp [keyFieldValue, hcstring, hinput, bind, Except.bind]
  refine ⟨hverify,[datum],?_⟩
  have hcomponent : component S.ints (readerPart field.column datum) = rendered := by
    simp [component, readerPart, render, hbpchar, houtput]
  have hcanonical : canonicalizeValues S.ints [(field.column,datum)] = some canonical := by
    unfold canonicalizeValues
    rw [canonicalKeyTyped_eq S.ints _ keyMax (by simp [readerPart]) (by simp)
      (by simp [maxKeyColumns])]
    simp only [List.map_cons, List.map_nil, hcomponent, encodeAll, List.flatMap_cons,
      List.flatMap_nil, List.append_nil, ← hkey]
    rw [if_pos ⟨hshort,hshort⟩]
  unfold canonicalizeKey
  simp only [hd.json _ _ _ hverify hspelled, hfields, List.length_cons, List.length_nil]
  rw [if_neg (by simp)]
  simp [List.mapM_cons, hvalue, hcanonical, bind, Except.bind, pure, Except.pure]

omit hd in
theorem fastPathField_only (m : WorkerMapping D) (field : KeyField D)
    (h : fastPathField m = some field) : m.keyFields = [field] := by
  unfold fastPathField at h
  split at h
  · rename_i only hfields
    split at h
    · cases h
      exact hfields
    · cases h
  · cases h

theorem canonicalizeKey_scanned (m : WorkerMapping D) (hm : m ∈ mappings) (rawKey canonical : Bytes)
    (h : fastScan S m rawKey = some canonical) :
    S.verifymbstr rawKey = none ∧
      ∃ values, canonicalizeKey S m rawKey = .ok (values,canonical) := by
  unfold fastScan at h
  cases hf : fastPathField m with
  | none => simp [hf] at h
  | some field =>
    simp only [hf] at h
    split at h
    · cases h
    · exact canonicalizeKey_single hd m hm field (fastPathField_only m field hf) _ rawKey
        canonical h

end

theorem resolveKey_scanned {S : Server D} {mappings : List (WorkerMapping D)}
    (hd : Documented S mappings) (wireKey : Bytes) (mapping : WorkerMapping D)
    (rawKey canonical : Bytes) (hlen : wireKey.length ≠ 0 ∧ wireKey.length < requestMax)
    (hnul : wireKey.any (· = 0) = false)
    (hres : resolveLoop S wireKey mappings = .ok (mapping,rawKey))
    (hscan : fastScan S mapping rawKey = some canonical) :
    ∃ values, resolveKey S mappings wireKey = .ok ⟨mapping,values,canonical⟩ := by
  have hm := resolveLoop_mem S wireKey rawKey mapping mappings hres
  obtain ⟨hverify,values,hkey⟩ := canonicalizeKey_scanned hd mapping hm rawKey canonical hscan
  have hsplit := resolveLoop_split S wireKey rawKey mapping mappings hres
  have hwire : S.verifymbstr wireKey = none := by
    rw [hsplit]
    exact hd.verify_append _ _ (prefix_verified hd mapping hm) hverify
  have hcrud : 5 < wireKey.length ∧ wireKey.take 5 = crudMark := by
    have htake : wireKey = crudMark++(S.database++[dot]++mapping.schemaName++[dot]++
        mapping.relationName++[colon]++rawKey) := by
      rw [hsplit]
      simp [wirePrefix]
    have hfive : crudMark.length = 5 := rfl
    rw [htake]
    refine ⟨?_,List.take_left' hfive⟩
    simp only [List.length_append, hfive, List.length_singleton]
    omega
  refine ⟨values,?_⟩
  unfold resolveKey resolveWireKey
  rw [if_neg (by omega), if_neg (by simp [hnul])]
  simp only [hwire]
  rw [if_pos hcrud, hres]
  simp [hkey, bind, Except.bind, pure, Except.pure]

/-! The general path on a hit. -/

section
variable {s : MgetFrame W D} {item : MgetItem D} {stop : MgetFrame W D → Bool}
  {f : ℕ → MgetItem D → MgetM W D Unit} {Q : Unit → MgetFrame W D → Prop}
  {E : PgError → MgetFrame W D → Prop}

theorem overItems_one (hitems : s.items = [item]) (hrun : stop s = false)
    (h : Ensures (f 0 item) s Q E) : Ensures (overItems stop f) s Q E := by
  simp only [overItems, ensures_bind, ensures_get, hitems, List.length_singleton, List.range_one,
    sweep, hrun, Bool.false_eq_true, if_false, List.getElem?_cons_zero]
  exact ensures_imp h (fun _ _ hq => hq)

end

/-- An item that a lookup has made ready. -/
structure Hit (item : MgetItem D) (element : Bytes) : Prop where
  ready : item.resultReady = true
  element : item.responseElement = some element
  deferred : item.deferred = false
  owns : item.ownsLoad = false

theorem mgetObtain_hit (deadline : ℕ) (s : MgetFrame W D) (item : MgetItem D) (element : Bytes)
    (hitems : s.items = [item]) (hhit : Hit item element) (hrun : s.tally.failure = none)
    (hfree : s.tally.relationBlocked = false) :
    Ensures (mgetObtain S B cfg deadline) s (fun _ s' =>
      s'.world = (B.getCurrentTimestamp s.world).2 ∧ s'.items = s.items ∧ s'.tally = s.tally)
      Never := by
  have hfail : ∀ s' : MgetFrame W D, s'.tally = s.tally → hasFailed s' = false := by
    intro s' ht
    simp [hasFailed, ht, hrun]
  unfold mgetObtain
  apply ensures_seq (Q := fun _ s' => s'.world = (B.getCurrentTimestamp s.world).2 ∧
    s'.items = s.items ∧ s'.tally = s.tally)
  · apply overItems_one hitems (hfail s rfl)
    simp only [claimItem, MgetCommand.clock, ensures_bind, ensures_onWorld, ensures_call,
      hhit.ready, Bool.true_or, if_true, ensures_pure, and_self]
  · rintro _ s1 ⟨h1,hi1,ht1⟩
    have hskip : s1.items.any toRead = false := by
      simp [hi1, hitems, toRead, hhit.ready]
    simp only [readPhase, storePhase, ensures_bind, ensures_get, hskip, Bool.and_false,
      Bool.false_eq_true, if_false, ensures_pure, hfail s1 ht1]
    apply overItems_one (hi1.trans hitems) rfl
    simp only [storeItem, hhit.owns, Bool.not_false, if_true, ensures_pure]
    apply overItems_one (hi1.trans hitems) (by simp [isStopped, hfail s1 ht1, ht1, hfree])
    simp only [waitItem, hhit.deferred, Bool.not_false, if_true, ensures_pure]
    exact ⟨h1,hi1,ht1⟩

theorem lookupItem_hit (s : MgetFrame W D) (item : MgetItem D) (json : Option Bytes)
    (hitems : s.items = [item]) (henabled : item.cacheEnabled = true)
    (hdeferred : item.deferred = false) (howns : item.ownsLoad = false)
    (hgives : Gives S B s.world item.mapping item.canonical json) :
    Ensures (lookupItem S B 0 item) s (fun _ s' =>
      s'.world = (B.cacheLookupQuiet item.mapping item.canonical s.world).2 ∧ ∃ item',
        s'.items = [item'] ∧ Hit item' (elementOf json) ∧
        item'.responseSlots = item.responseSlots ∧
        s'.tally = mgetAccountResult item' s.tally) Never := by
  simp only [lookupItem, henabled, if_true, mgetQuietLookup, ensures_bind, ensures_onWorld,
    ensures_call]
  cases json with
  | none =>
    have hr : (B.cacheLookupQuiet item.mapping item.canonical s.world).1.result = .negative :=
      hgives
    simp only [hr, ensures_pure, ensures_setItem, ensures_setTally, if_true, hitems, true_and]
    exact ⟨_,rfl,⟨rfl,rfl,hdeferred,howns⟩,rfl,rfl⟩
  | some json =>
    obtain ⟨bytes,hr,hj⟩ := hgives
    simp only [hr, hj, ensures_pure, ensures_setItem, ensures_setTally, if_true, hitems, true_and]
    exact ⟨_,rfl,⟨rfl,rfl,hdeferred,howns⟩,rfl,rfl⟩

theorem account_one (item : MgetItem D) (element : Bytes) (hhit : Hit item element)
    (hslots : item.responseSlots = 1) (hpos : 0 < element.length)
    (hshort : (arrayHeader 1++element).length ≤ responseMax) :
    (mgetAccountResult item (startTally 1)).failure = none ∧
      (mgetAccountResult item (startTally 1)).relationBlocked = false := by
  have hlen : elementLength item = element.length := by simp [elementLength, hhit.element]
  have hstart : (startTally 1).responseSize = 4 := rfl
  have hheader : (arrayHeader 1).length = 4 := rfl
  rw [List.length_append, hheader] at hshort
  unfold mgetAccountResult
  simp only [hlen, hslots, hstart]
  rw [if_neg]
  · exact ⟨rfl,rfl⟩
  · rw [not_or, not_lt, not_lt, Nat.le_div_iff_mul_le hpos]
    omega

/-- The world of the general path behind the lookup of its only key. -/
def afterLookup (key : ResolvedKey D) (w : W) : W :=
  (B.cacheLookupQuiet key.mapping key.canonical
    (B.cacheIsEnabled (B.getCurrentTimestamp w).2).2).2

/-- What the clock says when the general path has a hit for its only key and is about to reply. -/
def replyTime (key : ResolvedKey D) (w : W) : ℕ :=
  (B.getCurrentTimestamp (B.getCurrentTimestamp (afterLookup B key w)).2).1

theorem commandMget_hit (client : MgetClient) (mappings : List (WorkerMapping D))
    (wireKey : Bytes) (key : ResolvedKey D) (requestLength : ℕ) (json : Option Bytes) (w : W)
    (hkey : resolveKey S mappings wireKey = .ok key)
    (henabled : (B.cacheIsEnabled (B.getCurrentTimestamp w).2).1 = true)
    (hgives : Gives S B (B.cacheIsEnabled (B.getCurrentTimestamp w).2).2 key.mapping
      key.canonical json)
    (hshort : (hitReply json).length ≤ responseMax)
    (hclock : replyTime B key w < mgetDeadline cfg client (B.getCurrentTimestamp w).1) :
    ∃ w', commandMget S B cfg client mappings [wireKey] requestLength w =
      .ok (some (hitReply json)) w' := by
  have hserve : Ensures (mgetServe S B cfg requestLength
      (mgetDeadline cfg client (B.getCurrentTimestamp w).1) [0])
      ⟨(B.cacheIsEnabled (B.getCurrentTimestamp w).2).2,[countSlot (newItem key true)],
        startTally 1,false⟩ (fun reply _ => reply = some (hitReply json))
      Never := by
    unfold mgetServe
    apply ensures_seq (overItems_one rfl rfl (lookupItem_hit S B _ _ json rfl rfl rfl rfl hgives))
    rintro _ s1 ⟨hw1,item,hitems,hhit,hslots,htally⟩
    obtain ⟨hnone,hfree⟩ := account_one item _ hhit (by rw [hslots]; rfl)
      (encode_length_pos (.ofRow json)) hshort
    rw [← htally] at hnone hfree
    simp only [ensures_bind, ensures_get, hasFailed, hnone, Option.isSome_none,
      Bool.false_eq_true, if_false]
    apply ensures_imp (ensures_tryCatch (mgetObtain_hit S B cfg _ s1 item _ hitems hhit hnone hfree)
      (fun _ _ he => he.elim))
    rintro _ s2 ⟨hw2,hitems2,htally2⟩
    have htime : (B.getCurrentTimestamp s2.world).1 = replyTime B key w := by
      rw [hw2, hw1]
      rfl
    simp only [htally2, hfree, hnone, Bool.false_eq_true, if_false]
    simp only [mgetAnswer, deadlinePassed, MgetCommand.clock, ensures_bind, ensures_onWorld,
      ensures_call, ensures_pure]
    rw [if_neg (by simpa [htime] using hclock)]
    have hassemble : assemble s2.items [0] (arrayHeader 1) = .ok (some (hitReply json)) := by
      rw [assemble_fits]
      · simp [elementAt, hitems2, hitems, hhit.element, hitReply]
      · intro slot hslot
        rw [List.mem_singleton.mp hslot]
        exact ⟨item,by simp [hitems2, hitems],hhit.ready,by simp [hhit.element]⟩
      · rw [hitReply, List.length_append] at hshort
        simpa [elementAt, hitems2, hitems, hhit.element] using hshort
    simp only [ensures_bind, ensures_get, List.length_singleton, hassemble, ensures_pure]
  obtain ⟨reply,frame,hrun,rfl⟩ := ensures_run hserve
  refine ⟨frame.world,?_⟩
  simp only [commandMget, prepareLoop, hkey, addKey, MgetCommand.clock, call, bind, EStateM.bind,
    pure, EStateM.pure, List.findIdx_nil, List.length_nil, if_true, henabled, List.nil_append,
    withFrame, List.length_singleton]
  rw [hrun]

/-! The two paths from one cache. -/

/-- `cache` is what a world holds of the shared cache: the clock and the enabled flag leave it,
and what the flag and a lookup say depends on nothing else. -/
structure ReadsCache {C : Type} (cache : W → C) : Prop where
  clock : ∀ w, cache (B.getCurrentTimestamp w).2 = cache w
  enabled : ∀ w, cache (B.cacheIsEnabled w).2 = cache w
  enabled_of : ∀ w w', cache w = cache w' → (B.cacheIsEnabled w).1 = (B.cacheIsEnabled w').1
  lookup_of : ∀ w w' mapping canonical, cache w = cache w' →
    (B.cacheLookupQuiet mapping canonical w).1.result =
      (B.cacheLookupQuiet mapping canonical w').1.result

theorem gives_of {C : Type} {cache : W → C} (hc : ReadsCache B cache) (w w' : W)
    (hw : cache w = cache w') (mapping : WorkerMapping D) (canonical : Bytes)
    (json : Option Bytes) (h : Gives S B w mapping canonical json) :
    Gives S B w' mapping canonical json := by
  have hlookup := hc.lookup_of w w' mapping canonical hw
  cases json with
  | none => exact hlookup.symm.trans h
  | some json =>
    obtain ⟨bytes,hr,hj⟩ := h
    exact ⟨bytes,hlookup.symm.trans hr,hj⟩

/-- The fast path has looked up `key` and answered with `reply`. -/
structure Answers (mappings : List (WorkerMapping D)) (client client' : Client)
    (args : List Bytes) (w : W) (wireKey : Bytes) (key : ResolvedKey D) (json : Option Bytes) :
    Prop where
  request : ∃ name, args = [name,wireKey] ∧ respArgEquals name "MGET" = true
  resolved : resolveKey S mappings wireKey = .ok key
  looked : tryFastMgetHit S B mappings client args w =
    fastLookup S B client key.mapping key.canonical (B.cacheIsEnabled w).2
  enabled : (B.cacheIsEnabled w).1 = true
  gives : Gives S B (B.cacheIsEnabled w).2 key.mapping key.canonical json
  taken : Taken client client' (hitReply json)

/-- A request that gets past the checks in front of the loop over the mappings. -/
structure Eligible (client : Client) (args : List Bytes) (w : W) (wireKey : Bytes) : Prop where
  request : ∃ name, args = [name,wireKey] ∧ respArgEquals name "MGET" = true
  authenticated : client.authenticated = true
  enabled : (B.cacheIsEnabled w).1 = true
  form : wireKey.length ≠ 0 ∧ wireKey.length < requestMax ∧ wireKey.any (· = 0) = false

theorem tryFastMgetHit_served (mappings : List (WorkerMapping D)) (client : Client)
    (args : List Bytes) (w : W) :
    Ensures (tryFastMgetHit S B mappings client args) w (fun r _ =>
      (r.1 = false → Untaken client r.2) ∧ (r.1 = true → ∃ wireKey,
        Eligible B client args w wireKey ∧
        tryFastMgetHit S B mappings client args w =
          fastLoop S B client wireKey mappings (B.cacheIsEnabled w).2 ∧
        Served S B (B.cacheIsEnabled w).2 mappings client r.2 wireKey)) Never := by
  have hleft : ∀ P : Prop, (false = false → Untaken client client) ∧ (false = true → P) :=
    fun _ => ⟨fun _ => untaken_refl client,fun h => nomatch h⟩
  match args with
  | [] => exact hleft _
  | [_] => exact hleft _
  | _::_::_::_ => exact hleft _
  | [name,wireKey] =>
    simp only [tryFastMgetHit]
    split
    · exact hleft _
    · rename_i hname
      split
      · exact hleft _
      · rename_i hauth
        simp only [ensures_bind, ensures_call]
        split
        · exact hleft _
        · rename_i henabled
          split
          · exact hleft _
          · rename_i hform
            apply ensures_imp (fastLoop_ensures S B client wireKey mappings _)
            intro r _ hr
            refine ⟨hr.1,fun h => ⟨wireKey,?_,?_,hr.2 h⟩⟩
            · rw [not_or, not_or, not_le] at hform
              exact ⟨⟨name,rfl,by simpa using hname⟩,by simpa using hauth,by simpa using henabled,
                hform.1,hform.2.1,Bool.eq_false_iff.mpr hform.2.2⟩
            · simp only [bind, EStateM.bind, call, if_neg henabled]

theorem tryFastMgetHit_ensures (mappings : List (WorkerMapping D)) (client : Client)
    (args : List Bytes) (w : W) (hd : Documented S mappings) :
    Ensures (tryFastMgetHit S B mappings client args) w (fun r _ =>
      (r.1 = false → Untaken client r.2) ∧ (r.1 = true → ∃ wireKey key json,
        Answers S B mappings client r.2 args w wireKey key json)) Never := by
  apply ensures_imp (tryFastMgetHit_served S B mappings client args w)
  intro r _ hr
  refine ⟨hr.1,fun h => ?_⟩
  obtain ⟨wireKey,he,hloop,hserved⟩ := hr.2 h
  obtain ⟨mapping,raw,canonical,json,hres,hscan,hrun,hgives,htaken⟩ := hserved.found
  obtain ⟨values,hkey⟩ := resolveKey_scanned hd wireKey mapping raw canonical
    ⟨he.form.1,he.form.2.1⟩ he.form.2.2 hres hscan
  exact ⟨wireKey,_,json,he.request,hkey,hloop.trans hrun,he.enabled,hgives,htaken⟩

/-- The fast path always returns. With `false` the output in front of `outputUsed` and the rest
of the client are as before. With `true` it has appended the reply that the general path gives
for the same mapping and canonical key from the same cache, provided the general path replies in
time. -/
theorem fast_mget_agrees {C : Type} (cache : W → C) (hc : ReadsCache B cache)
    (mappings : List (WorkerMapping D)) (hd : Documented S mappings) (client : Client)
    (args : List Bytes) (w : W) :
    ∃ taken client' w', tryFastMgetHit S B mappings client args w = .ok (taken,client') w' ∧
      (taken = false → Untaken client client') ∧
      (taken = true → ∃ wireKey key json,
        Answers S B mappings client client' args w wireKey key json ∧
        ∀ mgetClient requestLength w2, cache w2 = cache w →
          replyTime B key w2 < mgetDeadline cfg mgetClient (B.getCurrentTimestamp w2).1 →
          ∃ w3, commandMget S B cfg mgetClient mappings [wireKey] requestLength w2 =
            .ok (some (hitReply json)) w3) := by
  obtain ⟨⟨taken,client'⟩,w',hrun,hfalse,htrue⟩ :=
    ensures_run (tryFastMgetHit_ensures S B mappings client args w hd)
  refine ⟨taken,client',w',hrun,hfalse,fun h => ?_⟩
  obtain ⟨wireKey,key,json,ha⟩ := htrue h
  refine ⟨wireKey,key,json,ha,?_⟩
  intro mgetClient requestLength w2 hw htime
  have hflag : (B.cacheIsEnabled (B.getCurrentTimestamp w2).2).1 = true := by
    rw [← ha.enabled]
    exact hc.enabled_of _ _ ((hc.clock w2).trans hw)
  apply commandMget_hit S B cfg mgetClient mappings wireKey key requestLength json w2 ha.resolved
    hflag ?_ ha.taken.short htime
  apply gives_of S B hc _ _ ?_ _ _ _ ha.gives
  rw [hc.enabled, hc.enabled, hc.clock, hw]

/-! A server that reads plainly spelled objects, and a cache that holds one row. -/

def trimStart (s : Bytes) : Bytes := s.dropWhile isJsonSpace

/-- The value behind the colon, without the closing brace. -/
def plainValue (s : Bytes) : Bytes := (trimStart ((trimStart (trimStart s).reverse).drop 1)).reverse

def plainObject (input : Bytes) : JsonDocument :=
  let name := ((input.dropWhile (· ≠ quote)).drop 1).takeWhile (· ≠ quote)
  let rest := ((input.dropWhile (· ≠ quote)).drop 1).dropWhile (· ≠ quote)
  let value := plainValue ((rest.dropWhile (· ≠ colon)).drop 1)
  match value with
  | [] => .other
  | ch::tail => .object [(name,if ch = quote then .string tail.dropLast else .numeric value)]

theorem trimStart_blank (s t : Bytes) (h : Blank s) : trimStart (s++t) = trimStart t := by
  unfold trimStart
  rw [List.dropWhile_append, List.dropWhile_eq_nil_iff.mpr h]
  rfl

def Inked (s : Bytes) : Prop := ∃ ch t, s = ch::t ∧ isJsonSpace ch = false

theorem trimStart_inked (s t : Bytes) (h : Inked s) : trimStart (s++t) = s++t := by
  obtain ⟨ch,rest,rfl,hink⟩ := h
  exact List.dropWhile_cons_of_neg (by simp [hink])

theorem blank_reverse (s : Bytes) (h : Blank s) : Blank s.reverse :=
  fun ch hch => h ch (List.mem_reverse.mp hch)

theorem inked_of (s : Bytes) (hne : s ≠ []) (h : ∀ ch ∈ s, isJsonSpace ch = false) : Inked s := by
  cases s with
  | nil => exact (hne rfl).elim
  | cons ch t => exact ⟨ch,t,rfl,h ch (by simp)⟩

theorem integer_inked (v : ℤ) (ch : UInt8) (h : ch ∈ renderInteger v) :
    isJsonSpace ch = false := by
  have hdigit : ∀ n, ch ∈ decimal n → isJsonSpace ch = false := by
    intro n hn
    have hlow := (decimal_digit n ch hn).1
    simp only [isJsonSpace, Bool.or_eq_false_iff, decide_eq_false_iff_not]
    refine ⟨⟨⟨?_,?_⟩,?_⟩,?_⟩ <;>
    · rintro rfl
      revert hlow
      decide
  unfold renderInteger at h
  split at h
  · rcases List.mem_cons.mp h with rfl | h
    · decide
    · exact hdigit _ h
  · exact hdigit _ h

theorem spelling_inked (value : FieldValue) :
    Inked value.spelling ∧ Inked value.spelling.reverse := by
  cases value with
  | number v =>
    have hne : renderInteger v ≠ [] := by
      intro h
      have := congrArg List.length h
      unfold renderInteger at this
      split at this
      · simp at this
      · rw [decimal_digits] at this
        simp at this
    exact ⟨inked_of _ hne (integer_inked v),inked_of _ (by simpa [FieldValue.spelling] using hne)
      (fun ch hch => integer_inked v ch (List.mem_reverse.mp hch))⟩
  | text bytes =>
    refine ⟨⟨quote,_,rfl,by decide⟩,⟨quote,bytes.reverse++[quote],?_,by decide⟩⟩
    simp [FieldValue.spelling]

theorem plainValue_spelling (value : FieldValue) (s4 s5 s6 : Bytes) (h4 : Blank s4)
    (h5 : Blank s5) (h6 : Blank s6) :
    plainValue (s4++(value.spelling++(s5++braceClose::s6))) = value.spelling := by
  obtain ⟨hstart,hend⟩ := spelling_inked value
  have hreverse : (value.spelling++(s5++braceClose::s6)).reverse =
      s6.reverse++([braceClose]++(s5.reverse++(value.spelling.reverse++[]))) := by
    simp
  unfold plainValue
  rw [trimStart_blank _ _ h4, trimStart_inked _ _ hstart, hreverse,
    trimStart_blank _ _ (blank_reverse s6 h6), trimStart_inked _ _ ⟨_,_,rfl,by decide⟩,
    List.singleton_append, List.drop_one, List.tail_cons, trimStart_blank _ _ (blank_reverse s5 h5),
    trimStart_inked _ _ hend]
  simp

theorem blank_ne (mark : UInt8) (hmark : isJsonSpace mark = false) (s : Bytes) (h : Blank s) :
    ∀ ch ∈ s, decide (ch ≠ mark) = true := by
  intro ch hch
  rw [decide_eq_true_eq]
  rintro rfl
  rw [h ch hch] at hmark
  cases hmark

theorem dropWhile_until (mark : UInt8) (s t : Bytes) (h : ∀ ch ∈ s, decide (ch ≠ mark) = true) :
    (s++mark::t).dropWhile (· ≠ mark) = mark::t := by
  rw [List.dropWhile_append, List.dropWhile_eq_nil_iff.mpr h]
  simp

theorem plainObject_spelled (column : Bytes) (value : FieldValue) (input : Bytes)
    (h : Spelled column value input) : plainObject input = .object [(column,jsonOf value)] := by
  obtain ⟨s1,s2,s3,s4,s5,s6,⟨h1,h2,h3,h4,h5,h6⟩,hin⟩ := h.split
  have hfront : input.dropWhile (· ≠ quote) = quote::(column++quote::(s3++colon::(s4++
      (value.spelling++(s5++braceClose::s6))))) := by
    have hgroup : input = (s1++braceOpen::s2)++quote::(column++quote::(s3++colon::(s4++
        (value.spelling++(s5++braceClose::s6))))) := by
      simp [hin]
    rw [hgroup]
    apply dropWhile_until
    intro ch hch
    rcases List.mem_append.mp hch with hch | hch
    · exact blank_ne quote (by decide) s1 h1 ch hch
    · rcases List.mem_cons.mp hch with rfl | hch
      · decide
      · exact blank_ne quote (by decide) s2 h2 ch hch
  have hcolumn : ∀ ch ∈ column, decide (ch ≠ quote) = true :=
    fun ch hch => decide_eq_true (h.name ch hch).2
  have hname : (column++quote::(s3++colon::(s4++(value.spelling++(s5++braceClose::s6))))).takeWhile
      (· ≠ quote) = column := by
    rw [List.takeWhile_append_of_pos hcolumn]
    simp
  have hrest := dropWhile_until quote column (s3++colon::(s4++(value.spelling++
    (s5++braceClose::s6)))) hcolumn
  have hcolon := dropWhile_until colon (quote::s3) (s4++(value.spelling++(s5++braceClose::s6)))
    (by
      intro ch hch
      rcases List.mem_cons.mp hch with rfl | hch
      · decide
      · exact blank_ne colon (by decide) s3 h3 ch hch)
  simp only [plainObject, hfront, List.drop_one, List.tail_cons, hname, hrest]
  rw [List.cons_append] at hcolon
  simp only [hcolon, List.tail_cons, plainValue_spelling value s4 s5 s6 h4 h5 h6]
  cases value with
  | text bytes => simp [FieldValue.spelling, jsonOf]
  | number v =>
    obtain ⟨ch,t,heq,_⟩ := (spelling_inked (.number v)).1
    have hch : ch ≠ quote := (renderInteger_plain v ch (by
      have : ch ∈ (FieldValue.number v).spelling := by simp [heq]
      exact this)).2.1
    rw [heq]
    simp only [if_neg hch, jsonOf]
    rw [← heq]
    rfl

def readingServer : Server Bytes := { plainServer with jsonbIn := fun s => .ok (plainObject s) }

def heldRow : Bytes :=
  (RowPayload.payloadEncode List.length plainMapping.row [123,125] 8192).getD []

/-- A cache that holds the row of every key. -/
def holdingBackend : Backend Unit Bytes := { plainBackend with
  cacheLookupQuiet := fun _ _ w => (⟨.value heldRow,blankToken⟩,w) }

theorem reading_documented : Documented readingServer [plainMapping] where
  verify_append := fun _ _ _ _ => rfl
  verify_ascii := fun _ _ => rfl
  verify_utf8 := fun _ _ _ => rfl
  verify_database := rfl
  verify_names := fun _ _ => ⟨rfl,rfl⟩
  json := fun column value input _ h =>
    congrArg Except.ok (plainObject_spelled column value input h)
  integers := by
    intro m hm field hfield _ hint
    rw [List.mem_singleton.mp hm] at hfield
    rw [List.mem_singleton.mp hfield] at hint
    exact absurd hint (by decide)
  texts := by
    intro m hm field hfield _ _
    rw [List.mem_singleton.mp hm] at hfield
    rw [List.mem_singleton.mp hfield]
    exact ⟨rfl,fun text _ => ⟨text,rfl,rfl⟩⟩

theorem holding_readsCache : ReadsCache holdingBackend (id : Unit → Unit) where
  clock := fun _ => rfl
  enabled := fun _ => rfl
  enabled_of := fun _ _ _ => rfl
  lookup_of := fun _ _ _ _ _ => rfl

def newClient : Client where
  authenticated := true
  authenticationFailures := 0
  closeAfterFlush := false
  inputReady := false
  outputReady := false
  inputEof := false
  peerHungUp := false
  inputStart := 0
  input := []
  output := fun _ => 0
  outputUsed := 0
  outputSent := 0
  deferredMiss := none
  deferredDeadline := 0
  deferredDeadlineExpired := false
  retryingDeferredMiss := false

def spelledRequest : List Bytes := [ascii "mget",ascii "CRUD:d.s.r:\x7b\"a\": \"7\"\x7d"]

theorem spelled_request_agrees : ∃ client' w' json,
    tryFastMgetHit readingServer holdingBackend [plainMapping] newClient spelledRequest () =
      .ok (true,client') w' ∧
    Taken newClient client' (hitReply json) ∧ Gives readingServer holdingBackend () plainMapping
      (ascii "1:7;") json ∧
    ∃ w3, commandMget readingServer holdingBackend plainSettings ⟨false,0⟩ [plainMapping]
      spelledRequest.tail 0 () = .ok (some (hitReply json)) w3 := by
  obtain ⟨taken,client',w',hrun,_,htrue⟩ := fast_mget_agrees readingServer holdingBackend
    plainSettings id holding_readsCache [plainMapping] reading_documented newClient spelledRequest
    ()
  have htaken : taken = true := by
    have : (match tryFastMgetHit readingServer holdingBackend [plainMapping] newClient
        spelledRequest () with
      | .ok r _ => r.1
      | .error _ _ => false) = true := by decide +kernel
    rw [hrun] at this
    exact this
  obtain ⟨wireKey,key,json,ha,hgeneral⟩ := htrue htaken
  obtain ⟨name,hargs,_⟩ := ha.request
  have hwire : wireKey = ascii "CRUD:d.s.r:\x7b\"a\": \"7\"\x7d" := by
    simp only [spelledRequest, List.cons.injEq] at hargs
    exact hargs.2.1.symm
  subst hwire
  have hkey : resolveKey readingServer [plainMapping] (ascii "CRUD:d.s.r:\x7b\"a\": \"7\"\x7d") =
      .ok ⟨plainMapping,[[55]],ascii "1:7;"⟩ := by rfl
  have hsame := hkey.symm.trans ha.resolved
  cases hsame
  rw [htaken] at hrun
  exact ⟨client',w',json,hrun,ha.taken,ha.gives,hgeneral ⟨false,0⟩ 0 () rfl (by decide)⟩

end PgLocalCache.FastAgreement
