import PgLocalCache.ClientTurn
import PgLocalCache.ClientLog

/-!
# A connection against its stream

The buffers of a connected client and the log of its connection belong together:
the unread bytes are the end of what was received, the replies that are not yet
handed over stand in the output buffer, and a request that is put off is the next
one in the input. Every action of the event loop keeps this, and so in every run
the executed requests are the allowed ones of the stream in their order and the
socket is handed their replies.
-/

namespace PgLocalCache.ClientStream

open ByteMemory WorkerBackend FastPath FastAgreement ClientProtocol ClientLog
open CommandDispatch ClientTurn Outcome
open WireKey (Server)
open MgetCommand (deadlineExceeded)
open RespParser RespWriter

variable {W D : Type} (identity : Identity)

/-- Nothing more is executed: the input has ended, or only the output is awaited. -/
def Finished (s : Link W) (a : Account) : Prop :=
  unread s.client = [] ∧ a.putOff = none ∧ (s.client.inputEof = true ∨
    (outputPending s.client ∧ s.client.closeAfterFlush = true))

structure Wired (s : Link W) (a : Account) : Prop where
  start : s.client.inputStart ≤ s.client.input.length
  fits : s.client.input.length ≤ requestMax
  output : outputPending s.client ∨ (s.client.outputSent = 0 ∧ s.client.outputUsed = 0)
  room : s.client.outputUsed ≤ outputBufferMax
  buffered : a.replies = s.handed++
    read s.client.output s.client.outputSent (s.client.outputUsed-s.client.outputSent)
  auth : authState s.client = a.auth
  tail : ∃ front, s.received = front++unread s.client
  below : ∀ served ∈ a.served, served.offset < position s
  stream : Live identity s.received (unread s.client) a ∨ Finished s a
  closing : a.closed = true → s.client.closeAfterFlush = true

/-- A request that is put off stands at the start of the unread input. -/
def Settled (s : Link W) (a : Account) : Prop :=
  match s.client.deferredMiss with
  | none => a.putOff = none
  | some miss => Live identity s.received (unread s.client) a ∧
      miss.requestOffset = s.client.inputStart ∧ ∃ args, a.putOff = some (position s,args) ∧
        respParse (unread s.client) = .complete ⟨args,miss.requestLength⟩

def Stands (s : Link W) : Prop :=
  ∃ a, Chronicle identity s.received s.log a ∧ Wired identity s a ∧ Settled identity s a

def Kept (s : Link W) : Prop :=
  ∃ a, Chronicle identity s.received s.log a ∧ s.handed <+: a.replies

theorem stands_kept {identity : Identity} {s : Link W} (h : Stands identity s) :
    Kept identity s := by
  obtain ⟨a,hc,hw,_⟩ := h
  exact ⟨a,hc,_,hw.buffered.symm⟩

def Returned (result : Bool × Link W) : Prop :=
  if result.1 then Stands identity result.2 else Kept identity result.2

theorem returned_stands {identity : Identity} {s : Link W} (h : Stands identity s) :
    Returned identity (true,s) := by
  rw [Returned, if_pos rfl]
  exact h

theorem returned_kept {identity : Identity} {s : Link W} (h : Kept identity s) :
    Returned identity (false,s) := by
  rw [Returned, if_neg (fun h => nomatch h)]
  exact h

/-! Changes that keep the view of a client. -/

structure Alike (c c' : Client) : Prop where
  unread : unread c' = unread c
  start : c'.inputStart ≤ c'.input.length
  fits : c'.input.length ≤ requestMax
  used : c'.outputUsed = c.outputUsed
  sent : c'.outputSent = c.outputSent
  output : ∀ i, i < c.outputUsed → c'.output i = c.output i
  auth : authState c' = authState c
  eof : c.inputEof = true → c'.inputEof = true
  closing : c.closeAfterFlush = true → c'.closeAfterFlush = true

section
variable {identity}
variable {s s' : Link W} {a : Account}

theorem alike_refl (hw : Wired identity s a) : Alike s.client s.client where
  unread := rfl
  start := hw.start
  fits := hw.fits
  used := rfl
  sent := rfl
  output := fun _ _ => rfl
  auth := rfl
  eof := id
  closing := id

theorem ready_alike (hw : Wired identity s a) (ready : Bool) :
    Alike s.client { s.client with inputReady := ready } :=
  ⟨rfl,hw.start,hw.fits,rfl,rfl,fun _ _ => rfl,rfl,id,id⟩

theorem position_alike (hr : s'.received = s.received)
    (hu : unread s'.client = unread s.client) : position s' = position s := by
  rw [position, position, hr, hu]

theorem wired_alike (hw : Wired identity s a) (ha : Alike s.client s'.client)
    (hr : s'.received = s.received) (hh : s'.handed = s.handed) : Wired identity s' a where
  start := ha.start
  fits := ha.fits
  output := by
    rw [outputPending, ha.used, ha.sent]
    exact hw.output
  room := by
    rw [ha.used]
    exact hw.room
  buffered := by
    rw [hw.buffered, hh, ha.used, ha.sent]
    congr 1
    apply read_congr
    intro i _ hi
    exact (ha.output i (by omega)).symm
  auth := ha.auth.trans hw.auth
  tail := by
    rw [hr, ha.unread]
    exact hw.tail
  below := by
    rw [position_alike hr ha.unread]
    exact hw.below
  stream := by
    rw [hr, ha.unread]
    rcases hw.stream with hl | ⟨hu,hp,hf⟩
    · exact Or.inl hl
    · refine Or.inr ⟨ha.unread.trans hu,hp,?_⟩
      rcases hf with he | ⟨hpend,hclose⟩
      · exact Or.inl (ha.eof he)
      · refine Or.inr ⟨?_,ha.closing hclose⟩
        rw [outputPending, ha.used, ha.sent]
        exact hpend
  closing := fun hc => ha.closing (hw.closing hc)

theorem settled_alike (h : Settled identity s a) (hu : unread s'.client = unread s.client)
    (hr : s'.received = s.received) (hm : s'.client.deferredMiss = s.client.deferredMiss)
    (hi : s.client.deferredMiss ≠ none → s'.client.inputStart = s.client.inputStart) :
    Settled identity s' a := by
  unfold Settled at *
  rw [hm]
  cases hd : s.client.deferredMiss with
  | none =>
    rw [hd] at h
    exact h
  | some miss =>
    rw [hd] at h
    simp only
    rw [hr, hu, position_alike hr hu, hi (by rw [hd]; exact fun hn => nomatch hn)]
    exact h

theorem finish_alike (hw : Wired identity s a) : Alike s.client (finishClientTurn s.client) := by
  have hempty : s.client.inputStart = s.client.input.length → unread s.client = [] := by
    intro h
    rw [unread, h, List.drop_length]
  unfold finishClientTurn resetInput
  split
  · rename_i heq
    have hzero : Alike s.client { s.client with input := [], inputStart := 0 } :=
      ⟨(hempty heq).symm,le_refl _,Nat.zero_le _,rfl,rfl,fun _ _ => rfl,rfl,id,id⟩
    simp only
    split
    · exact ⟨hzero.unread,hzero.start,hzero.fits,rfl,rfl,fun _ _ => rfl,rfl,id,fun _ => rfl⟩
    · exact hzero
  · simp only
    split
    · exact ⟨rfl,hw.start,hw.fits,rfl,rfl,fun _ _ => rfl,rfl,id,fun _ => rfl⟩
    · exact alike_refl hw

theorem complete_unread (client : Client) (request : Request)
    (h : respParse (unread client) = .complete request) :
    client.inputStart < client.input.length := by
  obtain ⟨_,hpos,hle⟩ := respParse_complete _ _ h
  rw [unread, List.length_drop] at hle
  omega

theorem finish_settled (h : Settled identity s a) :
    Settled identity (withClient s (finishClientTurn s.client)) a := by
  unfold Settled at h
  cases hd : s.client.deferredMiss with
  | none =>
    rw [hd] at h
    have hnone : (finishClientTurn s.client).deferredMiss = none := by
      unfold finishClientTurn resetInput
      split <;> simp only <;> split <;> exact hd
    unfold Settled
    simp only [withClient, hnone]
    exact h
  | some miss =>
    have hsame : finishClientTurn s.client = s.client := by
      rw [hd] at h
      obtain ⟨_,_,args,_,hparse⟩ := h
      have hlt := complete_unread _ _ hparse
      have hreset : resetInput s.client = s.client := if_neg (by omega)
      unfold finishClientTurn
      rw [hreset]
      exact if_neg (by simp [hd])
    rw [hsame]
    unfold Settled
    simp only [withClient]
    exact h

theorem finish_stands (hc : Chronicle identity s.received s.log a) (hw : Wired identity s a)
    (hs : Settled identity s a) :
    Stands identity (withClient s (finishClientTurn s.client)) :=
  ⟨a,hc,wired_alike hw (finish_alike hw) rfl rfl,finish_settled hs⟩

end

/-! Inside a turn. -/

structure Inside (s : Link W) (a : Account) : Prop where
  chronicle : Chronicle identity s.received s.log a
  wired : Wired identity s a
  unsent : s.client.outputSent = 0
  idle : s.client.deferredMiss = none
  alive : s.client.inputEof = false → Live identity s.received (unread s.client) a

/-- The request at the start of the input is the one that was put off. -/
def Resumed (s : Link W) (a : Account) : Prop :=
  s.client.outputUsed = 0 ∧ Live identity s.received (unread s.client) a ∧
    ∃ args length, a.putOff = some (position s,args) ∧
      respParse (unread s.client) = .complete ⟨args,length⟩

/-- The output buffer behind one more reply. -/
structure Replies (c c' : Client) (reply : Bytes) : Prop where
  used : c'.outputUsed = c.outputUsed+reply.length
  sent : c'.outputSent = c.outputSent
  appended : Appended c.output c'.output c.outputUsed 0 reply
  room : c'.outputUsed ≤ outputBufferMax

/-- The client behind an answered request. -/
structure AnsweredBy (a : Account) (c c' : Client) (request : Request) (reply : Bytes) : Prop where
  replies : Replies c c' reply
  input : c'.input = c.input
  start : c'.inputStart = c.inputStart+request.consumed
  auth : authState c' = authStep identity a.auth request.args
  idle : c'.deferredMiss = none

def Passed : Step W → Prop
  | .drained s => ∃ a, Inside identity s a ∧ a.putOff = none
  | .returned ok s => Returned identity (ok,s)
  | .answered s => ∃ a, Inside identity s a ∧ a.putOff = none

section
variable {identity}
variable {s s' : Link W} {a : Account}

theorem inside_alike (hi : Inside identity s a) (ha : Alike s.client s'.client)
    (hr : s'.received = s.received) (hh : s'.handed = s.handed) (hl : s'.log = s.log)
    (hm : s'.client.deferredMiss = none) : Inside identity s' a where
  chronicle := by
    rw [hr, hl]
    exact hi.chronicle
  wired := wired_alike hi.wired ha hr hh
  unsent := ha.sent.trans hi.unsent
  idle := hm
  alive := by
    intro he
    rw [hr, ha.unread]
    apply hi.alive
    rw [Bool.eq_false_iff] at *
    exact fun h => he (ha.eof h)

theorem resumed_alike (h : Resumed identity s a) (ha : Alike s.client s'.client)
    (hr : s'.received = s.received) : Resumed identity s' a := by
  obtain ⟨hused,hlive,hwaits⟩ := h
  refine ⟨ha.used.trans hused,?_,?_⟩
  · rw [hr, ha.unread]
    exact hlive
  · rw [position_alike hr ha.unread, ha.unread]
    exact hwaits

theorem inside_settled (hi : Inside identity s a) (hp : a.putOff = none) :
    Settled identity s a := by
  unfold Settled
  rw [hi.idle]
  exact hp

theorem inside_finish (hi : Inside identity s a) (hp : a.putOff = none) :
    Stands identity (withClient s (finishClientTurn s.client)) :=
  finish_stands hi.chronicle hi.wired (inside_settled hi hp)

theorem inside_next (hi : Inside identity s a) (hready : a.putOff = none ∨ Resumed identity s a)
    (request : Request) (hparse : respParse (unread s.client) = .complete request) :
    Next identity s.received (unread s.client) a (position s) request.args
      ((unread s.client).drop request.consumed) := by
  obtain ⟨hcomplete,_,_⟩ := respParse_complete _ _ hparse
  rw [← takeRequest_eq] at hcomplete
  obtain ⟨front,hfront⟩ := hi.wired.tail
  have hplace : s.received.drop (position s) = unread s.client := by
    have hlen : position s = front.length := by
      rw [position, hfront, List.length_append]
      omega
    rw [hlen, hfront, List.drop_left]
  refine ⟨?_,hcomplete,?_,⟨_,by rw [hplace]; exact hcomplete⟩,hi.wired.below,?_⟩
  · rcases hi.wired.stream with hl | hf
    · exact hl
    · rw [hf.1] at hparse
      cases hparse
  · rw [unread, List.length_drop]
    have := hi.wired.fits
    omega
  · rcases hready with hp | ⟨_,_,args,length,hp,hparse'⟩
    · exact Or.inl hp
    · rw [hparse] at hparse'
      cases hparse'
      exact Or.inr hp

theorem buffered_reply (hi : Inside identity s a) (reply : Bytes)
    (hreply : Replies s.client s'.client reply) (hh : s'.handed = s.handed) :
    a.replies++reply = s'.handed++read s'.client.output s'.client.outputSent
      (s'.client.outputUsed-s'.client.outputSent) := by
  have hheld := hreply.appended.held
  have hkept : read s'.client.output 0 s.client.outputUsed =
      read s.client.output 0 s.client.outputUsed := by
    apply read_congr
    intro i _ h
    exact hreply.appended.kept i (by omega)
  rw [Nat.add_zero] at hheld
  rw [hi.wired.buffered, hh, hreply.sent, hreply.used, hi.unsent, Nat.sub_zero, Nat.sub_zero,
    read_add, Nat.zero_add, hheld, hkept, List.append_assoc]

theorem output_reply (hi : Inside identity s a) (reply : Bytes)
    (hreply : Replies s.client s'.client reply) :
    outputPending s'.client ∨ (s'.client.outputSent = 0 ∧ s'.client.outputUsed = 0) := by
  rw [outputPending, hreply.sent, hi.unsent]
  omega

theorem position_forward (hw : Wired identity s a) (hr : s'.received = s.received)
    (hshort : (unread s'.client).length < (unread s.client).length) :
    position s < position s' := by
  obtain ⟨front,hfront⟩ := hw.tail
  have hlen : s.received.length = front.length+(unread s.client).length := by
    rw [hfront, List.length_append]
  rw [position, position, hr]
  omega

theorem wired_replied (hi : Inside identity s a) (args : List Bytes) (tail reply : Bytes)
    (hn : Next identity s.received (unread s.client) a (position s) args tail)
    (hreply : Replies s.client s'.client reply) (hr : s'.received = s.received)
    (hh : s'.handed = s.handed) (hstart : s'.client.inputStart ≤ s'.client.input.length)
    (hfits : s'.client.input.length ≤ requestMax)
    (hsuffix : ∃ used, 0 < used.length ∧ unread s.client = used++unread s'.client)
    (hauth : authState s'.client = authStep identity a.auth args)
    (hstream : Live identity s'.received (unread s'.client)
        (replied identity a (position s) args reply) ∨
      (Finished s' (replied identity a (position s) args reply) ∧
        s'.client.closeAfterFlush = true)) :
    Wired identity s' (replied identity a (position s) args reply) := by
  obtain ⟨used,hpos,hused⟩ := hsuffix
  have hforward : position s < position s' := by
    apply position_forward hi.wired hr
    rw [hused, List.length_append]
    omega
  refine ⟨hstart,hfits,output_reply hi reply hreply,hreply.room,?_,hauth,?_,?_,?_,?_⟩
  · rw [chronicle_replies hi.chronicle hn.live.1]
    exact buffered_reply hi reply hreply hh
  · obtain ⟨front,hfront⟩ := hi.wired.tail
    exact ⟨front++used,by rw [hr, hfront, hused, List.append_assoc]⟩
  · intro served hs
    rcases List.mem_append.mp hs with hs | hs
    · exact lt_trans (hi.wired.below served hs) hforward
    · rw [List.mem_singleton.mp hs]
      exact hforward
  · rcases hstream with hl | hf
    · exact Or.inl hl
    · exact Or.inr hf.1
  · intro hclosed
    rcases hstream with hl | hf
    · rw [hl.1] at hclosed
      cases hclosed
    · exact hf.2

/-! The steps of a turn. -/

theorem queueResponse_some (client client' : Client) (response : Bytes) (closeAfter : Bool)
    (hroom : client.outputUsed ≤ outputBufferMax)
    (h : queueResponse client response closeAfter = some client') :
    Replies client client' response ∧ client' = { client with
      output := client'.output
      outputUsed := client'.outputUsed
      outputReady := true
      closeAfterFlush := client.closeAfterFlush || closeAfter } := by
  unfold queueResponse at h
  split at h
  · cases h
  · rename_i hfits
    rw [not_or, not_lt] at hfits
    cases h
    refine ⟨⟨rfl,rfl,?_,?_⟩,rfl⟩
    · exact appended_write client.output client.outputUsed 0 response
    · simp only
      omega

theorem compact_alike (hw : Wired identity s a) : Alike s.client (compactClientInput s.client) where
  unread := by simp [compactClientInput, unread]
  start := Nat.zero_le _
  fits := by
    have := hw.fits
    simp only [compactClientInput, unread, List.length_drop]
    omega
  used := rfl
  sent := rfl
  output := fun _ _ => rfl
  auth := rfl
  eof := id
  closing := id

theorem skip_unread (client : Client) : unread (skipInput client) = [] := by
  simp [unread, skipInput]

theorem inside_skip (hi : Inside identity s a) (hp : a.putOff = none)
    (he : s.client.inputEof = true) : Inside identity (withClient s (skipInput s.client)) a where
  chronicle := hi.chronicle
  wired := by
    have hposition : position s ≤ position (withClient s (skipInput s.client)) := by
      rw [position, position]
      simp only [withClient, skip_unread, List.length_nil]
      omega
    exact ⟨le_refl _,hi.wired.fits,hi.wired.output,hi.wired.room,hi.wired.buffered,hi.wired.auth,
      ⟨s.received,by simp [withClient, skip_unread]⟩,
      fun served hs => lt_of_lt_of_le (hi.wired.below served hs) hposition,
      Or.inr ⟨skip_unread s.client,hp,Or.inl he⟩,hi.wired.closing⟩
  unsent := hi.unsent
  idle := hi.idle
  alive := by
    intro hf
    rw [withClient, skipInput, he] at hf
    cases hf

theorem onIncomplete_passed (hi : Inside identity s a) (hp : a.putOff = none) :
    Passed identity (onIncomplete s) := by
  have hcompact : Inside identity (withClient s (compactClientInput s.client)) a :=
    inside_alike hi (compact_alike hi.wired) rfl rfl rfl hi.idle
  unfold onIncomplete
  simp only
  split
  · rename_i he
    exact ⟨a,inside_skip hcompact hp he,hp⟩
  · split
    · apply returned_stands
      apply inside_finish (s := withClient s { compactClientInput s.client with
        closeAfterFlush := true }) ?_ hp
      have ha := alike_refl hcompact.wired
      exact inside_alike hcompact ⟨ha.unread,ha.start,ha.fits,rfl,rfl,ha.output,rfl,id,fun _ => rfl⟩
        rfl rfl rfl hi.idle
    · exact ⟨a,hcompact,hp⟩

theorem complaint_length (error : RespError) :
    0 < (complaintOf error).length ∧ (complaintOf error).length ≤ responseMax := by
  cases error <;> decide

theorem onMalformed_passed (hi : Inside identity s a) (hp : a.putOff = none)
    (hlive : Live identity s.received (unread s.client) a)
    (hreserved : responseMax ≤ outputBufferMax-s.client.outputUsed) (error : RespError) :
    Passed identity (onMalformed s error) := by
  obtain ⟨hpos,hshort⟩ := complaint_length error
  unfold onMalformed
  cases hq : queueResponse s.client (complaintOf error) true with
  | none =>
    unfold queueResponse at hq
    rw [if_neg (by rw [not_or, not_not, not_lt]; exact ⟨hi.unsent,by omega⟩)] at hq
    cases hq
  | some client =>
    obtain ⟨hreply,hrest⟩ := queueResponse_some _ _ _ _ hi.wired.room hq
    apply returned_stands
    have hchronicle := chronicle_malformed hi.chronicle hlive.1 hp error
    have hpending : outputPending client := by
      rw [outputPending, hreply.sent, hi.unsent, hreply.used]
      omega
    have hinput : client.input = s.client.input := by rw [hrest]
    have hwired : Wired identity (record (withClient s (skipInput client)) (.malformed error))
        (complained a error) := by
      have hposition : position s ≤
          position (record (withClient s (skipInput client)) (.malformed error)) := by
        rw [position, position]
        simp only [record, withClient, skip_unread, List.length_nil]
        omega
      have hclosing : client.closeAfterFlush = true := by
        rw [hrest]
        simp
      refine ⟨le_refl _,?_,Or.inl hpending,hreply.room,?_,?_,⟨s.received,?_⟩,?_,?_,
        fun _ => hclosing⟩
      · simp only [record, withClient, skipInput, hinput]
        exact hi.wired.fits
      · have hreplies : (complained a error).replies = a.replies++complaintOf error := by
          simp [complained, Account.replies, hi.chronicle.complaint hlive.1]
        have hreply' : Replies s.client
            (record (withClient s (skipInput client)) (.malformed error)).client
            (complaintOf error) := ⟨hreply.used,hreply.sent,hreply.appended,hreply.room⟩
        rw [hreplies]
        exact buffered_reply hi _ hreply' rfl
      · have hauth : authState (skipInput client) = authState s.client := by
          rw [hrest]
          rfl
        exact hauth.trans hi.wired.auth
      · simp [record, withClient, skip_unread]
      · exact fun served hs => lt_of_lt_of_le (hi.wired.below served hs) hposition
      · exact Or.inr ⟨skip_unread client,hp,Or.inr ⟨hpending,hclosing⟩⟩
    apply finish_stands (s := record (withClient s (skipInput client)) (.malformed error))
      hchronicle hwired
    have hidle : client.deferredMiss = none := by
      rw [hrest]
      exact hi.idle
    unfold Settled
    simp only [record, withClient, skipInput, hidle]
    exact hp

theorem endRetry_eq (client : Client) : endRetry client = { client with
    retryingDeferredMiss := (endRetry client).retryingDeferredMiss
    deferredDeadline := (endRetry client).deferredDeadline
    deferredDeadlineExpired := (endRetry client).deferredDeadlineExpired } := by
  unfold endRetry
  split <;> rfl

theorem executes_unread (client : Client) (args : List Bytes) (length : ℕ) (e : Execution)
    (hx : Executes identity client args length e) : unread e.client = unread client := by
  rw [hx.rest]
  rfl

theorem wired_waits (hw : Wired identity s a) (args : List Bytes)
    (hlive : Live identity s.received (unread s.client) a) :
    Wired identity s (waitsFor a (position s) args) :=
  ⟨hw.start,hw.fits,hw.output,hw.room,hw.buffered,hw.auth,hw.tail,hw.below,Or.inl hlive,hw.closing⟩

theorem putOff_stands (s' : Link W) (hi : Inside identity s a)
    (hready : a.putOff = none ∨ Resumed identity s a) (request : Request)
    (hparse : respParse (unread s.client) = .complete request) (e : Execution)
    (hx : Executes identity s.client request.args request.consumed e) (hnone : e.reply = none)
    (before after : W) (ht : Told identity a.auth request.args none before after)
    (hclient : s'.client = e.client) (hr : s'.received = s.received) (hh : s'.handed = s.handed)
    (hlog : s'.log = s.log++[.executed (position s) request.args none before after]) :
    Stands identity (withClient s' (finishClientTurn s'.client)) := by
  have hn := inside_next hi hready request hparse
  obtain ⟨hmget,deadline,hmiss⟩ := hx.putOff hnone
  have hrest : s'.client = { s.client with
      authenticated := s'.client.authenticated
      authenticationFailures := s'.client.authenticationFailures
      deferredMiss := s'.client.deferredMiss
      deferredDeadline := s'.client.deferredDeadline
      deferredDeadlineExpired := s'.client.deferredDeadlineExpired } := by
    rw [hclient]
    exact hx.rest
  have halike : Alike s.client s'.client := by
    have ha := alike_refl hi.wired
    rw [hrest]
    refine ⟨rfl,ha.start,ha.fits,rfl,rfl,fun _ _ => rfl,?_,id,id⟩
    rw [← hrest, hclient, hx.auth, authStep, if_neg (mget_neutral hmget).1]
  have hposition := position_alike hr halike.unread
  apply finish_stands (a := waitsFor a (position s) request.args)
  · rw [hr, hlog]
    exact chronicle_putOff hi.chronicle hn hmget before after ht
  · exact wired_alike (wired_waits hi.wired request.args hn.live) halike hr hh
  · unfold Settled
    rw [hclient, hmiss, ← hclient]
    refine ⟨?_,?_,request.args,?_,?_⟩
    · rw [hr, halike.unread]
      exact hn.live
    · rw [hrest]
    · rw [hposition]
      rfl
    · rw [halike.unread]
      exact hparse

theorem replied_inside (s' : Link W) (hi : Inside identity s a)
    (hready : a.putOff = none ∨ Resumed identity s a) (request : Request)
    (hparse : respParse (unread s.client) = .complete request) (reply : Bytes)
    (hopen : ¬Closes identity a.auth request.args)
    (hby : AnsweredBy identity a s.client s'.client request reply) (hr : s'.received = s.received)
    (hh : s'.handed = s.handed) (hc : Chronicle identity s'.received s'.log
      (replied identity a (position s) request.args reply)) :
    Inside identity s' (replied identity a (position s) request.args reply) := by
  have hn := inside_next hi hready request hparse
  obtain ⟨_,hpos,hle⟩ := respParse_complete _ _ hparse
  have hunread : unread s'.client = (unread s.client).drop request.consumed := by
    rw [unread, hby.input, hby.start, unread, List.drop_drop]
  have hlive : Live identity s'.received (unread s'.client)
      (replied identity a (position s) request.args reply) := by
    rw [hr, hunread]
    exact live_executed hn reply hopen
  refine ⟨hc,?_,hby.replies.sent.trans hi.unsent,hby.idle,fun _ => hlive⟩
  apply wired_replied hi request.args _ reply hn hby.replies hr hh ?_ ?_ ?_ hby.auth (Or.inl hlive)
  · rw [unread, List.length_drop] at hle
    have := hi.wired.start
    rw [hby.start, hby.input]
    omega
  · rw [hby.input]
    exact hi.wired.fits
  · refine ⟨(unread s.client).take request.consumed,?_,?_⟩
    · rw [List.length_take]
      omega
    · rw [hunread, List.take_append_drop]

/-- A request that is answered and closes the connection: the rest of the input is skipped. -/
theorem replied_stands (s' : Link W) (client : Client) (hi : Inside identity s a)
    (hready : a.putOff = none ∨ Resumed identity s a) (request : Request)
    (hparse : respParse (unread s.client) = .complete request) (reply : Bytes)
    (hne : reply ≠ []) (hby : AnsweredBy identity a s.client client request reply)
    (hclosing : client.closeAfterFlush = true) (hclient : s'.client = skipInput client)
    (hr : s'.received = s.received) (hh : s'.handed = s.handed)
    (hc : Chronicle identity s'.received s'.log
      (replied identity a (position s) request.args reply)) :
    Stands identity (withClient s' (finishClientTurn s'.client)) := by
  have hn := inside_next hi hready request hparse
  obtain ⟨_,hpos,hle⟩ := respParse_complete _ _ hparse
  have hunread : unread s'.client = [] := by
    rw [hclient]
    exact skip_unread client
  have hreplies : Replies s.client s'.client reply := by
    rw [hclient]
    exact ⟨hby.replies.used,hby.replies.sent,hby.replies.appended,hby.replies.room⟩
  have hpending : outputPending s'.client := by
    have := List.length_pos_iff.mpr hne
    rw [outputPending, hreplies.sent, hi.unsent, hreplies.used]
    omega
  apply finish_stands hc
  · apply wired_replied hi request.args _ reply hn hreplies hr hh
    · rw [hclient]
      exact le_refl _
    · rw [hclient, skipInput, hby.input]
      exact hi.wired.fits
    · exact ⟨unread s.client,by omega,by rw [hunread, List.append_nil]⟩
    · rw [hclient]
      exact hby.auth
    · have hclosing' : s'.client.closeAfterFlush = true := by
        rw [hclient]
        exact hclosing
      exact Or.inr ⟨⟨hunread,rfl,Or.inr ⟨hpending,hclosing'⟩⟩,hclosing'⟩
  · unfold Settled
    rw [hclient, skipInput, hby.idle]
    rfl

theorem endRetry_answered (c c' : Client) (request : Request) (reply : Bytes)
    (h : AnsweredBy identity a c c' request reply) :
    AnsweredBy identity a c (endRetry c') request reply := by
  rw [endRetry_eq]
  exact ⟨⟨h.replies.used,h.replies.sent,h.replies.appended,h.replies.room⟩,h.input,h.start,h.auth,
    h.idle⟩

theorem queued_answered (hi : Inside identity s a) (request : Request) (e : Execution)
    (hx : Executes identity s.client request.args request.consumed e) (reply : Bytes)
    (hreply : e.reply = some reply) (client : Client)
    (hq : queueResponse e.client reply e.closeAfter = some client) :
    AnsweredBy identity a s.client (consume client request.consumed) request reply ∧
      (e.closeAfter = true → client.closeAfterFlush = true) := by
  have hsame : e.client.output = s.client.output ∧ e.client.outputUsed = s.client.outputUsed ∧
      e.client.outputSent = s.client.outputSent ∧ e.client.input = s.client.input ∧
      e.client.inputStart = s.client.inputStart := by
    rw [hx.rest]
    exact ⟨rfl,rfl,rfl,rfl,rfl⟩
  obtain ⟨houtput,hused,hsent,hinput,hstart⟩ := hsame
  obtain ⟨hqueued,hrest⟩ := queueResponse_some _ _ _ _ (by rw [hused]; exact hi.wired.room) hq
  refine ⟨⟨⟨?_,?_,?_,hqueued.room⟩,?_,?_,?_,?_⟩,fun hclose => ?_⟩
  · exact hqueued.used.trans (by rw [hused])
  · exact hqueued.sent.trans hsent
  · rw [← houtput, ← hused]
    exact hqueued.appended
  · rw [consume, hrest]
    exact hinput
  · rw [consume, hrest]
    simp only [hstart]
  · rw [consume, hrest]
    rw [← hi.wired.auth]
    exact hx.auth
  · rw [consume, hrest]
    exact (hx.replied reply hreply).trans hi.idle
  · rw [hrest, hclose]
    simp

theorem refused_kept (hi : Inside identity s a) (hready : a.putOff = none ∨ Resumed identity s a)
    (request : Request) (hparse : respParse (unread s.client) = .complete request) (e : Execution)
    (hx : Executes identity s.client request.args request.consumed e) (reply : Bytes)
    (hq : queueResponse e.client reply e.closeAfter = none)
    (hreserved : responseMax ≤ outputBufferMax-s.client.outputUsed) (before after : W)
    (ht : Told identity a.auth request.args (some reply) before after)
    (hr : s'.received = s.received) (hh : s'.handed = s.handed)
    (hlog : s'.log = s.log++[.executed (position s) request.args (some reply) before after]++
      [.refused]) : Kept identity s' := by
  have hn := inside_next hi hready request hparse
  have hsame : e.client.outputSent = 0 ∧ e.client.outputUsed = s.client.outputUsed := by
    rw [hx.rest]
    exact ⟨hi.unsent,rfl⟩
  have hlong : responseMax < reply.length := by
    unfold queueResponse at hq
    split at hq
    · rename_i hfull
      rw [hsame.1, hsame.2] at hfull
      omega
    · cases hq
  have hchronicle := chronicle_executed hi.chronicle hn reply before after ht
  refine ⟨{ replied identity a (position s) request.args reply with closed := true },?_,?_⟩
  · rw [hr, hlog]
    exact chronicle_refused hchronicle _
      (List.mem_append_right _ (List.mem_singleton.mpr rfl)) hlong
  · have hreplies : (replied identity a (position s) request.args reply).replies =
        a.replies++reply := chronicle_replies hi.chronicle hn.live.1 reply
    have heq : Account.replies { replied identity a (position s) request.args reply with
        closed := true } = a.replies++reply := hreplies
    rw [heq, hi.wired.buffered, hh, List.append_assoc]
    exact ⟨_,rfl⟩

end

section
variable {identity}
variable {S : Server D} {B : Backend W D} {C : Commands W D} {cfg : WorkerSettings}
variable {s : Link W} {a : Account}

theorem onCommand_passed (before : W) (hi : Inside identity s a)
    (hready : a.putOff = none ∨ Resumed identity s a) (request : Request)
    (hparse : respParse (unread s.client) = .complete request)
    (hreserved : responseMax ≤ outputBufferMax-s.client.outputUsed)
    (hbefore : Public (authState s.client) request.args → s.world = before) :
    Passed identity (onCommand identity S B C cfg before s request) := by
  have hx : Executes identity s.client request.args request.consumed
      (executeCommand identity S B C cfg s.client request.args request.consumed s.world).1 :=
    executeCommand_executes identity request.args
  have hpublic := executeCommand_public identity S B C cfg s.client request.args request.consumed
    s.world
  unfold onCommand
  simp only
  generalize executeCommand identity S B C cfg s.client request.args request.consumed s.world =
    result at hx hpublic
  have ht : Told identity a.auth request.args result.1.reply before result.2 := by
    rw [Told, ← hi.wired.auth]
    intro hp
    rw [hpublic hp]
    exact ⟨publicExecution_reply identity s.client request.args,hbefore hp⟩
  have hcloses : result.1.closeAfter = decide (Closes identity a.auth request.args) := by
    rw [← hi.wired.auth]
    exact hx.closes
  have hn := inside_next hi hready request hparse
  cases hreply : result.1.reply with
  | none =>
    rw [hreply] at ht
    apply returned_stands
    exact putOff_stands (withClient (record { s with world := result.2 } (.executed (position s)
      request.args none before result.2)) result.1.client) hi hready request hparse result.1 hx
      hreply before result.2 ht rfl rfl rfl rfl
  | some response =>
    rw [hreply] at ht
    simp only
    cases hq : queueResponse result.1.client response result.1.closeAfter with
    | none =>
      apply returned_kept
      exact refused_kept hi hready request hparse result.1 hx response hq hreserved before result.2
        ht rfl rfl rfl
    | some client =>
      obtain ⟨hby,hclosing⟩ := queued_answered hi request result.1 hx response hreply client hq
      have hby' := endRetry_answered _ _ _ _ hby
      simp only
      split
      · rename_i hclose
        apply returned_stands
        apply replied_stands (withClient (record { s with world := result.2 } (.executed
          (position s) request.args (some response) before result.2)) (skipInput (endRetry
          (consume client request.consumed)))) _ hi hready request hparse response ?_ hby' ?_ rfl
          rfl rfl (chronicle_executed hi.chronicle hn response before result.2 ht)
        · intro hnil
          exact hx.farewell hclose (by rw [hreply, hnil])
        · rw [endRetry_eq]
          exact hclosing hclose
      · rename_i hclose
        refine ⟨_,replied_inside _ hi hready request hparse response ?_ hby' rfl rfl
          (chronicle_executed hi.chronicle hn response before result.2 ht),rfl⟩
        intro hc
        exact hclose (hcloses.trans (decide_eq_true hc))

theorem untaken_alike (hw : Wired identity s a) (client : Client)
    (hu : Untaken s.client client) : Alike s.client client := by
  have ha := alike_refl hw
  have hrest := hu.rest
  rw [hrest]
  exact ⟨rfl,ha.start,ha.fits,rfl,rfl,hu.kept,rfl,id,id⟩

theorem taken_answered (hi : Inside identity s a) (request : Request) (client : Client)
    (reply : Bytes) (ht : Taken s.client client reply)
    (hmget : named request.args "MGET" = true) :
    AnsweredBy identity a s.client (consume (endRetry client) request.consumed) request reply := by
  have hrest := ht.rest
  have happended := ht.appended
  have hroom := ht.room
  rw [endRetry_eq]
  refine ⟨⟨?_,?_,happended,?_⟩,?_,?_,?_,?_⟩
  · rw [hrest]
    rfl
  · rw [hrest]
    rfl
  · rw [hrest]
    exact hroom
  · rw [hrest]
    rfl
  · rw [hrest]
    rfl
  · rw [hrest, authStep, if_neg (mget_neutral hmget).1, ← hi.wired.auth]
    rfl
  · rw [hrest]
    exact hi.idle

theorem onRequest_passed (hi : Inside identity s a)
    (hready : a.putOff = none ∨ Resumed identity s a) (request : Request)
    (hparse : respParse (unread s.client) = .complete request)
    (hreserved : responseMax ≤ outputBufferMax-s.client.outputUsed) :
    Passed identity (onRequest identity S B C cfg s request) := by
  have hserved := tryFastMgetHit_served S B (C.mappings s.world) s.client request.args s.world
  unfold onRequest
  cases hrun : tryFastMgetHit S B (C.mappings s.world) s.client request.args s.world with
  | error e w => exact (ensures_error hserved e w hrun).elim
  | ok r w =>
    obtain ⟨taken,client⟩ := r
    obtain ⟨hfalse,htrue⟩ := ensures_ok hserved _ _ hrun
    cases taken with
    | false =>
      have huntaken : Untaken s.client client := hfalse rfl
      have halike := untaken_alike hi.wired client huntaken
      have hidle : client.deferredMiss = none := by
        rw [huntaken.rest]
        exact hi.idle
      apply onCommand_passed (s := { s with client := client, world := w }) (a := a) s.world
      · exact inside_alike hi halike rfl rfl rfl hidle
      · rcases hready with hp | hres
        · exact Or.inl hp
        · exact Or.inr (resumed_alike hres halike rfl)
      · rw [halike.unread]
        exact hparse
      · rw [halike.used]
        exact hreserved
      · intro hp
        rw [halike.auth] at hp
        rw [tryFastMgetHit_public S B _ _ _ _ hp] at hrun
        cases hrun
        rfl
    | true =>
      obtain ⟨wireKey,heligible,_,hs⟩ := htrue rfl
      obtain ⟨_,_,_,json,_,_,_,_,htaken⟩ := hs.found
      replace htaken : Taken s.client client (hitReply json) := htaken
      obtain ⟨name,hargs,hname⟩ := heligible.request
      have hmget : named request.args "MGET" = true := by
        rw [hargs]
        exact hname
      have hreply : read client.output s.client.outputUsed
          (client.outputUsed-s.client.outputUsed) = hitReply json := by
        have hused : client.outputUsed = s.client.outputUsed+(hitReply json).length := by
          rw [htaken.rest]
        rw [hused, Nat.add_sub_cancel_left]
        exact htaken.appended.held
      have ht : Told identity a.auth request.args (some (hitReply json)) s.world w := by
        rintro (hauth | hauth)
        · rw [← hi.wired.auth, authState, heligible.authenticated] at hauth
          cases hauth
        · rw [hargs] at hauth
          exact absurd (respArgEquals_unique name _ _ hname hauth) (by decide)
      simp only
      rw [hreply]
      exact ⟨_,replied_inside _ hi hready request hparse (hitReply json) (mget_open hmget a.auth)
        (taken_answered hi request client _ htaken hmget) rfl rfl (chronicle_executed hi.chronicle
          (inside_next hi hready request hparse) (hitReply json) s.world w ht),rfl⟩

theorem requestStep_passed (hi : Inside identity s a)
    (hready : a.putOff = none ∨ Resumed identity s a) :
    Passed identity (requestStep identity S B C cfg s) := by
  -- A request that was put off is complete, and there is room for its reply.
  have hnone : (∀ request, respParse (unread s.client) ≠ .complete request) →
      a.putOff = none := by
    intro hne
    rcases hready with hp | ⟨_,_,args,length,_,hparse⟩
    · exact hp
    · exact absurd hparse (hne _)
  unfold requestStep
  split
  · rename_i hempty
    refine ⟨a,hi,hnone (fun request hparse => ?_)⟩
    have := complete_unread _ _ hparse
    omega
  · split
    · rename_i hfull
      have hp : a.putOff = none := by
        rcases hready with hp | ⟨hused,_⟩
        · exact hp
        · have hroom : responseMax ≤ outputBufferMax := Nat.le_add_right _ _
          omega
      apply returned_stands
      apply inside_finish (s := withClient s { s.client with inputReady := true }) ?_ hp
      exact inside_alike hi (ready_alike hi.wired true) rfl rfl rfl hi.idle
    · rename_i hroom
      have hreserved := not_lt.mp hroom
      have hi' : Inside identity { s with world := C.processConfigReload s.world } a :=
        inside_alike hi (alike_refl hi.wired) rfl rfl rfl hi.idle
      simp only
      cases hparse : respParse (unread s.client) with
      | incomplete =>
        exact onIncomplete_passed hi' (hnone (fun request h => by rw [hparse] at h; cases h))
      | error error =>
        have hp := hnone (fun request h => by rw [hparse] at h; cases h)
        apply onMalformed_passed hi' hp ?_ hreserved error
        rcases hi.wired.stream with hl | hf
        · exact hl
        · rw [hf.1] at hparse
          cases hparse
      | complete request =>
        apply onRequest_passed hi' ?_ request hparse hreserved
        rcases hready with hp | hres
        · exact Or.inl hp
        · exact Or.inr (resumed_alike hres (alike_refl hi.wired) rfl)

end

end PgLocalCache.ClientStream
