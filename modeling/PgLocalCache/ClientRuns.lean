import PgLocalCache.ClientStream

/-!
# Runs of a connection

Turns, sends, retries and drops in any order, with any results of the receives and
sends: after every run the log follows the protocol, the executed requests are the
first allowed ones of the stream, and what the socket was handed is the start of
their replies. The connection has no TLS.
-/

namespace PgLocalCache.ClientRuns

open ByteMemory PrefixParser WorkerBackend FastPath ClientProtocol ClientLog
open CommandDispatch ClientTurn ClientStream
open MgetReply (plainServer plainBackend plainSettings)
open WireKey (Server)
open MgetCommand (deadlineExceeded)
open RespParser RespWriter

variable {W D : Type} (identity : Identity)

/-! Whole turns. -/

def PassedOn : Pass W → Prop
  | .drained _ s => ∃ a, Inside identity s a ∧ a.putOff = none
  | .returned ok s => Returned identity (ok,s)

/-- What a turn may start from: the request that was put off is still awaited, or it is taken up
again with an empty output buffer. -/
def Starts (s : Link W) (a : Account) : Prop :=
  Settled identity s a ∨ (s.client.deferredMiss = none ∧ ¬outputPending s.client ∧
    Resumed identity s a)

section
variable {identity}
variable {s : Link W} {a : Account}

theorem wired_empty (hw : Wired identity s a) (hidle : ¬outputPending s.client) :
    s.client.outputSent = 0 ∧ s.client.outputUsed = 0 := by
  rcases hw.output with h | h
  · exact absurd h hidle
  · exact h

theorem wired_inside (hc : Chronicle identity s.received s.log a) (hw : Wired identity s a)
    (hidle : ¬outputPending s.client) (hmiss : s.client.deferredMiss = none) :
    Inside identity s a := by
  refine ⟨hc,hw,(wired_empty hw hidle).1,hmiss,fun heof => ?_⟩
  rcases hw.stream with hl | hf
  · exact hl
  · rcases hf.2.2 with he | he
    · rw [heof] at he
      cases he
    · exact absurd he.1 hidle

theorem finishTurn_returned (hi : Inside identity s a) (hp : a.putOff = none) :
    Returned identity (finishTurn s) :=
  returned_stands (inside_finish hi hp)

theorem clientRecv_data (capacity : ℕ) (result : Incoming) (bytes : Bytes)
    (h : clientRecv capacity result = .data bytes) : bytes.length ≤ capacity := by
  cases result with
  | data all =>
    simp only [clientRecv] at h
    split at h
    · cases h
    · cases h
      exact List.length_take_le capacity all
  | eof => cases h
  | interrupted => cases h
  | again => cases h
  | failed => cases h

theorem receiveLoop_data (capacity : ℕ) (incoming : List Incoming) (bytes : Bytes)
    (h : receiveLoop capacity incoming = .data bytes) : bytes.length ≤ capacity := by
  induction incoming with
  | nil => cases h
  | cons result incoming ih =>
    rw [receiveLoop] at h
    cases hr : clientRecv capacity result with
    | interrupted =>
      rw [hr] at h
      exact ih h
    | data all =>
      rw [hr] at h
      cases h
      exact clientRecv_data capacity result bytes hr
    | eof =>
      rw [hr] at h
      cases h
    | again =>
      rw [hr] at h
      cases h
    | failed =>
      rw [hr] at h
      cases h

theorem takeIn_unread (hw : Wired identity s a) (bytes : Bytes) :
    unread (takeIn s bytes).client = unread s.client++bytes := by
  rw [takeIn, unread, unread, List.drop_append_of_le_length hw.start]

theorem takeIn_position (hw : Wired identity s a) (bytes : Bytes) :
    position (takeIn s bytes) = position s := by
  rw [position, takeIn_unread hw bytes, position]
  simp only [takeIn, List.length_append]
  omega

theorem takeIn_wired (hw : Wired identity s a) (bytes : Bytes)
    (hfits : bytes.length ≤ requestMax-s.client.input.length)
    (hlive : Live identity s.received (unread s.client) a) :
    Wired identity (takeIn s bytes) a := by
  refine ⟨?_,?_,hw.output,hw.room,hw.buffered,hw.auth,?_,?_,?_,hw.closing⟩
  · have := hw.start
    simp only [takeIn, List.length_append]
    omega
  · have := hw.fits
    simp only [takeIn, List.length_append]
    omega
  · obtain ⟨front,hfront⟩ := hw.tail
    refine ⟨front,?_⟩
    rw [takeIn_unread hw bytes, ← List.append_assoc, ← hfront]
    rfl
  · rw [takeIn_position hw bytes]
    exact hw.below
  · rw [takeIn_unread hw bytes]
    exact Or.inl (live_received hlive bytes)

theorem takeIn_inside (hi : Inside identity s a) (bytes : Bytes)
    (hfits : bytes.length ≤ requestMax-s.client.input.length)
    (hlive : Live identity s.received (unread s.client) a) :
    Inside identity (takeIn s bytes) a where
  chronicle := chronicle_received hi.chronicle bytes
  wired := takeIn_wired hi.wired bytes hfits hlive
  unsent := hi.unsent
  idle := hi.idle
  alive := by
    intro _
    rw [takeIn_unread hi.wired bytes]
    exact live_received hlive bytes

theorem endInput_alike (hw : Wired identity s a) : Alike s.client (endInput s).client := by
  have ha := alike_refl hw
  exact ⟨ha.unread,ha.start,ha.fits,rfl,rfl,ha.output,rfl,fun _ => rfl,id⟩

theorem receiveDeferred_returned (hc : Chronicle identity s.received s.log a)
    (hw : Wired identity s a) (hs : Settled identity s a) (miss : DeferredMiss)
    (hmiss : s.client.deferredMiss = some miss) (incoming : List Incoming) :
    Returned identity (receiveDeferred s incoming) := by
  have hfinish : Returned identity (finishTurn s) := returned_stands (finish_stands hc hw hs)
  unfold receiveDeferred
  split
  · exact hfinish
  · cases hr : clientRecv (requestMax-s.client.input.length) (incoming.headD .again) with
    | interrupted => exact hfinish
    | again => exact hfinish
    | failed =>
      exact returned_kept ⟨a,hc,_,hw.buffered.symm⟩
    | eof =>
      apply returned_stands
      have ha := endInput_alike hw
      exact finish_stands (s := endInput s) hc (wired_alike hw ha rfl rfl)
        (settled_alike hs ha.unread rfl rfl (fun _ => rfl))
    | data bytes =>
      apply returned_stands
      have hfits := clientRecv_data _ _ _ hr
      unfold Settled at hs
      rw [hmiss] at hs
      obtain ⟨hlive,hoffset,args,hp,hparse⟩ := hs
      apply finish_stands (s := takeIn s bytes) (chronicle_received hc bytes)
        (takeIn_wired hw bytes hfits hlive)
      have hmiss' : (takeIn s bytes).client.deferredMiss = some miss := hmiss
      unfold Settled
      rw [hmiss']
      refine ⟨?_,hoffset,args,?_,?_⟩
      · rw [takeIn_unread hw bytes]
        exact live_received hlive bytes
      · rw [takeIn_position hw bytes]
        exact hp
      · rw [takeIn_unread hw bytes]
        exact respParse_append _ _ _ hparse

end

section
variable {identity}
variable {S : Server D} {B : Backend W D} {C : Commands W D} {cfg : WorkerSettings}
variable {s : Link W} {a : Account}

theorem yield_stands (hi : Inside identity s a) (hp : a.putOff = none) :
    Stands identity (yieldTurn s) := by
  apply inside_finish (s := withClient s { s.client with
    inputReady := decide (s.client.inputStart < s.client.input.length) }) ?_ hp
  exact inside_alike hi (ready_alike hi.wired _) rfl rfl rfl hi.idle

theorem pipeline_passed (n : ℕ) (s : Link W) (a : Account) (hi : Inside identity s a)
    (hready : a.putOff = none ∨ Resumed identity s a) :
    PassedOn identity (pipeline identity S B C cfg n s) := by
  induction n generalizing s a with
  | zero =>
    have hstep : Passed identity (requestStep identity S B C cfg s) := requestStep_passed hi hready
    rw [pipeline]
    cases hr : requestStep identity S B C cfg s with
    | drained s' =>
      rw [hr] at hstep
      exact hstep
    | returned ok s' =>
      rw [hr] at hstep
      exact hstep
    | answered s' =>
      rw [hr] at hstep
      obtain ⟨a',hi',hp'⟩ := hstep
      exact returned_stands (yield_stands hi' hp')
  | succ n ih =>
    have hstep : Passed identity (requestStep identity S B C cfg s) := requestStep_passed hi hready
    rw [pipeline]
    cases hr : requestStep identity S B C cfg s with
    | drained s' =>
      rw [hr] at hstep
      exact hstep
    | returned ok s' =>
      rw [hr] at hstep
      exact hstep
    | answered s' =>
      rw [hr] at hstep
      obtain ⟨a',hi',hp'⟩ := hstep
      exact ih s' a' hi' (Or.inl hp')

theorem lastPass_returned (n : ℕ) (hi : Inside identity s a) (hp : a.putOff = none) :
    Returned identity (lastPass identity S B C cfg n s) := by
  have hpass : PassedOn identity (pipeline identity S B C cfg n s) :=
    pipeline_passed n s a hi (Or.inl hp)
  unfold lastPass
  cases hr : pipeline identity S B C cfg n s with
  | returned ok s' =>
    rw [hr] at hpass
    exact hpass
  | drained m s' =>
    rw [hr] at hpass
    obtain ⟨a',hi',hp'⟩ := hpass
    exact finishTurn_returned hi' hp'

theorem receiveTurn_returned (n : ℕ) (hi : Inside identity s a) (hp : a.putOff = none)
    (heof : s.client.inputEof = false) (incoming : List Incoming) :
    Returned identity (receiveTurn identity S B C cfg n s incoming) := by
  have hcompact : Inside identity (withClient s (compactClientInput s.client)) a :=
    inside_alike hi (compact_alike hi.wired) rfl rfl rfl hi.idle
  unfold receiveTurn
  simp only
  cases hr : receiveLoop
      (requestMax-(withClient s (compactClientInput s.client)).client.input.length) incoming with
  | eof =>
    have ha := endInput_alike hcompact.wired
    exact lastPass_returned n (inside_alike hcompact ha rfl rfl rfl hi.idle) hp
  | data bytes =>
    have hfits := receiveLoop_data _ _ _ hr
    exact lastPass_returned n (takeIn_inside hcompact bytes hfits (hcompact.alive heof)) hp
  | failed =>
    exact returned_kept ⟨a,hi.chronicle,_,hi.wired.buffered.symm⟩
  | interrupted => exact finishTurn_returned hcompact hp
  | again => exact finishTurn_returned hcompact hp

theorem freshTurn_returned (n : ℕ) (incoming : List Incoming) (hi : Inside identity s a)
    (hready : a.putOff = none ∨ Resumed identity s a) :
    Returned identity (freshTurn identity S B C cfg n incoming s) := by
  have hpass : PassedOn identity (pipeline identity S B C cfg (n-1) s) :=
    pipeline_passed (n-1) s a hi hready
  unfold freshTurn
  cases hr : pipeline identity S B C cfg (n-1) s with
  | returned ok s' =>
    rw [hr] at hpass
    exact hpass
  | drained m s' =>
    rw [hr] at hpass
    obtain ⟨a',hi',hp'⟩ := hpass
    simp only
    split
    · exact finishTurn_returned hi' hp'
    · rename_i heof
      exact receiveTurn_returned m hi' hp' (by simpa using heof) incoming

theorem openTurn_returned (n : ℕ) (incoming : List Incoming)
    (hc : Chronicle identity s.received s.log a) (hw : Wired identity s a)
    (hs : Starts identity s a) (hidle : ¬outputPending s.client) :
    Returned identity (openTurn identity S B C cfg n incoming s) := by
  unfold openTurn
  cases hmiss : s.client.deferredMiss with
  | some miss =>
    rcases hs with hs | hs
    · exact receiveDeferred_returned hc hw hs miss hmiss incoming
    · rw [hmiss] at hs
      cases hs.1
  | none =>
    have hi' : Inside identity { s with world := C.maybeReloadMappings s.world } a :=
      inside_alike (wired_inside hc hw hidle hmiss) (alike_refl hw) rfl rfl rfl hmiss
    apply freshTurn_returned n incoming hi'
    rcases hs with hs | hs
    · unfold Settled at hs
      rw [hmiss] at hs
      exact Or.inl hs
    · exact Or.inr (resumed_alike hs.2.2 (alike_refl hw) rfl)

theorem processClient_returned (n : ℕ) (incoming : List Incoming)
    (hc : Chronicle identity s.received s.log a) (hw : Wired identity s a)
    (hs : Starts identity s a) :
    Returned identity (processClient identity S B C cfg n incoming s) := by
  unfold processClient
  split
  · rename_i hpending
    rcases hs with hs | hs
    · exact returned_stands ⟨a,hc,hw,hs⟩
    · exact absurd hpending hs.2.1
  · rename_i hidle
    have halike := ready_alike hw false
    apply openTurn_returned (s := withClient s { s.client with inputReady := false }) n incoming hc
      (wired_alike hw halike rfl rfl) ?_ hidle
    rcases hs with hs | hs
    · exact Or.inl (settled_alike hs rfl rfl rfl (fun _ => rfl))
    · exact Or.inr ⟨hs.1,hs.2.1,resumed_alike hs.2.2 halike rfl⟩

end

/-! Sending. -/

/-- What holds between two actions. -/
def Sound (s : Link W) : Prop := Kept identity s ∧ (s.connected = true → Stands identity s)

section
variable {identity}
variable {s s' : Link W} {a : Account}

theorem closed_sound (h : Kept identity s) : Sound identity (closeClient s) :=
  ⟨h,fun hc => nomatch hc⟩

theorem stands_sound (h : Stands identity s) : Sound identity s := ⟨stands_kept h,fun _ => h⟩

theorem settle_sound (result : Bool × Link W) (h : Returned identity result) :
    Sound identity (settle result) := by
  unfold Returned at h
  unfold settle
  split
  · rename_i hok
    rw [if_pos hok] at h
    exact stands_sound h
  · rename_i hok
    rw [if_neg hok] at h
    exact closed_sound h

theorem stands_alike (h : Stands identity s)
    (halike : ∀ a, Wired identity s a → Alike s.client s'.client) (hr : s'.received = s.received)
    (hh : s'.handed = s.handed) (hl : s'.log = s.log)
    (hm : s'.client.deferredMiss = s.client.deferredMiss)
    (hi : s'.client.inputStart = s.client.inputStart) : Stands identity s' := by
  obtain ⟨a,hc,hw,hs⟩ := h
  refine ⟨a,?_,wired_alike hw (halike a hw) hr hh,?_⟩
  · rw [hr, hl]
    exact hc
  · exact settled_alike hs (halike a hw).unread hr hm (fun _ => hi)

theorem flags_stands (h : Stands identity s) (client : Client)
    (hrest : client = { s.client with
      inputReady := client.inputReady
      outputReady := client.outputReady
      peerHungUp := client.peerHungUp
      deferredDeadlineExpired := client.deferredDeadlineExpired }) (w : W) :
    Stands identity { s with
      client := client
      world := w } := by
  apply stands_alike h
  · intro a hw
    simp only
    rw [hrest]
    exact ⟨rfl,hw.start,hw.fits,rfl,rfl,fun _ _ => rfl,rfl,id,id⟩
  · rfl
  · rfl
  · rfl
  · simp only
    rw [hrest]
  · simp only
    rw [hrest]

theorem send_buffered (hw : Wired identity s a) (count : ℕ)
    (hcount : count ≤ s.client.outputUsed-s.client.outputSent) :
    a.replies = (sendOutput s count).handed++read s.client.output (s.client.outputSent+count)
      (s.client.outputUsed-(s.client.outputSent+count)) := by
  have hsplit : s.client.outputUsed-s.client.outputSent =
      count+(s.client.outputUsed-(s.client.outputSent+count)) := by omega
  rw [hw.buffered, hsplit, read_add, ← List.append_assoc]
  rfl

theorem send_kept (hc : Chronicle identity s.received s.log a) (hw : Wired identity s a)
    (count : ℕ) (hcount : count ≤ s.client.outputUsed-s.client.outputSent) :
    Kept identity (resetOutput (sendOutput s count)) := by
  have hfront : (sendOutput s count).handed <+: a.replies :=
    ⟨_,(send_buffered hw count hcount).symm⟩
  unfold resetOutput
  split
  · exact ⟨a,hc,hfront⟩
  · exact ⟨a,hc,hfront⟩

theorem send_stands (hc : Chronicle identity s.received s.log a) (hw : Wired identity s a)
    (hs : Settled identity s a) (count : ℕ)
    (hcount : count ≤ s.client.outputUsed-s.client.outputSent)
    (hopen : closesAfterFlush (resetOutput (sendOutput s count)).client = false) :
    Stands identity (resetOutput (sendOutput s count)) := by
  have hbuffered := send_buffered hw count hcount
  unfold resetOutput at *
  split
  · rename_i hall
    rw [if_pos hall] at hopen
    have hall' : s.client.outputSent+count = s.client.outputUsed := hall
    refine ⟨a,hc,⟨hw.start,hw.fits,Or.inr ⟨rfl,rfl⟩,Nat.zero_le _,?_,hw.auth,hw.tail,hw.below,?_,
      hw.closing⟩,hs⟩
    · rw [hall', Nat.sub_self, read_zero] at hbuffered
      exact hbuffered
    · rcases hw.stream with hl | hf
      · exact Or.inl hl
      · rcases hf.2.2 with he | he
        · exact Or.inr ⟨hf.1,hf.2.1,Or.inl he⟩
        · simp only [closesAfterFlush, withClient, sendOutput, he.2, decide_true, Bool.and_true]
            at hopen
          cases hopen
  · rename_i hpart
    have hpart' : s.client.outputSent+count ≠ s.client.outputUsed := hpart
    have hpending : outputPending s.client → outputPending (sendOutput s count).client := by
      intro hp
      simp only [outputPending, sendOutput] at *
      omega
    refine ⟨a,hc,⟨hw.start,hw.fits,?_,hw.room,hbuffered,hw.auth,hw.tail,hw.below,?_,hw.closing⟩,hs⟩
    · rcases hw.output with hp | hz
      · exact Or.inl (hpending hp)
      · omega
    · rcases hw.stream with hl | hf
      · exact Or.inl hl
      · refine Or.inr ⟨hf.1,hf.2.1,?_⟩
        rcases hf.2.2 with he | he
        · exact Or.inl he
        · exact Or.inr ⟨hpending he.1,he.2⟩

theorem flushTail_sound (h : Stands identity s) : Sound identity (flushTail s) := by
  have hwake : Sound identity (withClient s { s.client with inputReady := true }) :=
    stands_sound (flags_stands h { s.client with inputReady := true } rfl s.world)
  have hclose : Sound identity (closeClient s) := closed_sound (stands_kept h)
  unfold flushTail
  split
  · exact hclose
  · split
    · exact stands_sound h
    · split
      · exact hclose
      · split
        · split
          · exact hwake
          · exact stands_sound h
        · split
          · exact hwake
          · exact hclose

theorem wakeInput_stands (h : Stands identity s) : Stands identity (wakeInput s) := by
  unfold wakeInput
  split
  · exact flags_stands h { s.client with inputReady := true } rfl s.world
  · exact h

theorem sendStep_stands (h : Stands identity s) (hpending : outputPending s.client)
    (outgoing : Outgoing) : Kept identity (sendStep s outgoing).2 ∧
      ((sendStep s outgoing).1 = true → closesAfterFlush (sendStep s outgoing).2.client = false →
        Stands identity (sendStep s outgoing).2) := by
  have hkept := stands_kept h
  unfold sendStep
  rw [if_pos hpending]
  cases outgoing with
  | interrupted => exact ⟨hkept,fun _ _ => h⟩
  | again => exact ⟨hkept,fun _ _ => h⟩
  | failed => exact ⟨hkept,fun hok => nomatch hok⟩
  | wrote count =>
    simp only
    split
    · exact ⟨hkept,fun hok => nomatch hok⟩
    · obtain ⟨a,hc,hw,hs⟩ := h
      have hcount := min_le_right count (s.client.outputUsed-s.client.outputSent)
      exact ⟨send_kept hc hw _ hcount,fun _ hopen => send_stands hc hw hs _ hcount hopen⟩

theorem flushReady_sound (h : Stands identity s) (outgoing : Outgoing) :
    Sound identity (flushReady s outgoing) := by
  unfold flushReady
  split
  · rename_i hready
    rw [Bool.and_eq_true, decide_eq_true_eq] at hready
    have hstart : Stands identity (withClient s { s.client with outputReady := false }) :=
      flags_stands h { s.client with outputReady := false } rfl s.world
    obtain ⟨hkept,hstands⟩ := sendStep_stands hstart hready.2 outgoing
    unfold flushClientOutput
    generalize sendStep (withClient s { s.client with outputReady := false }) outgoing = sent at *
    obtain ⟨ok,s'⟩ := sent
    cases ok with
    | false => exact closed_sound hkept
    | true =>
      simp only
      split
      · exact closed_sound hkept
      · rename_i hopen
        exact flushTail_sound (wakeInput_stands (hstands rfl (by simpa using hopen)))
  · exact flushTail_sound h

end

/-! Requests that were put off. -/

section
variable {identity}
variable {B : Backend W D}
variable {s : Link W} {a : Account}

theorem noteDeadline_stands (h : Stands identity s) (miss : DeferredMiss) :
    Stands identity (noteDeadline B s miss) :=
  flags_stands h _ rfl _

theorem pollDeadline_sound (h : Stands identity s) : Sound identity (pollDeadline B s) := by
  unfold pollDeadline
  split
  · exact stands_sound h
  · exact stands_sound (noteDeadline_stands h _)

theorem expireMiss_stands (h : Stands identity s) (miss : DeferredMiss)
    (hmiss : s.client.deferredMiss = some miss) (hidle : ¬outputPending s.client) :
    Stands identity (expireMiss s miss) := by
  obtain ⟨a,hc,hw,hs⟩ := h
  have hempty := wired_empty hw hidle
  unfold Settled at hs
  rw [hmiss] at hs
  obtain ⟨hlive,hoffset,args,hput,hparse⟩ := hs
  unfold expireMiss
  cases hq : queueResponse s.client deadlineExceeded false with
  | none =>
    refine ⟨a,hc,hw,?_⟩
    unfold Settled
    rw [hmiss]
    exact ⟨hlive,hoffset,args,hput,hparse⟩
  | some client =>
    -- Without the mark the client stands as it does inside a turn that takes the request up.
    have hi : Inside identity (withClient s { s.client with deferredMiss := none }) a :=
      ⟨hc,⟨hw.start,hw.fits,hw.output,hw.room,hw.buffered,hw.auth,hw.tail,hw.below,Or.inl hlive,
        hw.closing⟩,hempty.1,rfl,fun _ => hlive⟩
    have hready : a.putOff = none ∨
        Resumed identity (withClient s { s.client with deferredMiss := none }) a :=
      Or.inr ⟨hempty.2,hlive,args,_,hput,hparse⟩
    have hn := inside_next hi hready _ hparse
    have hmget := (hc.waiting _ _ hput).1
    obtain ⟨hqueued,hrest⟩ := queueResponse_some _ _ _ _ hw.room hq
    have hi' := replied_inside (record (withClient s { consume client miss.requestLength with
        deferredMiss := none
        deferredDeadline := 0
        deferredDeadlineExpired := false
        retryingDeferredMiss := false
        inputReady := inputWaiting { consume client miss.requestLength with
          deferredMiss := none
          deferredDeadline := 0
          deferredDeadlineExpired := false
          retryingDeferredMiss := false } }) (.expired deadlineExceeded))
      hi hready ⟨args,miss.requestLength⟩ hparse deadlineExceeded (mget_open hmget a.auth)
      ⟨⟨hqueued.used,hqueued.sent,hqueued.appended,hqueued.room⟩,?_,?_,?_,rfl⟩ rfl rfl
      (chronicle_expired hc hn hput deadlineExceeded)
    · exact ⟨_,hi'.chronicle,hi'.wired,inside_settled hi' rfl⟩
    · rw [hrest]
      rfl
    · rw [hrest]
      rfl
    · rw [hrest, authStep, if_neg (mget_neutral hmget).1, ← hw.auth]
      rfl

end

section
variable {S : Server D} {B : Backend W D} {C : Commands W D} {cfg : WorkerSettings}
variable {identity} {s : Link W}

theorem retryDeferredMiss_sound (h : Stands identity s) (n : ℕ) (incoming : List Incoming) :
    Sound identity (retryDeferredMiss identity S B C cfg n incoming s) := by
  unfold retryDeferredMiss
  split
  · exact stands_sound h
  · rename_i miss hmiss
    have hnoted : Stands identity (noteDeadline B s miss) := noteDeadline_stands h miss
    have hmiss' : (noteDeadline B s miss).client.deferredMiss = some miss := hmiss
    generalize noteDeadline B s miss = s at *
    simp only
    split
    · exact stands_sound hnoted
    · rename_i hidle
      split
      · exact stands_sound (expireMiss_stands hnoted miss hmiss' hidle)
      · apply settle_sound
        obtain ⟨a,hc,hw,hs⟩ := hnoted
        unfold Settled at hs
        rw [hmiss'] at hs
        obtain ⟨hlive,hoffset,args,hput,hparse⟩ := hs
        have hempty := wired_empty hw hidle
        have hw' : Wired identity (resumeMiss C s miss) a :=
          ⟨hw.start,hw.fits,hw.output,hw.room,hw.buffered,hw.auth,hw.tail,hw.below,Or.inl hlive,
            hw.closing⟩
        exact processClient_returned n incoming (s := resumeMiss C s miss) hc hw'
          (Or.inr ⟨rfl,hidle,hempty.2,hlive,args,_,hput,hparse⟩)

/-! Whole runs. -/

theorem step_sound (h : Sound identity s) (action : Action W) :
    Sound identity (step identity S B C cfg s action) := by
  unfold step
  split
  · rename_i hconnected
    have hstands := h.2 hconnected
    cases action with
    | turn n incoming =>
      obtain ⟨a,hc,hw,hs⟩ := hstands
      exact settle_sound _ (processClient_returned n incoming hc hw (Or.inl hs))
    | retry n incoming => exact retryDeferredMiss_sound hstands n incoming
    | flush outgoing => exact flushReady_sound hstands outgoing
    | writable => exact stands_sound (flags_stands hstands _ rfl s.world)
    | hangUp => exact stands_sound (flags_stands hstands _ rfl s.world)
    | pollDeadline => exact pollDeadline_sound hstands
    | drop => exact closed_sound h.1
    | elsewhere w => exact stands_sound (flags_stands hstands s.client rfl w)
  · exact h

theorem accept_stands (w : W) : Stands identity (acceptClient identity w) := by
  refine ⟨identity.opened,chronicle_opened identity,?_,rfl⟩
  exact ⟨le_refl _,Nat.zero_le _,Or.inr ⟨rfl,rfl⟩,Nat.zero_le _,rfl,rfl,⟨[],rfl⟩,
    (fun _ h => nomatch h),Or.inl (live_opened identity),fun h => nomatch h⟩

theorem run_sound (w : W) (actions : List (Action W)) :
    Sound identity (run identity S B C cfg w actions) := by
  have hfold : ∀ s : Link W, Sound identity s →
      Sound identity (actions.foldl (step identity S B C cfg) s) := by
    induction actions with
    | nil =>
      intro s h
      exact h
    | cons action actions ih =>
      intro s h
      exact ih _ (step_sound h action)
  exact hfold _ (stands_sound (accept_stands w))

end

/-- What a connection has done with a stream of which it has received a part. -/
structure Serves (stream : Bytes) (s : Link W) (a : Account) : Prop where
  audited : audit identity s.log = some a
  executed : a.executed <+: allowed identity identity.fresh stream
  complete : allowed identity identity.fresh stream <+: (drain takeRequest stream).values
  places : ∀ served ∈ a.served, Holds stream served.offset served.args
  increasing : a.served.Pairwise (fun x y => x.offset < y.offset)
  waiting : ∀ offset args, a.putOff = some (offset,args) → Holds stream offset args ∧
    ∀ served ∈ a.served, served.offset < offset
  once : s.log.Pairwise Later
  handed : s.handed <+: a.replies
  buffered : s.connected = true → a.replies = s.handed++
    read s.client.output s.client.outputSent (s.client.outputUsed-s.client.outputSent)
  refused : (∀ event ∈ s.log, ¬TooLong event) → .refused ∉ s.log

/-- Without TLS, whatever is received in whatever pieces, sent in whatever parts and put off, and
whatever the stream goes on with, the log of a run follows the protocol from the first byte of
the stream, and the socket is handed the replies in order. -/
theorem pipelined_requests (S : Server D) (B : Backend W D) (C : Commands W D)
    (cfg : WorkerSettings) (w : W) (actions : List (Action W)) (more : Bytes) :
    ∃ a, Serves identity ((run identity S B C cfg w actions).received++more)
      (run identity S B C cfg w actions) a := by
  obtain ⟨⟨a,hc,hhanded⟩,hstands⟩ : Sound identity (run identity S B C cfg w actions) :=
    run_sound w actions
  refine ⟨a,hc.audited,hc.executed more,allowed_drain identity _ _,?_,hc.increasing,?_,hc.once,
    hhanded,?_,?_⟩
  · exact fun served hs => holds_append _ _ _ _ (hc.places served hs)
  · intro offset args hput
    obtain ⟨_,hholds,hbelow⟩ := hc.waiting offset args hput
    exact ⟨holds_append _ _ _ _ hholds,hbelow⟩
  · intro hconnected
    obtain ⟨a',hc',hw',_⟩ := hstands hconnected
    have hsame := hc.audited.symm.trans hc'.audited
    cases hsame
    exact hw'.buffered
  · intro hshort hrefused
    obtain ⟨event,hmem,hlong⟩ := hc.refused hrefused
    exact hshort event hmem hlong

/-! A QUIT that is not authorised, and a line that answers no request. -/

def executedRequests : List (Event W) → List (List Bytes)
  | [] => []
  | .executed _ args _ _ _::log => args::executedRequests log
  | _::log => executedRequests log

def plainCommands : Commands Unit Bytes where
  mappings := fun _ => []
  maybeReloadMappings := id
  reloadForMiss := id
  processConfigReload := id
  commandSet := fun _ _ _ w => (.ok (respSimple (ascii "OK")),w)
  commandDelete := fun _ _ w => (.ok (respInteger 0),w)
  statsJson := fun w => ([],w)
  cacheInvalidateAll := fun w => (0,w)
  cacheInvalidateDatabase := fun w => (0,w)
  cacheInvalidateNamespace := fun _ w => (0,w)

def guardedIdentity : Identity := ⟨[],ascii "secret",1⟩

def guardedRun (actions : List (Action Unit)) : Link Unit :=
  run guardedIdentity plainServer plainBackend plainCommands plainSettings () actions

theorem quit_goes_on :
    executedRequests (guardedRun [.turn 16
      [.data (ascii "*1\r\n$4\r\nQUIT\r\n*1\r\n$4\r\nPING\r\n")]]).log =
        [[ascii "QUIT"],[ascii "PING"]] ∧
    executedRequests
      (guardedRun [.turn 16 [.data (ascii "PING\r\n")],.flush (.wrote 100)]).log = [] ∧
    (guardedRun [.turn 16 [.data (ascii "PING\r\n")],.flush (.wrote 100)]).handed =
      ascii "-only RESP2 arrays are accepted\r\n" := by
  decide +kernel

end PgLocalCache.ClientRuns
