import PgLocalCache.ClientRuns
import PgLocalCache.DeskWorld

/-!
# Attempts to defer in the log of a connection

Each execution in the log shows what it asked of the queue of deferred misses. A
request that is executed again asks with the length and the deadline it asked with
before, and is not turned away. The argument follows a turn: inside it the earlier
executions at the current place are those of the request that was taken up again.
-/

namespace PgLocalCache.AttemptLog

open WorkerBackend FastPath FastAgreement ClientProtocol ClientLog
open CommandDispatch ClientTurn ClientStream ClientRuns Outcome MgetCalls DeskWorld
open WireKey (Server)
open MgetCommand (deadlineExceeded)
open RespParser RespWriter

variable {W D : Type}

def placeOf : Event (Desk W) → Option ℕ
  | .executed offset _ _ _ _ => some offset
  | _ => none

/-- What an execution has asked of the queue. -/
def asked : Event (Desk W) → List Attempt
  | .executed _ _ _ before after => after.attempts.drop before.attempts.length
  | _ => []

/-- A later execution at the same place asks the same and is not turned away. -/
def Again (e e' : Event (Desk W)) : Prop :=
  placeOf e = placeOf e' → ∀ x ∈ asked e, ∀ y ∈ asked e',
    y.requestLength = x.requestLength ∧ y.deadline = x.deadline ∧ y.result ≠ .full

/-- An execution without a reply has been queued. -/
def PutOff : Event (Desk W) → Prop
  | .executed offset args none before after => ∃ requestLength deadline,
      asked (.executed offset args none before after) = [⟨requestLength,deadline,.queued⟩]
  | _ => True

structure Fair (log : List (Event (Desk W))) : Prop where
  again : log.Pairwise Again
  queued : ∀ event ∈ log, PutOff event

/-- The request at the start of the input may have been executed before, and then it was queued
with the deadline the client still has. -/
def Here (room : ℕ → Bool) (s : Link (Desk W)) : Prop :=
  ∀ event ∈ s.log, placeOf event = some (position s) → s.client.retryingDeferredMiss = true ∧
    ∃ args requestLength, respParse (unread s.client) = .complete ⟨args,requestLength⟩ ∧
      room requestLength = true ∧
      asked event = [⟨requestLength,s.client.deferredDeadline,.queued⟩]

/-- A request that is put off has been queued with its deadline each time. -/
def AtRest (s : Link (Desk W)) : Prop :=
  ∀ miss, s.client.deferredMiss = some miss → ∀ event ∈ s.log,
    placeOf event = some (position s) →
    asked event = [⟨miss.requestLength,miss.deadline,.queued⟩]

/-- There was room for the request that is put off. -/
def Roomy (room : ℕ → Bool) (s : Link (Desk W)) : Prop :=
  ∀ miss, s.client.deferredMiss = some miss → room miss.requestLength = true

theorem fair_nil : Fair ([] : List (Event (Desk W))) := ⟨List.Pairwise.nil,fun _ h => nomatch h⟩

section
variable {room : ℕ → Bool} {s s' : Link (Desk W)} {log : List (Event (Desk W))}

theorem atRest_none (h : s.client.deferredMiss = none) : AtRest s := by
  intro miss hmiss
  rw [h] at hmiss
  cases hmiss

theorem roomy_none (h : s.client.deferredMiss = none) : Roomy room s := by
  intro miss hmiss
  rw [h] at hmiss
  cases hmiss

theorem atRest_same (h : AtRest s) (hl : s'.log = s.log)
    (hm : s'.client.deferredMiss = s.client.deferredMiss) (hp : position s' = position s) :
    AtRest s' := by
  intro miss hmiss event he hplace
  rw [hl] at he
  rw [hm] at hmiss
  rw [hp] at hplace
  exact h miss hmiss event he hplace

theorem here_same (h : Here room s) (hl : s'.log = s.log)
    (hu : unread s'.client = unread s.client) (hp : position s' = position s)
    (hr : s'.client.retryingDeferredMiss = s.client.retryingDeferredMiss)
    (hd : s'.client.deferredDeadline = s.client.deferredDeadline) : Here room s' := by
  intro event he hplace
  rw [hl] at he
  rw [hp] at hplace
  rw [hr, hu, hd]
  exact h event he hplace

/-- With nothing put off every execution lies in front of the current place. -/
theorem here_below {identity : Identity} {a : Account}
    (hc : Chronicle identity s.received s.log a) (hw : Wired identity s a)
    (hp : a.putOff = none) : Here room s := by
  intro event he hplace
  have hplaced := hc.placed event he
  cases event with
  | executed offset args reply before after =>
    rcases hplaced with ⟨served,hs,hoffset⟩ | ⟨hput,-⟩
    · have := hw.below served hs
      have hat : offset = position s := by simpa [placeOf] using hplace
      omega
    · rw [hp] at hput
      cases hput
  | expired _ => cases hplace
  | malformed _ => cases hplace
  | refused => cases hplace

theorem fair_quiet (h : Fair log) (event : Event (Desk W)) (hq : asked event = [])
    (hput : PutOff event) : Fair (log++[event]) := by
  refine ⟨pairwise_snoc h.again (fun e _ _ x _ y hy => ?_),fun e he => ?_⟩
  · rw [hq] at hy
    cases hy
  · rcases List.mem_append.mp he with he | he
    · exact h.queued e he
    · rw [List.mem_singleton.mp he]
      exact hput

theorem asked_executed {requestLength deadline : ℕ} {d d' : Desk W} {reply : Option Bytes}
    (h : Asked room requestLength deadline d d' reply) (offset : ℕ) (args : List Bytes) :
    ∀ x ∈ asked (.executed offset args reply d d'), x.requestLength = requestLength ∧
      x.deadline = deadline ∧ (x.result = .full → room requestLength = false) := by
  intro x hx
  rcases h.once with hsame | ⟨result,hnew,hfull⟩
  · rw [asked, hsame, List.drop_length] at hx
    cases hx
  · rw [asked, hnew, List.drop_left, List.mem_singleton] at hx
    rw [hx]
    exact ⟨rfl,rfl,hfull⟩

theorem asked_putOff {requestLength deadline : ℕ} {d d' : Desk W}
    (h : Asked room requestLength deadline d d' none) (offset : ℕ) (args : List Bytes) :
    asked (.executed offset args none d d') = [⟨requestLength,deadline,.queued⟩] := by
  rw [asked, h.queued rfl, List.drop_left]

variable {request : Request} {d d' : Desk W} {e : Execution}

theorem fair_executed (h : Fair s.log) (hh : Here room s)
    (hparse : respParse (unread s.client) = .complete request)
    (hasks : Asks room s.client request.consumed d d' e) :
    Fair (s.log++[.executed (position s) request.args e.reply d d']) := by
  obtain ⟨deadline,hasked,hdeadline,-⟩ := hasks
  refine ⟨pairwise_snoc h.again (fun old hold hplace x hx y hy => ?_),fun event he => ?_⟩
  · obtain ⟨hretry,args,length,hparse',hroom,hold'⟩ := hh old hold hplace
    obtain ⟨hlength,hdead,hfull⟩ := asked_executed hasked _ _ y hy
    rw [hparse] at hparse'
    cases hparse'
    rw [hold', List.mem_singleton] at hx
    rw [hx]
    refine ⟨hlength,hdead.trans (hdeadline hretry),fun hf => ?_⟩
    have := hfull hf
    rw [hroom] at this
    cases this
  · rcases List.mem_append.mp he with he | he
    · exact h.queued event he
    · rw [List.mem_singleton.mp he]
      cases hreply : e.reply with
      | some reply => trivial
      | none =>
        rw [hreply] at hasked
        exact ⟨_,_,asked_putOff hasked _ _⟩

theorem atRest_executed (hh : Here room s)
    (hparse : respParse (unread s.client) = .complete request)
    (hasks : Asks room s.client request.consumed d d' e) (hnone : e.reply = none)
    (hlog : s'.log = s.log++[.executed (position s) request.args none d d'])
    (hm : s'.client.deferredMiss = e.client.deferredMiss) (hp : position s' = position s) :
    AtRest s' ∧ Roomy room s' := by
  obtain ⟨deadline,hasked,hdeadline,hmiss⟩ := hasks
  rw [hnone] at hasked
  have hmiss' : s'.client.deferredMiss = some ⟨s.client.inputStart,request.consumed,deadline⟩ :=
    hm.trans (hmiss hnone)
  constructor
  · intro miss hgiven event he hplace
    rw [hmiss'] at hgiven
    cases hgiven
    rw [hp] at hplace
    rw [hlog] at he
    rcases List.mem_append.mp he with he | he
    · obtain ⟨hretry,args,length,hparse',-,hold⟩ := hh event he hplace
      rw [hparse] at hparse'
      cases hparse'
      rw [hold, hdeadline hretry]
    · rw [List.mem_singleton.mp he]
      exact asked_putOff hasked _ _
  · intro miss hgiven
    rw [hmiss'] at hgiven
    cases hgiven
    exact hasked.granted rfl

end

/-! Clients. -/

theorem finish_unread (client : Client) : unread (finishClientTurn client) = unread client := by
  have hreset : unread (resetInput client) = unread client := by
    unfold resetInput
    split
    · rename_i heq
      rw [unread, unread, heq, List.drop_length]
      rfl
    · rfl
  unfold finishClientTurn
  simp only
  split
  · exact hreset
  · exact hreset

theorem finish_miss (client : Client) :
    (finishClientTurn client).deferredMiss = client.deferredMiss := by
  unfold finishClientTurn resetInput
  split <;> simp only <;> split <;> rfl

theorem queueResponse_miss (client client' : Client) (response : Bytes) (closeAfter : Bool)
    (h : queueResponse client response closeAfter = some client') :
    client'.deferredMiss = client.deferredMiss := by
  unfold queueResponse at h
  split at h
  · cases h
  · cases h
    rfl

theorem endRetry_miss (client : Client) : (endRetry client).deferredMiss = client.deferredMiss := by
  unfold endRetry
  split <;> rfl

theorem position_finish (s : Link W) (client : Client) (hu : unread client = unread s.client) :
    position (withClient s (finishClientTurn client)) = position s := by
  rw [position, position, withClient, finish_unread, hu]

/-! Turns. -/

/-- The end of a turn; one that started with nothing put off has asked for room. -/
def FairTurn (room : ℕ → Bool) (fresh : Prop) (result : Bool × Link (Desk W)) : Prop :=
  Fair result.2.log ∧ (result.1 = true → AtRest result.2 ∧ (fresh → Roomy room result.2))

def FairStep (room : ℕ → Bool) : Step (Desk W) → Prop
  | .drained s => Fair s.log
  | .returned ok s => FairTurn room True (ok,s)
  | .answered s => Fair s.log

def FairPass (room : ℕ → Bool) : Pass (Desk W) → Prop
  | .drained _ s => Fair s.log
  | .returned ok s => FairTurn room True (ok,s)

theorem fairTurn_idle {room : ℕ → Bool} {fresh : Prop} {s : Link (Desk W)} {ok : Bool}
    (h : Fair s.log) (hm : s.client.deferredMiss = none) : FairTurn room fresh (ok,s) :=
  ⟨h,fun _ => ⟨atRest_none hm,fun _ => roomy_none hm⟩⟩

section
variable {identity : Identity} {S : Server D} {B : Backend W D} {C : Commands W D}
  {cfg : WorkerSettings} {room : ℕ → Bool}
variable {s : Link (Desk W)} {a : Account}

theorem onIncomplete_fair (h : Fair s.log) (hm : s.client.deferredMiss = none) :
    FairStep room (onIncomplete s) := by
  unfold onIncomplete
  simp only
  split
  · exact h
  · split
    · refine fairTurn_idle h ?_
      simp only [withClient, finish_miss]
      exact hm
    · exact h

theorem onMalformed_fair (h : Fair s.log) (hm : s.client.deferredMiss = none)
    (error : RespError) : FairStep room (onMalformed s error) := by
  unfold onMalformed
  cases hq : queueResponse s.client (complaintOf error) true with
  | none => exact ⟨h,fun hok => nomatch hok⟩
  | some client =>
    refine fairTurn_idle (fair_quiet h _ rfl trivial) ?_
    simp only [record, withClient, finish_miss, skipInput]
    exact (queueResponse_miss _ _ _ _ hq).trans hm

theorem onCommand_fair (before : Desk W) (hsame : s.world.attempts = before.attempts)
    (h : Fair s.log) (hh : Here room s) (hm : s.client.deferredMiss = none)
    (request : Request) (hparse : respParse (unread s.client) = .complete request) :
    FairStep room (onCommand identity S (deskBackend B room) (deskCommands C) cfg before s
      request) := by
  have hx : Executes identity s.client request.args request.consumed
      (executeCommand identity S (deskBackend B room) (deskCommands C) cfg s.client request.args
        request.consumed s.world).1 := executeCommand_executes identity request.args
  have hasks : Asks room s.client request.consumed before
      (executeCommand identity S (deskBackend B room) (deskCommands C) cfg s.client request.args
        request.consumed s.world).2
      (executeCommand identity S (deskBackend B room) (deskCommands C) cfg s.client request.args
        request.consumed s.world).1 := by
    obtain ⟨deadline,hasked,hrest⟩ := executeCommand_asks request.args
    exact ⟨deadline,asked_from hasked hsame,hrest⟩
  unfold onCommand
  simp only
  generalize executeCommand identity S (deskBackend B room) (deskCommands C) cfg s.client
    request.args request.consumed s.world = result at hx hasks
  have hfair := fair_executed h hh hparse hasks
  cases hreply : result.1.reply with
  | none =>
    rw [hreply] at hfair
    suffices hrest : AtRest (withClient (record { s with world := result.2 } (.executed (position s)
        request.args none before result.2)) (finishClientTurn result.1.client)) ∧
        Roomy room (withClient (record { s with world := result.2 } (.executed (position s)
          request.args none before result.2)) (finishClientTurn result.1.client)) from
      ⟨hfair,fun _ => ⟨hrest.1,fun _ => hrest.2⟩⟩
    refine atRest_executed hh hparse hasks hreply rfl ?_ ?_
    · exact finish_miss _
    · exact position_finish (record { s with world := result.2 } _) result.1.client
        (executes_unread _ _ _ _ hx)
  | some response =>
    rw [hreply] at hfair
    simp only
    cases hq : queueResponse result.1.client response result.1.closeAfter with
    | none => exact ⟨fair_quiet hfair .refused rfl trivial,fun hok => nomatch hok⟩
    | some client =>
      simp only
      split
      · refine fairTurn_idle hfair ?_
        simp only [withClient, finish_miss, skipInput, endRetry_miss, consume]
        exact (queueResponse_miss _ _ _ _ hq).trans ((hx.replied response hreply).trans hm)
      · exact hfair

theorem onRequest_fair (h : Fair s.log) (hh : Here room s) (hm : s.client.deferredMiss = none)
    (request : Request) (hparse : respParse (unread s.client) = .complete request) :
    FairStep room (onRequest identity S (deskBackend B room) (deskCommands C) cfg s request) := by
  have hserved := tryFastMgetHit_served S (deskBackend B room) ((deskCommands C).mappings s.world)
    s.client request.args s.world
  have hleaves := tryFastMgetHit_leaves (S := S) (desk_apart B room)
    ((deskCommands C).mappings s.world) s.client request.args s.world
  unfold onRequest
  cases hrun : tryFastMgetHit S (deskBackend B room) ((deskCommands C).mappings s.world) s.client
      request.args s.world with
  | error e w => exact ⟨h,fun hok => nomatch hok⟩
  | ok r w =>
    obtain ⟨taken,client⟩ := r
    have hsame : w.attempts = s.world.attempts := ensures_ok hleaves _ _ hrun
    cases taken with
    | true =>
      refine fair_quiet h _ ?_ trivial
      rw [asked, hsame, List.drop_length]
    | false =>
      have huntaken : Untaken s.client client := (ensures_ok hserved _ _ hrun).1 rfl
      have hunread : unread client = unread s.client := by
        rw [huntaken.rest]
        rfl
      refine onCommand_fair (s := { s with client := client, world := w }) s.world hsame h ?_ ?_
        request ?_
      · refine here_same hh rfl hunread (position_alike rfl hunread) ?_ ?_
        · simp only
          rw [huntaken.rest]
        · simp only
          rw [huntaken.rest]
      · simp only
        rw [huntaken.rest]
        exact hm
      · exact (congrArg respParse hunread).trans hparse

theorem requestStep_fair (h : Fair s.log) (hh : Here room s)
    (hm : s.client.deferredMiss = none) :
    FairStep room (requestStep identity S (deskBackend B room) (deskCommands C) cfg s) := by
  unfold requestStep
  split
  · exact h
  · split
    · refine fairTurn_idle h ?_
      simp only [withClient, finish_miss]
      exact hm
    · simp only
      cases hparse : respParse (unread s.client) with
      | incomplete => exact onIncomplete_fair h hm
      | error error =>
        exact onMalformed_fair
          (s := { s with world := (deskCommands C).processConfigReload s.world }) h hm error
      | complete request =>
        exact onRequest_fair (s := { s with world := (deskCommands C).processConfigReload s.world })
          h (here_same hh rfl rfl rfl rfl rfl) hm request hparse

/-- A pass over the input; what is executed behind the first request is executed there for the
first time. -/
theorem pipeline_fair (n : ℕ) (s : Link (Desk W)) (a : Account) (hi : Inside identity s a)
    (hready : a.putOff = none ∨ Resumed identity s a) (h : Fair s.log) (hh : Here room s) :
    FairPass room (pipeline identity S (deskBackend B room) (deskCommands C) cfg n s) := by
  induction n generalizing s a with
  | zero =>
    have hstep : FairStep room
        (requestStep identity S (deskBackend B room) (deskCommands C) cfg s) :=
      requestStep_fair h hh hi.idle
    have hpassed : Passed identity
        (requestStep identity S (deskBackend B room) (deskCommands C) cfg s) :=
      requestStep_passed hi hready
    rw [pipeline]
    cases hr : requestStep identity S (deskBackend B room) (deskCommands C) cfg s with
    | drained s' =>
      rw [hr] at hstep
      exact hstep
    | returned ok s' =>
      rw [hr] at hstep
      exact hstep
    | answered s' =>
      rw [hr] at hstep hpassed
      obtain ⟨a',hi',-⟩ := hpassed
      refine fairTurn_idle hstep ?_
      simp only [yieldTurn, withClient, finish_miss]
      exact hi'.idle
  | succ n ih =>
    have hstep : FairStep room
        (requestStep identity S (deskBackend B room) (deskCommands C) cfg s) :=
      requestStep_fair h hh hi.idle
    have hpassed : Passed identity
        (requestStep identity S (deskBackend B room) (deskCommands C) cfg s) :=
      requestStep_passed hi hready
    rw [pipeline]
    cases hr : requestStep identity S (deskBackend B room) (deskCommands C) cfg s with
    | drained s' =>
      rw [hr] at hstep
      exact hstep
    | returned ok s' =>
      rw [hr] at hstep
      exact hstep
    | answered s' =>
      rw [hr] at hstep hpassed
      obtain ⟨a',hi',hp'⟩ := hpassed
      exact ih s' a' hi' (Or.inl hp') hstep (here_below hi'.chronicle hi'.wired hp')

theorem finishTurn_fair (h : Fair s.log) (hm : s.client.deferredMiss = none) :
    FairTurn room True (finishTurn s) := by
  refine fairTurn_idle h ?_
  simp only [withClient, finish_miss]
  exact hm

theorem lastPass_fair (n : ℕ) (hi : Inside identity s a) (hp : a.putOff = none)
    (h : Fair s.log) :
    FairTurn room True (lastPass identity S (deskBackend B room) (deskCommands C) cfg n s) := by
  have hfair : FairPass room (pipeline identity S (deskBackend B room) (deskCommands C) cfg n s) :=
    pipeline_fair n s a hi (Or.inl hp) h (here_below hi.chronicle hi.wired hp)
  have hpassed : PassedOn identity
      (pipeline identity S (deskBackend B room) (deskCommands C) cfg n s) :=
    pipeline_passed n s a hi (Or.inl hp)
  unfold lastPass
  cases hr : pipeline identity S (deskBackend B room) (deskCommands C) cfg n s with
  | returned ok s' =>
    rw [hr] at hfair
    exact hfair
  | drained m s' =>
    rw [hr] at hfair hpassed
    obtain ⟨a',hi',-⟩ := hpassed
    exact finishTurn_fair hfair hi'.idle

theorem receiveTurn_fair (n : ℕ) (hi : Inside identity s a) (hp : a.putOff = none)
    (heof : s.client.inputEof = false) (h : Fair s.log) (incoming : List Incoming) :
    FairTurn room True
      (receiveTurn identity S (deskBackend B room) (deskCommands C) cfg n s incoming) := by
  have hcompact : Inside identity (withClient s (compactClientInput s.client)) a :=
    inside_alike hi (compact_alike hi.wired) rfl rfl rfl hi.idle
  unfold receiveTurn
  simp only
  cases hr : receiveLoop
      (requestMax-(withClient s (compactClientInput s.client)).client.input.length) incoming with
  | eof =>
    have ha := endInput_alike hcompact.wired
    exact lastPass_fair n (inside_alike hcompact ha rfl rfl rfl hi.idle) hp h
  | data bytes =>
    have hfits := receiveLoop_data _ _ _ hr
    exact lastPass_fair n (takeIn_inside hcompact bytes hfits (hcompact.alive heof)) hp h
  | failed => exact ⟨h,fun hok => nomatch hok⟩
  | interrupted => exact finishTurn_fair h hi.idle
  | again => exact finishTurn_fair h hi.idle

theorem freshTurn_fair (n : ℕ) (incoming : List Incoming) (hi : Inside identity s a)
    (hready : a.putOff = none ∨ Resumed identity s a) (h : Fair s.log) (hh : Here room s) :
    FairTurn room True
      (freshTurn identity S (deskBackend B room) (deskCommands C) cfg n incoming s) := by
  have hfair : FairPass room
      (pipeline identity S (deskBackend B room) (deskCommands C) cfg (n-1) s) :=
    pipeline_fair (n-1) s a hi hready h hh
  have hpassed : PassedOn identity
      (pipeline identity S (deskBackend B room) (deskCommands C) cfg (n-1) s) :=
    pipeline_passed (n-1) s a hi hready
  unfold freshTurn
  cases hr : pipeline identity S (deskBackend B room) (deskCommands C) cfg (n-1) s with
  | returned ok s' =>
    rw [hr] at hfair
    exact hfair
  | drained m s' =>
    rw [hr] at hfair hpassed
    obtain ⟨a',hi',hp'⟩ := hpassed
    simp only
    split
    · exact finishTurn_fair hfair hi'.idle
    · rename_i heof
      exact receiveTurn_fair m hi' hp' (by simpa using heof) hfair incoming

theorem receiveDeferred_rest (hw : Wired identity s a) (h : Fair s.log) (hr : AtRest s)
    (incoming : List Incoming) : FairTurn room False (receiveDeferred s incoming) := by
  have hfinish : ∀ s' : Link (Desk W), s'.log = s.log →
      s'.client.deferredMiss = s.client.deferredMiss → position s' = position s →
      FairTurn room False (finishTurn s') := by
    intro s' hl hm hp
    refine ⟨by rw [finishTurn, withClient, hl]; exact h,
      fun _ => ⟨atRest_same hr hl ?_ ?_,False.elim⟩⟩
    · exact (finish_miss s'.client).trans hm
    · exact (position_finish s' s'.client rfl).trans hp
  unfold receiveDeferred
  split
  · exact hfinish s rfl rfl rfl
  · cases clientRecv (requestMax-s.client.input.length) (incoming.headD .again) with
    | interrupted => exact hfinish s rfl rfl rfl
    | again => exact hfinish s rfl rfl rfl
    | failed => exact ⟨h,(fun hok => by cases hok)⟩
    | eof => exact hfinish (endInput s) rfl rfl rfl
    | data bytes => exact hfinish (takeIn s bytes) rfl rfl (takeIn_position hw bytes)

theorem fairTurn_fresh {fresh fresh' : Prop} {result : Bool × Link (Desk W)}
    (h : FairTurn room fresh result) (hf : fresh' → fresh) : FairTurn room fresh' result :=
  ⟨h.1,fun hok => ⟨(h.2 hok).1,fun hn => (h.2 hok).2 (hf hn)⟩⟩

theorem openTurn_fair (n : ℕ) (incoming : List Incoming)
    (hc : Chronicle identity s.received s.log a) (hw : Wired identity s a)
    (hs : Starts identity s a) (hidle : ¬outputPending s.client) (h : Fair s.log) (hr : AtRest s)
    (hh : a.putOff ≠ none → s.client.deferredMiss = none → Here room s) :
    FairTurn room (s.client.deferredMiss = none)
      (openTurn identity S (deskBackend B room) (deskCommands C) cfg n incoming s) := by
  unfold openTurn
  cases hmiss : s.client.deferredMiss with
  | some miss =>
    exact fairTurn_fresh (receiveDeferred_rest hw h hr incoming) (fun hn => nomatch hn)
  | none =>
    have hi' : Inside identity
        { s with world := (deskCommands C).maybeReloadMappings s.world } a :=
      inside_alike (wired_inside hc hw hidle hmiss) (alike_refl hw) rfl rfl rfl hmiss
    refine fairTurn_fresh (freshTurn_fair n incoming hi' ?_ h ?_) (fun _ => trivial)
    · rcases hs with hs | hs
      · unfold Settled at hs
        rw [hmiss] at hs
        exact Or.inl hs
      · exact Or.inr (resumed_alike hs.2.2 (alike_refl hw) rfl)
    · by_cases hp : a.putOff = none
      · exact here_below hi'.chronicle hi'.wired hp
      · exact here_same (hh hp hmiss) rfl rfl rfl rfl rfl

theorem processClient_fair (n : ℕ) (incoming : List Incoming)
    (hc : Chronicle identity s.received s.log a) (hw : Wired identity s a)
    (hs : Starts identity s a) (h : Fair s.log) (hr : AtRest s)
    (hh : a.putOff ≠ none → s.client.deferredMiss = none → Here room s) :
    FairTurn room (s.client.deferredMiss = none)
      (processClient identity S (deskBackend B room) (deskCommands C) cfg n incoming s) := by
  unfold processClient
  split
  · exact ⟨h,fun _ => ⟨hr,roomy_none⟩⟩
  · rename_i hidle
    have halike := ready_alike hw false
    refine openTurn_fair (s := withClient s { s.client with inputReady := false }) n incoming hc
      (wired_alike hw halike rfl rfl) ?_ hidle h (atRest_same hr rfl rfl rfl)
      (fun hp hm => here_same (hh hp hm) rfl rfl rfl rfl rfl)
    rcases hs with hs | hs
    · exact Or.inl (settled_alike hs rfl rfl rfl (fun _ => rfl))
    · exact Or.inr ⟨hs.1,hs.2.1,resumed_alike hs.2.2 halike rfl⟩

end

end PgLocalCache.AttemptLog
