import PgLocalCache.MgetCalls
import PgLocalCache.CommandDispatch

/-!
# The requests to defer, recorded

A desk is the world of a worker together with what `enqueue_deferred_miss` has been
asked and has answered so far. The queue says for which request lengths it has room
while a client is served, and the record is never read. An execution asks at most
once, with the length of its request, and a request that is taken up again asks
with the deadline it had before.
-/

namespace PgLocalCache.DeskWorld

open WireKey WorkerBackend MgetCommand FastPath CommandDispatch ClientProtocol Outcome MgetCalls
open RespWriter

structure Attempt where
  requestLength : ℕ
  deadline : ℕ
  result : DeferredResult
  deriving DecidableEq, Repr

structure Desk (W : Type) where
  rest : W
  attempts : List Attempt

variable {W D α : Type}

def onDesk (f : W → α × W) (d : Desk W) : α × Desk W :=
  ((f d.rest).1,{ d with rest := (f d.rest).2 })

def overDesk (f : W → W) (d : Desk W) : Desk W := { d with rest := f d.rest }

/-- The answer of `enqueue_deferred_miss` at the time `now`. -/
def deferredAnswer (room : ℕ → Bool) (now requestLength deadline : ℕ) : DeferredResult :=
  if deadline ≤ now then .expired else if room requestLength then .queued else .full

def enqueueAttempt (B : Backend W D) (room : ℕ → Bool) (requestLength deadline : ℕ) (d : Desk W) :
    DeferredResult × Desk W :=
  let clock := B.getCurrentTimestamp d.rest
  let result := deferredAnswer room clock.1 requestLength deadline
  (result,⟨clock.2,d.attempts++[⟨requestLength,deadline,result⟩]⟩)

def deskBackend (B : Backend W D) (room : ℕ → Bool) : Backend (Desk W) D where
  getCurrentTimestamp := onDesk B.getCurrentTimestamp
  waitLatch := overDesk B.waitLatch
  cacheIsEnabled := onDesk B.cacheIsEnabled
  configGeneration := onDesk B.configGeneration
  cacheLookupQuiet := fun m key => onDesk (B.cacheLookupQuiet m key)
  cacheInvalidateKey := fun m key => onDesk (B.cacheInvalidateKey m key)
  cacheClaimLoad := fun m key token => onDesk (B.cacheClaimLoad m key token)
  cacheReleaseLoad := fun m key token loadId => overDesk (B.cacheReleaseLoad m key token loadId)
  cacheStore := fun m key token payload loadId xmin =>
    onDesk (B.cacheStore m key token payload loadId xmin)
  beginMgetSpi := fun timeout oids => onDesk (B.beginMgetSpi timeout oids)
  executeGetPlan := fun m keyValues => onDesk (B.executeGetPlan m keyValues)
  commitSpi := onDesk B.commitSpi
  abortSpi := overDesk B.abortSpi
  enqueueDeferredMiss := enqueueAttempt B room

def deskCommands (C : Commands W D) : Commands (Desk W) D where
  mappings := fun d => C.mappings d.rest
  maybeReloadMappings := overDesk C.maybeReloadMappings
  reloadForMiss := overDesk C.reloadForMiss
  processConfigReload := overDesk C.processConfigReload
  commandSet := fun m rawKey value => onDesk (C.commandSet m rawKey value)
  commandDelete := fun m rawKey => onDesk (C.commandDelete m rawKey)
  statsJson := onDesk C.statsJson
  cacheInvalidateAll := onDesk C.cacheInvalidateAll
  cacheInvalidateDatabase := onDesk C.cacheInvalidateDatabase
  cacheInvalidateNamespace := fun m => onDesk (C.cacheInvalidateNamespace m)

theorem desk_apart (B : Backend W D) (room : ℕ → Bool) :
    Apart (deskBackend B room) Desk.attempts := by
  intro w w' h
  cases h <;> rfl

/-! What an execution asks. -/

/-- Between `d` and `d'` the queue was asked at most once. -/
structure Asked (room : ℕ → Bool) (requestLength deadline : ℕ) (d d' : Desk W)
    (reply : Option Bytes) : Prop where
  once : d'.attempts = d.attempts ∨ ∃ result,
    d'.attempts = d.attempts++[⟨requestLength,deadline,result⟩] ∧
      (result = .full → room requestLength = false)
  queued : reply = none → d'.attempts = d.attempts++[⟨requestLength,deadline,.queued⟩]
  granted : reply = none → room requestLength = true

section Mget

variable {S : Server D} {B : Backend W D} {cfg : WorkerSettings} {room : ℕ → Bool}

theorem asked_quiet {requestLength deadline : ℕ} {d d' : Desk W} {reply : Bytes}
    (h : d'.attempts = d.attempts) : Asked room requestLength deadline d d' (some reply) :=
  ⟨Or.inl h,(fun hn => nomatch hn),fun hn => nomatch hn⟩

theorem asked_from {requestLength deadline : ℕ} {d d1 d' : Desk W} {reply : Option Bytes}
    (h : Asked room requestLength deadline d1 d' reply) (hd : d1.attempts = d.attempts) :
    Asked room requestLength deadline d d' reply := by
  refine ⟨?_,fun hn => ?_,h.granted⟩
  · rw [← hd]
    exact h.once
  · rw [← hd]
    exact h.queued hn

theorem deferredAnswer_full {now requestLength deadline : ℕ}
    (h : deferredAnswer room now requestLength deadline = .full) : room requestLength = false := by
  unfold deferredAnswer at h
  split at h
  · cases h
  · split at h
    · cases h
    · rename_i hroom
      simpa using hroom

theorem deferredAnswer_queued {now requestLength deadline : ℕ}
    (h : deferredAnswer room now requestLength deadline = .queued) : room requestLength = true := by
  unfold deferredAnswer at h
  split at h
  · cases h
  · split at h
    · assumption
    · cases h

theorem enqueue_asked (requestLength deadline : ℕ) (d : Desk W) (reply : Option Bytes)
    (hreply : reply = none →
      ((deskBackend B room).enqueueDeferredMiss requestLength deadline d).1 = .queued) :
    Asked room requestLength deadline d
      ((deskBackend B room).enqueueDeferredMiss requestLength deadline d).2 reply := by
  refine ⟨Or.inr ⟨_,rfl,deferredAnswer_full⟩,fun hn => ?_,
    fun hn => deferredAnswer_queued (hreply hn)⟩
  have hqueued := hreply hn
  simp only [deskBackend, enqueueAttempt] at hqueued ⊢
  rw [hqueued]

theorem mgetAnswer_replies (A : Backend W D) (deadline : ℕ) (slots : List ℕ)
    (s : MgetFrame W D) :
    Ensures (mgetAnswer A deadline slots) s (fun reply _ => reply ≠ none) (fun _ _ => True) := by
  have hend : ∀ (reply : Bytes) (t : MgetFrame W D), Ensures (do
      mgetReleaseClaims A
      return some reply) t (fun reply _ => reply ≠ none) (fun _ _ => True) := fun reply t =>
    ensures_seq (Q := fun _ _ => True) (ensures_always (fun _ _ => trivial) (fun _ _ => trivial))
      (fun _ _ _ h => nomatch h)
  refine ensures_seq (Q := fun _ _ => True)
    (ensures_always (fun _ _ => trivial) (fun _ _ => trivial)) (fun late t _ => ?_)
  refine ensures_ite.mpr ⟨fun _ => hend _ t,fun _ => ?_⟩
  rw [ensures_bind, ensures_get]
  cases assemble t.items slots (arrayHeader slots.length) with
  | error e => exact trivial
  | ok reply =>
    cases reply with
    | some response => exact fun h => nomatch h
    | none => exact hend _ t

theorem mgetServe_asked (requestLength deadline : ℕ) (slots : List ℕ) (s : MgetFrame (Desk W) D) :
    Ensures (mgetServe S (deskBackend B room) cfg requestLength deadline slots) s
      (fun reply s' => Asked room requestLength deadline s.world s'.world reply)
      (fun _ s' => s'.world.attempts = s.world.attempts) := by
  have hB := desk_apart B room
  -- Up to the call that defers nothing is recorded, and behind it nothing is called.
  have hend : ∀ (reply : Bytes) (t : MgetFrame (Desk W) D),
      t.world.attempts = s.world.attempts → Ensures (do
        mgetReleaseClaims (deskBackend B room)
        return some reply) t
      (fun reply s' => Asked room requestLength deadline s.world s'.world reply)
      (fun _ s' => s'.world.attempts = s.world.attempts) := fun reply t ht =>
    ensures_seq (ensures_mono (mgetReleaseClaims_leaves hB t) (fun _ _ h => h.trans ht)
      (fun _ _ h => h.trans ht)) (fun _ _ h => asked_quiet h)
  refine ensures_seq (leaves_overItems (lookupItem_leaves hB) s) (fun _ s1 h1 => ?_)
  rw [ensures_bind, ensures_get]
  refine ensures_ite.mpr ⟨fun _ => hend _ _ h1,fun _ => ?_⟩
  refine ensures_seq (ensures_mono (leaves_tryCatch (mgetObtain_leaves hB deadline)
    (mgetCleanup_leaves hB) s1) (fun _ _ h => h.trans h1) (fun _ _ h => h.trans h1))
    (fun _ s2 h2 => ?_)
  rw [ensures_bind, ensures_get]
  refine ensures_ite.mpr ⟨fun _ => ?_,fun _ => ?_⟩
  · refine ensures_seq (ensures_mono (mgetReleaseClaims_leaves hB s2) (fun _ _ h => h.trans h2)
      (fun _ _ h => h.trans h2)) (fun _ s3 h3 => ?_)
    have hsame : ∀ reply, (reply = none → ((deskBackend B room).enqueueDeferredMiss requestLength
        deadline s3.world).1 = .queued) → Asked room requestLength deadline s.world
        ((deskBackend B room).enqueueDeferredMiss requestLength deadline s3.world).2 reply :=
      fun reply hreply =>
        asked_from (enqueue_asked requestLength deadline s3.world reply hreply) h3
    rw [ensures_bind, MgetSweeps.ensures_onWorld, ensures_call]
    cases hresult : ((deskBackend B room).enqueueDeferredMiss requestLength deadline
        s3.world).1 with
    | queued => exact hsame none (fun _ => hresult)
    | expired => exact hsame _ (fun hn => nomatch hn)
    | full => exact hsame _ (fun hn => nomatch hn)
  · cases s2.tally.failure with
    | some failure => exact hend _ _ h2
    | none =>
      refine ensures_mono (ensures_and (mgetAnswer_leaves hB deadline slots s2)
        (mgetAnswer_replies _ deadline slots s2)) ?_ (fun _ _ h => h.1.trans h2)
      rintro reply s3 ⟨h3,hsome⟩
      obtain ⟨response,rfl⟩ := Option.ne_none_iff_exists'.mp hsome
      exact asked_quiet (h3.trans h2)

theorem commandMget_asked (client : MgetClient) (mappings : List (WorkerMapping D))
    (wireKeys : List Bytes) (requestLength : ℕ) (d : Desk W) :
    Ensures (commandMget S (deskBackend B room) cfg client mappings wireKeys requestLength) d
      (fun reply d' => Asked room requestLength
        (mgetDeadline cfg client ((deskBackend B room).getCurrentTimestamp d).1) d d' reply)
      (fun _ d' => d'.attempts = d.attempts) := by
  have hB := desk_apart B room
  unfold commandMget
  rw [ensures_bind]
  change Ensures _ ((deskBackend B room).getCurrentTimestamp d).2 _ _
  have hclock : ((deskBackend B room).getCurrentTimestamp d).2.attempts = d.attempts := rfl
  refine ensures_seq (ensures_mono (prepareLoop_leaves hB mappings wireKeys [] [] _)
    (fun _ _ h => h.trans hclock) (fun _ _ h => h.trans hclock)) (fun prepared d1 h1 => ?_)
  cases prepared with
  | error message => exact asked_quiet h1
  | ok prepared =>
    obtain ⟨items,slots⟩ := prepared
    rw [MgetSweeps.ensures_withFrame]
    exact ensures_mono (mgetServe_asked requestLength _ slots _) (fun _ _ h => asked_from h h1)
      (fun _ _ h => h.trans h1)

/-- What the execution of a request asks for its client. -/
def Asks (room : ℕ → Bool) (client : Client) (requestLength : ℕ) (d d' : Desk W)
    (e : Execution) : Prop :=
  ∃ deadline, Asked room requestLength deadline d d' e.reply ∧
    (client.retryingDeferredMiss = true → deadline = client.deferredDeadline) ∧
    (e.reply = none → e.client.deferredMiss = some ⟨client.inputStart,requestLength,deadline⟩)

theorem asks_quiet {client client' : Client} {requestLength : ℕ} {d d' : Desk W} {reply : Bytes}
    {closeAfter : Bool} (h : d'.attempts = d.attempts) :
    Asks room client requestLength d d' ⟨some reply,closeAfter,client'⟩ :=
  ⟨client.deferredDeadline,asked_quiet h,fun _ => rfl,fun hn => nomatch hn⟩

variable {C : Commands W D} {client : Client} {requestLength : ℕ} {d : Desk W}

theorem clientMget_asks (wireKeys : List Bytes) :
    Ensures (clientMget S (deskBackend B room) (deskCommands C) cfg client wireKeys requestLength)
      d (fun e d' => Asks room client requestLength d d' e)
      (fun _ d' => d'.attempts = d.attempts) := by
  simp only [clientMget, ensures_bind, ensures_get]
  refine ensures_mono (commandMget_asked _ _ wireKeys requestLength d) ?_ (fun _ _ h => h)
  intro reply d' hasked
  have hdeadline : client.retryingDeferredMiss = true → mgetDeadline cfg
      ⟨client.retryingDeferredMiss,client.deferredDeadline⟩
      ((deskBackend B room).getCurrentTimestamp d).1 = client.deferredDeadline := by
    intro hretry
    rw [mgetDeadline, if_pos hretry]
  cases reply with
  | some reply => exact ⟨_,hasked,hdeadline,(fun hn => by cases hn)⟩
  | none => exact ⟨_,hasked,hdeadline,fun _ => rfl⟩

end Mget

/-! The other commands ask nothing. -/

section Quiet

variable {S : Server D} {B : Backend W D} {C : Commands W D} {cfg : WorkerSettings}
  {room : ℕ → Bool}

theorem faultReply_leaves (fault : KeyFault) :
    Leaves Desk.attempts (faultReply (W := Desk W) fault) := by
  cases fault with
  | reply message => exact leaves_pure _
  | raise error => exact leaves_throw _

theorem onWireKey_leaves (wireKey : Bytes)
    {run : WorkerMapping D → Bytes → WorldM (Desk W) Bytes}
    (hrun : ∀ m rawKey, Leaves Desk.attempts (run m rawKey)) :
    Leaves Desk.attempts (onWireKey S (deskCommands C) wireKey run) := by
  refine leaves_bind leaves_get (fun d => ?_)
  cases resolveWireKey S ((deskCommands C).mappings d) wireKey with
  | error fault => exact faultReply_leaves fault
  | ok key => exact hrun key.1 key.2

theorem commandWrite_leaves (isSet : Bool) (args : List Bytes) :
    Leaves Desk.attempts (commandWrite S (deskCommands C) isSet args) := by
  match args with
  | [] => exact leaves_pure _
  | _::_::_::_ => exact leaves_pure _
  | [wireKey] =>
    refine leaves_ite (leaves_pure _) (onWireKey_leaves wireKey (fun m rawKey => ?_))
    exact leaves_enter _ (fun _ => rfl)
  | [wireKey,value] =>
    refine leaves_ite (onWireKey_leaves wireKey (fun m rawKey => ?_)) (leaves_pure _)
    exact leaves_enter _ (fun _ => rfl)

theorem countReply_leaves (f : Desk W → ℕ × Desk W) (hf : ∀ d, (f d).2.attempts = d.attempts) :
    Leaves Desk.attempts (countReply f) :=
  leaves_bind (leaves_call f hf) (fun _ => leaves_pure _)

theorem invalidateKeyOrTable_leaves (scope : Bytes) : Leaves Desk.attempts
    (invalidateKeyOrTable S (deskBackend B room) (deskCommands C) scope) := by
  refine leaves_bind leaves_get (fun d => ?_)
  cases resolveWireKey S ((deskCommands C).mappings d) scope with
  | ok key =>
    dsimp only
    cases canonicalizeKey S key.1 key.2 with
    | error fault => exact faultReply_leaves fault
    | ok canonical => exact countReply_leaves _ (fun _ => rfl)
  | error fault =>
    cases fault with
    | raise error => exact leaves_throw _
    | reply message =>
      dsimp only
      cases ((deskCommands C).mappings d).find?
          (fun mapping => decide (scope = tableScope S mapping)) with
      | none => exact leaves_pure _
      | some mapping => exact countReply_leaves _ (fun _ => rfl)

theorem commandInvalidate_leaves (args : List Bytes) : Leaves Desk.attempts
    (commandInvalidate S (deskBackend B room) (deskCommands C) args) := by
  match args with
  | [] => exact leaves_pure _
  | _::_::_ => exact leaves_pure _
  | [scope] =>
    refine leaves_ite (leaves_pure _) ?_
    cases S.verifymbstr scope with
    | some error => exact leaves_throw _
    | none =>
      refine leaves_ite (countReply_leaves _ (fun _ => rfl)) ?_
      refine leaves_ite (countReply_leaves _ (fun _ => rfl)) ?_
      exact leaves_ite (invalidateKeyOrTable_leaves scope) (leaves_pure _)

theorem plainCommand_leaves (identity : Identity) (name : Bytes) (rest : List Bytes) :
    Leaves Desk.attempts
      (plainCommand identity S (deskBackend B room) (deskCommands C) name rest) := by
  have hstat : Leaves Desk.attempts (commandStat (deskCommands C) rest) := by
    cases rest with
    | nil => exact leaves_bind (leaves_call _ (fun _ => rfl)) (fun _ => leaves_pure _)
    | cons arg rest => exact leaves_pure _
  unfold plainCommand
  repeat' refine leaves_ite ?_ ?_
  all_goals first
    | exact leaves_pure _
    | exact hstat
    | exact commandInvalidate_leaves rest

variable {identity : Identity} {client : Client} {requestLength : ℕ} {d : Desk W}

theorem answered_asks {x : WorldM (Desk W) Bytes} (hx : Leaves Desk.attempts x) :
    Ensures (do return answered client (← x)) d
      (fun e d' => Asks room client requestLength d d' e)
      (fun _ d' => d'.attempts = d.attempts) :=
  ensures_seq (hx d) (fun _ _ h => asks_quiet h)

theorem dataCommand_asks (name : Bytes) (rest : List Bytes) :
    Ensures (dataCommand identity S (deskBackend B room) (deskCommands C) cfg client name rest
      requestLength) d (fun e d' => Asks room client requestLength d d' e)
      (fun _ d' => d'.attempts = d.attempts) := by
  unfold dataCommand
  refine ensures_ite.mpr ⟨fun _ => answered_asks (commandWrite_leaves true rest),fun _ => ?_⟩
  refine ensures_ite.mpr ⟨fun _ => answered_asks (commandWrite_leaves false rest),fun _ => ?_⟩
  refine ensures_ite.mpr ⟨fun _ => ?_,fun _ => ?_⟩
  · refine ensures_ite.mpr ⟨fun _ => asks_quiet rfl,fun _ => ?_⟩
    exact ensures_ite.mpr ⟨fun _ => asks_quiet rfl,fun _ => clientMget_asks rest⟩
  · refine ensures_ite.mpr ⟨fun _ => asks_quiet rfl,fun _ => ?_⟩
    exact answered_asks (plainCommand_leaves identity name rest)

theorem executeCommand_asks (args : List Bytes) :
    Asks room client requestLength d
      (executeCommand identity S (deskBackend B room) (deskCommands C) cfg client args
        requestLength d).2
      (executeCommand identity S (deskBackend B room) (deskCommands C) cfg client args
        requestLength d).1 := by
  have hinner : Ensures (executeCommandInner identity S (deskBackend B room) (deskCommands C) cfg
      client args requestLength) d (fun e d' => Asks room client requestLength d d' e)
      (fun _ d' => d'.attempts = d.attempts) := by
    cases args with
    | nil => exact asks_quiet rfl
    | cons name rest =>
      refine ensures_ite.mpr ⟨fun _ => ?_,fun _ => ?_⟩
      · unfold commandAuth
        split
        · exact asks_quiet rfl
        · split
          · exact asks_quiet rfl
          · exact asks_quiet rfl
      · exact ensures_ite.mpr ⟨fun _ => asks_quiet rfl,fun _ => dataCommand_asks name rest⟩
  unfold executeCommand
  cases hrun : executeCommandInner identity S (deskBackend B room) (deskCommands C) cfg client args
      requestLength d with
  | ok e d' => exact ensures_ok hinner e d' hrun
  | error error d' =>
    have hsame : d'.attempts = d.attempts := ensures_error hinner error d' hrun
    exact asks_quiet hsame

end Quiet

end PgLocalCache.DeskWorld
