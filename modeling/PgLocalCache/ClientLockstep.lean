import PgLocalCache.ClientTurn

/-!
# Connections seen from outside

A client sees everything of its connection but the world behind it. While it is
not authenticated, none of the actions looks at the world: whatever stands behind
two connections that look alike, they look alike behind the same actions, until an
AUTH succeeds.
-/

namespace PgLocalCache.ClientLockstep

open WorkerBackend FastPath ClientProtocol CommandDispatch ClientTurn
open WireKey (Server)
open RespParser

variable {W D D0 : Type}

def eventFace : Event W → Event Unit
  | .executed offset args reply _ _ => .executed offset args reply () ()
  | .expired reply => .expired reply
  | .malformed error => .malformed error
  | .refused => .refused

/-- A connection without its world. -/
def face (s : Link W) : Link Unit :=
  ⟨s.client,(),s.connected,s.received,s.handed,s.log.map eventFace⟩

def actionFace : Action W → Action Unit
  | .turn maxPipelineCommands incoming => .turn maxPipelineCommands incoming
  | .retry maxPipelineCommands incoming => .retry maxPipelineCommands incoming
  | .flush outgoing => .flush outgoing
  | .writable => .writable
  | .hangUp => .hangUp
  | .pollDeadline => .pollDeadline
  | .drop => .drop
  | .elsewhere _ => .elsewhere ()

def stepFace : Step W → Step Unit
  | .drained s => .drained (face s)
  | .returned ok s => .returned ok (face s)
  | .answered s => .answered (face s)

def passFace : Pass W → Pass Unit
  | .drained remaining s => .drained remaining (face s)
  | .returned ok s => .returned ok (face s)

def stepLink : Step W → Link W
  | .drained s | .returned _ s | .answered s => s

def passLink : Pass W → Link W
  | .drained _ s | .returned _ s => s

def admitted (identity : Identity) : Event W → Bool
  | .executed _ args _ _ _ => decide (ValidAuth args ∧ Grants identity args)
  | _ => false

/-- How many AUTHs have succeeded. -/
def admissions (identity : Identity) (s : Link W) : ℕ := s.log.countP (admitted identity)

/-- A client that is not authenticated and waits for nothing. -/
def Stranger (client : Client) : Prop :=
  client.authenticated = false ∧ client.deferredMiss = none

/-- Both sides look alike and the client is a stranger, or an AUTH has succeeded on both. -/
def Alike (identity : Identity) (k : ℕ) (s : Link W) (r : Link Unit) : Prop :=
  (face s = r ∧ Stranger s.client) ∨ (k < admissions identity s ∧ k < admissions identity r)

def AlikeTurn (identity : Identity) (k : ℕ) (x : Bool × Link W) (y : Bool × Link Unit) : Prop :=
  (x.1 = y.1 ∧ face x.2 = y.2 ∧ Stranger x.2.client) ∨
    (k < admissions identity x.2 ∧ k < admissions identity y.2)

variable {identity : Identity}

theorem face_client (s : Link W) : (face s).client = s.client := rfl

theorem stepLink_face (x : Step W) : stepLink (stepFace x) = face (stepLink x) := by
  cases x <;> rfl

theorem admissions_face (s : Link W) : admissions identity (face s) = admissions identity s := by
  rw [admissions, admissions, face, List.countP_map]
  congr 1
  funext event
  cases event <;> rfl

theorem admissions_mono {s s' : Link W} (h : s.log <+: s'.log) :
    admissions identity s ≤ admissions identity s' := h.sublist.countP_le

/-! Clients. -/

theorem stranger_blank : Stranger blankClient := ⟨rfl,rfl⟩

theorem stranger_finish (client : Client) (h : Stranger client) :
    Stranger (finishClientTurn client) := by
  unfold finishClientTurn resetInput
  split <;> simp only <;> split <;> exact h

theorem stranger_queue {client client' : Client} {response : Bytes} {closeAfter : Bool}
    (h : Stranger client) (hq : queueResponse client response closeAfter = some client') :
    Stranger client' := by
  unfold queueResponse at hq
  split at hq
  · cases hq
  · cases hq
    exact h

theorem stranger_execution {client : Client} {args : List Bytes} (h : Stranger client)
    (hg : ¬(ValidAuth args ∧ Grants identity args)) :
    Stranger (publicExecution identity client args).client := by
  cases args with
  | nil => exact h
  | cons name rest =>
    simp only [publicExecution]
    split
    · rename_i hname
      unfold commandAuth
      split
      · exact h
      · rename_i hlen
        have hvalid : ValidAuth (name::rest) := ⟨hname,by tauto⟩
        split
        · rename_i hgrants
          exact absurd ⟨hvalid,(grants_iff identity _ hvalid.2).mp hgrants⟩ hg
        · exact ⟨rfl,h.2⟩
    · exact h

/-! The log only grows. -/

section
variable (identity : Identity) (S : Server D) (B : Backend W D) (C : Commands W D)
  (cfg : WorkerSettings)

theorem requestStep_log (s : Link W) :
    s.log <+: (stepLink (requestStep identity S B C cfg s)).log := by
  unfold requestStep onIncomplete onMalformed onRequest onCommand
  simp only
  repeat' split
  all_goals simp [stepLink, withClient, record]

theorem pipeline_log (n : ℕ) (s : Link W) : (stepLink (requestStep identity S B C cfg s)).log <+:
    (passLink (pipeline identity S B C cfg n s)).log := by
  induction n generalizing s with
  | zero =>
    rw [pipeline]
    cases requestStep identity S B C cfg s <;> exact List.prefix_rfl
  | succ n ih =>
    rw [pipeline]
    cases requestStep identity S B C cfg s with
    | answered s' => exact (requestStep_log identity S B C cfg s').trans (ih s')
    | drained s' | returned ok s' => exact List.prefix_rfl

theorem lastPass_log (n : ℕ) (s : Link W) : (lastPass identity S B C cfg n s).2.log =
    (passLink (pipeline identity S B C cfg n s)).log := by
  unfold lastPass
  cases pipeline identity S B C cfg n s <;> rfl

theorem receiveTurn_log (n : ℕ) (s : Link W) (incoming : List Incoming) :
    s.log <+: (receiveTurn identity S B C cfg n s incoming).2.log := by
  have hlast : ∀ s : Link W, s.log <+: (lastPass identity S B C cfg n s).2.log := by
    intro s
    rw [lastPass_log]
    exact (requestStep_log identity S B C cfg s).trans (pipeline_log identity S B C cfg n s)
  unfold receiveTurn
  simp only
  split
  · exact hlast (endInput (withClient s (compactClientInput s.client)))
  · exact hlast (takeIn (withClient s (compactClientInput s.client)) _)
  · exact List.prefix_rfl
  · exact List.prefix_rfl

theorem freshTurn_log (n : ℕ) (incoming : List Incoming) (s : Link W) :
    (passLink (pipeline identity S B C cfg (n-1) s)).log <+:
      (freshTurn identity S B C cfg n incoming s).2.log := by
  unfold freshTurn
  cases pipeline identity S B C cfg (n-1) s with
  | returned ok s' => exact List.prefix_rfl
  | drained remaining s' =>
    simp only
    split
    · exact List.prefix_rfl
    · exact receiveTurn_log identity S B C cfg remaining s' incoming

end

/-! One request. -/

theorem onIncomplete_face (s : Link W) : stepFace (onIncomplete s) = onIncomplete (face s) := by
  unfold onIncomplete
  rw [face_client]
  simp only
  split
  · rfl
  · split <;> rfl

theorem onMalformed_face (s : Link W) (error : RespError) :
    stepFace (onMalformed s error) = onMalformed (face s) error := by
  unfold onMalformed
  rw [face_client]
  cases queueResponse s.client (complaintOf error) true with
  | none => rfl
  | some client => simp [stepFace, face, record, withClient, eventFace]

section
variable {S : Server D} {B : Backend W D} {C : Commands W D} {cfg : WorkerSettings}
variable {S0 : Server D0} {B0 : Backend Unit D0} {C0 : Commands Unit D0} {cfg0 : WorkerSettings}
variable {s : Link W} {k : ℕ}

theorem onCommand_face (before : W) (request : Request) (h : s.client.authenticated = false) :
    stepFace (onCommand identity S B C cfg before s request) =
      onCommand identity S0 B0 C0 cfg0 () (face s) request := by
  unfold onCommand
  rw [face_client, executeCommand_public _ _ _ _ _ _ _ _ _ (Or.inl h),
    executeCommand_public _ _ _ _ _ _ _ _ _ (Or.inl h)]
  simp only
  cases (publicExecution identity s.client request.args).reply with
  | none => simp [stepFace, face, record, withClient, eventFace, position]
  | some response =>
    simp only
    cases queueResponse (publicExecution identity s.client request.args).client response
        (publicExecution identity s.client request.args).closeAfter with
    | none => simp [stepFace, face, record, withClient, eventFace, position]
    | some client =>
      simp only
      split <;> simp [stepFace, face, record, withClient, eventFace, position]

theorem requestStep_face (h : s.client.authenticated = false) :
    stepFace (requestStep identity S B C cfg s) = requestStep identity S0 B0 C0 cfg0 (face s) := by
  unfold requestStep
  rw [face_client]
  split
  · rfl
  · split
    · rfl
    · simp only
      cases respParse (unread s.client) with
      | incomplete => exact onIncomplete_face _
      | error error => exact onMalformed_face _ error
      | complete request =>
        simp only [onRequest]
        rw [tryFastMgetHit_public _ _ _ _ _ _ (Or.inl h),
          tryFastMgetHit_public _ _ _ _ _ _ (Or.inl h)]
        exact onCommand_face _ request h

theorem onCommand_stranger (before : W) (request : Request) (h : Stranger s.client) :
    Stranger (stepLink (onCommand identity S B C cfg before s request)).client ∨
      admissions identity s <
        admissions identity (stepLink (onCommand identity S B C cfg before s request)) := by
  by_cases hg : ValidAuth request.args ∧ Grants identity request.args
  · right
    unfold onCommand
    simp only
    repeat' split
    all_goals simp [stepLink, record, withClient, admissions, admitted, hg]
  · left
    have hs := stranger_execution h hg
    unfold onCommand
    rw [executeCommand_public _ _ _ _ _ _ _ _ _ (Or.inl h.1)]
    simp only
    cases (publicExecution identity s.client request.args).reply with
    | none => exact stranger_finish _ hs
    | some response =>
      simp only
      cases hq : queueResponse (publicExecution identity s.client request.args).client response
          (publicExecution identity s.client request.args).closeAfter with
      | none => exact hs
      | some client =>
        have hqueued : Stranger client := stranger_queue hs hq
        have hend : Stranger (endRetry (consume client request.consumed)) := by
          unfold endRetry
          split <;> exact hqueued
        simp only
        split
        · exact stranger_finish (skipInput _) hend
        · exact hend

theorem requestStep_stranger (h : Stranger s.client) :
    Stranger (stepLink (requestStep identity S B C cfg s)).client ∨
      admissions identity s <
        admissions identity (stepLink (requestStep identity S B C cfg s)) := by
  unfold requestStep
  split
  · exact Or.inl h
  · split
    · exact Or.inl (stranger_finish { s.client with inputReady := true } h)
    · simp only
      cases respParse (unread s.client) with
      | incomplete =>
        left
        unfold onIncomplete
        simp only
        split
        · exact h
        · split
          · exact stranger_finish { compactClientInput s.client with closeAfterFlush := true } h
          · exact h
      | error error =>
        left
        simp only [onMalformed]
        cases hq : queueResponse s.client (complaintOf error) true with
        | none => exact h
        | some client =>
          have hqueued := stranger_queue h hq
          exact stranger_finish (skipInput client) hqueued
      | complete request =>
        simp only [onRequest]
        rw [tryFastMgetHit_public _ _ _ _ _ _ (Or.inl h.1)]
        exact onCommand_stranger (s := { s with world := C.processConfigReload s.world }) _
          request h

/-! Whole turns. -/

theorem pipeline_alike (n : ℕ) (h : Stranger s.client) (hk : k ≤ admissions identity s) :
    (passFace (pipeline identity S B C cfg n s) = pipeline identity S0 B0 C0 cfg0 n (face s) ∧
      Stranger (passLink (pipeline identity S B C cfg n s)).client ∧
      k ≤ admissions identity (passLink (pipeline identity S B C cfg n s))) ∨
    (k < admissions identity (passLink (pipeline identity S B C cfg n s)) ∧
      k < admissions identity (passLink (pipeline identity S0 B0 C0 cfg0 n (face s)))) := by
  have hface : ∀ s : Link W, s.client.authenticated = false →
      stepFace (requestStep identity S B C cfg s) = requestStep identity S0 B0 C0 cfg0 (face s) :=
    fun _ => requestStep_face
  have hgrown : ∀ n (s : Link W), Stranger s.client →
      k < admissions identity (stepLink (requestStep identity S B C cfg s)) →
      k < admissions identity (passLink (pipeline identity S B C cfg n s)) ∧
        k < admissions identity (passLink (pipeline identity S0 B0 C0 cfg0 n (face s))) := by
    intro n s h hk
    refine ⟨hk.trans_le (admissions_mono (pipeline_log identity S B C cfg n s)),?_⟩
    rw [← admissions_face, ← stepLink_face, hface s h.1] at hk
    exact hk.trans_le (admissions_mono (pipeline_log identity S0 B0 C0 cfg0 n (face s)))
  induction n generalizing s with
  | zero =>
    rcases requestStep_stranger h with hs | hg
    · left
      have hlog := hk.trans (admissions_mono (requestStep_log identity S B C cfg s))
      rw [pipeline, pipeline, ← hface s h.1]
      cases hstep : requestStep identity S B C cfg s <;> rw [hstep] at hs hlog
      case answered s' => exact ⟨rfl,stranger_finish _ hs,hlog⟩
      all_goals exact ⟨rfl,hs,hlog⟩
    · exact Or.inr (hgrown 0 s h (hk.trans_lt hg))
  | succ n ih =>
    rcases requestStep_stranger h with hs | hg
    · have hlog := hk.trans (admissions_mono (requestStep_log identity S B C cfg s))
      rw [pipeline, pipeline, ← hface s h.1]
      cases hstep : requestStep identity S B C cfg s <;> rw [hstep] at hs hlog
      case answered s' => exact ih hs hlog
      all_goals exact Or.inl ⟨rfl,hs,hlog⟩
    · exact Or.inr (hgrown (n+1) s h (hk.trans_lt hg))

theorem lastPass_alike (n : ℕ) (h : Stranger s.client) (hk : k ≤ admissions identity s) :
    AlikeTurn identity k (lastPass identity S B C cfg n s)
      (lastPass identity S0 B0 C0 cfg0 n (face s)) := by
  rcases pipeline_alike n h hk with ⟨hface,hs,_⟩ | hboth
  · left
    unfold lastPass
    rw [← hface]
    cases hpass : pipeline identity S B C cfg n s <;> rw [hpass] at hs
    case drained remaining s' => exact ⟨rfl,rfl,stranger_finish _ hs⟩
    case returned ok s' => exact ⟨rfl,rfl,hs⟩
  · rw [AlikeTurn, admissions, admissions, lastPass_log, lastPass_log]
    exact Or.inr hboth

theorem receiveTurn_alike (n : ℕ) (incoming : List Incoming) (h : Stranger s.client)
    (hk : k ≤ admissions identity s) :
    AlikeTurn identity k (receiveTurn identity S B C cfg n s incoming)
      (receiveTurn identity S0 B0 C0 cfg0 n (face s) incoming) := by
  unfold receiveTurn
  simp only
  rw [show (withClient (face s) (compactClientInput (face s).client)).client =
    (withClient s (compactClientInput s.client)).client from rfl]
  split
  · exact lastPass_alike (s := endInput (withClient s (compactClientInput s.client))) n h hk
  · exact lastPass_alike (s := takeIn (withClient s (compactClientInput s.client)) _) n h hk
  · exact Or.inl ⟨rfl,rfl,h⟩
  · exact Or.inl ⟨rfl,rfl,stranger_finish _ h⟩

theorem freshTurn_alike (n : ℕ) (incoming : List Incoming) (h : Stranger s.client)
    (hk : k ≤ admissions identity s) :
    AlikeTurn identity k (freshTurn identity S B C cfg n incoming s)
      (freshTurn identity S0 B0 C0 cfg0 n incoming (face s)) := by
  rcases pipeline_alike (n-1) h hk with ⟨hface,hs,hlog⟩ | hboth
  · unfold freshTurn
    rw [← hface]
    cases hpass : pipeline identity S B C cfg (n-1) s <;> rw [hpass] at hs hlog
    case returned ok s' => exact Or.inl ⟨rfl,rfl,hs⟩
    case drained remaining s' =>
      simp only [passFace]
      rw [face_client]
      split
      · exact Or.inl ⟨rfl,rfl,stranger_finish _ hs⟩
      · exact receiveTurn_alike remaining incoming hs hlog
  · exact Or.inr
      ⟨hboth.1.trans_le (admissions_mono (freshTurn_log identity S B C cfg n incoming s)),
      hboth.2.trans_le (admissions_mono (freshTurn_log identity S0 B0 C0 cfg0 n incoming (face s)))⟩

theorem openTurn_idle (n : ℕ) (incoming : List Incoming) (h : s.client.deferredMiss = none) :
    openTurn identity S B C cfg n incoming s = freshTurn identity S B C cfg n incoming
      { s with world := C.maybeReloadMappings s.world } := by
  rw [openTurn, h]

theorem processClient_alike (n : ℕ) (incoming : List Incoming) (h : Stranger s.client)
    (hk : k ≤ admissions identity s) :
    AlikeTurn identity k (processClient identity S B C cfg n incoming s)
      (processClient identity S0 B0 C0 cfg0 n incoming (face s)) := by
  unfold processClient
  rw [face_client]
  split
  · exact Or.inl ⟨rfl,rfl,h⟩
  · rw [openTurn_idle _ _ (by exact h.2), openTurn_idle _ _ (by exact h.2)]
    exact freshTurn_alike (s := { s with
      world := C.maybeReloadMappings s.world
      client := { s.client with inputReady := false } }) n incoming h hk

theorem settle_alike {x : Bool × Link W} {y : Bool × Link Unit} (h : AlikeTurn identity k x y) :
    Alike identity k (settle x) (settle y) := by
  obtain ⟨ok,s⟩ := x
  obtain ⟨ok0,r⟩ := y
  rcases h with ⟨hok,hface,hs⟩ | hboth
  · cases hok
    cases hface
    cases ok
    · exact Or.inl ⟨rfl,stranger_blank⟩
    · exact Or.inl ⟨rfl,hs⟩
  · cases ok <;> cases ok0 <;> exact Or.inr hboth

end

/-! Whole connections. -/

section
variable {s : Link W} {k : ℕ}

theorem flushTail_alike (h : Stranger s.client) :
    Alike identity k (flushTail s) (flushTail (face s)) := by
  unfold flushTail
  rw [face_client]
  left
  repeat' split
  all_goals first | exact ⟨rfl,h⟩ | exact ⟨rfl,stranger_blank⟩

theorem wakeInput_face (s : Link W) : face (wakeInput s) = wakeInput (face s) := by
  unfold wakeInput
  rw [face_client]
  split <;> rfl

theorem wakeInput_stranger (h : Stranger s.client) : Stranger (wakeInput s).client := by
  unfold wakeInput
  split <;> exact h

theorem resetOutput_face (s : Link W) : face (resetOutput s) = resetOutput (face s) := by
  unfold resetOutput
  rw [face_client]
  split <;> rfl

theorem sendStep_face (outgoing : Outgoing) (h : Stranger s.client) :
    (sendStep s outgoing).1 = (sendStep (face s) outgoing).1 ∧
      face (sendStep s outgoing).2 = (sendStep (face s) outgoing).2 ∧
      Stranger (sendStep s outgoing).2.client := by
  have hreset : ∀ s : Link W, Stranger s.client → Stranger (resetOutput s).client := by
    intro s h
    unfold resetOutput
    split <;> exact h
  unfold sendStep
  rw [face_client]
  simp only
  repeat' split
  all_goals first
    | exact ⟨rfl,rfl,h⟩
    | exact ⟨rfl,resetOutput_face (sendOutput s _),hreset (sendOutput s _) h⟩
    | exact ⟨rfl,resetOutput_face s,hreset s h⟩

theorem flushReady_alike (outgoing : Outgoing) (h : Stranger s.client) :
    Alike identity k (flushReady s outgoing) (flushReady (face s) outgoing) := by
  obtain ⟨hok,hface,hs⟩ := sendStep_face (s := withClient s { s.client with outputReady := false })
    outgoing h
  unfold flushReady flushClientOutput
  rw [face_client]
  split
  · revert hok hface hs
    rcases sendStep (withClient s { s.client with outputReady := false }) outgoing with ⟨ok,s'⟩
    rcases hflush : sendStep (face (withClient s { s.client with outputReady := false })) outgoing
      with ⟨ok0,r⟩
    rintro rfl rfl hs
    rw [show withClient (face s) { s.client with outputReady := false } =
      face (withClient s { s.client with outputReady := false }) from rfl, hflush]
    cases ok with
    | false => exact Or.inl ⟨rfl,stranger_blank⟩
    | true =>
      simp only
      rw [face_client]
      split
      · exact Or.inl ⟨rfl,stranger_blank⟩
      · rw [← wakeInput_face]
        exact flushTail_alike (wakeInput_stranger hs)
  · exact flushTail_alike h

end

section
variable {S : Server D} {B : Backend W D} {C : Commands W D} {cfg : WorkerSettings}
variable {S0 : Server D0} {B0 : Backend Unit D0} {C0 : Commands Unit D0} {cfg0 : WorkerSettings}
variable {s : Link W}

theorem step_alike (action : Action W) (h : Stranger s.client) :
    Alike identity (admissions identity s) (step identity S B C cfg s action)
      (step identity S0 B0 C0 cfg0 (face s) (actionFace action)) := by
  unfold step
  rw [show (face s).connected = s.connected from rfl]
  split
  · cases action with
    | turn n incoming => exact settle_alike (processClient_alike n incoming h le_rfl)
    | retry n incoming =>
      simp only [act, actionFace, retryDeferredMiss, h.2, face_client]
      exact Or.inl ⟨rfl,h⟩
    | flush outgoing => exact flushReady_alike outgoing h
    | pollDeadline =>
      simp only [act, actionFace, pollDeadline, h.2, face_client]
      exact Or.inl ⟨rfl,h⟩
    | drop => exact Or.inl ⟨rfl,stranger_blank⟩
    | writable | hangUp | elsewhere => exact Or.inl ⟨rfl,h⟩
  · exact Or.inl ⟨rfl,h⟩

end

theorem step_closed {S : Server D} {B : Backend W D} {C : Commands W D} {cfg : WorkerSettings}
    {s : Link W} (h : s.connected = false) (action : Action W) :
    step identity S B C cfg s action = s := by
  simp [step, h]

section
variable {W1 W2 D1 D2 : Type} {S1 : Server D1} {B1 : Backend W1 D1} {C1 : Commands W1 D1}
  {S2 : Server D2} {B2 : Backend W2 D2} {C2 : Commands W2 D2} {cfg1 cfg2 : WorkerSettings}

/-- Two connections that look alike do so behind the same actions, if no AUTH succeeds. -/
theorem steps_lockstep (S0 : Server D0) (B0 : Backend Unit D0) (C0 : Commands Unit D0)
    (cfg0 : WorkerSettings) (actions1 : List (Action W1)) (actions2 : List (Action W2))
    {s1 : Link W1} {s2 : Link W2} (hsame : actions1.map actionFace = actions2.map actionFace)
    (hface : face s1 = face s2) (hs : s1.connected = true → Stranger s1.client)
    (hno : ∀ now, now <+: actions1 → admissions identity
      (now.foldl (step identity S1 B1 C1 cfg1) s1) = admissions identity s1) :
    face (actions1.foldl (step identity S1 B1 C1 cfg1) s1) =
      face (actions2.foldl (step identity S2 B2 C2 cfg2) s2) := by
  induction actions1 generalizing actions2 s1 s2 with
  | nil =>
    cases actions2 with
    | nil => exact hface
    | cons _ _ => cases hsame
  | cons a1 actions1 ih =>
    cases actions2 with
    | nil => cases hsame
    | cons a2 actions2 =>
      obtain ⟨ha,hrest⟩ := List.cons.inj hsame
      have hfirst := hno [a1] ⟨actions1,rfl⟩
      have hno' : ∀ now, now <+: actions1 → admissions identity (now.foldl
          (step identity S1 B1 C1 cfg1) (step identity S1 B1 C1 cfg1 s1 a1)) =
          admissions identity (step identity S1 B1 C1 cfg1 s1 a1) := fun now hnow =>
        (hno (a1::now) (List.cons_prefix_cons.mpr ⟨rfl,hnow⟩)).trans hfirst.symm
      have hconnected : s1.connected = s2.connected := congrArg Link.connected hface
      rw [List.foldl_cons, List.foldl_cons]
      by_cases hopen : s1.connected = true
      · have hclient : s1.client = s2.client := congrArg Link.client hface
        have hcount : admissions identity s1 = admissions identity s2 := by
          rw [← admissions_face, hface, admissions_face]
        have h1 : Alike identity (admissions identity s1) (step identity S1 B1 C1 cfg1 s1 a1)
            (step identity S0 B0 C0 cfg0 (face s1) (actionFace a1)) := step_alike a1 (hs hopen)
        have h2 : Alike identity (admissions identity s2) (step identity S2 B2 C2 cfg2 s2 a2)
            (step identity S0 B0 C0 cfg0 (face s2) (actionFace a2)) :=
          step_alike a2 (hclient ▸ hs hopen)
        rw [← hcount, ← hface, ← ha] at h2
        -- One more AUTH on either side would show in the log of the first.
        obtain ⟨hr,hs'⟩ := h1.resolve_right (fun h => absurd hfirst (ne_of_gt h.1))
        obtain ⟨hr2,-⟩ := h2.resolve_right (fun h => by
          rw [← hr, admissions_face] at h
          exact absurd hfirst (ne_of_gt h.2))
        exact ih actions2 hrest (hr.trans hr2.symm) (fun _ => hs') hno'
      · rw [Bool.not_eq_true] at hopen
        rw [step_closed hopen] at hno' ⊢
        rw [step_closed (hconnected ▸ hopen)]
        exact ih actions2 hrest hface hs hno'

end

end PgLocalCache.ClientLockstep
