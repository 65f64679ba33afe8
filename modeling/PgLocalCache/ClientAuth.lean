import PgLocalCache.ClientRuns
import PgLocalCache.ClientLockstep

/-!
# Clients that are not authenticated

Two runs over one stream may differ in everything behind the connection: caches,
tables, mappings, settings and the timing of the event loop. As long as no AUTH has
succeeded, or the last one of valid arity has failed, both give the same replies
and make no call, and with the same timing they stay in step. The history of a
connection decides: it is the list of its answered requests.
-/

namespace PgLocalCache.ClientAuth

open WorkerBackend FastPath ClientProtocol ClientLog CommandDispatch ClientTurn ClientStream
open ClientRuns ClientLockstep
open MgetReply (plainServer plainBackend plainSettings)
open FastAgreement (readingServer holdingBackend)
open WireKey (Server WorkerMapping)
open RespWriter

variable (identity : Identity)

/-- No AUTH of this history has succeeded, or the last one of valid arity has failed. -/
def Unauthenticated (history : List (List Bytes)) : Prop :=
  (∀ args ∈ history, ValidAuth args → ¬Grants identity args) ∨
    ∃ args, (history.filter (fun args => ValidAuth args)).getLast? = some args ∧
      ¬Grants identity args

/-- The failed AUTHs of a history behind its last successful one. -/
def failuresSince (history : List (List Bytes)) : ℕ :=
  ((history.filter (fun args => ValidAuth args)).reverse.takeWhile
    (fun args => ¬Grants identity args)).length

def authAfter (history : List (List Bytes)) : AuthState :=
  history.foldl (authStep identity) identity.fresh

theorem authAfter_snoc (history : List (List Bytes)) (args : List Bytes) :
    authAfter identity (history++[args]) =
      authStep identity (authAfter identity history) args := by
  simp [authAfter]

section
variable {identity}
variable {history : List (List Bytes)} {args : List Bytes}

theorem unauthenticated_other (h : ¬ValidAuth args) :
    Unauthenticated identity (history++[args]) ↔ Unauthenticated identity history := by
  have hfilter : (history++[args]).filter (fun args => ValidAuth args) =
      history.filter (fun args => ValidAuth args) := by simp [h]
  unfold Unauthenticated
  rw [hfilter]
  constructor
  · rintro (hall | hlast)
    · exact Or.inl (fun args' hmem => hall args' (List.mem_append_left _ hmem))
    · exact Or.inr hlast
  · rintro (hall | hlast)
    · refine Or.inl (fun args' hmem hvalid => ?_)
      rcases List.mem_append.mp hmem with hmem | hmem
      · exact hall args' hmem hvalid
      · rw [List.mem_singleton.mp hmem] at hvalid
        exact absurd hvalid h
    · exact Or.inr hlast

theorem unauthenticated_auth (h : ValidAuth args) :
    Unauthenticated identity (history++[args]) ↔ ¬Grants identity args := by
  have hlast : ((history++[args]).filter (fun args => ValidAuth args)).getLast? = some args := by
    simp [h]
  constructor
  · rintro (hall | ⟨args',hlast',hfail⟩)
    · exact hall args (by simp) h
    · rw [hlast] at hlast'
      cases hlast'
      exact hfail
  · exact fun hfail => Or.inr ⟨args,hlast,hfail⟩

theorem failuresSince_other (h : ¬ValidAuth args) :
    failuresSince identity (history++[args]) = failuresSince identity history := by
  simp [failuresSince, h]

theorem failuresSince_granted (h : ValidAuth args) (hg : Grants identity args) :
    failuresSince identity (history++[args]) = 0 := by
  simp [failuresSince, h, hg]

theorem failuresSince_failed (h : ValidAuth args) (hg : ¬Grants identity args) :
    failuresSince identity (history++[args]) = failuresSince identity history+1 := by
  simp [failuresSince, h, hg]

end

theorem authAfter_history (htoken : identity.authToken ≠ []) (history : List (List Bytes)) :
    ((authAfter identity history).authenticated = false ↔ Unauthenticated identity history) ∧
      (authAfter identity history).failures = failuresSince identity history := by
  induction history using List.reverseRecOn with
  | nil =>
    refine ⟨?_,rfl⟩
    simp [authAfter, Identity.fresh, htoken, Unauthenticated]
  | append_singleton history args ih =>
    rw [authAfter_snoc, authStep]
    by_cases hvalid : ValidAuth args
    · rw [if_pos hvalid, unauthenticated_auth hvalid]
      by_cases hgrants : Grants identity args
      · rw [if_pos hgrants, failuresSince_granted hvalid hgrants]
        simp [hgrants]
      · rw [if_neg hgrants, failuresSince_failed hvalid hgrants, ← ih.2]
        simp [hgrants]
    · rw [if_neg hvalid, unauthenticated_other hvalid, failuresSince_other hvalid]
      exact ih

/-! What an accepted log says about its replies. -/

structure Fair (a : Account) : Prop where
  auth : a.auth = authAfter identity a.requests
  told : ∀ i served, a.served[i]? = some served →
    Public (authAfter identity (a.requests.take i)) served.args →
    served.reply = publicReply identity served.args
  closes : ∀ i served, a.served[i]? = some served →
    Closes identity (authAfter identity (a.requests.take i)) served.args →
    i+1 = a.served.length ∧ a.putOff = none ∧ a.closed = true
  waiting : ∀ offset args, a.putOff = some (offset,args) →
    named args "MGET" = true ∧ ¬Public a.auth args

theorem fair_opened : Fair identity identity.opened where
  auth := rfl
  told := fun _ _ h => nomatch h
  closes := fun _ _ h => nomatch h
  waiting := fun _ _ h => nomatch h

section
variable {identity}
variable {W : Type} {a a' : Account}

theorem fair_replied (hf : Fair identity a) (hopen : a.closed = false) (offset : ℕ)
    (args : List Bytes) (reply : Bytes)
    (htold : Public a.auth args → reply = publicReply identity args) :
    Fair identity (replied identity a offset args reply) := by
  have hrequests := replied_requests identity a offset args reply
  have hlen : a.requests.length = a.served.length := by simp [Account.requests]
  have hcases : ∀ (i : ℕ) (served : Served),
      (replied identity a offset args reply).served[i]? = some served →
      (a.served[i]? = some served ∧ i < a.served.length ∧
        (replied identity a offset args reply).requests.take i = a.requests.take i) ∨
      (i = a.served.length ∧ served = ⟨offset,args,reply⟩ ∧
        (replied identity a offset args reply).requests.take i = a.requests) := by
    intro i served h
    rw [hrequests]
    rcases lt_trichotomy i a.served.length with hlt | heq | hgt
    · left
      refine ⟨?_,hlt,List.take_append_of_le_length (by omega)⟩
      simpa [replied, List.getElem?_append_left hlt] using h
    · right
      subst heq
      refine ⟨rfl,?_,?_⟩
      · simpa [replied] using h.symm
      · rw [← hlen, List.take_left']
        rfl
    · rw [replied, List.getElem?_eq_none (by simp; omega)] at h
      cases h
  refine ⟨?_,?_,?_,(fun _ _ h => by cases h)⟩
  · rw [hrequests, authAfter_snoc, ← hf.auth]
    rfl
  · intro i served h hpublic
    rcases hcases i served h with ⟨hold,_,htake⟩ | ⟨rfl,rfl,htake⟩
    · rw [htake] at hpublic
      exact hf.told i served hold hpublic
    · rw [htake, ← hf.auth] at hpublic
      exact htold hpublic
  · intro i served h hcloses
    rcases hcases i served h with ⟨hold,_,htake⟩ | ⟨rfl,rfl,htake⟩
    · rw [htake] at hcloses
      have := (hf.closes i served hold hcloses).2.2
      rw [hopen] at this
      cases this
    · rw [htake, ← hf.auth] at hcloses
      exact ⟨by simp [replied],rfl,decide_eq_true hcloses⟩

theorem observe_fair (hf : Fair identity a) (event : Event W)
    (h : observe identity a event = some a') : Fair identity a' := by
  cases event with
  | executed offset args reply before after =>
    rw [observe] at h
    split at h
    · cases h
    · rename_i hmay
      rw [not_or, not_or] at hmay
      have hopen : a.closed = false := by simpa using hmay.1
      have htold : Public a.auth args → reply = some (publicReply identity args) := by
        intro hp
        by_contra hne
        exact hmay.2.2 ⟨hp,hne⟩
      cases reply with
      | some reply =>
        cases h
        exact fair_replied hf hopen offset args reply (fun hp => Option.some.inj (htold hp))
      | none =>
        rw [observeExecution] at h
        split at h
        · rename_i hmget
          cases h
          have hprivate : ¬Public a.auth args := by
            intro hp
            cases htold hp
          refine ⟨hf.auth,hf.told,fun i served hi hc => ?_,fun offset' args' hp => ?_⟩
          · have := (hf.closes i served hi hc).2.2
            rw [hopen] at this
            cases this
          · cases hp
            exact ⟨hmget,hprivate⟩
        · cases h
  | expired reply =>
    rw [observe] at h
    split at h
    · rename_i offset args hopen hput
      cases h
      obtain ⟨hmget,hprivate⟩ := hf.waiting offset args hput
      have hr := fair_replied hf hopen offset args reply (fun hp => absurd hp hprivate)
      rw [replied_mget hmget hopen] at hr
      exact hr
    · cases h
  | malformed error =>
    rw [observe] at h
    split at h
    · cases h
    · cases h
      refine ⟨hf.auth,hf.told,fun i served hi hc => ?_,hf.waiting⟩
      obtain ⟨h1,h2,_⟩ := hf.closes i served hi hc
      exact ⟨h1,h2,rfl⟩
  | refused =>
    cases h
    refine ⟨hf.auth,hf.told,fun i served hi hc => ?_,hf.waiting⟩
    obtain ⟨h1,h2,_⟩ := hf.closes i served hi hc
    exact ⟨h1,h2,rfl⟩

theorem audit_fair (log : List (Event W)) (h : audit identity log = some a) : Fair identity a := by
  have hfold : ∀ (log : List (Event W)) (b : Account), Fair identity b →
      log.foldlM (observe identity) b = some a → Fair identity a := by
    intro log
    induction log with
    | nil =>
      intro b hb h
      cases h
      exact hb
    | cons event log ih =>
      intro b hb h
      rw [List.foldlM_cons] at h
      cases ho : observe identity b event with
      | none =>
        rw [ho] at h
        cases h
      | some c =>
        rw [ho] at h
        exact ih c (observe_fair hb event ho) h
  exact hfold log identity.opened (fair_opened identity) h

end

/-! Counting the calls of a run. -/

section
variable {W D α : Type}

def uncounted (f : W → α × W) (w : W × ℕ) : α × (W × ℕ) := ((f w.1).1,((f w.1).2,w.2))

def counted (f : W → α × W) (w : W × ℕ) : α × (W × ℕ) := ((f w.1).1,((f w.1).2,w.2+1))

/-- The same backend over a world that counts the calls of the cache and of the tables. -/
def countCalls (B : Backend W D) : Backend (W × ℕ) D where
  getCurrentTimestamp := uncounted B.getCurrentTimestamp
  waitLatch := fun w => (B.waitLatch w.1,w.2)
  cacheIsEnabled := counted B.cacheIsEnabled
  configGeneration := counted B.configGeneration
  cacheLookupQuiet := fun mapping key => counted (B.cacheLookupQuiet mapping key)
  cacheInvalidateKey := fun mapping key => counted (B.cacheInvalidateKey mapping key)
  cacheClaimLoad := fun mapping key token => counted (B.cacheClaimLoad mapping key token)
  cacheReleaseLoad := fun mapping key token id w =>
    (B.cacheReleaseLoad mapping key token id w.1,w.2+1)
  cacheStore := fun mapping key token value id xmin =>
    counted (B.cacheStore mapping key token value id xmin)
  beginMgetSpi := fun timeout oids => counted (B.beginMgetSpi timeout oids)
  executeGetPlan := fun mapping values => counted (B.executeGetPlan mapping values)
  commitSpi := counted B.commitSpi
  abortSpi := fun w => (B.abortSpi w.1,w.2+1)
  enqueueDeferredMiss := fun length deadline => counted (B.enqueueDeferredMiss length deadline)

def countCommands (C : Commands W D) : Commands (W × ℕ) D where
  mappings := fun w => C.mappings w.1
  maybeReloadMappings := fun w => (C.maybeReloadMappings w.1,w.2)
  reloadForMiss := fun w => (C.reloadForMiss w.1,w.2)
  processConfigReload := fun w => (C.processConfigReload w.1,w.2)
  commandSet := fun mapping key value => counted (C.commandSet mapping key value)
  commandDelete := fun mapping key => counted (C.commandDelete mapping key)
  statsJson := counted C.statsJson
  cacheInvalidateAll := counted C.cacheInvalidateAll
  cacheInvalidateDatabase := counted C.cacheInvalidateDatabase
  cacheInvalidateNamespace := fun mapping => counted (C.cacheInvalidateNamespace mapping)

/-- A run over a world that counts. -/
def countedRun (S : Server D) (B : Backend W D) (C : Commands W D) (cfg : WorkerSettings) (w : W)
    (actions : List (Action (W × ℕ))) : Link (W × ℕ) :=
  run identity S (countCalls B) (countCommands C) cfg (w,0) actions

/-- The history asks for a reply that everybody gets, before or behind this request. -/
def Outside (history : List (List Bytes)) (args : List Bytes) : Prop :=
  Unauthenticated identity history ∨ Unauthenticated identity (history++[args])

/-- A request from outside changes nothing in the world, the count of calls included. -/
def Untapped (log : List (Event W)) : Prop :=
  ∀ past offset args reply before after future,
    log = past++.executed offset args reply before after::future →
    ∀ a, audit identity past = some a → Outside identity a.requests args → after = before

/-- What the AUTHs of a connection decide. -/
structure AuthDecided (s : Link W) (a : Account) : Prop where
  succeeds : ∀ (i : ℕ) served, a.served[i]? = some served → ValidAuth served.args →
    (served.reply = respSimple (ascii "OK") ↔ Grants identity served.args)
  fails : ∀ (i : ℕ) served, a.served[i]? = some served → ValidAuth served.args →
    ¬Grants identity served.args → Unauthenticated identity (a.requests.take (i+1))
  fifth : ∀ (i : ℕ) served, a.served[i]? = some served → ValidAuth served.args →
    ¬Grants identity served.args →
    failuresSince identity (a.requests.take (i+1)) = maxAuthFailures →
    i+1 = a.served.length ∧ a.putOff = none ∧
      (s.connected = true → s.client.closeAfterFlush = true)
  flag : s.connected = true →
    (s.client.authenticated = false ↔ Unauthenticated identity a.requests)

end

section
variable {identity}
variable {W : Type} {a : Account}

theorem outside_public (htoken : identity.authToken ≠ []) (history : List (List Bytes))
    (args : List Bytes) (h : Outside identity history args) :
    Public (authAfter identity history) args := by
  have hstate := (authAfter_history identity htoken history).1
  rcases h with h | h
  · exact Or.inl (hstate.mpr h)
  · by_cases hvalid : ValidAuth args
    · exact Or.inr hvalid.1
    · rw [unauthenticated_other hvalid] at h
      exact Or.inl (hstate.mpr h)

theorem take_snoc (a : Account) (i : ℕ) (served : Served) (h : a.served[i]? = some served) :
    a.requests.take (i+1) = a.requests.take i++[served.args] := by
  rw [List.take_add_one]
  congr 1
  simp [Account.requests, h]

theorem chronicle_untapped (htoken : identity.authToken ≠ []) {received : Bytes}
    {log : List (Event W)} (h : Chronicle identity received log a) :
    Untapped identity log := by
  intro past offset args reply before after future hlog p hp houtside
  apply h.untouched past offset args reply before after future hlog p hp
  rw [(audit_fair past hp).auth]
  exact outside_public htoken _ _ houtside

theorem publicReply_auth (args : List Bytes) (h : ValidAuth args) :
    publicReply identity args = respSimple (ascii "OK") ↔ Grants identity args := by
  obtain ⟨hname,hlen⟩ := h
  cases args with
  | nil => cases hname
  | cons name rest =>
    have hname' : respArgEquals name "AUTH" = true := hname
    simp only [publicReply, hname', if_true]
    rw [if_neg (by omega)]
    by_cases hgrants : Grants identity (name::rest)
    · simp [hgrants]
    · simp only [hgrants, if_false, iff_false]
      decide

theorem sound_decided (htoken : identity.authToken ≠ []) {s : Link W}
    (hc : Chronicle identity s.received s.log a) (h : Sound identity s) :
    AuthDecided identity s a := by
  have hf := audit_fair s.log hc.audited
  have hwired : s.connected = true → Wired identity s a := by
    intro hconnected
    obtain ⟨a',hc',hw',_⟩ := h.2 hconnected
    have hsame := hc.audited.symm.trans hc'.audited
    cases hsame
    exact hw'
  refine ⟨?_,?_,?_,?_⟩
  · intro i served hi hvalid
    rw [hf.told i served hi (Or.inr hvalid.1)]
    exact publicReply_auth served.args hvalid
  · intro i served hi hvalid hfail
    rw [take_snoc a i served hi, unauthenticated_auth hvalid]
    exact hfail
  · intro i served hi hvalid hfail hfive
    rw [take_snoc a i served hi, failuresSince_failed hvalid hfail] at hfive
    obtain ⟨hlast,hput,hclosed⟩ := hf.closes i served hi (Or.inl ⟨hvalid,hfail,by
      rw [(authAfter_history identity htoken _).2]
      omega⟩)
    exact ⟨hlast,hput,fun hconnected => (hwired hconnected).closing hclosed⟩
  · intro hconnected
    rw [← (authAfter_history identity htoken a.requests).1, ← hf.auth, ← (hwired hconnected).auth]
    rfl

end

theorem sound_stranger {identity : Identity} {W : Type} {s : Link W} {a : Account}
    (htoken : identity.authToken ≠ []) (h : Sound identity s)
    (ha : audit identity s.log = some a) (hu : Unauthenticated identity a.requests)
    (hopen : s.connected = true) : Stranger s.client := by
  obtain ⟨a',hc,hw,hsettled⟩ := h.2 hopen
  cases ha.symm.trans hc.audited
  have hf := audit_fair s.log ha
  have hauth : a.auth.authenticated = false := by
    rw [hf.auth]
    exact (authAfter_history identity htoken _).1.mpr hu
  refine ⟨(congrArg AuthState.authenticated hw.auth).trans hauth,?_⟩
  unfold Settled at hsettled
  cases hm : s.client.deferredMiss with
  | none => rfl
  | some miss =>
    rw [hm] at hsettled
    obtain ⟨_,_,args,hput,_⟩ := hsettled
    exact absurd (Or.inl hauth) (hf.waiting _ _ hput).2

theorem audit_face {W : Type} (log : List (Event W)) :
    audit identity (log.map eventFace) = audit identity log := by
  rw [audit, audit, List.foldlM_map]
  congr 1
  funext a event
  cases event <;> rfl

/-- From a point where two runs look alike and the history asks for a client that is not
authenticated, the same actions keep them alike, as long as no AUTH succeeds: the buffers, the
bytes handed to the socket, the log and the end of the connection are the same. -/
def InStep {W1 W2 : Type} (run1 : List (Action W1) → Link W1) (run2 : List (Action W2) → Link W2)
    (actions1 : List (Action W1)) (actions2 : List (Action W2)) : Prop :=
  ∀ past1 now1 past2 now2 a, actions1 = past1++now1 → actions2 = past2++now2 →
    now1.map actionFace = now2.map actionFace → face (run1 past1) = face (run2 past2) →
    audit identity (run1 past1).log = some a → Unauthenticated identity a.requests →
    (∀ now, now <+: now1 →
      admissions identity (run1 (past1++now)) = admissions identity (run1 past1)) →
    face (run1 actions1) = face (run2 actions2) ∧
      audit identity (run1 actions1).log = audit identity (run2 actions2).log

theorem requests_stream {identity : Identity} {W : Type} {s : Link W} {a : Account}
    (hc : Chronicle identity s.received s.log a) (stream : Bytes) (h : s.received <+: stream) :
    a.requests <+: allowed identity identity.fresh stream := by
  obtain ⟨more,rfl⟩ := h
  exact (List.prefix_append _ _).trans (hc.executed more)

theorem prefix_at {α : Type} {l full : List α} (h : l <+: full) (i : ℕ) (x : α)
    (hi : l[i]? = some x) : full[i]? = some x ∧ full.take i = l.take i := by
  obtain ⟨rest,rfl⟩ := h
  obtain ⟨hlt,_⟩ := List.getElem?_eq_some_iff.mp hi
  exact ⟨by rw [List.getElem?_append_left hlt]; exact hi,
    List.take_append_of_le_length (by omega)⟩

theorem runs_inStep {W1 W2 D1 D2 : Type} (htoken : identity.authToken ≠ [])
    (S1 : Server D1) (B1 : Backend W1 D1) (C1 : Commands W1 D1) (cfg1 : WorkerSettings) (w1 : W1)
    (actions1 : List (Action W1)) (S2 : Server D2) (B2 : Backend W2 D2) (C2 : Commands W2 D2)
    (cfg2 : WorkerSettings) (w2 : W2) (actions2 : List (Action W2)) :
    InStep identity (run identity S1 B1 C1 cfg1 w1) (run identity S2 B2 C2 cfg2 w2) actions1
      actions2 := by
  rintro past1 now1 past2 now2 a rfl rfl hsame hface ha hu hno
  have hsound : Sound identity (run identity S1 B1 C1 cfg1 w1 past1) := run_sound _ _
  have hend : face (run identity S1 B1 C1 cfg1 w1 (past1++now1)) =
      face (run identity S2 B2 C2 cfg2 w2 (past2++now2)) := by
    simp only [run, List.foldl_append] at hno hface ⊢
    exact steps_lockstep plainServer plainBackend plainCommands plainSettings now1 now2 hsame hface
      (sound_stranger htoken hsound ha hu) hno
  refine ⟨hend,(audit_face identity _).symm.trans (Eq.trans ?_ (audit_face identity _))⟩
  exact congrArg (audit identity) (congrArg Link.log hend)

/-- Two runs over one stream: what is asked from outside is answered alike and without a call,
with the same actions the runs stay in step, AUTH succeeds for the right token and user name only,
a failed AUTH ends the authentication, and the fifth failure since the last success is the last
request of the connection. The connections are those without TLS. -/
def Noninterference {W1 W2 : Type} (run1 : List (Action W1) → Link W1)
    (run2 : List (Action W2) → Link W2) (actions1 : List (Action W1))
    (actions2 : List (Action W2)) : Prop :=
  ∃ a1 a2, audit identity (run1 actions1).log = some a1 ∧
    audit identity (run2 actions2).log = some a2 ∧
    (∀ (i : ℕ) x y, a1.served[i]? = some x → a2.served[i]? = some y → x.args = y.args ∧
      (Outside identity (a1.requests.take i) x.args → x.reply = y.reply)) ∧
    InStep identity run1 run2 actions1 actions2 ∧
    Untapped identity (run1 actions1).log ∧ AuthDecided identity (run1 actions1) a1

theorem unauthenticated_noninterference {W1 W2 D1 D2 : Type} (htoken : identity.authToken ≠ [])
    (S1 : Server D1) (B1 : Backend W1 D1) (C1 : Commands W1 D1) (cfg1 : WorkerSettings) (w1 : W1)
    (actions1 : List (Action (W1 × ℕ))) (S2 : Server D2) (B2 : Backend W2 D2)
    (C2 : Commands W2 D2) (cfg2 : WorkerSettings) (w2 : W2)
    (actions2 : List (Action (W2 × ℕ))) (stream : Bytes)
    (h1 : (countedRun identity S1 B1 C1 cfg1 w1 actions1).received <+: stream)
    (h2 : (countedRun identity S2 B2 C2 cfg2 w2 actions2).received <+: stream) :
    Noninterference identity (countedRun identity S1 B1 C1 cfg1 w1)
      (countedRun identity S2 B2 C2 cfg2 w2) actions1 actions2 := by
  have hs1 : Sound identity (countedRun identity S1 B1 C1 cfg1 w1 actions1) := run_sound _ _
  have hs2 : Sound identity (countedRun identity S2 B2 C2 cfg2 w2 actions2) := run_sound _ _
  obtain ⟨a1,hc1,_⟩ := hs1.1
  obtain ⟨a2,hc2,_⟩ := hs2.1
  refine ⟨a1,a2,hc1.audited,hc2.audited,?_,runs_inStep identity htoken _ _ _ _ _ _ _ _ _ _ _ _,
    chronicle_untapped htoken hc1,sound_decided htoken hc1 hs1⟩
  intro i x y hx hy
  obtain ⟨hx',htake1⟩ := prefix_at (requests_stream hc1 stream h1) i x.args
    (by simp [Account.requests, hx])
  obtain ⟨hy',htake2⟩ := prefix_at (requests_stream hc2 stream h2) i y.args
    (by simp [Account.requests, hy])
  have hargs : x.args = y.args := Option.some.inj (hx'.symm.trans hy')
  refine ⟨hargs,fun houtside => ?_⟩
  have hpublic := outside_public htoken _ _ houtside
  rw [(audit_fair _ hc1.audited).told i x hx hpublic]
  rw [← htake1, htake2, hargs] at hpublic
  rw [(audit_fair _ hc2.audited).told i y hy hpublic, hargs]

/-! Two runs of a stream with a wrong token, a refused command and the right token. -/

def knockStream : Bytes :=
  ascii "*2\r\n$4\r\nAUTH\r\n$1\r\nx\r\n*1\r\n$4\r\nPING\r\n*2\r\n$4\r\nAUTH\r\n$6\r\nsecret\r\n"

theorem knock_noninterference : Noninterference guardedIdentity
    (countedRun guardedIdentity plainServer plainBackend plainCommands plainSettings ())
    (countedRun guardedIdentity readingServer holdingBackend plainCommands plainSettings ())
    [.turn 16 [.data knockStream]]
    [.turn 1 [.data (knockStream.take 7)],.turn 2 [.again,.data (knockStream.drop 7)]] :=
  unauthenticated_noninterference guardedIdentity (by decide) plainServer plainBackend
    plainCommands plainSettings () _ readingServer holdingBackend plainCommands plainSettings () _
    knockStream (by decide +kernel) (by decide +kernel)

end PgLocalCache.ClientAuth
