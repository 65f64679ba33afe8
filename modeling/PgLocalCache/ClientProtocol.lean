import PgLocalCache.RespParser
import PgLocalCache.FastPath

/-!
# What a connection may do

The stream of a client is cut into requests, and a connection answers them one by
one until the first one that closes it: a failed AUTH that is the fifth since the
last success, or a QUIT on an authenticated connection. A request that is not
complete within the input buffer ends the connection as well. `allowed` lists the
requests up to there. `observe` follows the log of a connection: it accepts an
execution only in its turn, a second one only of an MGET that was put off, nothing
behind the event that closes the connection, and for AUTH and for a client that is
not authenticated only the reply that everybody gets.
-/

namespace PgLocalCache.ClientProtocol

open PrefixParser FastPath RespParser RespWriter

def maxAuthFailures : ℕ := 5

/-- What a worker was started with; `role` and `authToken` are C strings. -/
structure Identity where
  role : Bytes
  authToken : Bytes
  procPid : ℤ
  deriving DecidableEq, Repr

def Identity.username (identity : Identity) : Bytes :=
  if identity.role ≠ [] then identity.role else ascii "default"

structure AuthState where
  authenticated : Bool
  failures : ℕ
  deriving DecidableEq, Repr

def Identity.fresh (identity : Identity) : AuthState := ⟨decide (identity.authToken = []),0⟩

def named (args : List Bytes) (literal : String) : Bool :=
  match args with
  | [] => false
  | name::_ => respArgEquals name literal

def ValidAuth (args : List Bytes) : Prop :=
  named args "AUTH" = true ∧ (args.length = 2 ∨ args.length = 3)

def Grants (identity : Identity) (args : List Bytes) : Prop :=
  args.getLast? = some identity.authToken ∧
    (args.length = 3 → args[1]? = some identity.username)

instance (args : List Bytes) : Decidable (ValidAuth args) :=
  inferInstanceAs (Decidable (_ ∧ _))

instance (identity : Identity) (args : List Bytes) : Decidable (Grants identity args) :=
  inferInstanceAs (Decidable (_ ∧ _))

def authStep (identity : Identity) (auth : AuthState) (args : List Bytes) : AuthState :=
  if ValidAuth args then
    if Grants identity args then ⟨true,0⟩ else ⟨false,auth.failures+1⟩
  else auth

def Closes (identity : Identity) (auth : AuthState) (args : List Bytes) : Prop :=
  (ValidAuth args ∧ ¬Grants identity args ∧ maxAuthFailures ≤ auth.failures+1) ∨
    (auth.authenticated = true ∧ named args "QUIT" = true)

instance (identity : Identity) (auth : AuthState) (args : List Bytes) :
    Decidable (Closes identity auth args) :=
  inferInstanceAs (Decidable (_ ∨ _))

/-- The reply to a request that reaches neither the cache nor the tables. -/
def publicReply (identity : Identity) (args : List Bytes) : Bytes :=
  match args with
  | [] => respError (ascii "ERR empty command")
  | name::_ =>
    if respArgEquals name "AUTH" then
      if args.length ≠ 2 ∧ args.length ≠ 3 then
        respError (ascii "ERR wrong number of arguments for AUTH")
      else if Grants identity args then respSimple (ascii "OK")
      else respError (ascii "WRONGPASS invalid authentication token")
    else respError (ascii "NOAUTH Authentication required")

def Public (auth : AuthState) (args : List Bytes) : Prop :=
  auth.authenticated = false ∨ named args "AUTH" = true

instance (auth : AuthState) (args : List Bytes) : Decidable (Public auth args) :=
  inferInstanceAs (Decidable (_ ∨ _))

/-! The requests of a stream. -/

def allowedLoop (identity : Identity) : ℕ → AuthState → Bytes → List (List Bytes)
  | 0, _, _ => []
  | n+1, auth, stream =>
    match takeRequest (stream.take requestMax) with
    | .incomplete => []
    | .error _ => []
    | .complete (args,rest) =>
      args::if Closes identity auth args then []
        else allowedLoop identity n (authStep identity auth args) (rest++stream.drop requestMax)

def allowed (identity : Identity) (auth : AuthState) (stream : Bytes) : List (List Bytes) :=
  allowedLoop identity (stream.length+1) auth stream

/-! The log of a connection. -/

/-- `executed` has the place of the request in the stream, its reply or `none` if it was put off,
and the worlds around it. `expired` is the reply to a request that was put off for too long, and
`refused` a reply that the output buffer did not take. -/
inductive Event (W : Type) where
  | executed (offset : ℕ) (args : List Bytes) (reply : Option Bytes) (before after : W)
  | expired (reply : Bytes)
  | malformed (error : RespError)
  | refused

structure Served where
  offset : ℕ
  args : List Bytes
  reply : Bytes
  deriving DecidableEq, Repr

structure Account where
  served : List Served
  auth : AuthState
  putOff : Option (ℕ × List Bytes)
  /-- The line that reports a malformed request. -/
  complaint : Bytes
  closed : Bool
  deriving DecidableEq, Repr

def Account.requests (account : Account) : List (List Bytes) := account.served.map (·.args)

/-- The requests that have been executed: the one that is put off comes last. -/
def Account.executed (account : Account) : List (List Bytes) :=
  account.requests++(account.putOff.map (·.2)).toList

def Account.replies (account : Account) : Bytes :=
  account.served.flatMap (·.reply)++account.complaint

def Identity.opened (identity : Identity) : Account := ⟨[],identity.fresh,none,[],false⟩

def complaintOf (error : RespError) : Bytes := respError (ascii error.text)

variable {W : Type} (identity : Identity)

def observeExecution (account : Account) (offset : ℕ) (args : List Bytes) :
    Option Bytes → Option Account
  | some reply => some { account with
      served := account.served++[⟨offset,args,reply⟩]
      auth := authStep identity account.auth args
      putOff := none
      closed := decide (Closes identity account.auth args) }
  | none =>
    if named args "MGET" then some { account with putOff := some (offset,args) } else none

def observe (account : Account) : Event W → Option Account
  | .executed offset args reply _ _ =>
    if account.closed ∨ (account.putOff ≠ none ∧ account.putOff ≠ some (offset,args)) ∨
        (Public account.auth args ∧ reply ≠ some (publicReply identity args)) then none
    else observeExecution identity account offset args reply
  | .expired reply =>
    match account.closed, account.putOff with
    | false, some (offset,args) => some { account with
        served := account.served++[⟨offset,args,reply⟩]
        putOff := none }
    | _, _ => none
  | .malformed error =>
    if account.closed ∨ account.putOff ≠ none then none
    else some { account with
      complaint := complaintOf error
      closed := true }
  | .refused => some { account with closed := true }

def audit (log : List (Event W)) : Option Account :=
  log.foldlM (observe identity) identity.opened

theorem audit_snoc (log : List (Event W)) (event : Event W) (account : Account)
    (h : audit identity log = some account) :
    audit identity (log++[event]) = observe identity account event := by
  unfold audit at *
  rw [List.foldlM_append, h]
  simp

/-! The requests of a stream, one at a time. -/

theorem takeRequest_stable : Stable takeRequest := by
  rw [takeRequest_eq]
  exact parseRequest_stable

theorem takeRequest_progress : Progress takeRequest := by
  rw [takeRequest_eq]
  exact parseRequest_progress

theorem rest_length (stream rest : Bytes) (args : List Bytes)
    (h : takeRequest (stream.take requestMax) = .complete (args,rest)) :
    (rest++stream.drop requestMax).length < stream.length := by
  have hlt := takeRequest_progress _ _ _ h
  rw [List.length_take] at hlt
  rw [List.length_append, List.length_drop]
  omega

theorem allowedLoop_enough (n m : ℕ) (auth : AuthState) (stream : Bytes) (hn : stream.length < n)
    (hm : stream.length < m) :
    allowedLoop identity n auth stream = allowedLoop identity m auth stream := by
  induction n generalizing m auth stream with
  | zero => omega
  | succ n ih =>
    obtain ⟨m,rfl⟩ : ∃ k, m = k+1 := ⟨m-1,by omega⟩
    unfold allowedLoop
    cases h : takeRequest (stream.take requestMax) with
    | incomplete => rfl
    | error e => rfl
    | complete x =>
      have hlt := rest_length stream x.2 x.1 h
      simp only
      rw [ih m _ (x.2++stream.drop requestMax) (by omega) (by omega)]

theorem allowed_complete (auth : AuthState) (input rest more : Bytes) (args : List Bytes)
    (hfit : input.length ≤ requestMax) (h : takeRequest input = .complete (args,rest)) :
    allowed identity auth (input++more) = args::if Closes identity auth args then []
      else allowed identity (authStep identity auth args) (rest++more) := by
  have htake : (input++more).take requestMax = input++more.take (requestMax-input.length) := by
    rw [List.take_append, List.take_of_length_le hfit]
  have hdrop : (input++more).drop requestMax = more.drop (requestMax-input.length) := by
    rw [List.drop_append, List.drop_of_length_le hfit, List.nil_append]
  have hcomplete := (takeRequest_stable input).complete args rest h
    (more.take (requestMax-input.length))
  have hlt := rest_length (input++more) _ args (by rw [htake]; exact hcomplete)
  rw [hdrop, List.append_assoc, List.take_append_drop] at hlt
  have henough := allowedLoop_enough identity (input++more).length ((rest++more).length+1)
    (authStep identity auth args) (rest++more) hlt (by omega)
  unfold allowed
  rw [allowedLoop, htake, hcomplete, hdrop]
  simp only [List.append_assoc, List.take_append_drop, henough]

/-- The requests a connection may execute are complete requests of the stream, from its start. -/
theorem allowed_drain (auth : AuthState) (stream : Bytes) :
    allowed identity auth stream <+: (drain takeRequest stream).values := by
  have hloop : ∀ n auth (stream : Bytes), stream.length < n →
      allowedLoop identity n auth stream <+: (drain takeRequest stream).values := by
    intro n
    induction n with
    | zero =>
      intro auth stream hn
      omega
    | succ n ih =>
      intro auth stream hn
      unfold allowedLoop
      cases h : takeRequest (stream.take requestMax) with
      | incomplete => exact List.nil_prefix
      | error e => exact List.nil_prefix
      | complete x =>
        have hall := (takeRequest_stable _).complete x.1 x.2 h (stream.drop requestMax)
        rw [List.take_append_drop] at hall
        have hlt := rest_length stream x.2 x.1 h
        rw [drain_complete _ takeRequest_progress stream x.1 _ hall]
        simp only [Drained.after, List.singleton_append]
        rw [List.cons_prefix_cons]
        refine ⟨rfl,?_⟩
        split
        · exact List.nil_prefix
        · exact ih _ _ (by omega)
  exact hloop _ auth stream (by omega)

end PgLocalCache.ClientProtocol
