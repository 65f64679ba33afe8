import PgLocalCache.ClientProtocol
import PgLocalCache.FastAgreement
import Mathlib.Data.List.GetD
import Mathlib.Data.Nat.Bitwise

/-!
# Command dispatch of pg_local_cache_worker.c

`executeCommand` runs one parsed request of a client. AUTH comes first, everything
else needs an authenticated client. What SET, DEL, STAT and the wider scopes of
INVALIDATE do to the world is left to `Commands`; MGET is the model of
`command_mget`. A raised error becomes a reply. The statistics and the test hooks
are left out.
-/

namespace PgLocalCache.CommandDispatch

open CacheState WireKey WorkerBackend MgetCommand FastPath ClientProtocol Outcome RespWriter
open RespParser (mgetMaxKeys)

/-- What a worker calls besides the backend of MGET. -/
structure Commands (W D : Type) where
  mappings : W → List (WorkerMapping D)
  maybeReloadMappings : W → W
  /-- `maybeReloadMappings` if the mappings are newer than the request put off. -/
  reloadForMiss : W → W
  processConfigReload : W → W
  commandSet : WorkerMapping D → Bytes → Bytes → W → Except PgError Bytes × W
  commandDelete : WorkerMapping D → Bytes → W → Except PgError Bytes × W
  statsJson : W → Bytes × W
  cacheInvalidateAll : W → ℕ × W
  cacheInvalidateDatabase : W → ℕ × W
  cacheInvalidateNamespace : WorkerMapping D → W → ℕ × W

/-- What the dispatch hands back: no reply means that the request has been put off. -/
structure Execution where
  reply : Option Bytes
  closeAfter : Bool
  client : Client

def answered (client : Client) (reply : Bytes) : Execution := ⟨some reply,false,client⟩

/-! AUTH. -/

def tokenByte (s : Bytes) (i : ℕ) : ℕ := if i < s.length then (s.getD i 0).toNat else 0

def constantTimeTokenEquals (token argument : Bytes) : Bool :=
  let difference := (List.range (max token.length argument.length)).foldl
    (fun difference i => difference ||| (tokenByte token i ^^^ tokenByte argument i))
    (token.length ^^^ argument.length)
  difference = 0

def usernameMatches (identity : Identity) (args : List Bytes) : Bool :=
  if args.length = 3 then
    let username := args.getD 1 []
    decide (username.length = identity.username.length ∧
      username.take identity.username.length = identity.username)
  else true

def commandAuth (identity : Identity) (client : Client) (args : List Bytes) : Execution :=
  if args.length ≠ 2 ∧ args.length ≠ 3 then
    answered client (respError (ascii "ERR wrong number of arguments for AUTH"))
  else if usernameMatches identity args &&
      constantTimeTokenEquals identity.authToken (args.getD (args.length-1) []) then
    answered { client with
      authenticated := true
      authenticationFailures := 0 } (respSimple (ascii "OK"))
  else
    { reply := some (respError (ascii "WRONGPASS invalid authentication token"))
      closeAfter := decide (maxAuthFailures ≤ client.authenticationFailures+1)
      client := { client with
        authenticated := false
        authenticationFailures := client.authenticationFailures+1 } }

/-! Commands that touch neither the cache nor the tables. -/

def commandPing : List Bytes → Bytes
  | [] => respSimple (ascii "PONG")
  | [payload] =>
    if valueMax < payload.length then respError (ascii "ERR PING payload is too large")
    else respBulk payload
  | _ => respError (ascii "ERR wrong number of arguments for PING")

def commandEcho : List Bytes → Bytes
  | [payload] =>
    if valueMax < payload.length then respError (ascii "ERR ECHO payload is too large")
    else respBulk payload
  | _ => respError (ascii "ERR wrong number of arguments for ECHO")

def version : String := "3.1.0"

def helloReply : Bytes := ascii ("*14\r\n$6\r\nserver\r\n$14\r\npg_local_cache\r\n"++
  "$7\r\nversion\r\n$5\r\n"++version++"\r\n$5\r\nproto\r\n:2\r\n$2\r\nid\r\n:0\r\n"++
  "$4\r\nmode\r\n$10\r\nstandalone\r\n$4\r\nrole\r\n$6\r\nmaster\r\n$7\r\nmodules\r\n*0\r\n")

def commandHello : List Bytes → Bytes
  | [protocol] =>
    if protocol = ascii "2" then helloReply
    else respError (ascii "NOPROTO only RESP2 is supported")
  | _ => respError (ascii "NOPROTO only RESP2 is supported")

def infoText : Bytes := ascii ("# Server\r\nserver:pg_local_cache\r\npg_local_cache_version:"++
  version++"\r\nredis_mode:standalone\r\n")

def commandInfo (args : List Bytes) : Bytes :=
  if args.length ≤ 1 then respBulk infoText
  else respError (ascii "ERR wrong number of arguments for INFO")

def commandClient (identity : Identity) : List Bytes → Bytes
  | [name] =>
    if respArgEquals name "GETNAME" then respNull
    else if respArgEquals name "ID" then respInteger identity.procPid
    else respError (ascii "ERR unsupported CLIENT subcommand")
  | [name,_] =>
    if respArgEquals name "SETNAME" then respSimple (ascii "OK")
    else respError (ascii "ERR unsupported CLIENT subcommand")
  | [name,_,_] =>
    if respArgEquals name "SETINFO" then respSimple (ascii "OK")
    else respError (ascii "ERR unsupported CLIENT subcommand")
  | _ => respError (ascii "ERR unsupported CLIENT subcommand")

def commandSelect : List Bytes → Bytes
  | [database] =>
    if database = ascii "0" then respSimple (ascii "OK")
    else respError (ascii "ERR only RESP database 0 is supported")
  | _ => respError (ascii "ERR only RESP database 0 is supported")

/-! Commands on the cache and the tables. -/

variable {W D : Type} (identity : Identity) (S : Server D) (B : Backend W D) (C : Commands W D)
  (cfg : WorkerSettings)

def faultReply : KeyFault → WorldM W Bytes
  | .reply message => return respError message
  | .raise error => throw error

def wrongArguments : Bytes := respError (ascii "ERR wrong number of arguments")

def onWireKey (wireKey : Bytes) (run : WorkerMapping D → Bytes → WorldM W Bytes) :
    WorldM W Bytes := do
  let w ← get
  match resolveWireKey S (C.mappings w) wireKey with
  | .error fault => faultReply fault
  | .ok (mapping,rawKey) => run mapping rawKey

def commandWrite (isSet : Bool) : List Bytes → WorldM W Bytes
  | [wireKey] =>
    if isSet then return wrongArguments
    else onWireKey S C wireKey (fun mapping rawKey => enter (C.commandDelete mapping rawKey))
  | [wireKey,value] =>
    if isSet then
      onWireKey S C wireKey (fun mapping rawKey => enter (C.commandSet mapping rawKey value))
    else return wrongArguments
  | _ => return wrongArguments

/-- `command_mget` for a client. A request that is put off stays in the input of the client. -/
def clientMget (client : Client) (wireKeys : List Bytes) (requestLength : ℕ) :
    WorldM W Execution := do
  let w ← get
  let asked : MgetClient := ⟨client.retryingDeferredMiss,client.deferredDeadline⟩
  let deadline := mgetDeadline cfg asked (B.getCurrentTimestamp w).1
  let reply ← commandMget S B cfg asked (C.mappings w) wireKeys requestLength
  match reply with
  | some reply => return answered client reply
  | none => return ⟨none,false,{ client with
      deferredMiss := some ⟨client.inputStart,requestLength,deadline⟩
      deferredDeadline := deadline
      deferredDeadlineExpired := false }⟩

def countReply (f : W → ℕ × W) : WorldM W Bytes := do
  let count ← call f
  return respInteger count

def tableScope (mapping : WorkerMapping D) : Bytes :=
  crudMark++S.database++[dot]++mapping.schemaName++[dot]++mapping.relationName

def invalidateKeyOrTable (scope : Bytes) : WorldM W Bytes := do
  let w ← get
  match resolveWireKey S (C.mappings w) scope with
  | .ok (mapping,rawKey) =>
    match canonicalizeKey S mapping rawKey with
    | .error fault => faultReply fault
    | .ok (_,canonical) => countReply (B.cacheInvalidateKey mapping canonical)
  | .error (.raise error) => throw error
  | .error (.reply message) =>
    match (C.mappings w).find? (fun mapping => decide (scope = tableScope S mapping)) with
    | none => return respError message
    | some mapping => countReply (C.cacheInvalidateNamespace mapping)

def commandInvalidate : List Bytes → WorldM W Bytes
  | [scope] =>
    if scope.length = 0 ∨ requestMax ≤ scope.length ∨ scope.any (· = 0) then
      return respError (ascii "ERR INVALIDATE expects one cache scope")
    else
      match S.verifymbstr scope with
      | some error => throw error
      | none =>
        if scope = ascii "CRUD" then countReply C.cacheInvalidateAll
        else if scope = crudMark++S.database then countReply C.cacheInvalidateDatabase
        else if scope.take 5 = crudMark then invalidateKeyOrTable S B C scope
        else return respError (ascii "ERR invalid CRUD cache scope")
  | _ => return respError (ascii "ERR INVALIDATE expects one cache scope")

def commandStat : List Bytes → WorldM W Bytes
  | [] => do
    let json ← call C.statsJson
    return respBulk json
  | _ => return respError (ascii "ERR wrong number of arguments for STAT")

/-- The commands behind MGET that answer and leave the client as it is. -/
def plainCommand (name : Bytes) (rest : List Bytes) : WorldM W Bytes :=
  if respArgEquals name "PING" then return commandPing rest
  else if respArgEquals name "ECHO" then return commandEcho rest
  else if respArgEquals name "HELLO" then return commandHello rest
  else if respArgEquals name "INFO" then return commandInfo rest
  else if respArgEquals name "CLIENT" then return commandClient identity rest
  else if respArgEquals name "COMMAND" then return ascii "*0\r\n"
  else if respArgEquals name "SELECT" then return commandSelect rest
  else if respArgEquals name "STAT" || respArgEquals name "STATS" then commandStat C rest
  else if respArgEquals name "INVALIDATE" then commandInvalidate S B C rest
  else return respError (ascii "ERR unsupported command")

def mgetCommand (client : Client) (rest : List Bytes) (requestLength : ℕ) :
    WorldM W Execution :=
  if rest.length < 1 then return answered client wrongArguments
  else if mgetMaxKeys < rest.length then
    return answered client (respError (ascii "ERR MGET accepts at most 1024 keys"))
  else clientMget S B C cfg client rest requestLength

def dataCommand (client : Client) (name : Bytes) (rest : List Bytes) (requestLength : ℕ) :
    WorldM W Execution := do
  if respArgEquals name "SET" then
    return answered client (← commandWrite S C true rest)
  else if respArgEquals name "DEL" then
    return answered client (← commandWrite S C false rest)
  else if respArgEquals name "MGET" then mgetCommand S B C cfg client rest requestLength
  else if respArgEquals name "QUIT" then
    return ⟨some (respSimple (ascii "OK")),true,client⟩
  else return answered client (← plainCommand identity S B C name rest)

def executeCommandInner (client : Client) (args : List Bytes) (requestLength : ℕ) :
    WorldM W Execution :=
  match args with
  | [] => return answered client (respError (ascii "ERR empty command"))
  | name::rest =>
    if respArgEquals name "AUTH" then return commandAuth identity client (name::rest)
    else if !client.authenticated then
      return answered client (respError (ascii "NOAUTH Authentication required"))
    else dataCommand identity S B C cfg client name rest requestLength

def raisedReply (error : PgError) : Bytes :=
  respError (ascii "ERR PostgreSQL: "++error.message)

def executeCommand (client : Client) (args : List Bytes) (requestLength : ℕ) (w : W) :
    Execution × W :=
  match executeCommandInner identity S B C cfg client args requestLength w with
  | .ok execution w' => (execution,w')
  | .error error w' => (answered client (raisedReply error),B.abortSpi w')

/-! The comparison of tokens. -/

theorem foldl_or_zero (f : ℕ → ℕ) (l : List ℕ) (d : ℕ) :
    l.foldl (fun d i => d ||| f i) d = 0 ↔ d = 0 ∧ ∀ i ∈ l, f i = 0 := by
  induction l generalizing d with
  | nil => simp
  | cons i l ih =>
    rw [List.foldl_cons, ih, Nat.or_eq_zero_iff]
    simp [and_assoc]

/-- The padded comparison that looks at every byte is equality. -/
theorem constantTimeTokenEquals_iff (token argument : Bytes) :
    constantTimeTokenEquals token argument = true ↔ argument = token := by
  simp only [constantTimeTokenEquals, decide_eq_true_eq, foldl_or_zero, Nat.xor_eq_zero_iff]
  constructor
  · intro ⟨hlen,hbytes⟩
    apply List.ext_getElem hlen.symm
    intro i ha ht
    have hi := hbytes i (List.mem_range.mpr (by omega))
    simp only [tokenByte, if_pos ha, if_pos ht, List.getD_eq_getElem _ _ ha,
      List.getD_eq_getElem _ _ ht] at hi
    exact (UInt8.toNat_inj.mp hi).symm
  · rintro rfl
    exact ⟨rfl,fun _ _ => rfl⟩

theorem usernameMatches_iff (args : List Bytes) :
    usernameMatches identity args = true ↔
      (args.length = 3 → args[1]? = some identity.username) := by
  unfold usernameMatches
  by_cases h : args.length = 3
  · have hone : args[1]? = some (args.getD 1 []) := by
      rw [List.getD_eq_getElem _ _ (by omega), List.getElem?_eq_getElem (by omega)]
    simp only [h, if_true, decide_eq_true_eq, true_imp_iff, hone, Option.some.injEq]
    constructor
    · intro ⟨hlen,htake⟩
      rw [← htake, List.take_of_length_le (by omega)]
    · intro heq
      rw [heq]
      exact ⟨rfl,List.take_length⟩
  · simp [h]

theorem grants_iff (args : List Bytes) (hlen : args.length = 2 ∨ args.length = 3) :
    (usernameMatches identity args && constantTimeTokenEquals identity.authToken
      (args.getD (args.length-1) [])) = true ↔ Grants identity args := by
  have hlast : args.getLast? = some (args.getD (args.length-1) []) := by
    rw [List.getLast?_eq_getElem?, List.getD_eq_getElem _ _ (by omega),
      List.getElem?_eq_getElem (by omega)]
  rw [Bool.and_eq_true, usernameMatches_iff, constantTimeTokenEquals_iff, Grants, hlast,
    Option.some.injEq, and_comm]

/-! What an execution does to its client. -/

def authState (client : Client) : AuthState := ⟨client.authenticated,client.authenticationFailures⟩

structure Executes (client : Client) (args : List Bytes) (requestLength : ℕ) (e : Execution) :
    Prop where
  rest : e.client = { client with
    authenticated := e.client.authenticated
    authenticationFailures := e.client.authenticationFailures
    deferredMiss := e.client.deferredMiss
    deferredDeadline := e.client.deferredDeadline
    deferredDeadlineExpired := e.client.deferredDeadlineExpired }
  auth : authState e.client = authStep identity (authState client) args
  closes : e.closeAfter = decide (Closes identity (authState client) args)
  replied : ∀ reply, e.reply = some reply → e.client.deferredMiss = client.deferredMiss
  putOff : e.reply = none → named args "MGET" = true ∧ ∃ deadline,
    e.client.deferredMiss = some ⟨client.inputStart,requestLength,deadline⟩
  farewell : e.closeAfter = true → e.reply ≠ some []

theorem not_validAuth (args : List Bytes) (h : named args "AUTH" = false) : ¬ValidAuth args := by
  intro hv
  rw [hv.1] at h
  cases h

/-- A reply that leaves the client as it is, to a request that is neither AUTH nor QUIT. -/
theorem executes_answered (client : Client) (args : List Bytes) (requestLength : ℕ) (reply : Bytes)
    (hauth : ¬ValidAuth args) (hquit : named args "QUIT" = true → client.authenticated = false) :
    Executes identity client args requestLength (answered client reply) where
  rest := rfl
  auth := by rw [authStep, if_neg hauth]; rfl
  closes := by
    symm
    rw [answered, decide_eq_false_iff_not]
    rintro (h | ⟨ha,hq⟩)
    · exact hauth h.1
    · have := hquit hq
      rw [authState] at ha
      simp [this] at ha
  replied := fun _ _ => rfl
  putOff := fun h => nomatch h
  farewell := fun h => nomatch h

theorem commandAuth_executes (client : Client) (args : List Bytes) (requestLength : ℕ)
    (h : named args "AUTH" = true) :
    Executes identity client args requestLength (commandAuth identity client args) := by
  have hquit : named args "QUIT" = false := by
    cases args with
    | nil => cases h
    | cons name rest =>
      rw [Bool.eq_false_iff]
      intro hq
      have := respArgEquals_unique name _ _ h hq
      revert this
      decide
  unfold commandAuth
  split
  · rename_i hlen
    apply executes_answered
    · intro hv
      rcases hv.2 with h2 | h3
      · exact hlen.1 h2
      · exact hlen.2 h3
    · intro hq
      rw [hquit] at hq
      cases hq
  · rename_i hlen
    have hvalid : ValidAuth args := ⟨h,by tauto⟩
    split
    · rename_i hgrants
      rw [grants_iff identity args hvalid.2] at hgrants
      refine ⟨rfl,?_,?_,fun _ _ => rfl,(fun h => nomatch h),fun h => nomatch h⟩
      · rw [authStep, if_pos hvalid, if_pos hgrants]
        rfl
      · symm
        rw [answered, decide_eq_false_iff_not]
        rintro (hc | hc)
        · exact hc.2.1 hgrants
        · rw [hquit] at hc
          cases hc.2
    · rename_i hgrants
      rw [grants_iff identity args hvalid.2] at hgrants
      refine ⟨rfl,?_,?_,fun _ _ => rfl,(fun h => nomatch h),fun _ h => nomatch h⟩
      · rw [authStep, if_pos hvalid, if_neg hgrants]
        rfl
      · simp only [Closes, hvalid, hgrants, hquit, authState]
        simp

section
variable {S B C cfg}
variable {client : Client} {name : Bytes} {rest : List Bytes} {requestLength : ℕ} {w : W}

theorem clientMget_executes (hauth : ¬ValidAuth (name::rest))
    (hmget : respArgEquals name "MGET" = true) :
    Ensures (clientMget S B C cfg client rest requestLength) w
      (fun e _ => Executes identity client (name::rest) requestLength e) (fun _ _ => True) := by
  have hquit : named (name::rest) "QUIT" = true → client.authenticated = false := by
    intro hq
    exact absurd (respArgEquals_unique name _ _ hmget hq) (by decide)
  simp only [clientMget, ensures_bind, ensures_get]
  apply ensures_always
  · intro reply w'
    cases reply with
    | some reply => exact executes_answered identity client _ _ reply hauth hquit
    | none =>
      have hplain := executes_answered identity client (name::rest) requestLength [] hauth hquit
      exact ⟨rfl,hplain.auth,hplain.closes,(fun _ h => by cases h),
        (fun _ => ⟨hmget,_,rfl⟩),(fun h => by cases h)⟩
  · intro _ _
    trivial

theorem dataCommand_executes (hauth : ¬ValidAuth (name::rest))
    (hclient : client.authenticated = true) :
    Ensures (dataCommand identity S B C cfg client name rest requestLength) w
      (fun e _ => Executes identity client (name::rest) requestLength e)
      (fun _ _ => respArgEquals name "QUIT" = false) := by
  have hother : ∀ literal, respArgEquals name literal = true →
      (ascii literal).map lowerByte ≠ (ascii "QUIT").map lowerByte →
      respArgEquals name "QUIT" = false := by
    intro literal hl hne
    rw [Bool.eq_false_iff]
    intro hq
    exact hne (respArgEquals_unique name _ _ hl hq)
  have hanswer : ∀ reply, respArgEquals name "QUIT" = false →
      Executes identity client (name::rest) requestLength (answered client reply) := by
    intro reply hq
    apply executes_answered identity client _ _ reply hauth
    intro hq'
    rw [named, hq] at hq'
    cases hq'
  unfold dataCommand
  split
  · rename_i hset
    have hq := hother _ hset (by decide)
    rw [ensures_bind]
    exact ensures_always (fun reply _ => hanswer reply hq) (fun _ _ => hq)
  · split
    · rename_i hdel
      have hq := hother _ hdel (by decide)
      rw [ensures_bind]
      exact ensures_always (fun reply _ => hanswer reply hq) (fun _ _ => hq)
    · split
      · rename_i hmget
        have hq := hother _ hmget (by decide)
        unfold mgetCommand
        split
        · exact hanswer _ hq
        · split
          · exact hanswer _ hq
          · exact ensures_mono (clientMget_executes identity hauth hmget) (fun _ _ h => h)
              (fun _ _ _ => hq)
      · split
        · rename_i hquit
          refine ⟨rfl,?_,?_,fun _ _ => rfl,(fun h => nomatch h),fun _ h => nomatch h⟩
          · rw [authStep, if_neg hauth]
          · symm
            rw [decide_eq_true_eq]
            exact Or.inr ⟨hclient,hquit⟩
        · rename_i hquit
          rw [Bool.not_eq_true] at hquit
          rw [ensures_bind]
          exact ensures_always (fun reply _ => hanswer reply hquit) (fun _ _ => hquit)

theorem executeCommand_executes (args : List Bytes) :
    Executes identity client args requestLength
      (executeCommand identity S B C cfg client args requestLength w).1 := by
  have hinner : Ensures (executeCommandInner identity S B C cfg client args requestLength) w
      (fun e _ => Executes identity client args requestLength e)
      (fun _ _ => ¬ValidAuth args ∧ named args "QUIT" = false) := by
    unfold executeCommandInner
    split
    · exact executes_answered identity client [] _ _ (not_validAuth [] rfl) (fun h => nomatch h)
    · split
      · rename_i name rest hauth
        exact commandAuth_executes identity client (name::rest) requestLength hauth
      · rename_i name rest hname
        rw [Bool.not_eq_true] at hname
        have hauth := not_validAuth (name::rest) hname
        split
        · rename_i hclient
          exact executes_answered identity client _ _ _ hauth (fun _ => by simpa using hclient)
        · rename_i hclient
          exact ensures_mono (dataCommand_executes identity hauth (by simpa using hclient))
            (fun _ _ h => h) (fun _ _ hq => ⟨hauth,hq⟩)
  unfold executeCommand
  cases hrun : executeCommandInner identity S B C cfg client args requestLength w with
  | ok e w' => exact ensures_ok hinner e w' hrun
  | error error w' =>
    obtain ⟨hauth,hquit⟩ := ensures_error hinner error w' hrun
    apply executes_answered identity client args _ _ hauth
    intro hq
    rw [hquit] at hq
    cases hq

end

/-! What a client that is not authenticated is told. -/

/-- How AUTH, and every request of a client that is not authenticated, is executed. -/
def publicExecution (client : Client) : List Bytes → Execution
  | [] => answered client (respError (ascii "ERR empty command"))
  | name::rest =>
    if respArgEquals name "AUTH" then commandAuth identity client (name::rest)
    else answered client (respError (ascii "NOAUTH Authentication required"))

theorem publicExecution_reply (client : Client) (args : List Bytes) :
    (publicExecution identity client args).reply = some (publicReply identity args) := by
  cases args with
  | nil => rfl
  | cons name rest =>
    simp only [publicExecution, publicReply]
    split
    · unfold commandAuth
      split
      · rfl
      · rename_i hlen
        have hgrants := grants_iff identity (name::rest) (by tauto)
        split
        · rename_i hg
          rw [if_pos (hgrants.mp hg)]
          rfl
        · rename_i hg
          rw [if_neg (fun hg' => hg (hgrants.mpr hg'))]
    · rfl

theorem executeCommand_public (client : Client) (args : List Bytes) (requestLength : ℕ) (w : W)
    (h : Public (authState client) args) :
    executeCommand identity S B C cfg client args requestLength w =
      (publicExecution identity client args,w) := by
  have hinner : executeCommandInner identity S B C cfg client args requestLength w =
      .ok (publicExecution identity client args) w := by
    cases args with
    | nil => rfl
    | cons name rest =>
      unfold executeCommandInner publicExecution
      by_cases hauth : respArgEquals name "AUTH" = true
      · simp only [hauth, if_true]
        rfl
      · have hclient : client.authenticated = false := by
          rcases h with h | h
          · exact h
          · exact absurd h hauth
        simp only [hauth, Bool.false_eq_true, if_false, hclient, Bool.not_false, if_true]
        rfl
  rw [executeCommand, hinner]

theorem tryFastMgetHit_public (mappings : List (WorkerMapping D)) (client : Client)
    (args : List Bytes) (w : W) (h : Public (authState client) args) :
    tryFastMgetHit S B mappings client args w = .ok (false,client) w := by
  match args with
  | [] => rfl
  | [_] => rfl
  | _::_::_::_ => rfl
  | [name,wireKey] =>
    unfold tryFastMgetHit
    by_cases hmget : respArgEquals name "MGET" = true
    · have hclient : client.authenticated = false := by
        rcases h with h | h
        · exact h
        · exact absurd (respArgEquals_unique name _ _ hmget h) (by decide)
      simp only [hmget, hclient, Bool.not_true, Bool.not_false, Bool.false_eq_true, if_false,
        if_true]
      rfl
    · rw [Bool.not_eq_true] at hmget
      simp only [hmget, Bool.not_false, if_true]
      rfl

end PgLocalCache.CommandDispatch
