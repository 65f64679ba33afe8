import PgLocalCache.ClientProtocol

/-!
# Logs that follow the protocol

`Chronicle` ties the log of a connection to the bytes it has received: the
accounted requests are the first ones of the stream, each stands where the log
says, and a place is visited again only for an MGET that was put off there. Each
lemma is one event.
-/

namespace PgLocalCache.ClientLog

open FastPath ClientProtocol RespParser RespWriter

variable {W : Type} (identity : Identity)

/-- The stream has this request at this place. -/
def Holds (received : Bytes) (offset : ℕ) (args : List Bytes) : Prop :=
  ∃ rest, takeRequest (received.drop offset) = .complete (args,rest)

theorem holds_append (received more : Bytes) (offset : ℕ) (args : List Bytes)
    (h : Holds received offset args) : Holds (received++more) offset args := by
  obtain ⟨rest,hr⟩ := h
  have hlt := takeRequest_progress _ _ _ hr
  rw [List.length_drop] at hlt
  refine ⟨rest++more,?_⟩
  rw [List.drop_append_of_le_length (by omega)]
  exact (takeRequest_stable _).complete args rest hr more

/-- The order of two entries of a log: executions go forward, and one that stays in its place
repeats an MGET that was put off. -/
def Later : Event W → Event W → Prop
  | .executed offset args reply _ _, .executed offset' args' _ _ _ =>
    offset < offset' ∨ (offset = offset' ∧ args = args' ∧ reply = none ∧ named args "MGET" = true)
  | _, _ => True

def Placed (a : Account) : Event W → Prop
  | .executed offset args reply _ _ => (∃ served ∈ a.served, served.offset = offset) ∨
      (a.putOff = some (offset,args) ∧ reply = none)
  | _ => True

def TooLong : Event W → Prop
  | .executed _ _ (some reply) _ _ => responseMax < reply.length
  | _ => False

/-- The requests that everybody gets the same reply to leave the world as it was. -/
def Untouched (log : List (Event W)) : Prop :=
  ∀ past offset args reply before after future,
    log = past++.executed offset args reply before after::future →
    ∀ a, audit identity past = some a → Public a.auth args → after = before

structure Chronicle (received : Bytes) (log : List (Event W)) (a : Account) : Prop where
  audited : audit identity log = some a
  executed : ∀ more, a.executed <+: allowed identity identity.fresh (received++more)
  places : ∀ served ∈ a.served, Holds received served.offset served.args
  increasing : a.served.Pairwise (fun x y => x.offset < y.offset)
  waiting : ∀ offset args, a.putOff = some (offset,args) → named args "MGET" = true ∧
    Holds received offset args ∧ ∀ served ∈ a.served, served.offset < offset
  placed : ∀ event ∈ log, Placed a event
  once : log.Pairwise Later
  complaint : a.closed = false → a.complaint = []
  refused : .refused ∈ log → ∃ event ∈ log, TooLong event
  untouched : Untouched identity log

/-- Whatever the stream goes on with, the next requests are those of `rest`. -/
def Live (received rest : Bytes) (a : Account) : Prop :=
  a.closed = false ∧ ∀ more, allowed identity identity.fresh (received++more) =
    a.requests++allowed identity a.auth (rest++more)

theorem chronicle_opened : Chronicle identity [] ([] : List (Event W)) identity.opened where
  audited := rfl
  executed := fun _ => List.nil_prefix
  places := fun _ h => nomatch h
  increasing := List.Pairwise.nil
  waiting := fun _ _ h => nomatch h
  placed := fun _ h => nomatch h
  once := List.Pairwise.nil
  complaint := fun _ => rfl
  refused := fun h => nomatch h
  untouched := by
    intro past offset args reply before after future h
    cases past <;> cases h

theorem live_opened : Live identity [] [] identity.opened := ⟨rfl,fun _ => rfl⟩

section
variable {identity}
variable {received rest : Bytes} {log : List (Event W)} {a : Account}

theorem chronicle_received (h : Chronicle identity received log a) (bytes : Bytes) :
    Chronicle identity (received++bytes) log a := by
  refine ⟨h.audited,fun more => ?_,fun served hs => holds_append _ _ _ _ (h.places served hs),
    h.increasing,fun offset args hp => ?_,h.placed,h.once,h.complaint,h.refused,h.untouched⟩
  · rw [List.append_assoc]
    exact h.executed (bytes++more)
  · obtain ⟨hmget,hholds,hbelow⟩ := h.waiting offset args hp
    exact ⟨hmget,holds_append _ _ _ _ hholds,hbelow⟩

theorem live_received (h : Live identity received rest a) (bytes : Bytes) :
    Live identity (received++bytes) (rest++bytes) a := by
  refine ⟨h.1,fun more => ?_⟩
  rw [List.append_assoc, List.append_assoc]
  exact h.2 (bytes++more)

end

/-- The account behind a reply. -/
def replied (a : Account) (offset : ℕ) (args : List Bytes) (reply : Bytes) : Account := { a with
  served := a.served++[⟨offset,args,reply⟩]
  auth := authStep identity a.auth args
  putOff := none
  closed := decide (Closes identity a.auth args) }

theorem replied_requests (a : Account) (offset : ℕ) (args : List Bytes) (reply : Bytes) :
    (replied identity a offset args reply).requests = a.requests++[args] := by
  simp [replied, Account.requests]

/-- An execution that says no more than it may. -/
def Told (auth : AuthState) (args : List Bytes) (reply : Option Bytes) (before after : W) :
    Prop :=
  Public auth args → reply = some (publicReply identity args) ∧ after = before

/-- The request that comes next in the stream, at its place. -/
structure Next (received rest : Bytes) (a : Account) (offset : ℕ) (args : List Bytes)
    (tail : Bytes) : Prop where
  live : Live identity received rest a
  parsed : takeRequest rest = .complete (args,tail)
  fits : rest.length ≤ requestMax
  holds : Holds received offset args
  below : ∀ served ∈ a.served, served.offset < offset
  turn : a.putOff = none ∨ a.putOff = some (offset,args)

section
variable {identity}
variable {received rest tail : Bytes} {log : List (Event W)} {a : Account} {offset : ℕ}
  {args : List Bytes}

theorem chronicle_replies (h : Chronicle identity received log a) (hopen : a.closed = false)
    (reply : Bytes) :
    (replied identity a offset args reply).replies = a.replies++reply := by
  simp [replied, Account.replies, h.complaint hopen]

theorem next_allowed (hn : Next identity received rest a offset args tail) (more : Bytes) :
    allowed identity identity.fresh (received++more) = a.requests++args::
      if Closes identity a.auth args then []
      else allowed identity (authStep identity a.auth args) (tail++more) := by
  rw [hn.live.2 more, allowed_complete identity a.auth rest tail more args hn.fits hn.parsed]

theorem later_next (h : Chronicle identity received log a)
    (hn : Next identity received rest a offset args tail) (reply : Option Bytes)
    (before after : W) :
    ∀ event ∈ log, Later event (.executed offset args reply before after) := by
  intro event he
  have hplaced := h.placed event he
  cases event with
  | executed offset' args' reply' _ _ =>
    rcases hplaced with ⟨served,hs,rfl⟩ | ⟨hput,hnone⟩
    · exact Or.inl (hn.below served hs)
    · rcases hn.turn with hturn | hturn
      · rw [hturn] at hput
        cases hput
      · rw [hturn] at hput
        cases hput
        exact Or.inr ⟨rfl,rfl,hnone,(h.waiting offset args hturn).1⟩
  | expired _ => trivial
  | malformed _ => trivial
  | refused => trivial

theorem observe_next (hn : Next identity received rest a offset args tail) (reply : Option Bytes)
    (before after : W) (ht : Told identity a.auth args reply before after) :
    observe identity a (.executed offset args reply before after) =
      observeExecution identity a offset args reply := by
  rw [observe, if_neg]
  rintro (hclosed | ⟨hne,hne'⟩ | ⟨hpublic,hne⟩)
  · rw [hn.live.1] at hclosed
    cases hclosed
  · rcases hn.turn with hturn | hturn
    · exact hne hturn
    · exact hne' hturn
  · exact hne (ht hpublic).1

theorem snoc_split {α : Type} (l l1 l2 : List α) (e x : α) (h : l++[e] = l1++x::l2) :
    (l1 = l ∧ x = e) ∨ ∃ l3, l = l1++x::l3 := by
  rcases List.eq_nil_or_concat l2 with rfl | ⟨l3,y,rfl⟩
  · obtain ⟨h1,h2⟩ := List.append_inj' h rfl
    cases h2
    exact Or.inl ⟨h1.symm,rfl⟩
  · have h' : l++[e] = (l1++x::l3)++[y] := by simpa using h
    exact Or.inr ⟨l3,(List.append_inj' h' rfl).1⟩

theorem untouched_snoc {event : Event W} (h : Chronicle identity received log a)
    (hnew : ∀ offset args reply before after,
      event = .executed offset args reply before after → Public a.auth args → after = before) :
    Untouched identity (log++[event]) := by
  intro past offset args reply before after future hlog p hp hpublic
  rcases snoc_split _ _ _ _ _ hlog with ⟨rfl,heq⟩ | ⟨future',hold⟩
  · rw [h.audited] at hp
    cases hp
    exact hnew _ _ _ _ _ heq.symm hpublic
  · exact h.untouched past offset args reply before after future' hold p hp hpublic

theorem pairwise_snoc {α : Type} {R : α → α → Prop} {l : List α} {x : α} (hl : l.Pairwise R)
    (hx : ∀ y ∈ l, R y x) : (l++[x]).Pairwise R := by
  rw [List.pairwise_append]
  refine ⟨hl,List.pairwise_singleton R x,fun y hy z hz => ?_⟩
  rw [List.mem_singleton.mp hz]
  exact hx y hy

theorem placed_of {a' : Account} (hs : ∀ served ∈ a.served, served ∈ a'.served)
    (hp : ∀ offset args, a.putOff = some (offset,args) → a'.putOff = some (offset,args) ∨
      ∃ served ∈ a'.served, served.offset = offset) (event : Event W) (h : Placed a event) :
    Placed a' event := by
  cases event with
  | executed offset args reply _ _ =>
    rcases h with ⟨served,hmem,heq⟩ | ⟨hput,hnone⟩
    · exact Or.inl ⟨served,hs served hmem,heq⟩
    · rcases hp offset args hput with hput' | hserved
      · exact Or.inr ⟨hput',hnone⟩
      · exact Or.inl hserved
  | expired _ => trivial
  | malformed _ => trivial
  | refused => trivial

theorem placed_snoc {a' : Account} {event : Event W} (h : Chronicle identity received log a)
    (hold : ∀ event : Event W, Placed a event → Placed a' event) (hnew : Placed a' event) :
    ∀ e ∈ log++[event], Placed a' e := by
  intro e he
  rcases List.mem_append.mp he with he | he
  · exact hold e (h.placed e he)
  · rw [List.mem_singleton.mp he]
    exact hnew

theorem refused_snoc {event : Event W} (h : Chronicle identity received log a)
    (hne : event ≠ .refused) : .refused ∈ log++[event] → ∃ e ∈ log++[event], TooLong e := by
  intro hr
  rcases List.mem_append.mp hr with hr | hr
  · obtain ⟨e,he,hlong⟩ := h.refused hr
    exact ⟨e,List.mem_append_left _ he,hlong⟩
  · exact absurd (List.mem_singleton.mp hr).symm hne

theorem replied_served (reply : Bytes) : ∃ served ∈ (replied identity a offset args reply).served,
    served.offset = offset :=
  ⟨⟨offset,args,reply⟩,by simp [replied],rfl⟩

theorem chronicle_replied (h : Chronicle identity received log a)
    (hn : Next identity received rest a offset args tail) (reply : Bytes) (event : Event W)
    (hobserved : observe identity a event = some (replied identity a offset args reply))
    (hplaced : Placed (replied identity a offset args reply) event)
    (hlater : ∀ e ∈ log, Later e event) (hne : event ≠ .refused)
    (huntouched : ∀ offset args reply before after,
      event = .executed offset args reply before after → Public a.auth args → after = before) :
    Chronicle identity received (log++[event]) (replied identity a offset args reply) where
  audited := by
    rw [audit_snoc identity log _ a h.audited]
    exact hobserved
  executed := by
    intro more
    have hexecuted : (replied identity a offset args reply).executed = a.requests++[args] := by
      rw [Account.executed, replied_requests]
      simp [replied]
    rw [next_allowed hn more, hexecuted]
    apply List.prefix_append_right_inj a.requests |>.mpr
    exact ⟨_,rfl⟩
  places := by
    intro served hs
    rcases List.mem_append.mp hs with hs | hs
    · exact h.places served hs
    · rw [List.mem_singleton.mp hs]
      exact hn.holds
  increasing := pairwise_snoc h.increasing hn.below
  waiting := fun _ _ hp => nomatch hp
  placed := by
    apply placed_snoc h ?_ hplaced
    apply placed_of (fun served hs => List.mem_append_left _ hs)
    intro offset' args' hput
    rcases hn.turn with hturn | hturn
    · rw [hturn] at hput
      cases hput
    · rw [hturn] at hput
      cases hput
      exact Or.inr (replied_served reply)
  once := pairwise_snoc h.once hlater
  complaint := fun _ => h.complaint hn.live.1
  refused := refused_snoc h hne
  untouched := untouched_snoc h huntouched

theorem chronicle_executed (h : Chronicle identity received log a)
    (hn : Next identity received rest a offset args tail) (reply : Bytes) (before after : W)
    (ht : Told identity a.auth args (some reply) before after) :
    Chronicle identity received (log++[.executed offset args (some reply) before after])
      (replied identity a offset args reply) := by
  have hplaced : Placed (replied identity a offset args reply)
      (.executed offset args (some reply) before after) := Or.inl (replied_served reply)
  apply chronicle_replied h hn reply _ ?_ hplaced (later_next h hn _ _ _) (fun he => nomatch he)
  · intro offset' args' reply' before' after' he hpublic
    cases he
    exact (ht hpublic).2
  · rw [observe_next hn _ _ _ ht]
    rfl

theorem live_executed (hn : Next identity received rest a offset args tail) (reply : Bytes)
    (hopen : ¬Closes identity a.auth args) :
    Live identity received tail (replied identity a offset args reply) := by
  refine ⟨decide_eq_false hopen,fun more => ?_⟩
  rw [next_allowed hn more, replied_requests, if_neg hopen, List.append_assoc]
  rfl

/-- The account behind an execution that was put off. -/
def waitsFor (a : Account) (offset : ℕ) (args : List Bytes) : Account :=
  { a with putOff := some (offset,args) }

theorem chronicle_putOff (h : Chronicle identity received log a)
    (hn : Next identity received rest a offset args tail) (hmget : named args "MGET" = true)
    (before after : W) (ht : Told identity a.auth args none before after) :
    Chronicle identity received (log++[.executed offset args none before after])
      (waitsFor a offset args) where
  audited := by
    rw [audit_snoc identity log _ a h.audited, observe_next hn _ _ _ ht, observeExecution,
      if_pos hmget]
    rfl
  executed := by
    intro more
    have hexecuted : (waitsFor a offset args).executed = a.requests++[args] := rfl
    rw [next_allowed hn more, hexecuted]
    apply List.prefix_append_right_inj a.requests |>.mpr
    exact ⟨_,rfl⟩
  places := h.places
  increasing := h.increasing
  waiting := by
    intro offset' args' hp
    cases hp
    exact ⟨hmget,hn.holds,hn.below⟩
  placed := by
    have hplaced : Placed (waitsFor a offset args) (.executed offset args none before after) :=
      Or.inr ⟨rfl,rfl⟩
    have hserved : ∀ served ∈ a.served, served ∈ (waitsFor a offset args).served :=
      fun _ hs => hs
    apply placed_snoc h (placed_of hserved ?_) hplaced
    intro offset' args' hput
    rcases hn.turn with hturn | hturn
    · rw [hturn] at hput
      cases hput
    · exact Or.inl (hturn.symm.trans hput)
  once := pairwise_snoc h.once (later_next h hn _ _ _)
  complaint := h.complaint
  refused := refused_snoc h (fun he => nomatch he)
  untouched := by
    apply untouched_snoc h
    intro offset' args' reply' before' after' he hpublic
    cases he
    exact (ht hpublic).2

theorem later_other (event event' : Event W)
    (h : ∀ offset args reply before after, event' ≠ .executed offset args reply before after) :
    Later event event' := by
  cases event' with
  | executed offset args reply before after => exact absurd rfl (h offset args reply before after)
  | expired _ => cases event <;> trivial
  | malformed _ => cases event <;> trivial
  | refused => cases event <;> trivial

theorem mget_neutral (hmget : named args "MGET" = true) :
    ¬ValidAuth args ∧ named args "QUIT" = false := by
  cases args with
  | nil => cases hmget
  | cons name rest =>
    have hne : ∀ literal, (ascii "MGET").map lowerByte ≠ (ascii literal).map lowerByte →
        named (name::rest) literal = false := by
      intro literal hne
      rw [Bool.eq_false_iff]
      intro hl
      exact hne (respArgEquals_unique name _ _ hmget hl)
    refine ⟨fun hv => ?_,hne _ (by decide)⟩
    have hauth := hne "AUTH" (by decide)
    rw [hv.1] at hauth
    cases hauth

theorem mget_open (hmget : named args "MGET" = true) (auth : AuthState) :
    ¬Closes identity auth args := by
  obtain ⟨hauth,hquit⟩ := mget_neutral hmget
  rintro (h | h)
  · exact hauth h.1
  · rw [hquit] at h
    cases h.2

theorem replied_mget (hmget : named args "MGET" = true) (hopen : a.closed = false)
    (reply : Bytes) : replied identity a offset args reply = { a with
      served := a.served++[⟨offset,args,reply⟩]
      putOff := none } := by
  rw [replied, authStep, if_neg (mget_neutral hmget).1, decide_eq_false (mget_open hmget a.auth),
    hopen]

theorem chronicle_expired (h : Chronicle identity received log a)
    (hn : Next identity received rest a offset args tail)
    (hput : a.putOff = some (offset,args)) (reply : Bytes) :
    Chronicle identity received (log++[.expired reply])
      (replied identity a offset args reply) := by
  apply chronicle_replied h hn reply (.expired reply) ?_ trivial
    (fun e _ => later_other e _ (fun _ _ _ _ _ he => nomatch he)) (fun he => nomatch he)
    (fun _ _ _ _ _ he => nomatch he)
  rw [replied_mget (h.waiting offset args hput).1 hn.live.1]
  simp only [observe, hn.live.1, hput]

/-- The account behind a protocol error. -/
def complained (a : Account) (error : RespError) : Account := { a with
  complaint := complaintOf error
  closed := true }

theorem chronicle_malformed (h : Chronicle identity received log a) (hopen : a.closed = false)
    (hput : a.putOff = none) (error : RespError) :
    Chronicle identity received (log++[.malformed error]) (complained a error) where
  audited := by
    rw [audit_snoc identity log _ a h.audited, observe, if_neg (by simp [hopen, hput])]
    rfl
  executed := h.executed
  places := h.places
  increasing := h.increasing
  waiting := h.waiting
  placed := placed_snoc h (placed_of (fun _ hs => hs) (fun _ _ hp => Or.inl hp)) trivial
  once := pairwise_snoc h.once (fun e _ => later_other e _ (fun _ _ _ _ _ he => nomatch he))
  complaint := fun hc => nomatch hc
  refused := refused_snoc h (fun he => nomatch he)
  untouched := untouched_snoc h (fun _ _ _ _ _ he => nomatch he)

theorem chronicle_refused (h : Chronicle identity received log a) (event : Event W)
    (hmem : event ∈ log) (hlong : TooLong event) :
    Chronicle identity received (log++[.refused]) { a with closed := true } where
  audited := audit_snoc identity log _ a h.audited
  executed := h.executed
  places := h.places
  increasing := h.increasing
  waiting := h.waiting
  placed := placed_snoc h (placed_of (fun _ hs => hs) (fun _ _ hp => Or.inl hp)) trivial
  once := pairwise_snoc h.once (fun e _ => later_other e _ (fun _ _ _ _ _ he => nomatch he))
  complaint := fun hc => nomatch hc
  refused := fun _ => ⟨event,List.mem_append_left _ hmem,hlong⟩
  untouched := untouched_snoc h (fun _ _ _ _ _ he => nomatch he)

end

end PgLocalCache.ClientLog
