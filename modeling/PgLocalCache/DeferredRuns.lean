import PgLocalCache.WorkerQueue
import PgLocalCache.AttemptLog

/-!
# Runs of the queue of deferred misses

Every action of the event loop keeps the queue of a worker in order: its cells are
those of the connected clients that wait, one for each, and what the client and its
log say about the request agrees with the cell. From this follow the bounds of the
queue, and that a request leaves it with one reply or with its client. The clients
have no TLS.
-/

namespace PgLocalCache.DeferredRuns

open ByteMemory WorkerBackend FastPath ClientProtocol ClientLog CommandDispatch
open ClientTurn hiding Action step run
open ClientStream ClientRuns LinkedQueue DeferredQueue DeskWorld AttemptLog WorkerQueue
open MgetCommand (deadlineExceeded)
open MgetReply (plainServer plainMapping plainSettings)
open RespWriter (ascii)
open RespParser
open Function (update_of_ne update_self)

variable {W D : Type} {E : Setup W D} {w w' : Worker W} {l l' : List ℕ} {i : ℕ}
  {s : Link (Desk W)}

/-! One client. -/

structure Good (E : Setup W D) (s : Link (Desk W)) : Prop where
  fair : Fair s.log
  stands : s.connected = true → Stands E.identity s
  rest : s.connected = true → AtRest s

theorem good_world (h : Good E s) (d : Desk W) : Good E { s with world := d } :=
  ⟨h.fair,fun hc => flags_stands (h.stands hc) s.client rfl d,
    fun hc => atRest_same (h.rest hc) rfl rfl rfl⟩

theorem good_closed (h : Fair s.log) : Good E (closeClient s) :=
  ⟨h,(fun hc => nomatch hc),fun hc => nomatch hc⟩

/-- The same connection with the same input and log. -/
structure Steady (s s' : Link (Desk W)) : Prop where
  log : s'.log = s.log
  connected : s'.connected = s.connected
  received : s'.received = s.received
  miss : s'.client.deferredMiss = s.client.deferredMiss
  unread : unread s'.client = unread s.client

/-- The connection goes on as it was, or it is closed. -/
def Ends (s s' : Link (Desk W)) : Prop := ∃ s1, Steady s s1 ∧ (s' = s1 ∨ s' = closeClient s1)

theorem steady_refl : Steady s s := ⟨rfl,rfl,rfl,rfl,rfl⟩

theorem steady_trans {s1 s2 : Link (Desk W)} (h : Steady s s1) (h' : Steady s1 s2) :
    Steady s s2 :=
  ⟨h'.log.trans h.log,h'.connected.trans h.connected,h'.received.trans h.received,
    h'.miss.trans h.miss,h'.unread.trans h.unread⟩

theorem ends_steady {s' : Link (Desk W)} (h : Steady s s') : Ends s s' := ⟨s',h,Or.inl rfl⟩

theorem ends_closed {s' : Link (Desk W)} (h : Steady s s') : Ends s (closeClient s') :=
  ⟨s',h,Or.inr rfl⟩

theorem ends_from {s1 s2 : Link (Desk W)} (h : Steady s s1) (h' : Ends s1 s2) : Ends s s2 := by
  obtain ⟨s3,hs,he⟩ := h'
  exact ⟨s3,steady_trans h hs,he⟩

theorem ends_good {s' : Link (Desk W)} (h : Good E s) (hconnected : s.connected = true)
    (he : Ends s s') (hsound : Sound E.identity s') : Good E s' := by
  obtain ⟨s1,hs,rfl | rfl⟩ := he
  · refine ⟨?_,hsound.2,fun _ => ?_⟩
    · rw [hs.log]
      exact h.fair
    · exact atRest_same (h.rest hconnected) hs.log hs.miss (position_alike hs.received hs.unread)
  · refine good_closed ?_
    rw [hs.log]
    exact h.fair

theorem flushTail_ends : Ends s (flushTail s) := by
  have hwake : Ends s (withClient s { s.client with inputReady := true }) :=
    ends_steady ⟨rfl,rfl,rfl,rfl,rfl⟩
  have hstay : Ends s s := ends_steady steady_refl
  have hclose : Ends s (closeClient s) := ends_closed steady_refl
  unfold flushTail
  split
  · exact hclose
  · split
    · exact hstay
    · split
      · exact hclose
      · split
        · split
          · exact hwake
          · exact hstay
        · split
          · exact hwake
          · exact hclose

theorem sendStep_steady (outgoing : Outgoing) : Steady s (sendStep s outgoing).2 := by
  have hreset : ∀ s1 : Link (Desk W), Steady s s1 → Steady s (resetOutput s1) := by
    intro s1 h
    unfold resetOutput
    split
    · exact ⟨h.log,h.connected,h.received,h.miss,h.unread⟩
    · exact h
  unfold sendStep
  split
  · cases outgoing with
    | interrupted => exact steady_refl
    | again => exact steady_refl
    | failed => exact steady_refl
    | wrote count =>
      simp only
      split
      · exact steady_refl
      · exact hreset _ ⟨rfl,rfl,rfl,rfl,rfl⟩
  · exact hreset s steady_refl

theorem flushReady_ends (outgoing : Outgoing) : Ends s (flushReady s outgoing) := by
  unfold flushReady
  split
  · have hready : Steady s (withClient s { s.client with outputReady := false }) :=
      ⟨rfl,rfl,rfl,rfl,rfl⟩
    have hsent : Steady s (flushClientOutput s outgoing).2 :=
      steady_trans hready (sendStep_steady outgoing)
    generalize flushClientOutput s outgoing = sent at hsent
    obtain ⟨ok,s'⟩ := sent
    cases ok with
    | false => exact ends_closed hsent
    | true =>
      simp only
      split
      · exact ends_closed hsent
      · refine ends_from (steady_trans hsent ?_) flushTail_ends
        unfold wakeInput
        split
        · exact ⟨rfl,rfl,rfl,rfl,rfl⟩
        · exact steady_refl
  · exact flushTail_ends

theorem processClient_waits {identity : Identity} {S : WireKey.Server D} {B : Backend (Desk W) D}
    {C : Commands (Desk W) D} {cfg : WorkerSettings} (n : ℕ) (incoming : List Incoming)
    (miss : DeferredMiss) (hmiss : s.client.deferredMiss = some miss) :
    (processClient identity S B C cfg n incoming s).2.client.deferredMiss = some miss := by
  unfold processClient
  split
  · exact hmiss
  · unfold openTurn
    have hview : (withClient s { s.client with inputReady := false }).client.deferredMiss =
        some miss := hmiss
    generalize withClient s { s.client with inputReady := false } = s at hview
    rw [hview]
    unfold receiveDeferred
    simp only
    split
    · exact (finish_miss _).trans hview
    · cases clientRecv (requestMax-s.client.input.length) (incoming.headD .again) with
      | interrupted => exact (finish_miss _).trans hview
      | again => exact (finish_miss _).trans hview
      | failed => exact hview
      | eof => exact (finish_miss _).trans hview
      | data bytes => exact (finish_miss _).trans hview

/-! The queue and its clients. -/

structure Ordered (E : Setup W D) (w : Worker W) (l : List ℕ) : Prop where
  queued : Queued w.queue l
  count : w.queue.count ≤ E.maxDeferredMisses
  bytes : w.queue.bytes ≤ deferredRequestBytesMax
  owner : ∀ a ∈ l, (w.slots (w.queue.misses a).client).deferredMiss = some a
  points : ∀ i a, (w.slots i).deferredMiss = some a → a ∈ l ∧ (w.queue.misses a).client = i ∧
    (w.slots i).connected = true

structure Held (E : Setup W D) (w : Worker W) (l : List ℕ) : Prop extends Ordered E w l where
  good : ∀ i, Good E (attach w i)

/-- A change to one client and to its own misses. -/
structure Changes (w w' : Worker W) (l l' : List ℕ) (i : ℕ) : Prop where
  slots : ∀ j, j ≠ i → w'.slots j = w.slots j
  others : ∀ a, (w.queue.misses a).client ≠ i → a ∈ l →
    a ∈ l' ∧ w'.queue.misses a = w.queue.misses a
  back : ∀ a ∈ l', (w'.queue.misses a).client ≠ i → a ∈ l ∧ (w.queue.misses a).client ≠ i
  own : ∀ a, (w'.slots i).deferredMiss = some a ↔ a ∈ l' ∧ (w'.queue.misses a).client = i

theorem changes_other (h : Ordered E w l) (hc : Changes w w' l l' i) (j : ℕ) (hj : j ≠ i) :
    attach w' j = { attach w j with world := w'.desk } := by
  have hview : view w'.queue (w'.slots j) = view w.queue (w.slots j) := by
    rw [hc.slots j hj]
    unfold view
    cases hp : (w.slots j).deferredMiss with
    | none => rfl
    | some a =>
      obtain ⟨ha,hclient,-⟩ := h.points j a hp
      have hsame := (hc.others a (by rw [hclient]; exact hj) ha).2
      simp only [Option.map_some, hsame]
  unfold attach
  rw [hview, hc.slots j hj]

theorem changes_ordered (h : Ordered E w l) (hc : Changes w w' l l' i) (hq : Queued w'.queue l')
    (hcount : w'.queue.count ≤ E.maxDeferredMisses)
    (hbytes : w'.queue.bytes ≤ deferredRequestBytesMax)
    (hconnected : ∀ a, (w'.slots i).deferredMiss = some a → (w'.slots i).connected = true) :
    Ordered E w' l' where
  queued := hq
  count := hcount
  bytes := hbytes
  owner := by
    intro a ha
    by_cases hi : (w'.queue.misses a).client = i
    · rw [hi]
      exact (hc.own a).mpr ⟨ha,hi⟩
    · obtain ⟨hmem,hne⟩ := hc.back a ha hi
      rw [(hc.others a hne hmem).2, hc.slots _ hne]
      exact h.owner a hmem
  points := by
    intro j a hp
    by_cases hj : j = i
    · subst hj
      obtain ⟨ha,hclient⟩ := (hc.own a).mp hp
      exact ⟨ha,hclient,hconnected a hp⟩
    · rw [hc.slots j hj] at hp ⊢
      obtain ⟨ha,hclient,hopen⟩ := h.points j a hp
      obtain ⟨ha',hsame⟩ := hc.others a (by rw [hclient]; exact hj) ha
      exact ⟨ha',by rw [hsame]; exact hclient,hopen⟩

theorem changes_good (h : Ordered E w l) (hg : ∀ j, j ≠ i → Good E (attach w j))
    (hc : Changes w w' l l' i) (hi : Good E (attach w' i)) (j : ℕ) : Good E (attach w' j) := by
  by_cases hj : j = i
  · rw [hj]
    exact hi
  · rw [changes_other h hc j hj]
    exact good_world (hg j hj) _

theorem attach_put (q : Queue) (pointer : Option ℕ)
    (hm : s.client.deferredMiss = pointer.map (fun a => (q.misses a).request)) :
    attach (setQueue (putSlot w i s pointer) q) i = s := by
  have hview : view q (slotOf s pointer) = s.client := by
    unfold view slotOf
    rw [← hm]
  simp only [attach, setQueue, putSlot, update_self, hview]
  rfl

theorem changes_keep (h : Ordered E w l) (q : Queue) (hq : q.misses = w.queue.misses)
    (hl : ∀ a, a ∈ l' ↔ a ∈ l) :
    Changes w (setQueue (putSlot w i s (w.slots i).deferredMiss) q) l l' i where
  slots := fun j hj => update_of_ne hj _ _
  others := fun a _ ha => ⟨(hl a).mpr ha,congrFun hq a⟩
  back := by
    intro a ha hne
    have hsame : q.misses a = w.queue.misses a := congrFun hq a
    exact ⟨(hl a).mp ha,by rw [← hsame]; exact hne⟩
  own := by
    intro a
    have hsame : q.misses a = w.queue.misses a := congrFun hq a
    simp only [setQueue, putSlot, update_self, slotOf, hsame, hl]
    constructor
    · intro hp
      exact ⟨(h.points i a hp).1,(h.points i a hp).2.1⟩
    · rintro ⟨ha,hclient⟩
      rw [← hclient]
      exact h.owner a ha

theorem changes_cut {l1 l2 : List ℕ} {a : ℕ} (h : Ordered E w (l1++a::l2))
    (ha : (w.queue.misses a).client = i) (q : Queue) (hq : q.misses = w.queue.misses) :
    Changes w (setQueue (putSlot w i s none) q) (l1++a::l2) (l1++l2) i where
  slots := fun j hj => update_of_ne hj _ _
  others := by
    intro b hb hmem
    refine ⟨?_,congrFun hq b⟩
    rw [List.mem_append, List.mem_cons] at hmem
    rw [List.mem_append]
    rcases hmem with hmem | rfl | hmem
    · exact Or.inl hmem
    · exact absurd ha hb
    · exact Or.inr hmem
  back := by
    intro b hb hne
    have hsame : q.misses b = w.queue.misses b := congrFun hq b
    refine ⟨?_,by rw [← hsame]; exact hne⟩
    rw [List.mem_append] at hb
    rw [List.mem_append, List.mem_cons]
    tauto
  own := by
    intro b
    have hsame : q.misses b = w.queue.misses b := congrFun hq b
    simp only [setQueue, putSlot, update_self, slotOf, hsame]
    refine ⟨(fun hn => nomatch hn),fun ⟨hb,hclient⟩ => ?_⟩
    -- The client had one pointer only, and it led to the cell that is gone.
    have hmem : b ∈ l1++a::l2 := by
      rw [List.mem_append] at hb
      rw [List.mem_append, List.mem_cons]
      tauto
    have hpb := h.owner b hmem
    have hpa := h.owner a (by simp)
    rw [hclient] at hpb
    rw [ha, hpb] at hpa
    cases hpa
    have hnodup := h.queued.linked.nodup
    rw [List.nodup_middle, List.nodup_cons] at hnodup
    exact absurd hb hnodup.1

theorem changes_link (h : Ordered E w l) (hp : (w.slots i).deferredMiss = none)
    (miss : DeferredMiss) :
    Changes w (enqueueDeferredMiss E (putSlot w i s none) i miss) l
      (l++[E.allocator.pick w.queue.allocated]) i := by
  have hfresh := queued_fresh h.queued E.allocator
  have hother : ∀ b ∈ l, (enqueueDeferredMiss E (putSlot w i s none) i miss).queue.misses b =
      w.queue.misses b := fun b hb => linkMiss_other b (fun he => hfresh (he ▸ hb))
  have hnew : (enqueueDeferredMiss E (putSlot w i s none) i miss).queue.misses
      (E.allocator.pick w.queue.allocated) = ⟨i,miss.requestOffset,miss.requestLength,miss.deadline,
        E.workerMappingGeneration s.world.rest⟩ := linkMiss_self
  have hnobody : ∀ b ∈ l, (w.queue.misses b).client ≠ i := by
    intro b hb hclient
    have := h.owner b hb
    rw [hclient, hp] at this
    cases this
  refine ⟨fun j hj => ?_,fun b _ hb => ⟨List.mem_append_left _ hb,hother b hb⟩,fun b hb hne => ?_,
    fun b => ?_⟩
  · simp only [enqueueDeferredMiss, putSlot]
    rw [update_of_ne hj, update_of_ne hj]
  · rcases List.mem_append.mp hb with hb | hb
    · exact ⟨hb,hnobody b hb⟩
    · rw [List.mem_singleton.mp hb, hnew] at hne
      exact absurd rfl hne
  · have hpointer : ((enqueueDeferredMiss E (putSlot w i s none) i miss).slots i).deferredMiss =
        some (E.allocator.pick w.queue.allocated) := by
      simp only [enqueueDeferredMiss, putSlot, update_self]
    rw [hpointer, Option.some.injEq]
    constructor
    · rintro rfl
      exact ⟨by simp,by rw [hnew]⟩
    · rintro ⟨hb,hclient⟩
      rcases List.mem_append.mp hb with hb | hb
      · rw [hother b hb] at hclient
        exact absurd hclient (hnobody b hb)
      · exact (List.mem_singleton.mp hb).symm

theorem roomy_fits (h : Ordered E w l) (miss : DeferredMiss)
    (hroom : roomFor E w i miss.requestLength = true) :
    w.queue.count+1 ≤ E.maxDeferredMisses ∧
      w.queue.bytes+miss.requestLength ≤ deferredRequestBytesMax := by
  have hfits := (hasRoom_iff _ _ _).mp hroom
  have := h.bytes
  omega

theorem restore_held (h : Ordered E w l) (hothers : ∀ j, j ≠ i → Good E (attach w j))
    (hs : Good E s) (hkeep : ∀ a, (w.slots i).deferredMiss = some a → s.connected = true →
      s.client.deferredMiss = some (w.queue.misses a).request)
    (hroom : (w.slots i).deferredMiss = none → s.connected = true → Roomy (roomFor E w i) s) :
    ∃ l', Held E (restore E w i s) l' := by
  -- Nothing is linked or unlinked.
  have hstay : s.client.deferredMiss = (w.slots i).deferredMiss.map
      (fun a => (w.queue.misses a).request) → s.connected = true →
      Held E (putSlot w i s (w.slots i).deferredMiss) l := by
    intro hm hconnected
    have hc : Changes w (setQueue (putSlot w i s (w.slots i).deferredMiss) w.queue) l l i :=
      changes_keep h w.queue rfl (fun _ => Iff.rfl)
    refine ⟨changes_ordered h hc h.queued h.count h.bytes (fun a _ => ?_),
      changes_good h hothers hc ?_⟩
    · simp only [putSlot, update_self]
      exact hconnected
    · have hattach : attach (putSlot w i s (w.slots i).deferredMiss) i = s :=
        attach_put w.queue _ hm
      rw [hattach]
      exact hs
  unfold restore
  by_cases hconnected : s.connected = true
  · rw [if_pos hconnected]
    cases hp : (w.slots i).deferredMiss with
    | some a =>
      have hm := hkeep a hp hconnected
      rw [hp] at hstay
      exact ⟨l,hstay hm hconnected⟩
    | none =>
      cases hm : s.client.deferredMiss with
      | none =>
        rw [hp] at hstay
        exact ⟨l,hstay hm hconnected⟩
      | some miss =>
        have hc : Changes w (enqueueDeferredMiss E (putSlot w i s none) i miss) l
            (l++[E.allocator.pick w.queue.allocated]) i := changes_link h hp miss
        obtain ⟨hcount,hbytes⟩ := roomy_fits h miss (hroom hp hconnected miss hm)
        refine ⟨_,changes_ordered h hc (queued_link h.queued (queued_fresh h.queued E.allocator))
          hcount hbytes (fun a _ => ?_),changes_good h hothers hc ?_⟩
        · simp only [enqueueDeferredMiss, putSlot, update_self]
          exact hconnected
        · have hattach : attach (enqueueDeferredMiss E (putSlot w i s none) i miss) i = s := by
            have hview : view (linkMiss w.queue (E.allocator.pick w.queue.allocated) ⟨i,
                miss.requestOffset,miss.requestLength,miss.deadline,
                E.workerMappingGeneration s.world.rest⟩) { slotOf s none with
                  deferredMiss := some (E.allocator.pick w.queue.allocated) } = s.client := by
              simp only [view, Option.map_some, linkMiss_self, Miss.request, slotOf]
              rw [← hm]
            simp only [attach, enqueueDeferredMiss, putSlot, update_self, hview]
            rfl
          rw [hattach]
          exact hs
  · rw [if_neg hconnected]
    have hlost : ∀ (w' : Worker W) (hw : w'.slots i = slotOf s none), Good E (attach w' i) := by
      intro w' hw
      refine ⟨?_,fun hc => ?_,fun hc => ?_⟩
      · simp only [attach, hw, slotOf]
        exact hs.fair
      · simp only [attach, hw, slotOf] at hc
        exact absurd hc hconnected
      · simp only [attach, hw, slotOf] at hc
        exact absurd hc hconnected
    unfold dropMiss
    cases hp : (w.slots i).deferredMiss with
    | none =>
      have hc : Changes w (setQueue (putSlot w i s (w.slots i).deferredMiss) w.queue) l l i :=
        changes_keep h w.queue rfl (fun _ => Iff.rfl)
      rw [hp] at hc
      refine ⟨l,changes_ordered h hc h.queued h.count h.bytes (fun a ha => ?_),
        changes_good h hothers hc (hlost _ (update_self _ _ _))⟩
      simp only [putSlot, update_self, slotOf] at ha
      cases ha
    | some a =>
      obtain ⟨hmem,hclient,-⟩ := h.points i a hp
      obtain ⟨l1,l2,rfl⟩ := List.append_of_mem hmem
      have hc : Changes w (setQueue (putSlot w i s none) (removeDeferredMiss w.queue a))
          (l1++a::l2) (l1++l2) i := changes_cut h hclient _ rfl
      refine ⟨l1++l2,changes_ordered h hc (queued_remove h.queued) ?_ ?_ (fun b hb => ?_),
        changes_good h hothers hc (hlost _ (update_self _ _ _))⟩
      · exact (Nat.sub_le _ _).trans h.count
      · exact (Nat.sub_le _ _).trans h.bytes
      · simp only [setQueue, putSlot, update_self, slotOf] at hb
        cases hb

/-! Turns. -/

theorem settle_good {room : ℕ → Bool} {fresh : Prop} {result : Bool × Link (Desk W)}
    (hr : Returned E.identity result) (hf : FairTurn room fresh result) :
    Good E (settle result) := by
  obtain ⟨ok,s⟩ := result
  cases ok with
  | false => exact good_closed hf.1
  | true =>
    have hstands : Stands E.identity s := by
      rw [Returned, if_pos rfl] at hr
      exact hr
    exact ⟨hf.1,fun _ => hstands,fun _ => (hf.2 rfl).1⟩

/-- A turn, of a client that waits or not, or of one whose request is taken up again. -/
theorem runClient_held (h : Ordered E w l) (hothers : ∀ j, j ≠ i → Good E (attach w j))
    (incoming : List Incoming) (acc : Account)
    (hc : Chronicle E.identity (attach w i).received (attach w i).log acc)
    (hw : Wired E.identity (attach w i) acc) (hs : Starts E.identity (attach w i) acc)
    (hf : Fair (attach w i).log) (hr : AtRest (attach w i))
    (hh : acc.putOff ≠ none → (attach w i).client.deferredMiss = none →
      Here (roomFor E w i) (attach w i)) :
    ∃ l', Held E (runClient E w i incoming) l' := by
  have hreturned : Returned E.identity (processClient E.identity E.server (backendFor E w i)
      (deskCommands E.commands) E.settings E.maxPipelineCommands incoming (attach w i)) :=
    processClient_returned _ incoming hc hw hs
  have hfair : FairTurn (roomFor E w i) ((attach w i).client.deferredMiss = none)
      (processClient E.identity E.server (backendFor E w i) (deskCommands E.commands) E.settings
        E.maxPipelineCommands incoming (attach w i)) :=
    processClient_fair _ incoming hc hw hs hf hr hh
  have hwaits : ∀ miss, (attach w i).client.deferredMiss = some miss →
      (processClient E.identity E.server (backendFor E w i) (deskCommands E.commands) E.settings
        E.maxPipelineCommands incoming (attach w i)).2.client.deferredMiss = some miss :=
    fun miss => processClient_waits _ incoming miss
  unfold runClient
  generalize processClient E.identity E.server (backendFor E w i) (deskCommands E.commands)
    E.settings E.maxPipelineCommands incoming (attach w i) = result at *
  obtain ⟨ok,s'⟩ := result
  refine restore_held h hothers (settle_good hreturned hfair) ?_ ?_
  · intro a hp hconnected
    cases ok with
    | false => cases hconnected
    | true =>
      apply hwaits
      simp only [attach, view, hp, Option.map_some]
  · intro hp hconnected
    cases ok with
    | false => cases hconnected
    | true =>
      apply (hfair.2 rfl).2
      simp only [attach, view, hp, Option.map_none]

theorem turn_held (h : Held E w l) (hconnected : (w.slots i).connected = true)
    (incoming : List Incoming) : ∃ l', Held E (runClient E w i incoming) l' := by
  have hgood := h.good i
  obtain ⟨acc,hc,hw,hs⟩ := hgood.stands hconnected
  refine runClient_held h.toOrdered (fun j _ => h.good j) incoming acc hc hw (Or.inl hs) hgood.fair
    (hgood.rest hconnected) (fun hput hnone => ?_)
  unfold Settled at hs
  rw [hnone] at hs
  exact absurd hs hput

/-! Retries. -/

section Retry

variable {a : ℕ}

theorem head_client (h : Held E w (a::l)) : ∃ i, (w.queue.misses a).client = i ∧
    (w.slots i).deferredMiss = some a ∧ (w.slots i).connected = true ∧
    (attach w i).client.deferredMiss = some (w.queue.misses a).request := by
  have hp := h.owner a (by simp)
  obtain ⟨-,-,hconnected⟩ := h.points _ a hp
  refine ⟨_,rfl,hp,hconnected,?_⟩
  simp only [attach, view, hp, Option.map_some]

theorem noteDeadline_good (B : Backend (Desk W) D) (miss : DeferredMiss) (h : Good E s) :
    Good E (noteDeadline B s miss) :=
  ⟨h.fair,fun hc => noteDeadline_stands (h.stands hc) miss,
    fun hc => atRest_same (h.rest hc) rfl rfl rfl⟩

theorem rotate_held (h : Held E w l) (s : Link (Desk W)) (hs : Good E s)
    (hm : s.client.deferredMiss = (w.slots i).deferredMiss.map
      (fun a => (w.queue.misses a).request)) (hconnected : s.connected = true) :
    Held E (setQueue (putSlot w i s (w.slots i).deferredMiss) (rotateDeferredMissHead w.queue))
      (rotated l) := by
  have hc : Changes w (setQueue (putSlot w i s (w.slots i).deferredMiss)
      (rotateDeferredMissHead w.queue)) l (rotated l) i :=
    changes_keep h.toOrdered _ rotate_misses (fun a => mem_rotated a)
  have hsizes : (rotateDeferredMissHead w.queue).count = w.queue.count ∧
      (rotateDeferredMissHead w.queue).bytes = w.queue.bytes := by
    unfold rotateDeferredMissHead
    cases w.queue.head with
    | none => exact ⟨rfl,rfl⟩
    | some a =>
      simp only
      cases w.queue.next a with
      | none => exact ⟨rfl,rfl⟩
      | some b => exact ⟨rfl,rfl⟩
  refine ⟨changes_ordered h.toOrdered hc (queued_rotate h.queued) ?_ ?_ (fun a _ => ?_),
    changes_good h.toOrdered (fun j _ => h.good j) hc ?_⟩
  · exact hsizes.1.le.trans h.count
  · exact hsizes.2.le.trans h.bytes
  · simp only [setQueue, putSlot, update_self]
    exact hconnected
  · rw [attach_put _ _ (by rw [rotate_misses]; exact hm)]
    exact hs

theorem take_ordered (h : Held E w (a::l)) (s : Link (Desk W))
    (hclient : (w.queue.misses a).client = i) :
    Ordered E (setQueue (putSlot w i s none) (takeHead w.queue a)) l ∧ ∀ j, j ≠ i →
      Good E (attach (setQueue (putSlot w i s none) (takeHead w.queue a)) j) := by
  have h' : Ordered E w ([]++a::l) := h.toOrdered
  have hc : Changes w (setQueue (putSlot w i s none) (takeHead w.queue a)) (a::l) l i :=
    changes_cut h' hclient _ rfl
  refine ⟨changes_ordered h.toOrdered hc (queued_take h.queued) ?_ ?_ (fun b hb => ?_),
    fun j hj => ?_⟩
  · exact (Nat.sub_le _ _).trans h.count
  · exact (Nat.sub_le _ _).trans h.bytes
  · simp only [setQueue, putSlot, update_self, slotOf] at hb
    cases hb
  · rw [changes_other h.toOrdered hc j hj]
    exact good_world (h.good j) _

theorem expire_good (h : Good E s) (hconnected : s.connected = true) (miss : DeferredMiss)
    (hmiss : s.client.deferredMiss = some miss) (hidle : ¬outputPending s.client)
    (client : Client) (hq : queueResponse s.client deadlineExceeded false = some client) :
    Good E (expireMiss s miss) ∧ (expireMiss s miss).client.deferredMiss = none := by
  have hstands := expireMiss_stands (h.stands hconnected) miss hmiss hidle
  unfold expireMiss at *
  rw [hq] at hstands ⊢
  exact ⟨⟨fair_quiet h.fair _ rfl trivial,fun _ => hstands,fun _ => atRest_none rfl⟩,rfl⟩

theorem resume_held (h : Held E w (a::l)) (hclient : (w.queue.misses a).client = i) (hs : Good E s)
    (hconnected : s.connected = true)
    (hmiss : s.client.deferredMiss = some (w.queue.misses a).request)
    (hidle : ¬outputPending s.client) (C : Commands (Desk W) D) (incoming : List Incoming) :
    ∃ l', Held E (runClient E (setQueue (putSlot w i
      (resumeMiss C s (w.queue.misses a).request) none) (takeHead w.queue a)) i incoming) l' := by
  obtain ⟨ho,hothers⟩ := take_ordered h (resumeMiss C s (w.queue.misses a).request) hclient
  have hattach : attach (setQueue (putSlot w i (resumeMiss C s (w.queue.misses a).request) none)
      (takeHead w.queue a)) i = resumeMiss C s (w.queue.misses a).request := attach_put _ _ rfl
  have hroom : roomFor E (setQueue (putSlot w i (resumeMiss C s (w.queue.misses a).request) none)
      (takeHead w.queue a)) i (w.queue.misses a).requestLength = true := by
    unfold roomFor
    simp only [setQueue, putSlot, update_self, slotOf]
    exact hasRoom_again _ h.queued h.count h.bytes
  obtain ⟨acc,hc,hw,hsettled⟩ := hs.stands hconnected
  unfold Settled at hsettled
  rw [hmiss] at hsettled
  obtain ⟨hlive,-,args,hput,hparse⟩ := hsettled
  have hw' : Wired E.identity (resumeMiss C s (w.queue.misses a).request) acc :=
    ⟨hw.start,hw.fits,hw.output,hw.room,hw.buffered,hw.auth,hw.tail,hw.below,Or.inl hlive,
      hw.closing⟩
  refine runClient_held ho hothers incoming acc ?_ ?_ ?_ ?_ ?_ ?_
  · rw [hattach]
    exact hc
  · rw [hattach]
    exact hw'
  · rw [hattach]
    exact Or.inr ⟨rfl,hidle,(wired_empty hw hidle).2,hlive,args,_,hput,hparse⟩
  · rw [hattach]
    exact hs.fair
  · rw [hattach]
    exact atRest_none rfl
  · rw [hattach]
    intro _ _ event he hplace
    exact ⟨rfl,args,_,hparse,hroom,hs.rest hconnected _ hmiss event he hplace⟩

theorem retryHead_held (h : Held E w (a::l)) (incoming : List Incoming) :
    ∃ l', Held E (retryHead E w a incoming) l' := by
  obtain ⟨i,hclient,hp,hconnected,hmiss⟩ := head_client h
  have hgood : Good E (noteDeadline (backendFor E w i) (attach w i)
      (w.queue.misses a).request) := noteDeadline_good _ _ (h.good i)
  have hmiss' : (noteDeadline (backendFor E w i) (attach w i)
      (w.queue.misses a).request).client.deferredMiss = some (w.queue.misses a).request := hmiss
  have hconnected' : (noteDeadline (backendFor E w i) (attach w i)
      (w.queue.misses a).request).connected = true := hconnected
  unfold retryHead
  simp only [hclient]
  generalize noteDeadline (backendFor E w i) (attach w i) (w.queue.misses a).request = s at *
  have hrotated : ∃ l', Held E (setQueue (putSlot w i s (w.slots i).deferredMiss)
      (rotateDeferredMissHead w.queue)) l' := by
    refine ⟨_,rotate_held h s hgood ?_ hconnected'⟩
    rw [hp]
    exact hmiss'
  split
  · exact hrotated
  · rename_i hidle
    split
    · cases hq : queueResponse s.client deadlineExceeded false with
      | none => exact hrotated
      | some client =>
        obtain ⟨hs,hnone⟩ := expire_good hgood hconnected' _ hmiss' hidle client hq
        obtain ⟨ho,hothers⟩ := take_ordered h (expireMiss s (w.queue.misses a).request) hclient
        refine ⟨l,ho,fun j => ?_⟩
        by_cases hj : j = i
        · rw [hj]
          rw [attach_put _ _ hnone]
          exact hs
        · exact hothers j hj
    · exact resume_held h hclient hgood hconnected' hmiss' hidle _ incoming

theorem retryLoop_held (attempts : ℕ) (incoming : List (List Incoming)) (h : Held E w l) :
    ∃ l', Held E (retryLoop E attempts incoming w) l' := by
  induction attempts generalizing incoming w l with
  | zero => exact ⟨l,h⟩
  | succ attempts ih =>
    unfold retryLoop
    rw [queued_head h.queued]
    cases l with
    | nil => exact ⟨[],h⟩
    | cons a l =>
      obtain ⟨l',h'⟩ := retryHead_held h (incoming.headD [])
      exact ih incoming.tail h'

end Retry

/-! The other actions. -/

theorem elsewhere_held (h : Held E w l) (d : Desk W) : Held E { w with desk := d } l :=
  ⟨⟨h.queued,h.count,h.bytes,h.owner,h.points⟩,fun i => good_world (h.good i) d⟩

theorem markExpired_held (h : Held E w l) (i : ℕ) : Held E (markExpired w i) l := by
  have hpointer : ∀ j, ((markExpired w i).slots j).deferredMiss = (w.slots j).deferredMiss ∧
      ((markExpired w i).slots j).connected = (w.slots j).connected := by
    intro j
    by_cases hj : j = i
    · subst hj
      simp only [markExpired, update_self, and_self]
    · simp only [markExpired, update_of_ne hj, and_self]
  refine ⟨⟨h.queued,h.count,h.bytes,fun a ha => ?_,fun j a hp => ?_⟩,fun j => ?_⟩
  · rw [(hpointer _).1]
    exact h.owner a ha
  · rw [(hpointer j).1] at hp
    rw [(hpointer j).2]
    exact h.points j a hp
  · have hgood := h.good j
    by_cases hj : j = i
    · subst hj
      have hattach : attach (markExpired w j) j = { attach w j with
          client := { (attach w j).client with deferredDeadlineExpired := true } } := by
        simp only [attach, markExpired, update_self]
        rfl
      rw [hattach]
      exact ⟨hgood.fair,fun hc => flags_stands (hgood.stands hc) _ rfl _,
        fun hc => atRest_same (hgood.rest hc) rfl rfl rfl⟩
    · have hattach : attach (markExpired w i) j = attach w j := by
        simp only [attach, markExpired, update_of_ne hj]
      rw [hattach]
      exact hgood

theorem pollLoop_held (now fuel timeout : ℕ) (current : Option ℕ) (h : Held E w l) :
    Held E (pollLoop now fuel timeout current w).2 l := by
  induction fuel generalizing timeout current w with
  | zero => exact h
  | succ fuel ih =>
    cases current with
    | none => exact h
    | some a =>
      unfold pollLoop
      simp only
      split
      · split
        · exact ih _ _ (markExpired_held h _)
        · exact markExpired_held h _
      · exact ih _ _ h

theorem onClient_held (h : Held E w l) (f : Link (Desk W) → Link (Desk W))
    (hends : ∀ s, Ends s (f s))
    (hsound : ∀ s, Stands E.identity s → Sound E.identity (f s)) :
    ∃ l', Held E (onClient E w i f) l' := by
  unfold onClient
  split
  · rename_i hconnected
    have hgood := h.good i
    refine restore_held h.toOrdered (fun j _ => h.good j)
      (ends_good hgood hconnected (hends _) (hsound _ (hgood.stands hconnected))) ?_ ?_
    · intro a hp hc
      obtain ⟨s1,hs,hend | hend⟩ := hends (attach w i)
      · rw [hend, hs.miss]
        simp only [attach, view, hp, Option.map_some]
      · rw [hend] at hc
        cases hc
    · intro hp hc
      refine roomy_none ?_
      obtain ⟨s1,hs,hend | hend⟩ := hends (attach w i)
      · rw [hend, hs.miss]
        simp only [attach, view, hp, Option.map_none]
      · rw [hend]
        rfl
  · exact ⟨l,h⟩

theorem accept_held (h : Held E w l) : Held E (accept E w i) l := by
  unfold accept
  split
  · exact h
  · rename_i hclosed
    have hp : (w.slots i).deferredMiss = none := by
      cases hp : (w.slots i).deferredMiss with
      | none => rfl
      | some a => exact absurd (h.points i a hp).2.2 hclosed
    have hc : Changes w (setQueue (putSlot w i (acceptClient E.identity w.desk)
        (w.slots i).deferredMiss) w.queue) l l i :=
      changes_keep h.toOrdered w.queue rfl (fun _ => Iff.rfl)
    refine ⟨changes_ordered h.toOrdered hc h.queued h.count h.bytes (fun a ha => ?_),
      changes_good h.toOrdered (fun j _ => h.good j) hc ?_⟩
    · simp only [putSlot, update_self, slotOf, hp] at ha
      cases ha
    · have hattach : attach (putSlot w i (acceptClient E.identity w.desk)
          (w.slots i).deferredMiss) i = acceptClient E.identity w.desk :=
        attach_put w.queue _ (by rw [hp]; rfl)
      rw [hattach]
      exact ⟨fair_nil,fun _ => accept_stands w.desk,fun _ => atRest_none rfl⟩

/-! Whole runs. -/

theorem step_held (h : Held E w l) (action : Action W) : ∃ l', Held E (step E w action) l' := by
  cases action with
  | accept i => exact ⟨l,accept_held h⟩
  | turn i incoming =>
    rw [step]
    split
    · rename_i hconnected
      exact turn_held h hconnected incoming
    · exact ⟨l,h⟩
  | retry incoming => exact retryLoop_held _ incoming h
  | pollTimeout currentTimeout => exact ⟨l,pollLoop_held _ _ _ _ (elsewhere_held h _)⟩
  | flush i outgoing =>
    exact onClient_held h _ (fun _ => flushReady_ends outgoing)
      (fun _ hs => flushReady_sound hs outgoing)
  | writable i =>
    rw [step]
    refine onClient_held h _ (fun s => ?_) (fun s hs => ?_)
    · exact ends_steady ⟨rfl,rfl,rfl,rfl,rfl⟩
    · exact stands_sound (flags_stands hs { s.client with outputReady := true } rfl s.world)
  | hangUp i =>
    rw [step]
    refine onClient_held h _ (fun s => ?_) (fun s hs => ?_)
    · exact ends_steady ⟨rfl,rfl,rfl,rfl,rfl⟩
    · exact stands_sound (flags_stands hs { s.client with peerHungUp := true } rfl s.world)
  | drop i =>
    exact onClient_held h _ (fun _ => ends_closed steady_refl)
      (fun _ hs => closed_sound (stands_kept hs))
  | elsewhere world => exact ⟨l,elsewhere_held h _⟩

theorem start_held (w0 : W) : Held E (startWorker w0) [] := by
  refine ⟨⟨queued_empty,Nat.zero_le _,Nat.zero_le _,(fun _ ha => nomatch ha),fun _ _ hp => ?_⟩,
    fun _ => ⟨fair_nil,(fun hc => nomatch hc),fun hc => nomatch hc⟩⟩
  cases hp

theorem run_held (w0 : W) (actions : List (Action W)) : ∃ l, Held E (run E w0 actions) l := by
  have hfold : ∀ (w : Worker W) (l : List ℕ), Held E w l →
      ∃ l', Held E (actions.foldl (step E) w) l' := by
    induction actions with
    | nil => exact fun w l h => ⟨l,h⟩
    | cons action actions ih =>
      intro w l h
      obtain ⟨l',h'⟩ := step_held h action
      exact ih _ l' h'
  exact hfold _ [] (start_held w0)

/-! What the runs keep. -/

/-- Replies to the request at a place of the stream. -/
def repliesAt (acc : Account) (offset : ℕ) : ℕ :=
  acc.served.countP (fun served => decide (served.offset = offset))

/-- A request that was ever put off waits without a reply, or has one reply and waits no more. -/
def Accounted (identity : Identity) (slot : Slot W) : Prop :=
  ∃ acc, audit identity slot.log = some acc ∧
    acc.replies = slot.handed++read slot.client.output slot.client.outputSent
      (slot.client.outputUsed-slot.client.outputSent) ∧
    ∀ offset args before after, Event.executed offset args none before after ∈ slot.log →
      (slot.deferredMiss ≠ none ∧ acc.putOff = some (offset,args) ∧ repliesAt acc offset = 0) ∨
        (acc.putOff ≠ some (offset,args) ∧ repliesAt acc offset = 1)

theorem count_increasing (l : List Served) (h : l.Pairwise (fun x y => x.offset < y.offset))
    (offset : ℕ) (hmem : ∃ served ∈ l, served.offset = offset) :
    l.countP (fun served => decide (served.offset = offset)) = 1 := by
  induction l with
  | nil =>
    obtain ⟨served,hs,-⟩ := hmem
    cases hs
  | cons x l ih =>
    obtain ⟨hx,hl⟩ := List.pairwise_cons.mp h
    rw [List.countP_cons]
    by_cases hfirst : x.offset = offset
    · have hrest : l.countP (fun served => decide (served.offset = offset)) = 0 := by
        rw [List.countP_eq_zero]
        intro y hy hoffset
        have := hx y hy
        rw [decide_eq_true_eq] at hoffset
        omega
      rw [hrest, if_pos (by simpa using hfirst)]
    · obtain ⟨served,hs,hoffset⟩ := hmem
      rcases List.mem_cons.mp hs with rfl | hs
      · exact absurd hoffset hfirst
      · rw [ih hl ⟨served,hs,hoffset⟩, if_neg (by simpa using hfirst)]

theorem good_accounted (h : Good E (attach w i)) (hconnected : (w.slots i).connected = true) :
    Accounted E.identity (w.slots i) := by
  obtain ⟨acc,hc,hw,hs⟩ := h.stands hconnected
  refine ⟨acc,hc.audited,hw.buffered,fun offset args before after he => ?_⟩
  have hnone : ∀ offset args, acc.putOff = some (offset,args) → repliesAt acc offset = 0 := by
    intro offset args hput
    unfold repliesAt
    rw [List.countP_eq_zero]
    intro served hserved hoffset
    have := (hc.waiting offset args hput).2.2 served hserved
    rw [decide_eq_true_eq] at hoffset
    omega
  rcases hc.placed _ he with hserved | ⟨hput,-⟩
  · have hone := count_increasing acc.served hc.increasing offset hserved
    refine Or.inr ⟨fun hput => ?_,hone⟩
    have hzero := hnone offset args hput
    unfold repliesAt at hzero
    omega
  · refine Or.inl ⟨fun hp => ?_,hput,hnone offset args hput⟩
    unfold Settled at hs
    simp only [attach, view, hp, Option.map_none] at hs
    rw [hput] at hs
    cases hs

/-- The queue of a worker in order, with its cells in the list `l`. -/
structure Orderly (E : Setup W D) (w : Worker W) (l : List ℕ) : Prop where
  linked : Linked w.queue.next w.queue.head w.queue.tail l
  count : w.queue.count = l.length ∧ w.queue.count ≤ E.maxDeferredMisses
  bytes : w.queue.bytes = requestBytes w.queue l ∧ w.queue.bytes ≤ deferredRequestBytesMax
  client : ∀ a ∈ l, (w.slots (w.queue.misses a).client).connected = true ∧
    (w.slots (w.queue.misses a).client).deferredMiss = some a ∧
    (w.queue.misses a).requestOffset = (w.slots (w.queue.misses a).client).client.inputStart
  single : ∀ i a, (w.slots i).deferredMiss = some a → a ∈ l ∧ (w.queue.misses a).client = i
  deadline : ∀ i, (w.slots i).connected = true → AtRest (attach w i)
  fair : ∀ i, Fair (w.slots i).log
  accounted : ∀ i, (w.slots i).connected = true → Accounted E.identity (w.slots i)

/-- After every run of clients without TLS the queue is in order: the list is without cycles and
ends with its tail, the count and the bytes are right and within their limits, the cells are
those of the open clients that wait. A request asks for the queue with one deadline all along, is
turned away at most the first time, and leaves with one reply or with its client. -/
theorem queue_orderly (E : Setup W D) (w0 : W) (actions : List (Action W)) :
    ∃ l, Orderly E (run E w0 actions) l := by
  obtain ⟨l,h⟩ := run_held (E := E) w0 actions
  refine ⟨l,h.queued.linked,⟨h.queued.count,h.count⟩,⟨h.queued.bytes,h.bytes⟩,fun a ha => ?_,
    fun i a hp => ⟨(h.points i a hp).1,(h.points i a hp).2.1⟩,fun i => (h.good i).rest,
    fun i => (h.good i).fair,fun i => good_accounted (h.good i)⟩
  have hp := h.owner a ha
  obtain ⟨-,-,hconnected⟩ := h.points _ a hp
  refine ⟨hconnected,hp,?_⟩
  obtain ⟨acc,-,-,hs⟩ := (h.good _).stands hconnected
  unfold Settled at hs
  simp only [attach, view, hp, Option.map_some] at hs
  exact hs.2.1

end PgLocalCache.DeferredRuns
