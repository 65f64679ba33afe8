import PgLocalCache.LinkedQueue
import PgLocalCache.FastPath

/-!
# The queue of deferred misses of pg_local_cache_worker.c

A worker keeps the requests that wait for a locked relation in a linked queue with
a count and a byte total. The fields of the allocated misses are held in one map,
their `next` pointers in another. `Queued` says which list of addresses a queue
stands for, and each operation is one on that list.
-/

namespace PgLocalCache.DeferredQueue

open LinkedQueue FastPath
open Function (update update_of_ne update_self)

def deferredRequestBytesMax : ℕ := 512*1024
def deferredRetriesPerTurn : ℕ := 8

/-- A deferred miss without its `next` pointer; `client` is the index of the client. -/
structure Miss where
  client : ℕ
  requestOffset : ℕ
  requestLength : ℕ
  deadline : ℕ
  mappingGeneration : ℕ
  deriving DecidableEq, Repr

/-- What the client of a miss sees of it. -/
def Miss.request (miss : Miss) : DeferredMiss :=
  ⟨miss.requestOffset,miss.requestLength,miss.deadline⟩

structure Queue where
  misses : ℕ → Miss
  next : ℕ → Option ℕ
  allocated : Finset ℕ
  head : Option ℕ
  tail : Option ℕ
  count : ℕ
  bytes : ℕ

def emptyQueue : Queue where
  misses := fun _ => ⟨0,0,0,0,0⟩
  next := fun _ => none
  allocated := ∅
  head := none
  tail := none
  count := 0
  bytes := 0

/-- `palloc` hands out an address that is not in use. -/
structure Allocator where
  pick : Finset ℕ → ℕ
  fresh : ∀ allocated, pick allocated ∉ allocated

/-- The checks of `enqueue_deferred_miss` behind the deadline; `held` says that the client has a
miss already. -/
def hasRoom (maxDeferredMisses : ℕ) (q : Queue) (held : Bool) (requestLength : ℕ) : Bool :=
  !(held || decide (maxDeferredMisses ≤ q.count) ||
    decide (deferredRequestBytesMax-q.bytes < requestLength))

/-- The rest of `enqueue_deferred_miss`: a new miss becomes the last one. -/
def linkMiss (q : Queue) (a : ℕ) (miss : Miss) : Queue where
  misses := update q.misses a miss
  next :=
    match q.tail with
    | none => update q.next a none
    | some last => update (update q.next a none) last (some a)
  allocated := insert a q.allocated
  head := if q.tail = none then some a else q.head
  tail := some a
  count := q.count+1
  bytes := q.bytes+miss.requestLength

def freeMiss (q : Queue) (a : ℕ) : Queue := { q with
  allocated := q.allocated.erase a
  count := q.count-1
  bytes := q.bytes-(q.misses a).requestLength }

/-- `remove_deferred_miss`; the search ends within `count` cells. -/
def removeDeferredMiss (q : Queue) (a : ℕ) : Queue :=
  let previous := findPrevious q.next a q.count none q.head
  freeMiss { q with
    next :=
      match previous with
      | none => q.next
      | some before => update q.next before (q.next a)
    head := if previous = none then q.next a else q.head
    tail := if q.tail = some a then previous else q.tail } a

def rotateDeferredMissHead (q : Queue) : Queue :=
  match q.head with
  | none => q
  | some a =>
    match q.next a with
    | none => q
    | some b => { q with
        next :=
          match q.tail with
          | none => update q.next a none
          | some last => update (update q.next a none) last (some a)
        head := some b
        tail := some a }

/-- The head of the queue is taken off and freed. -/
def takeHead (q : Queue) (a : ℕ) : Queue :=
  freeMiss { q with
    head := q.next a
    tail := if q.next a = none then none else q.tail } a

def requestBytes (q : Queue) (l : List ℕ) : ℕ :=
  (l.map (fun a => (q.misses a).requestLength)).sum

/-- The queue stands for the list of addresses `l`. -/
structure Queued (q : Queue) (l : List ℕ) : Prop where
  linked : Linked q.next q.head q.tail l
  count : q.count = l.length
  bytes : q.bytes = requestBytes q l
  allocated : q.allocated = l.toFinset

variable {q : Queue} {l l1 l2 : List ℕ} {a : ℕ} {miss : Miss}

theorem queued_empty : Queued emptyQueue [] := ⟨linked_nil,rfl,rfl,rfl⟩

theorem queued_fresh (h : Queued q l) (alloc : Allocator) : alloc.pick q.allocated ∉ l := by
  intro hmem
  apply alloc.fresh q.allocated
  rw [h.allocated, List.mem_toFinset, ← h.allocated]
  exact hmem

theorem requestBytes_congr {q' : Queue} (hm : ∀ x ∈ l, q'.misses x = q.misses x) :
    requestBytes q' l = requestBytes q l := by
  unfold requestBytes
  rw [List.map_congr_left (fun x hx => by rw [hm x hx])]

theorem linkMiss_other (x : ℕ) (hx : x ≠ a) : (linkMiss q a miss).misses x = q.misses x :=
  update_of_ne hx _ _

theorem linkMiss_self : (linkMiss q a miss).misses a = miss := update_self _ _ _

theorem queued_link (h : Queued q l) (ha : a ∉ l) : Queued (linkMiss q a miss) (l++[a]) where
  linked := by
    apply linked_push h.linked ha
    · intro x hx hne
      have hxa : x ≠ a := fun he => ha (he ▸ hx)
      unfold linkMiss
      cases ht : q.tail with
      | none => exact update_of_ne hxa _ _
      | some last =>
        have hxl : x ≠ last := by
          rintro rfl
          exact hne ht
        simp only
        rw [update_of_ne hxl, update_of_ne hxa]
    · intro x hx
      simp only [linkMiss, hx, update_self]
    · unfold linkMiss
      cases ht : q.tail with
      | none => exact update_self _ _ _
      | some last =>
        have hal : a ≠ last := by
          rintro rfl
          exact ha (List.mem_of_getLast? (h.linked.last.symm.trans ht))
        simp only
        rw [update_of_ne hal, update_self]
  count := by
    rw [List.length_append, ← h.count]
    rfl
  bytes := by
    have hold : requestBytes (linkMiss q a miss) l = requestBytes q l :=
      requestBytes_congr (fun x hx => linkMiss_other x (fun he => ha (he ▸ hx)))
    have hnew : (linkMiss q a miss).bytes = q.bytes+miss.requestLength := rfl
    rw [hnew, h.bytes, ← hold]
    simp [requestBytes, linkMiss_self]
  allocated := by
    ext x
    simp [linkMiss, h.allocated]

theorem queued_freed {q' : Queue} (h : Queued q (l1++a::l2))
    (hl : Linked q'.next q'.head q'.tail (l1++l2)) (hm : q'.misses = q.misses)
    (ha : q'.allocated = q.allocated) (hc : q'.count = q.count) (hb : q'.bytes = q.bytes) :
    Queued (freeMiss q' a) (l1++l2) where
  linked := hl
  count := by
    have hcount := h.count
    rw [List.length_append, List.length_cons] at hcount
    simp only [freeMiss, hc, List.length_append]
    omega
  bytes := by
    have hbytes := h.bytes
    simp only [requestBytes, List.map_append, List.map_cons, List.sum_append, List.sum_cons]
      at hbytes
    simp only [freeMiss, requestBytes, List.map_append, List.sum_append, hm, hb]
    omega
  allocated := by
    have hnodup := h.linked.nodup
    rw [List.nodup_middle, List.nodup_cons] at hnodup
    ext x
    simp only [freeMiss, ha, h.allocated, Finset.mem_erase, List.mem_toFinset, List.mem_append,
      List.mem_cons]
    constructor
    · rintro ⟨hne,hx⟩
      tauto
    · intro hx
      refine ⟨?_,by tauto⟩
      rintro rfl
      exact hnodup.1 (List.mem_append.mpr hx)

theorem queued_remove (h : Queued q (l1++a::l2)) : Queued (removeDeferredMiss q a) (l1++l2) := by
  have hnodup := h.linked.nodup
  have hfront : a ∉ l1 := by
    intro ha
    exact (List.nodup_append.mp hnodup).2.2 a ha a (by simp) rfl
  have hprevious : findPrevious q.next a q.count none q.head = l1.getLast? := by
    have hcount := h.count
    rw [List.length_append, List.length_cons] at hcount
    rw [findPrevious_path q.count none h.linked.path hfront (by omega), Option.or_none]
  unfold removeDeferredMiss
  rw [hprevious]
  refine queued_freed h (linked_cut h.linked ?_ ?_) rfl rfl rfl rfl
  · intro x hx hne
    cases hlast : l1.getLast? with
    | none => rfl
    | some before =>
      have hxb : x ≠ before := by
        rintro rfl
        exact hne hlast
      exact update_of_ne hxb _ _
  · intro x hx
    simp only [hx]
    exact update_self _ _ _

theorem queued_head (h : Queued q l) : q.head = l.head? := linked_head h.linked

theorem queued_take (h : Queued q (a::l)) : Queued (takeHead q a) l := by
  have h' : Queued q ([]++a::l) := h
  exact queued_freed h' (linked_pop h.linked) rfl rfl rfl rfl

/-- The list behind a rotation of the head. -/
def rotated : List ℕ → List ℕ
  | [] => []
  | a::l => l++[a]

theorem mem_rotated (x : ℕ) : x ∈ rotated l ↔ x ∈ l := by
  cases l with
  | nil => rfl
  | cons a l => simp [rotated, or_comm]

theorem rotate_misses : (rotateDeferredMissHead q).misses = q.misses := by
  unfold rotateDeferredMissHead
  cases q.head with
  | none => rfl
  | some a =>
    simp only
    cases q.next a with
    | none => rfl
    | some b => rfl

theorem queued_rotate (h : Queued q l) : Queued (rotateDeferredMissHead q) (rotated l) := by
  have hhead := queued_head h
  cases l with
  | nil =>
    rw [List.head?_nil] at hhead
    unfold rotateDeferredMissHead
    rw [hhead]
    exact h
  | cons a l =>
    rw [List.head?_cons] at hhead
    have hrest := linked_pop h.linked
    have hstart := path_start h.linked.path.2
    obtain ⟨hout,hnodup⟩ := List.nodup_cons.mp h.linked.nodup
    unfold rotateDeferredMissHead
    rw [hhead]
    simp only
    cases l with
    | nil =>
      rw [List.head?_nil] at hstart
      rw [hstart]
      exact h
    | cons b l =>
      rw [List.head?_cons] at hstart
      rw [hstart, if_neg (by simp)] at hrest
      have htail : q.tail ≠ none := by
        rw [h.linked.last]
        simp
      obtain ⟨last,hlast⟩ := Option.ne_none_iff_exists'.mp htail
      have hal : a ≠ last := by
        rintro rfl
        exact hout (List.mem_of_getLast? (hrest.last.symm.trans hlast))
      have hpushed : Linked (update (update q.next a none) last (some a))
          (if q.tail = none then some a else some b) (some a) (b::l++[a]) := by
        refine linked_push hrest hout ?_ ?_ ?_
        · intro x hx hne
          have hxl : x ≠ last := by
            rintro rfl
            exact hne hlast
          have hxa : x ≠ a := fun he => hout (he ▸ hx)
          rw [update_of_ne hxl, update_of_ne hxa]
        · intro x hx
          rw [hlast, Option.some.injEq] at hx
          rw [hx, update_self]
        · rw [update_of_ne hal, update_self]
      rw [if_neg htail] at hpushed
      rw [hstart, hlast]
      refine ⟨hpushed,?_,?_,?_⟩
      · have := h.count
        simp only [rotated, List.length_append, List.length_cons, List.length_nil] at *
        omega
      · have := h.bytes
        simp only [rotated, requestBytes, List.map_append, List.sum_append, List.map_cons,
          List.sum_cons, List.map_nil, List.sum_nil] at *
        omega
      · rw [h.allocated]
        ext x
        rw [List.mem_toFinset, List.mem_toFinset, mem_rotated]

theorem hasRoom_iff (maxDeferredMisses : ℕ) (held : Bool) (requestLength : ℕ) :
    hasRoom maxDeferredMisses q held requestLength = true ↔ held = false ∧
      q.count < maxDeferredMisses ∧ requestLength ≤ deferredRequestBytesMax-q.bytes := by
  simp [hasRoom, and_assoc]

theorem hasRoom_again (maxDeferredMisses : ℕ) (h : Queued q (a::l))
    (hcount : q.count ≤ maxDeferredMisses) (hbytes : q.bytes ≤ deferredRequestBytesMax) :
    hasRoom maxDeferredMisses (takeHead q a) false (q.misses a).requestLength = true := by
  have hc := h.count
  have hb := h.bytes
  simp only [requestBytes, List.map_cons, List.sum_cons, List.length_cons] at hc hb
  rw [hasRoom_iff]
  simp only [takeHead, freeMiss, true_and]
  omega

end PgLocalCache.DeferredQueue
