import Mathlib.Data.List.Nodup
import Mathlib.Tactic

/-!
# Queues of linked cells

A queue is kept by the addresses of its first and its last cell, and each cell
holds the address of the next one. `Linked` says which list of cells this is. A
cell can be put at the end, the first one can be taken off, and one in the middle
can be cut out once the cell in front of it has been found.
-/

namespace PgLocalCache.LinkedQueue

variable {α : Type}

/-- From `start` the links lead through the cells of `l` to `stop`. -/
def Path (next : α → Option α) : Option α → List α → Option α → Prop
  | start, [], stop => start = stop
  | start, a::l, stop => start = some a ∧ Path next (next a) l stop

structure Linked (next : α → Option α) (head tail : Option α) (l : List α) : Prop where
  path : Path next head l none
  last : tail = l.getLast?
  nodup : l.Nodup

variable {next next' : α → Option α} {head tail start stop : Option α} {l l1 l2 : List α} {a : α}

theorem path_congr (h : Path next start l stop) (hn : ∀ x ∈ l, next' x = next x) :
    Path next' start l stop := by
  induction l generalizing start with
  | nil => exact h
  | cons a l ih =>
    refine ⟨h.1,?_⟩
    rw [hn a (by simp)]
    exact ih h.2 (fun x hx => hn x (by simp [hx]))

theorem path_append : Path next start (l1++l2) stop ↔
    ∃ middle, Path next start l1 middle ∧ Path next middle l2 stop := by
  induction l1 generalizing start with
  | nil => exact ⟨fun h => ⟨start,rfl,h⟩,fun ⟨_,hm,h⟩ => by cases hm; exact h⟩
  | cons a l1 ih =>
    constructor
    · rintro ⟨hstart,h⟩
      obtain ⟨middle,hfront,hback⟩ := ih.mp h
      exact ⟨middle,⟨hstart,hfront⟩,hback⟩
    · rintro ⟨middle,⟨hstart,hfront⟩,hback⟩
      exact ⟨hstart,ih.mpr ⟨middle,hfront,hback⟩⟩

theorem path_head (h : Path next start (a::l) stop) : start = some a := h.1

theorem path_start (h : Path next start l none) : start = l.head? := by
  cases l with
  | nil => exact h
  | cons a l => exact h.1

theorem path_turn (h : Path next start (l++[a]) stop) (hn : ∀ x ∈ l, next' x = next x) :
    Path next' start (l++[a]) (next' a) := by
  obtain ⟨middle,hfront,hback⟩ := path_append.mp h
  exact path_append.mpr ⟨middle,path_congr hfront hn,hback.1,rfl⟩

theorem linked_nil : Linked next none none [] := ⟨rfl,rfl,List.nodup_nil⟩

theorem linked_head (h : Linked next head tail l) : head = l.head? := path_start h.path

theorem linked_push (h : Linked next head tail l) (ha : a ∉ l)
    (hkept : ∀ x ∈ l, tail ≠ some x → next' x = next x)
    (hlast : ∀ x, tail = some x → next' x = some a) (hnew : next' a = none) :
    Linked next' (if tail = none then some a else head) (some a) (l++[a]) := by
  have hnodup : (l++[a]).Nodup := by
    rw [List.nodup_append]
    refine ⟨h.nodup,List.nodup_singleton a,fun x hx y hy => ?_⟩
    rw [List.mem_singleton.mp hy]
    exact fun he => ha (he ▸ hx)
  refine ⟨?_,List.getLast?_concat.symm,hnodup⟩
  have hend : Path next' (some a) [a] none := ⟨rfl,hnew⟩
  have hl := h.last
  rcases List.eq_nil_or_concat l with rfl | ⟨front,x,rfl⟩
  · have hnone : tail = none := hl
    rw [if_pos hnone]
    exact hend
  · rw [List.concat_eq_append] at *
    rw [List.getLast?_concat] at hl
    rw [if_neg (by simp [hl])]
    refine path_append.mpr ⟨some a,?_,hend⟩
    rw [← hlast x hl]
    refine path_turn h.path (fun y hy => hkept y (by simp [hy]) ?_)
    rw [hl, Ne, Option.some.injEq]
    rintro rfl
    exact (List.nodup_append.mp h.nodup).2.2 x hy x (by simp) rfl

theorem linked_pop (h : Linked next head tail (a::l)) :
    Linked next (next a) (if next a = none then none else tail) l := by
  refine ⟨h.path.2,?_,(List.nodup_cons.mp h.nodup).2⟩
  have hstart := path_start h.path.2
  rw [hstart, h.last]
  cases l with
  | nil => rfl
  | cons b l => simp

theorem linked_cut [DecidableEq α] (h : Linked next head tail (l1++a::l2))
    (hkept : ∀ x ∈ l1++l2, l1.getLast? ≠ some x → next' x = next x)
    (hcut : ∀ x, l1.getLast? = some x → next' x = next a) :
    Linked next' (if l1.getLast? = none then next a else head)
      (if tail = some a then l1.getLast? else tail) (l1++l2) := by
  obtain ⟨middle,hfront,hmid,hback⟩ := path_append.mp h.path
  have hnodup : (l1++l2).Nodup :=
    h.nodup.sublist (List.sublist_append_right [a] l2 |>.append_left l1)
  have hapart : ∀ x ∈ l1, ∀ y ∈ a::l2, x ≠ y := (List.nodup_append.mp h.nodup).2.2
  have hback' : Path next' (next a) l2 none := by
    refine path_congr hback (fun x hx => hkept x (by simp [hx]) (fun he => ?_))
    exact hapart x (List.mem_of_getLast? he) x (by simp [hx]) rfl
  refine ⟨?_,?_,hnodup⟩
  · rcases List.eq_nil_or_concat l1 with rfl | ⟨front,x,rfl⟩
    · exact hback'
    · rw [List.concat_eq_append] at *
      have hx : (front++[x]).getLast? = some x := List.getLast?_concat
      rw [hx, if_neg (by simp)]
      refine path_append.mpr ⟨next a,?_,hback'⟩
      rw [← hcut x hx]
      have hfronts : (front++[x]).Nodup := (List.nodup_append.mp h.nodup).1
      refine path_turn hfront (fun y hy => hkept y (by simp [hy]) ?_)
      rw [hx, Ne, Option.some.injEq]
      rintro rfl
      exact (List.nodup_append.mp hfronts).2.2 x hy x (by simp) rfl
  · have hlast := h.last
    cases l2 with
    | nil =>
      rw [List.getLast?_concat] at hlast
      rw [if_pos hlast, List.append_nil]
    | cons b l2 =>
      have hend : (l1++a::b::l2).getLast? = (b::l2).getLast? := by
        rw [List.getLast?_append, List.getLast?_cons_cons]
        simp [List.getLast?_cons]
      have hend' : (l1++b::l2).getLast? = (b::l2).getLast? := by
        rw [List.getLast?_append]
        simp [List.getLast?_cons]
      rw [hend] at hlast
      rw [hend', ← hlast, if_neg]
      intro he
      have hmem : a ∈ b::l2 := List.mem_of_getLast? (hlast.symm.trans he)
      exact (List.nodup_cons.mp (List.nodup_append.mp h.nodup).2.1).1 hmem

/-- The loop that looks for the cell in front of `target`, with the cell passed last. -/
def findPrevious [DecidableEq α] (next : α → Option α) (target : α) :
    ℕ → Option α → Option α → Option α
  | 0, previous, _ => previous
  | _+1, previous, none => previous
  | fuel+1, previous, some current =>
    if current = target then previous
    else findPrevious next target fuel (some current) (next current)

theorem findPrevious_path [DecidableEq α] (fuel : ℕ) (previous : Option α)
    (h : Path next start (l1++a::l2) stop) (ha : a ∉ l1) (hfuel : l1.length < fuel) :
    findPrevious next a fuel previous start = l1.getLast?.or previous := by
  induction l1 generalizing start previous fuel with
  | nil =>
    obtain ⟨fuel,rfl⟩ : ∃ n, fuel = n+1 := ⟨fuel-1,by omega⟩
    rw [path_head h, findPrevious, if_pos rfl]
    rfl
  | cons b l1 ih =>
    obtain ⟨fuel,rfl⟩ : ∃ n, fuel = n+1 := ⟨fuel-1,by omega⟩
    rw [List.mem_cons, not_or] at ha
    rw [List.length_cons] at hfuel
    rw [path_head h, findPrevious, if_neg (Ne.symm ha.1), ih fuel (some b) h.2 ha.2 (by omega),
      List.getLast?_cons]
    cases l1.getLast? with
    | none => rfl
    | some x => rfl

end PgLocalCache.LinkedQueue
