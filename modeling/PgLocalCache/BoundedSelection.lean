import Mathlib.Data.List.Sort
import Mathlib.Tactic

/-!
# Keeping the least items of a sequence

Items arrive one at a time. A list of bounded length, the largest key first,
keeps the ones with the least keys; among equal keys the older items stay.
-/

namespace PgLocalCache.BoundedSelection

variable {α K : Type} [LinearOrder K] (key : α → K)

def settle (c : α) (kept : List α) : List α := kept.orderedInsert (fun a b => key b ≤ key a) c

def offer (k : ℕ) (c : α) (kept : List α) : List α :=
  match kept with
  | [] => [c]
  | x::rest =>
    if kept.length = k then
      if key x ≤ key c then kept else settle key c rest
    else settle key c kept

/-- The kept items are `k` least ones of those seen. -/
structure Selects (k : ℕ) (seen kept : List α) : Prop where
  falls : kept.Pairwise (fun a b => key b ≤ key a)
  size : kept.length = min k seen.length
  rest : ∃ dropped, (kept++dropped).Perm seen ∧ ∀ x ∈ kept, ∀ d ∈ dropped, key x ≤ key d

variable {key} {k : ℕ} {seen kept : List α}

theorem settle_falls (c : α) (h : kept.Pairwise (fun a b => key b ≤ key a)) :
    (settle key c kept).Pairwise (fun a b => key b ≤ key a) :=
  haveI : Std.Total (fun a b : α => key b ≤ key a) := ⟨fun a b => le_total (key b) (key a)⟩
  haveI : IsTrans α (fun a b : α => key b ≤ key a) := ⟨fun _ _ _ h h' => le_trans h' h⟩
  List.Pairwise.orderedInsert c kept h

theorem settle_perm (c : α) (kept : List α) : (settle key c kept).Perm (c::kept) :=
  List.perm_orderedInsert _ c kept

theorem selects_nil (k : ℕ) : Selects key k [] [] :=
  ⟨List.Pairwise.nil,by simp,[],List.Perm.refl _,by simp⟩

theorem selects_offer (c : α) (hk : 0 < k) (h : Selects key k seen kept) :
    Selects key k (seen++[c]) (offer key k c kept) := by
  obtain ⟨hfalls,hsize,dropped,hperm,hleast⟩ := h
  have hlen := hperm.length_eq
  rw [List.length_append] at hlen
  cases kept with
  | nil =>
    rw [List.length_nil] at hsize hlen
    have hseen : seen = [] := List.length_eq_zero_iff.mp (by omega)
    subst hseen
    refine ⟨List.pairwise_singleton _ _,?_,[],by simp [offer],by simp⟩
    simp [offer]
    omega
  | cons x rest =>
    obtain ⟨hx,hrest⟩ := List.pairwise_cons.mp hfalls
    have hsnoc : (seen++[c]).Perm (c::seen) := List.perm_append_singleton c seen
    unfold offer
    simp only
    by_cases hfull : (x::rest).length = k
    · rw [if_pos hfull]
      by_cases hc : key x ≤ key c
      · rw [if_pos hc]
        refine ⟨hfalls,by rw [List.length_append]; omega,dropped++[c],?_,fun y hy d hd => ?_⟩
        · rw [← List.append_assoc]
          exact hperm.append_right [c]
        · have hyx : key y ≤ key x := by
            rcases List.mem_cons.mp hy with rfl | hy
            · exact le_rfl
            · exact hx y hy
          rcases List.mem_append.mp hd with hd | hd
          · exact hleast y hy d hd
          · rw [List.mem_singleton.mp hd]
            exact le_trans hyx hc
      · rw [if_neg hc]
        have hlt : key c ≤ key x := le_of_lt (not_le.mp hc)
        refine ⟨settle_falls c hrest,?_,x::dropped,?_,fun y hy d hd => ?_⟩
        · rw [(settle_perm c rest).length_eq, List.length_append]
          simp only [List.length_cons, List.length_nil] at *
          omega
        · refine ((settle_perm c rest).append_right _).trans (List.Perm.trans ?_ hsnoc.symm)
          exact List.Perm.cons c (List.perm_middle.trans hperm)
        · have hyx : key y ≤ key x := by
            rcases List.mem_cons.mp ((settle_perm c rest).mem_iff.mp hy) with rfl | hy
            · exact hlt
            · exact hx y hy
          rcases List.mem_cons.mp hd with rfl | hd
          · exact hyx
          · exact le_trans hyx (hleast x (by simp) d hd)
    · rw [if_neg hfull]
      -- A list that is not full has dropped nothing yet.
      have hnone : dropped = [] := List.length_eq_zero_iff.mp (by omega)
      subst hnone
      refine ⟨settle_falls c hfalls,?_,[],?_,by simp⟩
      · rw [(settle_perm c _).length_eq, List.length_append]
        simp only [List.length_cons, List.length_nil] at *
        omega
      · rw [List.append_nil] at hperm ⊢
        exact (settle_perm c _).trans ((List.Perm.cons c hperm).trans hsnoc.symm)

/-- Read from its end, the list starts with the least items. -/
theorem selects_take (h : Selects key k seen kept) (n : ℕ) (hn : n ≤ k) :
    (kept.reverse.take n).length = min n seen.length ∧
    ∃ dropped, (kept.reverse.take n++dropped).Perm seen ∧
      ∀ x ∈ kept.reverse.take n, ∀ d ∈ dropped, key x ≤ key d := by
  obtain ⟨hfalls,hsize,dropped,hperm,hleast⟩ := h
  have hrev : kept.reverse.Pairwise (fun a b => key a ≤ key b) := List.pairwise_reverse.mpr hfalls
  rw [← List.take_append_drop n kept.reverse, List.pairwise_append] at hrev
  refine ⟨?_,kept.reverse.drop n++dropped,?_,fun x hx d hd => ?_⟩
  · rw [List.length_take, List.length_reverse]
    omega
  · rw [← List.append_assoc, List.take_append_drop]
    exact ((List.reverse_perm kept).append_right dropped).trans hperm
  · rcases List.mem_append.mp hd with hd | hd
    · exact hrev.2.2 x hx d hd
    · exact hleast x (List.mem_reverse.mp (List.mem_of_mem_take hx)) d hd

end PgLocalCache.BoundedSelection
