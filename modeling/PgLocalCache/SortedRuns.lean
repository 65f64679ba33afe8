import Mathlib.Tactic
import Mathlib.Data.List.TakeWhile

/-!
# Runs of equal rank in a sorted list

A list that is sorted by a rank splits at every rank into the smaller elements, one
run of that rank and the larger ones. `sweep` visits the runs one after the other,
each run in a section of its own, and stops at the first element of the rank `stop`
or at the first visit that fails.
-/

namespace PgLocalCache.SortedRuns

variable {α κ σ : Type} [LinearOrder κ]

def Ranked (rank : α → κ) (l : List α) : Prop := l.Pairwise (fun a b => rank a ≤ rank b)

theorem ranked_split {rank : α → κ} {l : List α} (h : Ranked rank l) (k : κ) :
    l = l.filter (fun a => rank a < k)++(l.filter (fun a => rank a = k)++
      l.filter (fun a => k < rank a)) := by
  induction l with
  | nil => rfl
  | cons a l ih =>
    obtain ⟨hfirst,hrest⟩ := List.pairwise_cons.mp h
    have hempty : ∀ q : α → Prop, [DecidablePred q] → (∀ b ∈ l, ¬q b) →
        l.filter (fun b => q b) = [] := by
      intro q _ hq
      exact List.filter_eq_nil_iff.mpr (fun b hb => by simpa using hq b hb)
    rcases lt_trichotomy (rank a) k with hlt | heq | hgt
    · have hne := ne_of_lt hlt
      have hle := not_lt_of_gt hlt
      simp only [List.filter_cons, hlt, hne, hle, decide_true, decide_false, if_true,
        Bool.false_eq_true, if_false, List.cons_append]
      exact congrArg (a::·) (ih hrest)
    · subst heq
      have hsmall : l.filter (fun b => rank b < rank a) = [] :=
        hempty (fun b => rank b < rank a) (fun b hb => not_lt_of_ge (hfirst b hb))
      have hl := ih hrest
      rw [hsmall, List.nil_append] at hl
      simp only [List.filter_cons, lt_irrefl, decide_true, decide_false, if_true,
        Bool.false_eq_true, if_false, hsmall, List.nil_append, List.cons_append]
      exact congrArg (a::·) hl
    · have hsmall : l.filter (fun b => rank b < k) = [] :=
        hempty (fun b => rank b < k) (fun b hb => not_lt_of_gt (lt_of_lt_of_le hgt (hfirst b hb)))
      have hequal : l.filter (fun b => rank b = k) = [] :=
        hempty (fun b => rank b = k) (fun b hb => ne_of_gt (lt_of_lt_of_le hgt (hfirst b hb)))
      have hl := ih hrest
      rw [hsmall, hequal, List.nil_append, List.nil_append] at hl
      have hne := ne_of_gt hgt
      have hle := not_lt_of_gt hgt
      simp only [List.filter_cons, hgt, hne, hle, decide_true, decide_false, if_true,
        Bool.false_eq_true, if_false, hsmall, hequal, List.nil_append]
      exact congrArg (a::·) hl

/-! Sweeping. -/

structure Sweep (σ α κ : Type) where
  ok : Bool
  state : σ
  sections : List (κ × List α)

def visitRun (visit : α → σ → Bool × σ) : List α → σ → Bool × σ × List α
  | [], s => (true,s,[])
  | a::run, s =>
    match visit a s with
    | (true,s') =>
      let (ok,last,seen) := visitRun visit run s'
      (ok,last,a::seen)
    | (false,s') => (false,s',[a])

def sweep (rank : α → κ) (stop : κ) (visit : α → σ → Bool × σ) : ℕ → List α → σ → Sweep σ α κ
  | 0, _, s => ⟨true,s,[]⟩
  | _+1, [], s => ⟨true,s,[]⟩
  | n+1, a::l, s =>
    if rank a = stop then ⟨true,s,[]⟩
    else
      let (ok,s',seen) := visitRun visit (a::l.takeWhile (fun b => rank b = rank a)) s
      if ok then
        let rest := sweep rank stop visit n (l.dropWhile (fun b => rank b = rank a)) s'
        ⟨rest.ok,rest.state,(rank a,seen)::rest.sections⟩
      else ⟨false,s',[(rank a,seen)]⟩

def visited (w : Sweep σ α κ) : List α := w.sections.flatMap Prod.snd

def visitState (visit : α → σ → Bool × σ) (l : List α) (s : σ) : σ :=
  l.foldl (fun s a => (visit a s).2) s

/-- Which elements a run of visits has reached and where it has stopped. -/
structure Reached (visit : α → σ → Bool × σ) (l : List α) (s : σ) (ok : Bool) (last : σ)
    (seen : List α) : Prop where
  front : seen <+: l
  complete : ok = true → seen = l
  folded : last = visitState visit seen s
  failed : ok = false → ∃ before a, seen = before++[a] ∧
    (visit a (visitState visit before s)).1 = false

variable {rank : α → κ} {stop : κ} {visit : α → σ → Bool × σ}

theorem visitRun_reached (visit : α → σ → Bool × σ) (l : List α) (s : σ) :
    Reached visit l s (visitRun visit l s).1 (visitRun visit l s).2.1 (visitRun visit l s).2.2 := by
  induction l generalizing s with
  | nil => exact ⟨List.prefix_rfl,fun _ => rfl,rfl,fun h => by cases h⟩
  | cons a l ih =>
    cases hv : visit a s with
    | mk ok s' =>
      cases ok with
      | true =>
        have hrun : visitRun visit (a::l) s = ((visitRun visit l s').1,(visitRun visit l s').2.1,
            a::(visitRun visit l s').2.2) := by rw [visitRun, hv]
        obtain ⟨hfront,hcomplete,hfolded,hfailed⟩ := ih s'
        rw [hrun]
        refine ⟨List.prefix_cons_inj a |>.mpr hfront,?_,?_,?_⟩
        · intro h
          exact congrArg (a::·) (hcomplete h)
        · rw [visitState, List.foldl_cons, hv]
          exact hfolded
        · intro h
          obtain ⟨before,b,hseen,hfalse⟩ := hfailed h
          refine ⟨a::before,b,by rw [List.cons_append]; exact congrArg (a::·) hseen,?_⟩
          rw [visitState, List.foldl_cons, hv]
          exact hfalse
      | false =>
        have hrun : visitRun visit (a::l) s = (false,s',[a]) := by rw [visitRun, hv]
        rw [hrun]
        refine ⟨⟨l,rfl⟩,fun h => (by cases h),?_,fun _ => ⟨[],a,rfl,?_⟩⟩
        · rw [visitState, List.foldl_cons, hv]
          rfl
        · rw [visitState, List.foldl_nil, hv]

theorem visitRun_ok (hv : ∀ a s, (visit a s).1 = true) (l : List α) (s : σ) :
    (visitRun visit l s).1 = true := by
  induction l generalizing s with
  | nil => rfl
  | cons a l ih =>
    have hok := hv a s
    cases h : visit a s with
    | mk ok s' =>
      rw [h] at hok
      cases hok
      rw [visitRun, h]
      exact ih s'

theorem visitRun_seen (l : List α) (s : σ) : ∀ a ∈ (visitRun visit l s).2.2, a ∈ l :=
  fun _ ha => (visitRun_reached visit l s).front.subset ha

/-- In a sorted list the elements that are left behind a run have a larger rank. -/
theorem dropWhile_larger {a : α} {l : List α} (h : Ranked rank (a::l)) :
    ∀ b ∈ l.dropWhile (fun b => rank b = rank a), rank a < rank b := by
  obtain ⟨hfirst,hrest⟩ := List.pairwise_cons.mp h
  induction l with
  | nil => simp
  | cons c l ih =>
    obtain ⟨hc,hl⟩ := List.pairwise_cons.mp hrest
    rw [List.dropWhile_cons]
    split
    · exact ih (List.pairwise_cons.mpr ⟨fun b hb => hfirst b (.tail _ hb),hl⟩)
        (fun b hb => hfirst b (.tail _ hb)) hl
    · rename_i hne
      have hlt : rank a < rank c :=
        lt_of_le_of_ne (hfirst c (.head _)) (fun h => hne (by simp [h]))
      intro b hb
      rcases List.mem_cons.mp hb with rfl | hb
      · exact hlt
      · exact lt_of_lt_of_le hlt (hc b hb)

theorem sweep_sections (stop : κ) (visit : α → σ → Bool × σ) (n : ℕ) (l : List α) (s : σ)
    (h : Ranked rank l) :
    ((sweep rank stop visit n l s).sections.map Prod.fst).Pairwise (· < ·) ∧
      (∀ sec ∈ (sweep rank stop visit n l s).sections,
        (∀ a ∈ sec.2, rank a = sec.1) ∧ ∃ a ∈ l, rank a = sec.1) := by
  induction n generalizing l s with
  | zero => simp [sweep]
  | succ n ih =>
    cases l with
    | nil => simp [sweep]
    | cons a l =>
      have hrun : ∀ b ∈ (visitRun visit (a::l.takeWhile (fun b => rank b = rank a)) s).2.2,
          rank b = rank a := by
        intro b hb
        rcases List.mem_cons.mp (visitRun_seen _ s b hb) with rfl | hb
        · rfl
        · simpa using List.mem_takeWhile_imp hb
      rw [sweep]
      split
      · simp
      · simp only
        split
        · have hdrop : Ranked rank (l.dropWhile (fun b => rank b = rank a)) :=
            (List.pairwise_cons.mp h).2.sublist (List.dropWhile_sublist _)
          obtain ⟨hsorted,hall⟩ := ih _ (visitRun visit
            (a::l.takeWhile (fun b => rank b = rank a)) s).2.1 hdrop
          refine ⟨?_,?_⟩
          · rw [List.map_cons]
            refine List.pairwise_cons.mpr ⟨?_,hsorted⟩
            intro k hk
            obtain ⟨sec,hsec,rfl⟩ := List.mem_map.mp hk
            obtain ⟨b,hb,heq⟩ := (hall sec hsec).2
            exact heq ▸ dropWhile_larger h b hb
          · intro sec hsec
            rcases List.mem_cons.mp hsec with rfl | hsec
            · exact ⟨hrun,a,.head _,rfl⟩
            · obtain ⟨hsame,b,hb,heq⟩ := hall sec hsec
              exact ⟨hsame,b,.tail _ ((List.dropWhile_sublist _).subset hb),heq⟩
        · refine ⟨by simp,?_⟩
          intro sec hsec
          obtain rfl := List.mem_singleton.mp hsec
          exact ⟨hrun,a,.head _,rfl⟩

/-- The elements in front of the rank `stop`, as a sweep meets them. -/
def eligible (rank : α → κ) (stop : κ) (l : List α) : List α := l.filter (fun a => rank a ≠ stop)

theorem eligible_cons_run {a : α} {l : List α} (hne : rank a ≠ stop) :
    eligible rank stop (a::l) = (a::l.takeWhile (fun b => rank b = rank a))++
      eligible rank stop (l.dropWhile (fun b => rank b = rank a)) := by
  have htake : eligible rank stop (a::l.takeWhile (fun b => rank b = rank a)) =
      a::l.takeWhile (fun b => rank b = rank a) := by
    refine List.filter_eq_self.mpr (fun b hb => ?_)
    rcases List.mem_cons.mp hb with rfl | hb
    · simpa using hne
    · have heq : rank b = rank a := by simpa using List.mem_takeWhile_imp hb
      simpa [heq] using hne
  calc eligible rank stop (a::l)
      = eligible rank stop ((a::l.takeWhile (fun b => rank b = rank a))++
          l.dropWhile (fun b => rank b = rank a)) := by
        rw [List.cons_append, List.takeWhile_append_dropWhile]
    _ = _ := by rw [eligible, List.filter_append, ← eligible, htake, eligible]

theorem eligible_stop {a : α} {l : List α} (h : Ranked rank (a::l)) (hstop : ∀ b, rank b ≤ stop)
    (ha : rank a = stop) : eligible rank stop (a::l) = [] := by
  refine List.filter_eq_nil_iff.mpr (fun b hb => ?_)
  rcases List.mem_cons.mp hb with rfl | hb
  · simp [ha]
  · have hle := (List.pairwise_cons.mp h).1 b hb
    have heq : rank b = stop := le_antisymm (hstop b) (ha ▸ hle)
    simp [heq]

theorem visitState_append (l more : List α) (s : σ) :
    visitState visit (l++more) s = visitState visit more (visitState visit l s) :=
  List.foldl_append

theorem sweep_reached (hstop : ∀ b, rank b ≤ stop) (n : ℕ) (l : List α) (s : σ)
    (hn : l.length ≤ n) (h : Ranked rank l) :
    Reached visit (eligible rank stop l) s (sweep rank stop visit n l s).ok
      (sweep rank stop visit n l s).state (visited (sweep rank stop visit n l s)) := by
  induction n generalizing l s with
  | zero =>
    obtain rfl : l = [] := List.length_eq_zero_iff.mp (by omega)
    exact ⟨List.prefix_rfl,fun _ => rfl,rfl,fun h => by cases h⟩
  | succ n ih =>
    cases l with
    | nil => exact ⟨List.prefix_rfl,fun _ => rfl,rfl,fun h => by cases h⟩
    | cons a l =>
      rw [sweep]
      split
      · rename_i ha
        rw [eligible_stop h hstop ha]
        exact ⟨List.prefix_rfl,fun _ => rfl,rfl,fun h => by cases h⟩
      · rename_i ha
        have hrun := visitRun_reached visit (a::l.takeWhile (fun b => rank b = rank a)) s
        rw [eligible_cons_run ha]
        generalize hv : visitRun visit (a::l.takeWhile (fun b => rank b = rank a)) s = r at hrun
        obtain ⟨ok,s',seen⟩ := r
        simp only at hrun ⊢
        split
        · rename_i hok
          have hdrop : Ranked rank (l.dropWhile (fun b => rank b = rank a)) :=
            (List.pairwise_cons.mp h).2.sublist (List.dropWhile_sublist _)
          have hlen : (l.dropWhile (fun b => rank b = rank a)).length ≤ n := by
            have hsub := (List.dropWhile_sublist (fun b => decide (rank b = rank a))
              (l := l)).length_le
            rw [List.length_cons] at hn
            omega
          obtain ⟨hfront,hcomplete,hfolded,hfailed⟩ := ih _ s' hlen hdrop
          have hseen := hrun.complete hok
          have hs' := hrun.folded
          subst hseen
          refine ⟨?_,?_,?_,?_⟩
          · exact (List.prefix_append_right_inj _).mpr hfront
          · intro hrest
            exact congrArg (_++·) (hcomplete hrest)
          · rw [visited, List.flatMap_cons, visitState_append, ← hs']
            exact hfolded
          · intro hrest
            obtain ⟨before,b,hb,hfalse⟩ := hfailed hrest
            refine ⟨(a::l.takeWhile (fun b => rank b = rank a))++before,b,?_,?_⟩
            · rw [visited, List.flatMap_cons, List.append_assoc]
              exact congrArg (_++·) hb
            · rw [visitState_append, ← hs']
              exact hfalse
        · rename_i hok
          obtain ⟨hfront,_,hfolded,hfailed⟩ := hrun
          have hvisited : visited (⟨false,s',[(rank a,seen)]⟩ : Sweep σ α κ) = seen := by
            simp [visited]
          rw [hvisited]
          refine ⟨hfront.trans (List.prefix_append _ _),fun h => (by cases h),hfolded,fun _ => ?_⟩
          exact hfailed (by simpa using hok)

theorem sweep_ok (hv : ∀ a s, (visit a s).1 = true) (n : ℕ) (l : List α) (s : σ) :
    (sweep rank stop visit n l s).ok = true := by
  induction n generalizing l s with
  | zero => rfl
  | succ n ih =>
    cases l with
    | nil => rfl
    | cons a l =>
      rw [sweep]
      split
      · rfl
      · simp only [visitRun_ok hv, if_true]
        exact ih _ _

end PgLocalCache.SortedRuns
