import PgLocalCache.SectionCounts

/-!
# The shared counter of descriptors

The partitions run their sections side by side, each behind its own lock, and
meet only at the counter. The counter is the sum of what the partitions have
counted, what they have reserved and not yet counted, and what they have dropped
and not yet released. The capacities add up to the configured number of entries,
so the counter stays within it and no reservation is refused. A partition whose
section raised takes no further section here.
-/

namespace PgLocalCache.DescriptorCounter

open ByteMemory CacheState CacheEntries Outcome EventLog LockedSections
open PartitionModel PartitionInvariant SectionCounts
open CountedSections (Access CountM)

def partitionCapacity (total partition partitions : ℕ) : ℕ :=
  total/partitions+(if partition < total%partitions then 1 else 0)

theorem sum_capacity (total n : ℕ) : ∑ p : Fin n, partitionCapacity total p n ≤ total := by
  have hextra : ∑ p : Fin n, (if (p : ℕ) < total%n then 1 else 0) ≤ total%n := by
    rw [Fin.sum_univ_eq_sum_range (fun p => if p < total%n then 1 else 0), ← Finset.card_filter]
    refine le_trans (Finset.card_le_card (fun p hp => ?_)) (le_of_eq (Finset.card_range (total%n)))
    exact Finset.mem_range.mpr (Finset.mem_filter.mp hp).2
  have hdiv := Nat.div_add_mod total n
  simp only [partitionCapacity, Finset.sum_add_distrib, Finset.sum_const, Finset.card_univ,
    Fintype.card_fin, smul_eq_mul]
  omega

/-- The partitions of one cache as start-up lays them out. -/
structure Layout (n : ℕ) where
  cacheEntries : ℕ
  size : Fin n → PartitionSize
  memory : Fin n → Memory
  keyMemory : Fin n → Memory
  capacity : ∀ p, (size p).capacity = partitionCapacity cacheEntries p n
  cacheEntries_le : cacheEntries ≤ 2^24

/-- One access of the 64-bit counter; `granted` is the answer of a reservation. -/
def fire (limit : ℕ) : Access → ℕ → Option ℕ
  | .add granted, counter =>
    if granted = decide (counter < limit) then some ((counter+1)%2^64) else none
  | .undo, counter => some ((counter+(2^64-1))%2^64)
  | .release, counter => some ((counter+(2^64-1))%2^64)
  | .count, counter => some counter
  | .drop, counter => some counter

def scriptOf : EStateM.Result Fault (Logged Partition Access) OpResult → Script Partition Access
  | .ok _ s => ⟨s.2,s.1,true⟩
  | .error _ s => ⟨s.2,s.1,false⟩

def protocol (cfg : Settings) (hash : KeyTuple → ℕ) (limit : ℕ) :
    Protocol Partition ℕ Access Books where
  fire := fire limit
  note := note
  begins := fun P sc => ∃ op, sc = scriptOf (CountedSections.runOp cfg hash op (P,[]))

abbrev Cache (n : ℕ) := System (Fin n) Partition ℕ Access Books

def opening (P : Partition) : Books := ⟨P.entryCount,0,0⟩

def initial {n : ℕ} (L : Layout n) : Cache n where
  shared := 0
  own := fun p => partitionInit (L.size p) (L.memory p) (L.keyMemory p)
  books := fun _ => ⟨0,0,0⟩
  phase := fun _ => .free

section Contract

variable (cfg : Settings) (hash : KeyTuple → ℕ) (limit : ℕ) {n : ℕ} (cap : Fin n → ℕ)

theorem script_follows (p : Fin n) (P : Partition) (op : PartOp) (hr : PartRep P)
    (hcap : P.capacity = cap p) :
    ∃ b, Follows note (Allowed (cap p)) (opening P)
        (scriptOf (CountedSections.runOp cfg hash op (P,[]))).rest b ∧
      Fits (cap p) b (scriptOf (CountedSections.runOp cfg hash op (P,[]))).final ∧
      ((scriptOf (CountedSections.runOp cfg hash op (P,[]))).returned = true →
        (PartRep (scriptOf (CountedSections.runOp cfg hash op (P,[]))).final ∧
          (scriptOf (CountedSections.runOp cfg hash op (P,[]))).final.capacity = cap p) ∧
        b = opening (scriptOf (CountedSections.runOp cfg hash op (P,[]))).final) := by
  have hstart : Tracks (cap p) (opening P) (P,[]) 0 0 := by
    refine ⟨⟨rfl,hcap,?_⟩,rfl⟩
    have := EntryAdmission.entryCount_le hr.entries
    simp only [total]
    omega
  have hrun := tracks_and (CountedSections.runOp_erases cfg hash op)
    (ensures_mono (runOp_spec cfg op hr) (fun _ _ h => h.rep) (fun _ _ h => h))
    (runOp_tracks cfg hash op hr hstart)
  cases hres : CountedSections.runOp cfg hash op (P,[]) with
  | ok a s =>
    obtain ⟨hrep,ht⟩ := ensures_ok hrun a s hres
    exact ⟨_,ht.follows,ht.fits,fun _ => ⟨⟨hrep,ht.fits.capacity⟩,rfl⟩⟩
  | error e s =>
    obtain ⟨reserved,ht⟩ := ensures_error hrun e s hres
    exact ⟨_,ht.follows,ht.fits,(fun h => by cases h)⟩

def contract : Contract (protocol cfg hash limit) (Fin n) where
  ready := fun p P => PartRep P ∧ P.capacity = cap p
  opening := opening
  fits := fun p => Fits (cap p)
  allowed := fun p => Allowed (cap p)
  fits_note := fun _ _ _ h => h.2
  script := by
    rintro p P sc ⟨hr,hcap⟩ ⟨op,rfl⟩
    exact script_follows cfg hash cap p P op hr hcap

end Contract

section Counter

variable {cfg : Settings} {hash : KeyTuple → ℕ} {n : ℕ} {cap : Fin n → ℕ} {limit : ℕ}
  {S S' : Cache n}

theorem sum_books (books : Fin n → Books) (p : Fin n) (b : Books) :
    ∑ q, total (Function.update books p b q)+total (books p) =
      ∑ q, total (books q)+total b := by
  rw [← Finset.add_sum_erase _ _ (Finset.mem_univ p),
    ← Finset.add_sum_erase Finset.univ (fun q => total (books q)) (Finset.mem_univ p),
    Function.update_self]
  have hrest : ∑ q ∈ Finset.univ.erase p, total (Function.update books p b q) =
      ∑ q ∈ Finset.univ.erase p, total (books q) := by
    refine Finset.sum_congr rfl (fun q hq => ?_)
    rw [Function.update_of_ne (Finset.ne_of_mem_erase hq)]
  omega

theorem sum_total_le (h : ∀ p, Kept (contract cfg hash limit cap) S p) :
    ∑ p, total (S.books p) ≤ ∑ p, cap p :=
  Finset.sum_le_sum (fun p _ => (h p).fits.room)

theorem sum_total_lt (h : ∀ p, Kept (contract cfg hash limit cap) S p) (p : Fin n)
    (hp : total (S.books p) < cap p) : ∑ q, total (S.books q) < ∑ q, cap q :=
  Finset.sum_lt_sum (fun q _ => (h q).fits.room) ⟨p,Finset.mem_univ p,hp⟩

theorem allowed_next {p : Fin n} {k : Access} {P : Partition} {rest : List (Access × Partition)}
    {final : Partition} {returned : Bool} (h : Kept (contract cfg hash limit cap) S p)
    (hbusy : S.phase p = .busy ⟨(k,P)::rest,final,returned⟩) :
    Allowed (cap p) (S.books p) (k,P) := by
  obtain ⟨b,⟨hallowed,-⟩,-⟩ := h.busy _ hbusy
  exact hallowed


/-- Each access moves the 64-bit counter as it moves the books. -/
theorem fire_note {room counter counter' : ℕ} {b : Books} {k : Access} {P : Partition}
    (hk : Permitted room b P k) (hb : total b ≤ counter) (hsmall : counter < 2^24+1)
    (hfire : fire limit k counter = some counter') :
    counter'+total b = counter+total (note k b) := by
  cases k with
  | add granted =>
    simp only [fire] at hfire
    split at hfire
    · cases hfire
      simp only [total, note]
      omega
    · cases hfire
  | undo =>
    simp only [fire, Option.some.injEq] at hfire
    simp only [Permitted] at hk
    simp only [total, note] at hb ⊢
    omega
  | release =>
    simp only [fire, Option.some.injEq] at hfire
    simp only [Permitted] at hk
    by_cases hpos : 0 < b.pending
    · simp only [total, note, if_pos hpos] at hb ⊢
      omega
    · simp only [total, note, if_neg hpos] at hb ⊢
      omega
  | count =>
    cases hfire
    simp only [Permitted] at hk
    simp only [total, note]
    omega
  | drop =>
    cases hfire
    simp only [Permitted] at hk
    simp only [total, note]
    omega

def Balanced (S : Cache n) : Prop := S.shared = ∑ p, total (S.books p)

theorem balanced_step (hcap : ∑ p, cap p ≤ 2^24) (h : ∀ p, Kept (contract cfg hash limit cap) S p)
    (hI : Balanced S) (hstep : Step (protocol cfg hash limit) S S') : Balanced S' := by
  cases hstep with
  | start p sc _ _ => exact hI
  | ending p sc _ _ => exact hI
  | access p k P rest final returned shared hbusy hfire =>
    have hone : total (S.books p) ≤ S.shared := by
      rw [hI]
      exact Finset.single_le_sum (f := fun q => total (S.books q)) (fun _ _ => Nat.zero_le _)
        (Finset.mem_univ p)
    have hle := sum_total_le h
    rw [← hI] at hle
    have hnext : Permitted (cap p) (S.books p) P k := (allowed_next (h p) hbusy).1
    have hmove := fire_note hnext hone (by omega) hfire
    have hsum := sum_books S.books p (note k (S.books p))
    rw [← hI] at hsum
    show shared = ∑ q, total (Function.update S.books p (note k (S.books p)) q)
    omega

theorem initial_kept (L : Layout n) (p : Fin n) :
    Kept (contract cfg hash limit (fun p => (L.size p).capacity)) (initial L) p where
  fits := ⟨rfl,rfl,Nat.zero_le _⟩
  free := fun _ => ⟨⟨partitionInit_rep _ _ _,rfl⟩,rfl⟩
  busy := fun _ h => nomatch h

theorem capacities_le (L : Layout n) : ∑ p, (L.size p).capacity ≤ L.cacheEntries := by
  simp only [L.capacity]
  exact sum_capacity L.cacheEntries n

theorem reach_balanced (L : Layout n) (hreach : Reach (protocol cfg hash limit) (initial L) S) :
    (∀ p, Kept (contract cfg hash limit (fun p => (L.size p).capacity)) S p) ∧ Balanced S :=
  reach_keeps Balanced
    (fun _ _ hkept hI => balanced_step ((capacities_le L).trans L.cacheEntries_le) hkept hI)
    (initial_kept L) (Finset.sum_eq_zero (fun _ _ => rfl)).symm hreach

end Counter

/-- The accounts at one moment: the counter against the partitions, and the next access of each. -/
structure Accounted {n : ℕ} (cacheEntries : ℕ) (S : Cache n) : Prop where
  counter : S.shared =
    ∑ p, (S.own p).entryCount+∑ p, (S.books p).reserved+∑ p, (S.books p).pending
  within : S.shared ≤ cacheEntries
  released : ∀ p k P rest final returned, S.phase p = .busy ⟨(k,P)::rest,final,returned⟩ →
    k = .undo ∨ k = .release → 0 < S.shared
  granted : ∀ p answer P rest final returned,
    S.phase p = .busy ⟨(.add answer,P)::rest,final,returned⟩ →
      P.freeEntryHead ≠ 0 ∧ S.shared < cacheEntries ∧ fire cacheEntries (.add false) S.shared = none
  open_room : ∀ p, S.phase p = .free → (S.own p).freeEntryHead ≠ 0 → S.shared < cacheEntries

section Accounts

variable {cfg : Settings} {hash : KeyTuple → ℕ} {n : ℕ} {S : Cache n} {cap : Fin n → ℕ} {limit : ℕ}

theorem balanced_sum (h : ∀ p, Kept (contract cfg hash limit cap) S p) (hI : Balanced S) :
    S.shared = ∑ p, (S.own p).entryCount+∑ p, (S.books p).reserved+∑ p, (S.books p).pending := by
  rw [hI, ← Finset.sum_add_distrib, ← Finset.sum_add_distrib]
  exact Finset.sum_congr rfl (fun p _ => by rw [(h p).fits.counted, total])

theorem balanced_pos (p : Fin n) (hI : Balanced S) (hp : 0 < total (S.books p)) : 0 < S.shared := by
  rw [hI]
  exact lt_of_lt_of_le hp (Finset.single_le_sum (f := fun q => total (S.books q))
    (fun _ _ => Nat.zero_le _) (Finset.mem_univ p))

theorem free_room (h : ∀ p, Kept (contract cfg hash limit cap) S p) (p : Fin n)
    (hfree : S.phase p = .free) (hhead : (S.own p).freeEntryHead ≠ 0) :
    total (S.books p) < cap p := by
  obtain ⟨⟨hr,hcap⟩,hbooks⟩ := (h p).free hfree
  rw [hbooks, ← hcap]
  exact room_of_head hr.entries hhead

end Accounts

/-- At every step of every interleaving the counter is the sum of the entry counts, the open
reservations and the releases still to come, within the configured entries and above zero at each
subtraction, and every reservation is granted. -/
theorem counter_accounted (cfg : Settings) (hash : KeyTuple → ℕ) {n : ℕ} (L : Layout n)
    (S : Cache n) (hreach : Reach (protocol cfg hash L.cacheEntries) (initial L) S) :
    Accounted L.cacheEntries S := by
  obtain ⟨hkept,hI⟩ := reach_balanced L hreach
  have hroom : ∀ p, total (S.books p) < (L.size p).capacity → S.shared < L.cacheEntries := by
    intro p hp
    rw [hI]
    exact lt_of_lt_of_le (sum_total_lt hkept p hp) (capacities_le L)
  refine ⟨balanced_sum hkept hI,?_,?_,?_,?_⟩
  · rw [hI]
    exact (sum_total_le hkept).trans (capacities_le L)
  · intro p k P rest final returned hbusy hk
    refine balanced_pos p hI ?_
    have hnext := (allowed_next (hkept p) hbusy).1
    rcases hk with rfl | rfl
    · simp only [Permitted] at hnext
      simp only [total]
      omega
    · simp only [Permitted] at hnext
      simp only [total]
      omega
  · intro p answer P rest final returned hbusy
    obtain ⟨hless,hhead⟩ := (allowed_next (hkept p) hbusy).1
    refine ⟨hhead,hroom p hless,?_⟩
    simp [fire, hroom p hless]
  · intro p hfree hhead
    exact hroom p (free_room hkept p hfree hhead)

/-- One partition with one descriptor. -/
def smallLayout : Layout 1 where
  cacheEntries := 1
  size := fun _ => smallSize
  memory := fun _ _ => 0
  keyMemory := fun _ _ => 0
  capacity := fun p => by fin_cases p; rfl
  cacheEntries_le := smallSize.capacity_le

def sectionOf (op : PartOp) (P : Partition) : Script Partition Access :=
  scriptOf (CountedSections.runOp smallSettings (fun _ => 0) op (P,[]))

theorem small_admitted : ∃ S,
    Reach (protocol smallSettings (fun _ => 0) 1) (initial smallLayout) S ∧ S.phase 0 = .free ∧
    S.own 0 = (sectionOf calmLookup smallInit).final ∧ S.books 0 = ⟨1,0,0⟩ ∧ S.shared = 1 := by
  have hks : (sectionOf calmLookup smallInit).rest.map Prod.fst = [.add true,.count] := by
    decide +kernel
  have hplays : plays (protocol smallSettings (fun _ => 0) 1) [.add true,.count] 0 = some 1 := by
    decide
  obtain ⟨S,hreach,hshared,hfree,hown,hbooks⟩ := reach_section (R := protocol smallSettings _ 1)
    (initial smallLayout) 0 (sectionOf calmLookup smallInit) rfl ⟨calmLookup,rfl⟩ hks
    (by decide +kernel) hplays
  exact ⟨S,hreach,hfree,hown,hbooks,hshared⟩

theorem small_counter_accounted : ∃ S,
    Reach (protocol smallSettings (fun _ => 0) 1) (initial smallLayout) S ∧ S.shared = 1 ∧
      Accounted 1 S := by
  obtain ⟨S,hreach,-,-,-,hshared⟩ := small_admitted
  exact ⟨S,hreach,hshared,counter_accounted smallSettings (fun _ => 0) smallLayout S hreach⟩

/-- A removal takes the entry out of its partition's count before it lowers the counter, so in
between the counter is above the sum. -/
theorem removal_counter_above : ∃ S,
    Reach (protocol smallSettings (fun _ => 0) 1) (initial smallLayout) S ∧
      (S.shared : ℤ) ≠ ∑ p, ((S.own p).entryCount : ℤ)+∑ p, ((S.books p).reserved : ℤ)-
        ∑ p, ((S.books p).pending : ℤ) := by
  obtain ⟨S,hreach,hfree,hown,hbooks,hshared⟩ := small_admitted
  have hbegin : Reach (protocol smallSettings (fun _ => 0) 1) (initial smallLayout)
      (started S 0 (sectionOf (.remove 1) (S.own 0))) :=
    hreach.tail (.start S 0 _ hfree ⟨.remove 1,rfl⟩)
  have hks : ((sectionOf (.remove 1) (S.own 0)).rest.take 1).map Prod.fst = [.drop] := by
    rw [hown]
    decide +kernel
  have hplays : plays (protocol smallSettings (fun _ => 0) 1) [.drop] S.shared = some 1 := by
    rw [hshared]
    decide
  obtain ⟨S',hplay,hshared',-,hbooks'⟩ := reach_plays
    (started S 0 (sectionOf (.remove 1) (S.own 0))) 0 _
    ((sectionOf (.remove 1) (S.own 0)).rest.drop 1) (sectionOf (.remove 1) (S.own 0)).final
    (sectionOf (.remove 1) (S.own 0)).returned
    (by simp only [started, Function.update_self, List.take_append_drop]) hks hplays
  have hbooks1 : S'.books 0 = ⟨0,0,1⟩ := by
    rw [hbooks']
    simp [started, hbooks, protocol, note]
  have hcount : (S'.own 0).entryCount = 0 := by
    have := ((reach_balanced smallLayout (hbegin.trans hplay)).1 0).fits.counted
    rw [this, hbooks1]
  refine ⟨S',hbegin.trans hplay,?_⟩
  rw [hshared']
  simp [hcount, hbooks1]

end PgLocalCache.DescriptorCounter
