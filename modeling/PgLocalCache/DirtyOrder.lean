import PgLocalCache.DirtyRuns

/-!
# The loops over the ordered records

The vector is sorted by partition when the records are reserved, published and
finished, and each loop stops at the first record without a partition. Because
those come last, the loops see every key record and lock every partition once;
only a reservation that fails ends its loop earlier.
-/

namespace PgLocalCache.DirtyOrder

open SortedRuns DirtySet DirtyRuns

variable {v : Server} {s : LocalDirty}

/-! The ordered vector. -/

def isKeyAt (table : List Cell) (address : ℕ) : Bool :=
  ((entryAt table address).map (fun e => e.key.kind == .key)).getD false

theorem partitionAt_spec {table : List Cell} (hf : Filed v table) (address : ℕ) :
    partitionAt table address ≤ uint32Max ∧
      (partitionAt table address ≠ uint32Max ↔ isKeyAt table address = true) := by
  unfold partitionAt isKeyAt
  cases he : entryAt table address with
  | none => simp
  | some e =>
    have h := hf.routed _ (entryAt_mem he)
    exact ⟨h.1,h.2.trans (by simp)⟩

/-- The records of a partition are one run of the vector, and the records without a partition
come last. -/
structure Contiguous (s : LocalDirty) : Prop where
  run : ∀ p, s.ordered = s.ordered.filter (fun a => partitionAt s.table a < p)++
    (s.ordered.filter (fun a => partitionAt s.table a = p)++
      s.ordered.filter (fun a => p < partitionAt s.table a))
  keysFirst : s.ordered = s.ordered.filter (isKeyAt s.table)++
    s.ordered.filter (fun a => !isKeyAt s.table a)

theorem contiguous_of_ranked (hf : Filed v s.table) (h : Ranked (partitionAt s.table) s.ordered) :
    Contiguous s := by
  refine ⟨ranked_split h,?_⟩
  have hlt : ∀ a, decide (partitionAt s.table a < uint32Max) = isKeyAt s.table a := by
    intro a
    obtain ⟨hle,hkey⟩ := partitionAt_spec hf a
    rw [Bool.eq_iff_iff, decide_eq_true_iff, ← hkey]
    exact ⟨ne_of_lt,lt_of_le_of_ne hle⟩
  have heq : ∀ a, decide (partitionAt s.table a = uint32Max) = !isKeyAt s.table a := by
    intro a
    have hkey := (partitionAt_spec hf a).2
    rw [Bool.eq_iff_iff, decide_eq_true_iff, Bool.not_eq_true', ← Bool.not_eq_true, ← hkey,
      Decidable.not_not]
  have hgt : s.ordered.filter (fun a => uint32Max < partitionAt s.table a) = [] := by
    refine List.filter_eq_nil_iff.mpr (fun a _ => ?_)
    have hle := (partitionAt_spec hf a).1
    simpa using hle
  have h := ranked_split h uint32Max
  rw [hgt, List.append_nil] at h
  simpa only [hlt, heq] using h

theorem eligible_eq (hf : Filed v s.table) :
    eligible (partitionAt s.table) uint32Max s.ordered = s.ordered.filter (isKeyAt s.table) := by
  refine List.filter_congr (fun a _ => ?_)
  rw [Bool.eq_iff_iff, decide_eq_true_iff]
  exact (partitionAt_spec hf a).2

section Loops

variable {σ : Type}

/-- A loop over the ordered vector: each partition is locked at most once, its section holds
records of that partition, and the key records are visited in order. -/
structure Swept (s : LocalDirty) (visit : ℕ → σ → Bool × σ) (x : σ) (w : Sweep σ ℕ ℕ) : Prop where
  once : (w.sections.map Prod.fst).Nodup
  own : ∀ sec ∈ w.sections, ∀ a ∈ sec.2, partitionAt s.table a = sec.1
  reached : Reached visit (s.ordered.filter (isKeyAt s.table)) x w.ok w.state (visited w)

theorem sweep_swept (hf : Filed v s.table) (h : Ranked (partitionAt s.table) s.ordered)
    (visit : ℕ → σ → Bool × σ) (x : σ) : Swept s visit x
      (sweep (partitionAt s.table) uint32Max visit s.ordered.length s.ordered x) := by
  obtain ⟨hsorted,hsections⟩ := sweep_sections uint32Max visit s.ordered.length s.ordered x h
  refine ⟨hsorted.imp ne_of_lt,fun sec hsec => (hsections sec hsec).1,?_⟩
  rw [← eligible_eq hf]
  exact sweep_reached (fun a => (partitionAt_spec hf a).1) _ _ x (le_refl _) h

end Loops

/-! Resetting. -/

theorem filed_sublist {table less : List Cell} (hf : Filed v table) (h : less.Sublist table) :
    Filed v less :=
  ⟨fun c hc => hf.hashed c (h.subset hc),fun c hc => hf.routed c (h.subset hc),
    hf.keys.sublist (h.map _),hf.addresses.sublist (h.map _)⟩

theorem hashRemove_cell {table : List Cell} (hf : Filed v table) {c : Cell} (hc : c ∈ table) :
    ∃ less, hashRemove table c.2.dirtyHash c.2.key = some less ∧ less.Sublist table ∧
      table.Perm (c::less) := by
  have hp : (c.2.dirtyHash == c.2.dirtyHash && keyMatches c.2.key c.2.key) = true := by
    rw [Bool.and_eq_true]
    exact ⟨beq_self_eq_true _,keyMatches_iff.mpr rfl⟩
  obtain ⟨d,front,back,_,hd,htable,herase⟩ := List.exists_of_eraseP
    (p := fun d : Cell => d.2.dirtyHash == c.2.dirtyHash && keyMatches d.2.key c.2.key) hc hp
  have hkey : d.2.key = c.2.key := keyMatches_iff.mp (Bool.and_eq_true_iff.mp hd).2
  have hmem : d ∈ table := by rw [htable]; exact List.mem_append_right _ (.head _)
  have hdc : d = c := List.inj_on_of_nodup_map hf.keys hmem hc hkey
  subst hdc
  refine ⟨front++back,?_,?_,?_⟩
  · have hfound : (hashFind table d.2.dirtyHash d.2.key).isSome = true :=
      List.find?_isSome.mpr ⟨d,hc,hp⟩
    rw [hashRemove, if_pos hfound, herase]
  · rw [htable]
    exact (List.Sublist.refl front).append (List.sublist_cons_self d back)
  · rw [htable]
    exact List.perm_middle

theorem resetLoop_empties (addresses : List ℕ) {table : List Cell} (hf : Filed v table)
    (h : addresses.Perm (addressesOf table)) : resetLoop addresses table = some [] := by
  induction addresses generalizing table with
  | nil =>
    have htable : table = [] := List.map_eq_nil_iff.mp h.nil_eq.symm
    rw [htable]
    rfl
  | cons a addresses ih =>
    obtain ⟨c,hc,rfl⟩ := List.mem_map.mp (h.subset (.head _))
    obtain ⟨less,hremove,hsub,hperm⟩ := hashRemove_cell hf hc
    have hrest : addresses.Perm (addressesOf less) :=
      List.Perm.cons_inv (h.trans (hperm.map Prod.fst))
    rw [resetLoop, entryAt_of_mem hf.addresses hc, Option.bind_eq_bind, Option.bind_some, hremove,
      Option.bind_eq_bind, Option.bind_some]
    exact ih (filed_sublist hf hsub) hrest

theorem reset_empties (h : Recorded v s) : resetLocalDirty s =
    some (betweenTransactions [] s.nextAddress s.capacity s.fallbacks) := by
  unfold resetLocalDirty
  split
  · rw [resetLoop_empties s.ordered h.filed h.vector]
    rfl
  · rename_i hcount
    have htable : s.table = [] := by
      rw [h.count, List.length_pos_iff, not_not] at hcount
      exact hcount
    rw [htable]
    rfl

/-- For every sequence of calls of one transaction: the table and the vector hold the same
records once, the counters are exact, the keys stay within the limit and every key is covered;
after ordering every partition is one run, and the loops visit the key records. -/
theorem dirty_set_exact (v : Server) (calls : List Call) (nextAddress capacity fallbacks : ℕ) :
    let s := performAll v calls (betweenTransactions [] nextAddress capacity fallbacks)
    let o := orderedLocalDirtyEntries v s
    (s.ordered.Nodup ∧ s.ordered.Perm (addressesOf s.table) ∧ (keysOf s.table).Nodup) ∧
    (s.count = s.ordered.length ∧ s.count = s.table.length ∧
      s.keyCount = s.table.countP isKeyCell ∧ s.keyCount ≤ v.maxDirtyKeys) ∧
    (∀ db rel nspace key, .key db rel nspace key ∈ calls → Covered s db rel nspace key) ∧
    (o.table = s.table ∧ o.ordered.Perm s.ordered ∧ Contiguous o) ∧
    (∀ (σ : Type) (x : σ),
      (∀ publish : ℕ → σ → σ,
        Swept o (fun a x => (true,publish a x)) x (publishKeyEntries o publish x) ∧
        (publishKeyEntries o publish x).ok = true) ∧
      (∀ finish : ℕ → σ → σ,
        Swept o (fun a x => (true,finish a x)) x (finishKeyEntries o finish x) ∧
        (finishKeyEntries o finish x).ok = true) ∧
      (∀ reserve : ℕ → σ → Bool × σ, Swept o reserve x (reserveKeyEntries o reserve x))) ∧
    resetLocalDirty o = some (betweenTransactions [] o.nextAddress o.capacity o.fallbacks) := by
  intro s o
  obtain ⟨hrec,_,hcovers⟩ := performAll_spec calls
    (recorded_between v nextAddress capacity fallbacks)
  obtain ⟨hreco,htable,hperm,hranked⟩ := ordered_spec hrec
  have hf : Filed v o.table := hreco.filed
  have hranked' : Ranked (partitionAt o.table) o.ordered := by
    rw [htable]
    exact hranked
  have hcount : s.count = s.ordered.length := by
    rw [hrec.vector.length_eq, hrec.count, addressesOf, List.length_map]
  refine ⟨⟨hrec.vector.nodup_iff.mpr hrec.filed.addresses,hrec.vector,hrec.filed.keys⟩,
    ⟨hcount,hrec.count,hrec.keyCount,hrec.limit⟩,fun db rel nspace key hc => hcovers _ hc,
    ⟨htable,hperm,contiguous_of_ranked hf hranked'⟩,fun σ x => ⟨?_,?_,?_⟩,reset_empties hreco⟩
  · intro publish
    exact ⟨sweep_swept hf hranked' _ x,sweep_ok (fun _ _ => rfl) _ _ _⟩
  · intro finish
    exact ⟨sweep_swept hf hranked' _ x,sweep_ok (fun _ _ => rfl) _ _ _⟩
  · intro reserve
    exact sweep_swept hf hranked' reserve x

/-! A reservation that fails. -/

theorem insertionSort_sorted (compare : ℕ → ℕ → ℤ) (l : List ℕ)
    (htotal : ∀ a b, compare a b ≤ 0 ∨ compare b a ≤ 0)
    (htrans : ∀ a b c, compare a b ≤ 0 → compare b c ≤ 0 → compare a c ≤ 0) :
    (l.insertionSort (fun a b => compare a b ≤ 0)).Pairwise (fun a b => compare a b ≤ 0) := by
  have : Std.Total (fun a b => compare a b ≤ 0) := ⟨htotal⟩
  have : IsTrans ℕ (fun a b => compare a b ≤ 0) := ⟨htrans⟩
  exact List.pairwise_insertionSort _ l

def insertionQsort : Qsort where
  run := fun compare l => l.insertionSort (fun a b => compare a b ≤ 0)
  perm := fun _ l => List.perm_insertionSort _ l
  sorted := insertionSort_sorted

def smallServer : Server where
  hashBytes := fun _ _ => 0
  partitionLog := 4
  maxDirtyKeys := 128
  qsort := insertionQsort
  hashBytes_lt := fun _ _ => by positivity
  partitionLog_range := by decide

/-- Two keys of one partition; the first reservation fails and the second key is not visited. -/
theorem reserve_stops_early :
    let s := performAll smallServer [.key 1 2 [97] [97],.key 1 2 [97] [98]]
      (betweenTransactions [] 0 0 0)
    let o := orderedLocalDirtyEntries smallServer s
    let w := reserveKeyEntries o (fun _ x => (false,x)) ()
    o.ordered = [0,1] ∧ isKeyAt o.table 1 = true ∧ 1 ∉ visited w := by
  decide

end PgLocalCache.DirtyOrder
