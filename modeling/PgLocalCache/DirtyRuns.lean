import PgLocalCache.DirtySet

/-!
# What a transaction has collected

Collecting adds at most one record. `Recorded` is what every call keeps, and the
tables of a run only grow, so that a key that is covered once stays covered. Sorting
puts the records of a partition next to each other and the records without a
partition last, which is what the three loops rely on.
-/

namespace PgLocalCache.DirtyRuns

open KeyCodec SortedRuns DirtySet

variable {v : Server} {s : LocalDirty} {k : DirtyKey}

/-! Partitions. -/

theorem partitionBits_pow (n fuel : ℕ) (h : n ≤ fuel) : partitionBits fuel (2^n) = n := by
  induction n generalizing fuel with
  | zero =>
    cases fuel with
    | zero => rfl
    | succ fuel => rfl
  | succ n ih =>
    obtain ⟨fuel,rfl⟩ : ∃ m, fuel = m+1 := ⟨fuel-1,by omega⟩
    have hpos : 0 < 2^n := by positivity
    rw [partitionBits, if_pos (by rw [pow_succ]; omega), pow_succ,
      Nat.mul_div_cancel _ (by omega), ih fuel (by omega)]

theorem partition_lt (v : Server) (hash : ℕ) (h : hash < 2^64) :
    cachePartitionForHash v.partitionCount hash < 256 := by
  have hrange := v.partitionLog_range
  have hpow : 2^v.partitionLog ≤ 2^8 := Nat.pow_le_pow_right (by omega) hrange.2
  rw [cachePartitionForHash, Server.partitionCount, partitionBits_pow _ _ (by omega)]
  refine lt_of_lt_of_le ((Nat.div_lt_iff_lt_mul (by positivity)).mpr ?_) hpow
  rw [← pow_add, show v.partitionLog+(64-v.partitionLog) = 64 by omega]
  exact h

theorem freshEntry_partition (v : Server) (k : DirtyKey) :
    (freshEntry v k).partition ≤ uint32Max ∧
      ((freshEntry v k).partition ≠ uint32Max ↔ k.kind = .key) := by
  have hmax : uint32Max = 4294967295 := by decide
  by_cases hk : k.kind = .key
  · have hlt : (freshEntry v k).partition < 256 := by
      simp only [freshEntry, hk, if_true, routeOf]
      exact partition_lt v _ (v.hashBytes_lt _ _)
    exact ⟨by omega,fun _ => hk,fun _ => by omega⟩
  · have heq : (freshEntry v k).partition = uint32Max := by simp [freshEntry, hk]
    exact ⟨by omega,fun h => absurd heq h,fun h => absurd h hk⟩

/-! The table. -/

theorem keyMatches_iff {l r : DirtyKey} : keyMatches l r = true ↔ l = r := by
  cases l
  cases r
  simp only [keyMatches, Bool.and_eq_true, beq_iff_eq, DirtyKey.mk.injEq]
  grind

def keysOf (table : List Cell) : List DirtyKey := table.map (fun c => c.2.key)

def addressesOf (table : List Cell) : List ℕ := table.map Prod.fst

def isKeyCell (c : Cell) : Bool := c.2.key.kind == .key

/-- The elements of the table are filed under the hash and routed as they were entered. -/
structure Filed (v : Server) (table : List Cell) : Prop where
  hashed : ∀ c ∈ table, c.2.dirtyHash = localDirtyHashValue v c.2.key
  routed : ∀ c ∈ table, c.2.partition ≤ uint32Max ∧
    (c.2.partition ≠ uint32Max ↔ c.2.key.kind = .key)
  keys : (keysOf table).Nodup
  addresses : (addressesOf table).Nodup

theorem hashFind_some {table : List Cell} {c : Cell} {hash : ℕ}
    (h : hashFind table hash k = some c) : c ∈ table ∧ c.2.key = k := by
  have hp := List.find?_some h
  rw [Bool.and_eq_true] at hp
  exact ⟨List.mem_of_find?_eq_some h,keyMatches_iff.mp hp.2⟩

theorem hashFind_isSome {table : List Cell} (hf : Filed v table) :
    (hashFind table (localDirtyHashValue v k) k).isSome = true ↔ k ∈ keysOf table := by
  constructor
  · intro h
    obtain ⟨c,hc⟩ := Option.isSome_iff_exists.mp h
    obtain ⟨hmem,rfl⟩ := hashFind_some hc
    exact List.mem_map_of_mem hmem
  · intro h
    obtain ⟨c,hmem,rfl⟩ := List.mem_map.mp h
    refine List.find?_isSome.mpr ⟨c,hmem,?_⟩
    rw [Bool.and_eq_true]
    exact ⟨by simpa using hf.hashed c hmem,keyMatches_iff.mpr rfl⟩

theorem entryAt_mem {table : List Cell} {address : ℕ} {e : Entry}
    (h : entryAt table address = some e) : (address,e) ∈ table := by
  obtain ⟨c,hc,rfl⟩ := Option.map_eq_some_iff.mp h
  have haddr : c.1 = address := by simpa using List.find?_some hc
  exact haddr ▸ List.mem_of_find?_eq_some hc

theorem entryAt_of_mem {table : List Cell} (hn : (addressesOf table).Nodup) {c : Cell}
    (h : c ∈ table) : entryAt table c.1 = some c.2 := by
  induction table with
  | nil => cases h
  | cons d table ih =>
    obtain ⟨hnot,hrest⟩ := List.nodup_cons.mp hn
    rw [entryAt, List.find?_cons]
    rcases List.mem_cons.mp h with rfl | h
    · simp
    · have hne : d.1 ≠ c.1 := by
        rintro heq
        exact hnot (heq ▸ List.mem_map_of_mem h)
      simp only [beq_eq_false_iff_ne.mpr hne]
      exact ih hrest h

/-! One call. -/

/-- What every call keeps. -/
structure Recorded (v : Server) (s : LocalDirty) : Prop where
  filed : Filed v s.table
  below : ∀ c ∈ s.table, c.1 < s.nextAddress
  vector : s.ordered.Perm (addressesOf s.table)
  count : s.count = s.table.length
  keyCount : s.keyCount = s.table.countP isKeyCell
  limit : s.keyCount ≤ v.maxDirtyKeys
  room : s.ordered.length ≤ s.capacity
  ranked : s.orderedSorted = true → Ranked (partitionAt s.table) s.ordered
  global : s.hasGlobalRecord = true ↔ ∃ c ∈ s.table, c.2.key.kind = .global

theorem recorded_between (v : Server) (nextAddress capacity fallbacks : ℕ) :
    Recorded v (betweenTransactions [] nextAddress capacity fallbacks) := by
  refine ⟨⟨by simp [betweenTransactions],by simp [betweenTransactions],List.nodup_nil,
    List.nodup_nil⟩,by simp [betweenTransactions],List.Perm.refl _,rfl,rfl,Nat.zero_le _,
    Nat.zero_le _,fun _ => List.Pairwise.nil,by simp [betweenTransactions]⟩

theorem growCapacity_ge (required n capacity : ℕ) (hpos : 0 < capacity)
    (h : required ≤ capacity+n) : required ≤ growCapacity required n capacity := by
  induction n generalizing capacity with
  | zero => exact h
  | succ n ih =>
    rw [growCapacity]
    split
    · exact ih (capacity*2) (by omega) (by omega)
    · omega

theorem ensureVectorCapacity_ge (required capacity : ℕ) :
    required ≤ ensureVectorCapacity required capacity := by
  unfold ensureVectorCapacity
  split
  · assumption
  · refine growCapacity_ge _ _ _ ?_ ?_
    · exact lt_of_lt_of_le (by decide) (le_max_right _ _)
    · omega

/-- The vector was grown, or it was already large enough for one more address. -/
def grown (s : LocalDirty) : LocalDirty :=
  { s with capacity := ensureVectorCapacity (s.count+1) s.capacity }

theorem recorded_grown (h : Recorded v s) : Recorded v (grown s) ∧
    (grown s).ordered.length+1 ≤ (grown s).capacity := by
  have hlen : s.ordered.length = s.count := by
    rw [h.vector.length_eq, addressesOf, List.length_map, h.count]
  have hroom : s.ordered.length+1 ≤ (grown s).capacity := by
    rw [hlen]
    exact ensureVectorCapacity_ge _ _
  exact ⟨⟨h.filed,h.below,h.vector,h.count,h.keyCount,h.limit,(Nat.le_succ _).trans hroom,h.ranked,
    h.global⟩,hroom⟩

theorem enterRecord_held (h : Recorded v s) (hk : k ∈ keysOf s.table) :
    enterRecord v k s = s := by
  obtain ⟨c,hc⟩ := Option.isSome_iff_exists.mp ((hashFind_isSome h.filed).mpr hk)
  rw [enterRecord, hc]

theorem enterRecord_new (h : Recorded v s) (hk : k ∉ keysOf s.table) :
    enterRecord v k s = { s with
      table := s.table++[(s.nextAddress,freshEntry v k)]
      nextAddress := s.nextAddress+1
      count := s.count+1
      ordered := s.ordered++[s.nextAddress]
      orderedSorted := false
      keyCount := dirtyKeyCountAfterEntry s.keyCount (k.kind == .key)
      hasGlobalRecord := s.hasGlobalRecord || k.kind == .global } := by
  have hnone : hashFind s.table (localDirtyHashValue v k) k = none := by
    rw [← Option.not_isSome_iff_eq_none, hashFind_isSome h.filed]
    exact hk
  rw [enterRecord, hnone]

theorem keysOf_append (table : List Cell) (c : Cell) :
    keysOf (table++[c]) = keysOf table++[c.2.key] := List.map_append

theorem freshEntry_key (v : Server) (k : DirtyKey) : (freshEntry v k).key = k := rfl

theorem recorded_enter (h : Recorded v s) (hroom : s.ordered.length+1 ≤ s.capacity)
    (hlimit : k.kind = .key → s.keyCount < v.maxDirtyKeys) : Recorded v (enterRecord v k s) := by
  by_cases hk : k ∈ keysOf s.table
  · rw [enterRecord_held h hk]
    exact h
  · rw [enterRecord_new h hk]
    have hfresh : s.nextAddress ∉ addressesOf s.table := by
      intro hmem
      obtain ⟨c,hc,heq⟩ := List.mem_map.mp hmem
      exact absurd (h.below c hc) (by omega)
    refine ⟨⟨?_,?_,?_,?_⟩,?_,?_,?_,?_,?_,?_,fun hs => (by cases hs),?_⟩
    · intro c hc
      rcases List.mem_append.mp hc with hc | hc
      · exact h.filed.hashed c hc
      · obtain rfl := List.mem_singleton.mp hc
        rfl
    · intro c hc
      rcases List.mem_append.mp hc with hc | hc
      · exact h.filed.routed c hc
      · obtain rfl := List.mem_singleton.mp hc
        exact freshEntry_partition v k
    · rw [keysOf_append]
      exact List.nodup_append.mpr ⟨h.filed.keys,List.nodup_singleton _,
        fun a ha b hb => by
          obtain rfl := List.mem_singleton.mp hb
          rintro rfl
          exact hk ha⟩
    · rw [addressesOf, List.map_append]
      exact List.nodup_append.mpr ⟨h.filed.addresses,List.nodup_singleton _,
        fun a ha b hb => by
          obtain rfl := List.mem_singleton.mp hb
          rintro rfl
          exact hfresh ha⟩
    · intro c hc
      rcases List.mem_append.mp hc with hc | hc
      · exact (h.below c hc).trans (Nat.lt_succ_self _)
      · obtain rfl := List.mem_singleton.mp hc
        exact Nat.lt_succ_self _
    · rw [addressesOf, List.map_append]
      exact h.vector.append_right _
    · change s.count+1 = _
      rw [List.length_append, h.count]
      rfl
    · change dirtyKeyCountAfterEntry s.keyCount (k.kind == .key) = _
      rw [List.countP_append, ← h.keyCount, dirtyKeyCountAfterEntry, List.countP_singleton]
      rfl
    · change dirtyKeyCountAfterEntry s.keyCount (k.kind == .key) ≤ _
      unfold dirtyKeyCountAfterEntry
      split
      · rename_i hkind
        exact hlimit (by simpa using hkind)
      · exact h.limit
    · change (s.ordered++[s.nextAddress]).length ≤ s.capacity
      rw [List.length_append]
      exact hroom
    · change (s.hasGlobalRecord || k.kind == .global) = true ↔ _
      rw [Bool.or_eq_true, h.global, beq_iff_eq]
      constructor
      · rintro (⟨c,hc,hg⟩ | hg)
        · exact ⟨c,List.mem_append_left _ hc,hg⟩
        · exact ⟨_,List.mem_append_right _ (List.mem_singleton_self _),hg⟩
      · rintro ⟨c,hc,hg⟩
        rcases List.mem_append.mp hc with hc | hc
        · exact .inl ⟨c,hc,hg⟩
        · obtain rfl := List.mem_singleton.mp hc
          exact .inr hg

theorem mem_enterRecord (h : Recorded v s) (d : DirtyKey) :
    d ∈ keysOf (enterRecord v k s).table ↔ d ∈ keysOf s.table ∨ d = k := by
  by_cases hk : k ∈ keysOf s.table
  · rw [enterRecord_held h hk]
    constructor
    · exact .inl
    · rintro (hd | rfl)
      · exact hd
      · exact hk
  · rw [enterRecord_new h hk, keysOf_append, List.mem_append, List.mem_singleton, freshEntry_key]

/-- Between two states no record is lost. -/
def Grows (s s' : LocalDirty) : Prop := ∀ d ∈ keysOf s.table, d ∈ keysOf s'.table

section Calls

variable {db rel : ℕ} {nspace key : Bytes} {kind : DirtyKind} {name word : Option Bytes}

theorem collectDirty_recorded (h : Recorded v s)
    (hlimit : kind = .key → s.keyCount < v.maxDirtyKeys) :
    Recorded v (collectDirty v kind db rel name word s) :=
  recorded_enter (recorded_grown h).1 (recorded_grown h).2 hlimit

theorem mem_collectDirty (h : Recorded v s) (d : DirtyKey) :
    d ∈ keysOf (collectDirty v kind db rel name word s).table ↔
      d ∈ keysOf s.table ∨ d = makeLocalDirtyKey kind db rel name word :=
  mem_enterRecord (recorded_grown h).1 d

theorem collectDirty_grows (h : Recorded v s) :
    Grows s (collectDirty v kind db rel name word s) :=
  fun d hd => (mem_collectDirty h d).mpr (.inl hd)

/-- A key is recorded, or a relation or forget record of the same names covers it. -/
def Covered (s : LocalDirty) (db rel : ℕ) (nspace key : Bytes) : Prop :=
  makeLocalDirtyKey .key db rel (some nspace) (some key) ∈ keysOf s.table ∨
    makeLocalDirtyKey .relation db rel (some nspace) none ∈ keysOf s.table ∨
    makeLocalDirtyKey .forgetRelation db rel (some nspace) none ∈ keysOf s.table

theorem Covered.grows {s' : LocalDirty} (h : Covered s db rel nspace key) (hg : Grows s s') :
    Covered s' db rel nspace key := by
  rcases h with h | h | h
  · exact .inl (hg _ h)
  · exact .inr (.inl (hg _ h))
  · exact .inr (.inr (hg _ h))

theorem holds_iff (h : Recorded v s) : holds v s k = true ↔ k ∈ keysOf s.table :=
  hashFind_isSome h.filed

theorem recorded_fallbacks (h : Recorded v s) (n : ℕ) : Recorded v { s with fallbacks := n } :=
  ⟨h.filed,h.below,h.vector,h.count,h.keyCount,h.limit,h.room,h.ranked,h.global⟩

/-- The ways a key is collected: it is covered already, the limit widens it to its relation, or
its record is entered while the limit leaves room. -/
theorem collectKey_cases (h : Recorded v s) :
    (collectKey v db rel nspace key s = s ∧ Covered s db rel nspace key) ∨
    collectKey v db rel nspace key s =
      collectRelation v db rel nspace { s with fallbacks := s.fallbacks+1 } ∨
    (collectKey v db rel nspace key s = collectDirty v .key db rel (some nspace) (some key) s ∧
      s.keyCount < v.maxDirtyKeys) := by
  unfold collectKey
  split
  · rename_i hr
    exact .inl ⟨rfl,.inr (.inl ((holds_iff h).mp hr))⟩
  · split
    · rename_i hf
      exact .inl ⟨rfl,.inr (.inr ((holds_iff h).mp hf))⟩
    · simp only
      split
      · exact .inr (.inl rfl)
      · rename_i hlimit
        split
        · rename_i hk
          exact .inl ⟨rfl,.inl ((holds_iff h).mp hk)⟩
        · rename_i hk
          have hlt : s.keyCount < v.maxDirtyKeys := by
            by_contra hge
            exact hlimit (by simp [dirtyKeyLimitRequiresFallback, hk, Nat.not_lt.mp hge])
          exact .inr (.inr ⟨rfl,hlt⟩)

theorem collectKey_spec (h : Recorded v s) :
    Recorded v (collectKey v db rel nspace key s) ∧
      Grows s (collectKey v db rel nspace key s) ∧
      Covered (collectKey v db rel nspace key s) db rel nspace key := by
  rcases collectKey_cases h with ⟨heq,hc⟩ | heq | ⟨heq,hlt⟩
  · rw [heq]
    exact ⟨h,fun d hd => hd,hc⟩
  · have h' := recorded_fallbacks h (s.fallbacks+1)
    rw [heq]
    exact ⟨collectDirty_recorded h' (fun hk => by cases hk),collectDirty_grows h',
      .inr (.inl ((mem_collectDirty h' _).mpr (.inr rfl)))⟩
  · rw [heq]
    exact ⟨collectDirty_recorded h (fun _ => hlt),collectDirty_grows h,
      .inl ((mem_collectDirty h _).mpr (.inr rfl))⟩

theorem recorded_bumpConfig (h : Recorded v s) (b : Bool) : Recorded v { s with bumpConfig := b } :=
  ⟨h.filed,h.below,h.vector,h.count,h.keyCount,h.limit,h.room,h.ranked,h.global⟩

theorem collectGlobal_spec (h : Recorded v s) (db : ℕ) (bump : Bool) :
    Recorded v (collectGlobal v db bump s) ∧ Grows s (collectGlobal v db bump s) := by
  have hrec : Recorded v (collectDirty v .global db 0 none none s) :=
    collectDirty_recorded h (fun hk => by cases hk)
  have hgrows : Grows s (collectDirty v .global db 0 none none s) := collectDirty_grows h
  unfold collectGlobal
  cases bump with
  | true => exact ⟨recorded_bumpConfig hrec true,hgrows⟩
  | false => exact ⟨hrec,hgrows⟩

end Calls

/-! Ordering. -/

theorem compare_nonpos (table : List Cell) (a b : ℕ) :
    compareLocalDirtyPartitions table a b ≤ 0 ↔ partitionAt table a ≤ partitionAt table b := by
  unfold compareLocalDirtyPartitions
  simp only
  split
  · rename_i h
    exact ⟨fun _ => le_of_lt h,fun _ => by decide⟩
  · split
    · rename_i h
      exact ⟨fun hle => absurd hle (by decide),fun hle => absurd h (Nat.not_lt.mpr hle)⟩
    · rename_i h
      exact ⟨fun _ => Nat.not_lt.mp h,fun _ => le_refl _⟩

theorem qsort_ranked (v : Server) (table : List Cell) (l : List ℕ) :
    Ranked (partitionAt table) (v.qsort.run (compareLocalDirtyPartitions table) l) := by
  refine (v.qsort.sorted _ l ?_ ?_).imp (fun h => (compare_nonpos table _ _).mp h)
  · intro a b
    rw [compare_nonpos, compare_nonpos]
    exact Nat.le_total _ _
  · intro a b c
    rw [compare_nonpos, compare_nonpos, compare_nonpos]
    exact Nat.le_trans

theorem ordered_spec (h : Recorded v s) :
    Recorded v (orderedLocalDirtyEntries v s) ∧ (orderedLocalDirtyEntries v s).table = s.table ∧
      (orderedLocalDirtyEntries v s).ordered.Perm s.ordered ∧
      Ranked (partitionAt s.table) (orderedLocalDirtyEntries v s).ordered := by
  unfold orderedLocalDirtyEntries
  split
  · rename_i hs
    exact ⟨h,rfl,List.Perm.refl _,h.ranked hs⟩
  · have hperm := v.qsort.perm (compareLocalDirtyPartitions s.table) s.ordered
    have hranked := qsort_ranked v s.table s.ordered
    refine ⟨⟨h.filed,h.below,hperm.trans h.vector,h.count,h.keyCount,h.limit,?_,fun _ => hranked,
      h.global⟩,rfl,hperm,hranked⟩
    exact le_of_eq_of_le hperm.length_eq h.room

/-! Runs. -/

def coversCall (s : LocalDirty) : Call → Prop
  | .key db rel nspace key => Covered s db rel nspace key
  | _ => True

theorem coversCall_grows {s' : LocalDirty} {call : Call} (h : coversCall s call)
    (hg : Grows s s') : coversCall s' call := by
  cases call with
  | key db rel nspace key => exact Covered.grows h hg
  | relation => trivial
  | forget => trivial
  | global => trivial
  | order => trivial

theorem perform_spec (h : Recorded v s) (call : Call) :
    Recorded v (perform v call s) ∧ Grows s (perform v call s) ∧
      coversCall (perform v call s) call := by
  cases call with
  | key db rel nspace key => exact collectKey_spec h
  | relation db rel nspace =>
    exact ⟨collectDirty_recorded h (fun hk => by cases hk),collectDirty_grows h,trivial⟩
  | forget db rel nspace =>
    exact ⟨collectDirty_recorded h (fun hk => by cases hk),collectDirty_grows h,trivial⟩
  | global db bump =>
    obtain ⟨hrec,hgrows⟩ := collectGlobal_spec h db bump
    exact ⟨hrec,hgrows,trivial⟩
  | order =>
    obtain ⟨hrec,htable,_⟩ := ordered_spec h
    exact ⟨hrec,fun d hd => by rw [perform, htable]; exact hd,trivial⟩

theorem performAll_spec (calls : List Call) (h : Recorded v s) :
    Recorded v (performAll v calls s) ∧ Grows s (performAll v calls s) ∧
      ∀ call ∈ calls, coversCall (performAll v calls s) call := by
  induction calls generalizing s with
  | nil => exact ⟨h,fun d hd => hd,fun call hc => by cases hc⟩
  | cons call calls ih =>
    obtain ⟨hrec,hgrows,hcovers⟩ := perform_spec h call
    obtain ⟨hrec',hgrows',hcovers'⟩ := ih hrec
    refine ⟨hrec',fun d hd => hgrows' d (hgrows d hd),fun c hc => ?_⟩
    rcases List.mem_cons.mp hc with rfl | hc
    · exact coversCall_grows hcovers hgrows'
    · exact hcovers' c hc

end PgLocalCache.DirtyRuns
