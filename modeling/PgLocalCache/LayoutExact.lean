import PgLocalCache.ShmemLayout

/-!
# The carved regions fill what was reserved

Every step of sizing and carving is rewritten into exact arithmetic: the unchecked
steps fit their types in the ranges of the settings, so that both modes agree, and
the checked ones fail only where the exact end passes the address range. What is
carved is then a serial layout, and its end is the size that was reserved.
-/

namespace PgLocalCache.LayoutExact

open SerialLayout ShmemLayout
open CacheState (keyMax)
open DescriptorCounter (partitionCapacity)

/-! Steps. -/

def guarded (n : ℕ) : Sized ℕ := if n < 2^64 then .ok n else .error .sizeOverflow

variable {α β : Type} {strict : Bool}

theorem bind_ok {x : Sized α} {f : α → Sized β} {b : β} :
    (x >>= f) = .ok b ↔ ∃ a, x = .ok a ∧ f a = .ok b := by
  cases x with
  | error e => simp [bind, Except.bind]
  | ok a => simp [bind, Except.bind]

@[simp] theorem ok_bind (a : α) (f : α → Sized β) : ((.ok a : Sized α) >>= f) = f a := by
  simp only [bind, Except.bind]

@[simp] theorem error_bind (e : Fault) (f : α → Sized β) :
    ((.error e : Sized α) >>= f) = .error e := by
  simp only [bind, Except.bind]

theorem fit_small (strict : Bool) {width value : ℕ} (h : value < 2^width) :
    fit strict width value = .ok value := if_pos h

theorem addSize_guarded (m n : ℕ) : addSize m n = guarded (m+n) := rfl

theorem mulSize_small {m n : ℕ} (h : m*n < 2^64) : mulSize m n = .ok (m*n) := if_pos h

theorem guarded_ok {m s : ℕ} : guarded m = .ok s ↔ m < 2^64 ∧ s = m := by
  unfold guarded
  split
  · rename_i h
    simp only [Except.ok.injEq]
    exact ⟨fun hs => ⟨h,hs.symm⟩,fun hs => hs.2.symm⟩
  · rename_i h
    exact ⟨fun hs => (by cases hs),fun hs => absurd hs.1 h⟩

theorem mulSize_ok {m n s : ℕ} : mulSize m n = .ok s ↔ m*n < 2^64 ∧ s = m*n := guarded_ok

theorem guarded_bind {m n : ℕ} (f : ℕ → Sized ℕ) (hle : m ≤ n)
    (h : m < 2^64 → f m = guarded n) : (guarded m >>= f) = guarded n := by
  unfold guarded at *
  split
  · rename_i hm
    exact h hm
  · rw [if_neg (by omega)]
    rfl

theorem maxAlign_exact (strict : Bool) {value : ℕ} (h : value+7 < 2^64) :
    maxAlign strict value = .ok (alignUp 8 value) := by
  rw [maxAlign, fit_small strict h]
  rfl

theorem alignAppend_exact (strict : Bool) {offset bytes : ℕ} (hd : 8 ∣ offset)
    (ho : offset < 2^64) (hb : bytes < 2^63) : alignAppend strict offset bytes =
      guarded (offset+alignUp 8 bytes) >>= fun next => .ok (offset,next) := by
  rw [alignAppend, maxAlign_exact strict (by omega), maxAlign_exact strict (by omega),
    alignUp_of_dvd (by omega) hd]
  rfl

def bytesOf (parts : List (ℕ × ℕ)) : List ℕ := parts.map (fun part => part.1*part.2)

theorem appendParts_exact (strict : Bool) {offset : ℕ} (parts : List (ℕ × ℕ)) (hd : 8 ∣ offset)
    (ho : offset < 2^64) (hp : ∀ n ∈ bytesOf parts, n < 2^63) :
    appendParts strict offset parts = guarded (placeEnd 8 offset (bytesOf parts)) := by
  induction parts generalizing offset with
  | nil => exact (if_pos ho).symm
  | cons part parts ih =>
    have hbytes : part.1*part.2 < 2^63 := hp _ (by simp [bytesOf])
    have hnext : 8 ∣ offset+alignUp 8 (part.1*part.2) := Nat.dvd_add hd (alignUp_dvd 8 _)
    have hend : placeEnd 8 offset (bytesOf (part::parts)) =
        placeEnd 8 (offset+alignUp 8 (part.1*part.2)) (bytesOf parts) := by
      rw [bytesOf, List.map_cons, placeEnd, alignUp_of_dvd (by omega) hd]
      rfl
    rw [appendParts, mulSize_small (by omega), ok_bind, alignAppend_exact strict hd ho hbytes,
      bind_assoc, hend]
    refine guarded_bind _ (le_placeEnd (by omega) _ _) (fun hlt => ?_)
    exact ih hnext hlt (fun n hn => hp n (by rw [bytesOf, List.map_cons]; exact .tail _ hn))

theorem takeParts_exact (strict : Bool) {offset : ℕ} (parts : List (ℕ × ℕ)) (hd : 8 ∣ offset)
    (hp : ∀ n ∈ bytesOf parts, n < 2^63) (hend : placeEnd 8 offset (bytesOf parts) < 2^64) :
    takeParts strict offset parts =
      .ok (place 8 offset (bytesOf parts),placeEnd 8 offset (bytesOf parts)) := by
  induction parts generalizing offset with
  | nil => rfl
  | cons part parts ih =>
    have hbytes : part.1*part.2 < 2^63 := hp _ (by simp [bytesOf])
    have hnext : 8 ∣ offset+alignUp 8 (part.1*part.2) := Nat.dvd_add hd (alignUp_dvd 8 _)
    have hstart : alignUp 8 offset = offset := alignUp_of_dvd (by omega) hd
    have hrest : placeEnd 8 (offset+alignUp 8 (part.1*part.2)) (bytesOf parts) < 2^64 := by
      rw [bytesOf, List.map_cons, placeEnd, hstart] at hend
      exact hend
    have hle := le_placeEnd (show 0 < 8 by omega) (offset+alignUp 8 (part.1*part.2))
      (bytesOf parts)
    rw [takeParts, mulSize_small (by omega), ok_bind, storageTake,
      alignAppend_exact strict hd (by omega) hbytes, guarded, if_pos (by omega)]
    simp only [ok_bind]
    rw [pure_bind, ih hnext (fun n hn => hp n (by rw [bytesOf, List.map_cons]; exact .tail _ hn))
      hrest]
    simp only [ok_bind, bytesOf, List.map_cons, place, placeEnd, hstart]
    rfl

/-! The shares of a partition. -/

def bucketsFor (capacity : ℕ) : ℕ := 2^Nat.clog 2 (max 16 (capacity*2))

theorem nextPowerOfTwo_exact (strict : Bool) {requested : ℕ} (n i : ℕ)
    (hr : requested ≤ 2^31) (hlow : i ≤ Nat.clog 2 requested)
    (hhigh : Nat.clog 2 requested < i+n) :
    nextPowerOfTwo strict requested n (2^i) = .ok (2^Nat.clog 2 requested) := by
  induction n generalizing i with
  | zero => omega
  | succ n ih =>
    have hlt : 2^i < requested ↔ i < Nat.clog 2 requested := by
      rw [Nat.lt_clog_iff_pow_lt (by omega)]
    rw [nextPowerOfTwo]
    split
    · rename_i h
      have hi := hlt.mp h
      have hdouble : 2^i*2 < 2^32 := by omega
      rw [fit_small strict hdouble, ok_bind, ← pow_succ]
      exact ih (i+1) (by omega) (by omega)
    · rename_i h
      rw [show i = Nat.clog 2 requested by rw [hlt] at h; omega]
      rfl

theorem indexBucketsFor_exact (strict : Bool) {capacity : ℕ} (h : capacity < 2^30) :
    indexBucketsFor strict capacity = .ok (bucketsFor capacity) := by
  have hmax : max 16 (capacity*2) ≤ 2^31 := by omega
  have hclog : Nat.clog 2 (max 16 (capacity*2)) ≤ 31 :=
    (Nat.clog_le_iff_le_pow (by omega)).mpr hmax
  rw [indexBucketsFor, fit_small strict (by omega), ok_bind]
  exact nextPowerOfTwo_exact strict 33 0 hmax (Nat.zero_le _) (by omega)

theorem le_bucketsFor (capacity : ℕ) : 2*capacity ≤ bucketsFor capacity := by
  have h := Nat.le_pow_clog (show 1 < 2 by omega) (max 16 (capacity*2))
  unfold bucketsFor
  omega

theorem bucketsFor_le {capacity : ℕ} (h : capacity < 2^30) : bucketsFor capacity ≤ 2^31 := by
  have hclog : Nat.clog 2 (max 16 (capacity*2)) ≤ 31 :=
    (Nat.clog_le_iff_le_pow (by omega)).mpr (by omega)
  exact Nat.pow_le_pow_right (by omega) hclog

theorem partitionCapacity_le (total partition partitions : ℕ) :
    partitionCapacity total partition partitions ≤ total+1 := by
  have hdiv := Nat.div_le_self total partitions
  unfold partitionCapacity
  split <;> omega

variable {z : Sizes} {cfg : Config} {n slots : ℕ}

theorem markerEntries_le (cfg : Config) : effectiveMarkerEntries cfg ≤ 2^20 := by
  have h := cfg.markerEntries_range
  unfold effectiveMarkerEntries
  split <;> omega

def keySlotsOf (cfg : Config) : ℕ :=
  min (effectiveMarkerEntries cfg) (effectiveMarkerMemoryMb cfg*megabyte/keyMax)

theorem markerKeySlots_exact (strict : Bool) (cfg : Config) :
    markerKeySlots strict cfg = .ok (keySlotsOf cfg) := by
  have hentries := markerEntries_le cfg
  have hmemory : effectiveMarkerMemoryMb cfg ≤ 1024 := by
    have h := cfg.markerMemory_range
    unfold effectiveMarkerMemoryMb
    split <;> omega
  have hmul : effectiveMarkerMemoryMb cfg*megabyte < 2^64 := by unfold megabyte; omega
  rw [markerKeySlots, mulSize_small hmul, ok_bind, fit_small strict (by omega)]
  rfl

def exactShares (cfg : Config) (n slots partition : ℕ) : Shares :=
  ⟨partitionCapacity cfg.cacheEntries partition n,
    bucketsFor (partitionCapacity cfg.cacheEntries partition n),
    partitionCapacity (effectiveMarkerEntries cfg) partition n,
    bucketsFor (partitionCapacity (effectiveMarkerEntries cfg) partition n),
    partitionCapacity slots partition n⟩

theorem sharesOf_exact (strict : Bool) (hs : slots ≤ 2^20) (partition : ℕ) :
    sharesOf strict cfg n slots partition = .ok (exactShares cfg n slots partition) := by
  have hentries := cfg.cacheEntries_range
  have hmarkers := markerEntries_le cfg
  have h1 := partitionCapacity_le cfg.cacheEntries partition n
  have h2 := partitionCapacity_le (effectiveMarkerEntries cfg) partition n
  have h3 := partitionCapacity_le slots partition n
  rw [sharesOf, capacityOf, fit_small strict (by omega), ok_bind,
    indexBucketsFor_exact strict (by omega), ok_bind, capacityOf, fit_small strict (by omega),
    ok_bind, indexBucketsFor_exact strict (by omega), ok_bind, capacityOf,
    fit_small strict (by omega), ok_bind]
  rfl

/-- The bytes of the parts of one partition. -/
def partBytes (z : Sizes) (cfg : Config) (n slots partition : ℕ) : List ℕ :=
  bytesOf (sizedParts z (exactShares cfg n slots partition))

theorem partBytes_small (hs : slots ≤ 2^20) (partition : ℕ) :
    ∀ m ∈ partBytes z cfg n slots partition, m < 2^63 := by
  have hentries := cfg.cacheEntries_range
  have hmarkers := markerEntries_le cfg
  have h1 := partitionCapacity_le cfg.cacheEntries partition n
  have h2 := partitionCapacity_le (effectiveMarkerEntries cfg) partition n
  have h3 := partitionCapacity_le slots partition n
  have hproduct : ∀ count size, count ≤ 2^31 → size < 2^31 → count*size < 2^63 := by
    intro count size hc hz
    calc count*size ≤ 2^31*2^31 := Nat.mul_le_mul hc (le_of_lt hz)
      _ < 2^63 := by norm_num
  have hword : uint32Bytes < 2^31 := by decide
  have hkey : keyMax < 2^31 := by decide
  intro m hm
  simp only [partBytes, bytesOf, sizedParts, exactShares, List.map_cons, List.map_nil,
    List.mem_cons, List.not_mem_nil, or_false] at hm
  rcases hm with rfl | rfl | rfl | rfl | rfl | rfl | rfl | rfl
  · exact hproduct _ _ (by omega) (z.small _ (by simp))
  · exact hproduct _ _ (bucketsFor_le (by omega)) hword
  · exact hproduct _ _ (bucketsFor_le (by omega)) hword
  · exact hproduct _ _ (by omega) (z.small _ (by simp))
  · exact hproduct _ _ (bucketsFor_le (by omega)) hword
  · exact hproduct _ _ (bucketsFor_le (by omega)) hword
  · exact hproduct _ _ (by omega) hkey
  · exact hproduct _ _ (by omega) hword

def allBytes (z : Sizes) (cfg : Config) (n slots first count : ℕ) : List ℕ :=
  (List.range' first count).flatMap (partBytes z cfg n slots)

theorem allBytes_succ (first count : ℕ) : allBytes z cfg n slots first (count+1) =
    partBytes z cfg n slots first++allBytes z cfg n slots (first+1) count := by
  rw [allBytes, List.range'_succ, List.flatMap_cons]
  rfl

/-! The two loops. -/

theorem fixedLoop_exact (strict : Bool) (hs : slots ≤ 2^20) (first count : ℕ) {offset : ℕ}
    (hd : 8 ∣ offset) (ho : offset < 2^64) :
    fixedLoop strict z cfg n slots first count offset =
      guarded (placeEnd 8 offset (allBytes z cfg n slots first count)) := by
  induction count generalizing first offset with
  | zero => exact (if_pos ho).symm
  | succ count ih =>
    rw [fixedLoop, sharesOf_exact strict hs, ok_bind,
      appendParts_exact strict _ hd ho (partBytes_small hs first), allBytes_succ, placeEnd_append]
    refine guarded_bind _ (le_placeEnd (by omega) _ _) (fun hlt => ?_)
    exact ih (first+1) (placeEnd_dvd _ _ hd) hlt

/-- The partitions as they are carved from an offset on. -/
def carved (z : Sizes) (cfg : Config) (n slots : ℕ) :
    ℕ → ℕ → ℕ → List (Shares × List Region)
  | _, 0, _ => []
  | first, count+1, offset =>
    (exactShares cfg n slots first,place 8 offset (partBytes z cfg n slots first))::
      carved z cfg n slots (first+1) count (placeEnd 8 offset (partBytes z cfg n slots first))

theorem carveLoop_exact (strict : Bool) (hs : slots ≤ 2^20) (first count : ℕ) {offset : ℕ}
    (hd : 8 ∣ offset) (hend : placeEnd 8 offset (allBytes z cfg n slots first count) < 2^64) :
    carveLoop strict z cfg n slots first count offset =
      .ok (carved z cfg n slots first count offset,
        placeEnd 8 offset (allBytes z cfg n slots first count)) := by
  induction count generalizing first offset with
  | zero => rfl
  | succ count ih =>
    rw [allBytes_succ, placeEnd_append] at hend ⊢
    have hle := le_placeEnd (show 0 < 8 by omega)
      (placeEnd 8 offset (partBytes z cfg n slots first))
      (allBytes z cfg n slots (first+1) count)
    have htake : takeParts strict offset (takenParts z (exactShares cfg n slots first)) =
        .ok (place 8 offset (partBytes z cfg n slots first),
          placeEnd 8 offset (partBytes z cfg n slots first)) :=
      takeParts_exact strict _ hd (partBytes_small hs first) (lt_of_le_of_lt hle hend)
    rw [carveLoop, sharesOf_exact strict hs, ok_bind, htake, ok_bind]
    simp only
    rw [ih (first+1) (placeEnd_dvd _ _ hd) hend]
    rfl

theorem carved_regions (first count offset : ℕ) :
    (carved z cfg n slots first count offset).flatMap Prod.snd =
      place 8 offset (allBytes z cfg n slots first count) := by
  induction count generalizing first offset with
  | zero => rfl
  | succ count ih =>
    rw [carved, List.flatMap_cons, ih, allBytes_succ, place_append]

theorem carved_shares (first count offset : ℕ) :
    (carved z cfg n slots first count offset).map Prod.fst =
      (List.range' first count).map (exactShares cfg n slots) := by
  induction count generalizing first offset with
  | zero => rfl
  | succ count ih => rw [carved, List.map_cons, ih, List.range'_succ, List.map_cons]

end PgLocalCache.LayoutExact
