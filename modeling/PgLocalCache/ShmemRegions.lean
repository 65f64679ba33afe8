import PgLocalCache.LayoutExact

/-!
# The layout of an admitted configuration

An admitted configuration has a partition count between 16 and 256 and a page count
far below the limit of an arena. Both modes then give the same sizes, so that no
step of validation, sizing or carving wraps around, and the regions are apart,
aligned, and end where the reserved memory ends.
-/

namespace PgLocalCache.ShmemRegions

open CacheArena SerialLayout ShmemLayout LayoutExact
open DescriptorCounter (partitionCapacity)

variable {z : Sizes} {cfg : Config} {n pages : ℕ}

/-! The number of partitions. -/

theorem entriesPerPartition_exact (cfg : Config) {n : ℕ} (hn : n ≤ 256) :
    entriesPerPartition cfg n = .ok ((cfg.cacheEntries+(n-1))/n) := by
  have hentries := cfg.cacheEntries_range
  rw [entriesPerPartition, addSize_guarded, guarded, if_pos (by omega)]
  rfl

theorem partitionCountLoop_exact (cfg : Config) (fuel k : ℕ) (hlow : 4 ≤ k) (hhigh : k ≤ 8)
    (hf : k ≤ fuel) : ∃ j, 4 ≤ j ∧ j ≤ k ∧ 2^j ≤ cfg.cacheEntries ∧
      partitionCountLoop cfg fuel (2^k) = .ok (2^j) := by
  have hentries := cfg.cacheEntries_range
  induction fuel generalizing k with
  | zero => omega
  | succ fuel ih =>
    have hpow : 2^k ≤ 2^8 := Nat.pow_le_pow_right (by omega) hhigh
    rw [partitionCountLoop]
    split
    · rename_i hbig
      have hk : 4 < k := (Nat.pow_lt_pow_iff_right (show 1 < 2 by omega)).mp hbig
      rw [entriesPerPartition_exact cfg (by omega), ok_bind]
      split
      · obtain ⟨j,hj,hjk,hle,heq⟩ := ih (k-1) (by omega) (by omega) (by omega)
        have hhalf : 2^k/2 = 2^(k-1) := by
          rw [show k = (k-1)+1 by omega, pow_succ, Nat.mul_div_cancel _ (by omega)]
          rfl
        exact ⟨j,hj,by omega,hle,by rw [hhalf]; exact heq⟩
      · rename_i hfull
        have hmul := (Nat.le_div_iff_mul_le (show 0 < 2^k by positivity)).mp (Nat.not_lt.mp hfull)
        exact ⟨k,hlow,le_refl _,by omega,rfl⟩
    · rename_i hsmall
      have hk : k ≤ 4 := (Nat.pow_le_pow_iff_right (show 1 < 2 by omega)).mp (Nat.not_lt.mp hsmall)
      obtain rfl : k = 4 := by omega
      exact ⟨4,le_refl _,le_refl _,by omega,rfl⟩

theorem power_of_land {m : ℕ} (hlow : 16 ≤ m) (hhigh : m ≤ 256) (h : m &&& (m-1) = 0) :
    ∃ k, 4 ≤ k ∧ k ≤ 8 ∧ m = 2^k := by
  have hall : ∀ i < 257, 16 ≤ i → i &&& (i-1) = 0 → i = 2^4 ∨ i = 2^5 ∨ i = 2^6 ∨ i = 2^7 ∨
      i = 2^8 := by decide +kernel
  rcases hall m (by omega) hlow h with h | h | h | h | h
  · exact ⟨4,by omega,by omega,h⟩
  · exact ⟨5,by omega,by omega,h⟩
  · exact ⟨6,by omega,by omega,h⟩
  · exact ⟨7,by omega,by omega,h⟩
  · exact ⟨8,by omega,by omega,h⟩

/-- What the results need of the number of partitions. -/
structure Counted (cfg : Config) (n : ℕ) : Prop where
  count : cachePartitionCount cfg = .ok n
  low : 16 ≤ n
  high : n ≤ 256
  entries : n ≤ cfg.cacheEntries

theorem counted_of_land (h : cfg.lockPartitions &&& (cfg.lockPartitions-1) = 0) :
    ∃ n, Counted cfg n := by
  have hrange := cfg.lockPartitions_range
  obtain ⟨k,hlow,hhigh,hk⟩ := power_of_land hrange.1 hrange.2 h
  have hfuel : k ≤ cfg.lockPartitions := by
    rw [hk]
    exact le_of_lt k.lt_two_pow_self
  obtain ⟨j,hj,hjk,hle,heq⟩ := partitionCountLoop_exact cfg cfg.lockPartitions k hlow hhigh hfuel
  refine ⟨2^j,?_,?_,?_,hle⟩
  · rw [cachePartitionCount]
    nth_rewrite 2 [hk]
    exact heq
  · exact Nat.pow_le_pow_right (show 0 < 2 by omega) hj
  · exact Nat.pow_le_pow_right (show 0 < 2 by omega) (hjk.trans hhigh)

/-! Sizes in both modes. -/

theorem slots_le (cfg : Config) : keySlotsOf cfg ≤ 2^20 :=
  (min_le_left _ _).trans (markerEntries_le cfg)

/-- The bytes of every region in front of the page descriptors. -/
def fixedBytes (z : Sizes) (cfg : Config) (n : ℕ) : List ℕ :=
  allBytes z cfg n (keySlotsOf cfg) 0 n++[64]

def storageSizes (z : Sizes) (cfg : Config) (n pages : ℕ) : List ℕ :=
  fixedBytes z cfg n++[pages*n*arenaPageBytes,pages*n*pageSize]

theorem storageFixedBytes_exact (strict : Bool) (hc : Counted cfg n) :
    storageFixedBytes strict z cfg = guarded (placeEnd 8 0 (fixedBytes z cfg n)) := by
  have hd := placeEnd_dvd 0 (allBytes z cfg n (keySlotsOf cfg) 0 n) (Nat.dvd_zero 8)
  rw [storageFixedBytes, hc.count, ok_bind, markerKeySlots_exact, ok_bind,
    fixedLoop_exact strict (slots_le cfg) 0 n (Nat.dvd_zero 8) (by omega), fixedBytes,
    placeEnd_append, placeEnd, placeEnd, alignUp_of_dvd (by omega) hd]
  refine guarded_bind _ (Nat.le_add_right _ _) (fun hlt => ?_)
  rw [maxAlign_exact strict (by omega)]
  rfl

theorem pageBytes_small (hn : n ≤ 256) (hp : pages < 2^32) :
    pages*n < 2^40 ∧ pages*n*arenaPageBytes < 2^63 ∧ pages*n*pageSize < 2^63 := by
  have hcount : pages*n < 2^40 := by
    calc pages*n ≤ pages*256 := Nat.mul_le_mul_left pages hn
      _ < 2^40 := by omega
  unfold arenaPageBytes pageSize
  omega

theorem storageBytes_exact (strict : Bool) (hc : Counted cfg n) (hp : pages < 2^32) :
    storageBytes strict z cfg pages = guarded (placeEnd 8 0 (storageSizes z cfg n pages)) := by
  obtain ⟨hcount,hdesc,hmem⟩ := pageBytes_small hc.high hp
  have hd := placeEnd_dvd 0 (fixedBytes z cfg n) (Nat.dvd_zero 8)
  have hd' := Nat.dvd_add hd (alignUp_dvd 8 (pages*n*arenaPageBytes))
  rw [storageBytes, storageFixedBytes_exact strict hc, storageSizes, placeEnd_append]
  refine guarded_bind _ (le_placeEnd (by omega) _ _) (fun hlt => ?_)
  rw [hc.count, ok_bind, mulSize_small (by omega), ok_bind, mulSize_small (by omega), ok_bind,
    alignAppend_exact strict hd hlt hdesc, bind_assoc, placeEnd, alignUp_of_dvd (by omega) hd]
  refine guarded_bind _ (le_placeEnd (by omega) _ _) (fun hlt' => ?_)
  simp only [ok_bind]
  rw [mulSize_small (by omega), ok_bind, alignAppend_exact strict hd' hlt' hmem, bind_assoc,
    placeEnd, placeEnd, alignUp_of_dvd (by omega) hd']
  simp only [ok_bind]
  exact bind_pure _

theorem workerMemoryBytesPerWorker_mode (strict : Bool) (z : Sizes) (cfg : Config) :
    workerMemoryBytesPerWorker strict z cfg = workerMemoryBytesPerWorker false z cfg := by
  have hclients := cfg.maxClientsPerWorker_range
  have hmiss : z.deferredMiss < 2^31 := z.small _ (by simp)
  unfold maxClientsPerWorkerLimit at hclients
  unfold workerMemoryBytesPerWorker
  rw [maxAlign_exact strict (by omega), maxAlign_exact false (by omega),
    fit_small strict (by omega), fit_small false (by omega)]

theorem workerMemoryBytes_mode (strict : Bool) (z : Sizes) (cfg : Config) :
    workerMemoryBytes strict z cfg = workerMemoryBytes false z cfg := by
  have hbuffer : requestMax+outputBufferMax < 2^64 := by decide
  unfold workerMemoryBytes
  rw [workerMemoryBytesPerWorker_mode strict, fit_small strict hbuffer, fit_small false hbuffer]

theorem commonMemoryBytes_mode (strict : Bool) (hc : Counted cfg n) :
    commonMemoryBytes strict z cfg = commonMemoryBytes false z cfg := by
  have hshared : z.sharedState < 2^31 := z.small _ (by simp)
  have hhigh := hc.high
  unfold commonMemoryBytes
  rw [maxAlign_exact strict (by omega), maxAlign_exact false (by omega), hc.count]
  simp only [ok_bind]
  rw [fit_small strict (by omega), fit_small false (by omega)]

theorem pagesLoop_mode (strict : Bool) (hc : Counted cfg n) (nonCache budget : ℕ)
    (hp : pages < 2^32) :
    pagesLoop strict z cfg nonCache budget pages = pagesLoop false z cfg nonCache budget pages := by
  induction pages with
  | zero => rfl
  | succ pages ih =>
    rw [pagesLoop, pagesLoop, storageBytes_exact strict hc hp, storageBytes_exact false hc hp,
      ih (by omega)]

theorem pagesLoop_le {strict : Bool} {nonCache budget r : ℕ}
    (h : pagesLoop strict z cfg nonCache budget pages = .ok r) : r ≤ pages := by
  induction pages with
  | zero =>
    cases h
    exact le_refl _
  | succ pages ih =>
    rw [pagesLoop] at h
    obtain ⟨storage,_,h⟩ := bind_ok.mp h
    obtain ⟨total,_,h⟩ := bind_ok.mp h
    split at h
    · exact (ih h).trans (Nat.le_succ pages)
    · cases h
      exact le_refl _

theorem budget_small (cfg : Config) : cfg.memoryBudgetMb*megabyte ≤ 2^33 := by
  have h := cfg.memoryBudget_range
  unfold megabyte
  omega

/-- What one page costs, in its partition and in the array of page descriptors. -/
def pageCost : ℕ := pageSize+alignUp 8 arenaPageBytes

theorem pages_quotient (cfg : Config) (hc : Counted cfg n) (fixed : ℕ) :
    (cfg.memoryBudgetMb*megabyte-fixed)/(n*pageCost) ≤ 8192 := by
  have hbudget := budget_small cfg
  have hcost : 65536 ≤ pageCost := by decide
  have hdivisor : 16*65536 ≤ n*pageCost := Nat.mul_le_mul hc.low hcost
  calc (cfg.memoryBudgetMb*megabyte-fixed)/(n*pageCost)
      ≤ (cfg.memoryBudgetMb*megabyte-fixed)/(16*65536) :=
        Nat.div_le_div_left hdivisor (by omega)
    _ ≤ 2^33/(16*65536) := Nat.div_le_div_right (by omega)
    _ = 8192 := by norm_num

/-- The page count, with every step that cannot fail carried out. -/
def pagesOf (z : Sizes) (cfg : Config) (n : ℕ) : Sized ℕ := do
  let common ← commonMemoryBytes false z cfg
  let worker ← workerMemoryBytes false z cfg
  let nonCache ← addSize common worker
  let fixedCache ← guarded (placeEnd 8 0 (fixedBytes z cfg n))
  let fixed ← addSize nonCache fixedCache
  if cfg.memoryBudgetMb*megabyte ≤ fixed then return 0
  else
    pagesLoop false z cfg nonCache (cfg.memoryBudgetMb*megabyte)
      ((cfg.memoryBudgetMb*megabyte-fixed)/(n*pageCost))

theorem arenaPages_exact (strict : Bool) (hc : Counted cfg n) :
    arenaPagesPerPartition strict z cfg = pagesOf z cfg n := by
  have hbudget := budget_small cfg
  have halign : arenaPageBytes+7 < 2^64 := by decide
  have hcost : addSize pageSize (alignUp 8 arenaPageBytes) = .ok pageCost := by decide
  have hdivisor : n*pageCost < 2^64 := by
    calc n*pageCost ≤ 256*pageCost := Nat.mul_le_mul_right _ hc.high
      _ < 2^64 := by decide
  rw [arenaPagesPerPartition, mulSize_small (by omega), ok_bind, commonMemoryBytes_mode strict hc,
    workerMemoryBytes_mode strict, maxAlign_exact strict halign,
    storageFixedBytes_exact strict hc, hc.count, pagesOf]
  refine bind_congr (fun common => bind_congr (fun worker => bind_congr (fun nonCache => ?_)))
  simp only [ok_bind, hcost]
  refine bind_congr (fun fixedCache => bind_congr (fun fixed => ?_))
  split
  · rfl
  · have hquotient := pages_quotient cfg hc fixed
    rw [fit_small strict hdivisor, ok_bind,
      fit_small strict (lt_of_le_of_lt hquotient (by norm_num)), ok_bind]
    exact pagesLoop_mode strict hc nonCache _ (by omega)

theorem arenaPages_le {strict : Bool} (hc : Counted cfg n)
    (h : arenaPagesPerPartition strict z cfg = .ok pages) : pages ≤ 8192 := by
  rw [arenaPages_exact strict hc, pagesOf] at h
  obtain ⟨common,_,h⟩ := bind_ok.mp h
  obtain ⟨worker,_,h⟩ := bind_ok.mp h
  obtain ⟨nonCache,_,h⟩ := bind_ok.mp h
  obtain ⟨fixedCache,_,h⟩ := bind_ok.mp h
  obtain ⟨fixed,_,h⟩ := bind_ok.mp h
  split at h
  · cases h
    omega
  · exact (pagesLoop_le h).trans (pages_quotient cfg hc fixed)

theorem addinShmemBytes_mode (strict : Bool) (hc : Counted cfg n) :
    addinShmemBytes strict z cfg = addinShmemBytes false z cfg := by
  have hshared : z.sharedState < 2^31 := z.small _ (by simp)
  unfold addinShmemBytes
  rw [maxAlign_exact strict (by omega), maxAlign_exact false (by omega)]
  refine bind_congr (fun shared => bind_congr (fun hashed => bind_congr (fun slots => ?_)))
  rw [arenaPages_exact strict hc, arenaPages_exact false hc]
  cases hp : pagesOf z cfg n with
  | error e => rw [error_bind, error_bind]
  | ok pages =>
    have hle : pages ≤ 8192 := arenaPages_le hc ((arenaPages_exact false hc).trans hp)
    simp only [ok_bind]
    rw [storageBytes_exact strict hc (by omega), storageBytes_exact false hc (by omega)]

theorem estimatedMemoryBytes_mode (strict : Bool) (hc : Counted cfg n) :
    estimatedMemoryBytes strict z cfg = estimatedMemoryBytes false z cfg := by
  have hhigh := hc.high
  unfold estimatedMemoryBytes sharedMemoryBytes
  rw [addinShmemBytes_mode strict hc, workerMemoryBytes_mode strict, hc.count]
  simp only [ok_bind]
  rw [fit_small strict (by omega), fit_small false (by omega)]

theorem estimated_storage {total : ℕ} (h : estimatedMemoryBytes false z cfg = .ok total)
    (hp : arenaPagesPerPartition false z cfg = .ok pages) :
    ∃ storage, storageBytes false z cfg pages = .ok storage := by
  rw [estimatedMemoryBytes] at h
  obtain ⟨shared,h,_⟩ := bind_ok.mp h
  rw [sharedMemoryBytes] at h
  obtain ⟨addin,h,_⟩ := bind_ok.mp h
  rw [addinShmemBytes, hp] at h
  obtain ⟨_,_,h⟩ := bind_ok.mp h
  obtain ⟨_,_,h⟩ := bind_ok.mp h
  obtain ⟨_,_,h⟩ := bind_ok.mp h
  rw [ok_bind] at h
  obtain ⟨storage,h,_⟩ := bind_ok.mp h
  exact ⟨storage,h⟩

/-! Validation. -/

theorem reject_ok {p : Prop} [Decidable p] {fault : Fault} {u : Unit} :
    reject p fault = .ok u ↔ ¬p := by
  unfold reject
  split <;> simp [*]

theorem client_slots_small (cfg : Config) : cfg.workers*cfg.maxClientsPerWorker < 2^64 := by
  have hworkers := cfg.workers_range.2
  have hclients := cfg.maxClientsPerWorker_range.2
  calc cfg.workers*cfg.maxClientsPerWorker ≤ maxWorkers*maxClientsPerWorkerLimit :=
        Nat.mul_le_mul hworkers hclients
    _ < 2^64 := by decide

theorem checkClientSlots_mode (strict : Bool) (cfg : Config) :
    checkClientSlots strict cfg = checkClientSlots false cfg := by
  unfold checkClientSlots
  rw [fit_small strict (client_slots_small cfg), fit_small false (client_slots_small cfg)]

/-- What an admitted configuration has passed. -/
structure Admitted (z : Sizes) (cfg : Config) (total pages : ℕ) : Prop where
  power : cfg.lockPartitions &&& (cfg.lockPartitions-1) = 0
  estimated : estimatedMemoryBytes false z cfg = .ok total
  paged : arenaPagesPerPartition false z cfg = .ok pages
  within : total ≤ cfg.memoryBudgetMb*megabyte
  positive : pages ≠ 0

theorem admitted_of_validate (h : validateStartupLimits false z cfg = .ok ()) :
    ∃ total pages, Admitted z cfg total pages := by
  obtain ⟨_,_,h⟩ := bind_ok.mp h
  obtain ⟨_,_,h⟩ := bind_ok.mp h
  obtain ⟨_,hpower,h⟩ := bind_ok.mp h
  obtain ⟨budget,hbudget,h⟩ := bind_ok.mp h
  obtain ⟨total,htotal,h⟩ := bind_ok.mp h
  obtain ⟨pages,hpages,h⟩ := bind_ok.mp h
  have hpower := reject_ok.mp hpower
  have h := reject_ok.mp h
  obtain ⟨_,rfl⟩ := mulSize_ok.mp hbudget
  push Not at hpower h
  exact ⟨total,pages,hpower.2.2,htotal,hpages,h.1,h.2⟩

theorem validate_mode (strict : Bool) (hc : Counted cfg n) :
    validateStartupLimits strict z cfg = validateStartupLimits false z cfg := by
  unfold validateStartupLimits
  rw [checkClientSlots_mode strict, estimatedMemoryBytes_mode strict hc,
    arenaPages_exact strict hc, arenaPages_exact false hc]

end PgLocalCache.ShmemRegions
