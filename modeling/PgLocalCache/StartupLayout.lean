import PgLocalCache.ShmemRegions

/-!
# What start-up carves out

The regions of an admitted configuration in the order in which start-up takes them:
eight for every partition, the reserve, the page descriptors and the arena pages.
-/

namespace PgLocalCache.StartupLayout

open CacheArena SerialLayout ShmemLayout LayoutExact ShmemRegions
open DescriptorCounter (partitionCapacity)

variable {z : Sizes} {cfg : Config} {n pages : ℕ}

def regions (st : Storage) : List Region :=
  st.partitions.flatMap Prod.snd++([st.reserve]++(st.pageDescriptors++st.arenaMemory))

/-- What the regions and the shares of a carved storage have to satisfy. -/
structure LaidOut (z : Sizes) (cfg : Config) (st : Storage) : Prop where
  reserved : storageBytes false z cfg st.pages = .ok st.finish
  apart : (regions st).Pairwise Before
  inside : ∀ r ∈ regions st, r.start+r.bytes ≤ st.finish
  filled : ∃ r, (regions st).getLast? = some r ∧ r.start+r.bytes = st.finish
  aligned : ∀ r ∈ st.partitions.flatMap Prod.snd++(st.reserve::st.arenaMemory), 8 ∣ r.start
  descriptorsAligned : ∀ r ∈ st.pageDescriptors, arenaPageAlign ∣ r.start
  holds : ∀ p ∈ st.partitions, p.2.map Region.bytes = bytesOf (takenParts z p.1)
  arenas : st.pageDescriptors.map Region.bytes =
      List.replicate st.partitions.length (st.pages*arenaPageBytes) ∧
    st.arenaMemory.map Region.bytes = List.replicate st.partitions.length (st.pages*pageSize)
  capacities : (st.partitions.map (fun p => p.1.capacity)).sum = cfg.cacheEntries
  positive : ∀ p ∈ st.partitions, 0 < p.1.capacity
  indexes : ∀ p ∈ st.partitions, (∃ k, p.1.buckets = 2^k) ∧ 2*p.1.capacity ≤ p.1.buckets
  markerIndexes : ∀ p ∈ st.partitions,
    (∃ k, p.1.markerBuckets = 2^k) ∧ 2*p.1.markerCapacity ≤ p.1.markerBuckets
  pageLimit : ∀ memory, (arenaInit memory st.pages).isSome
  budget : ∃ total, estimatedMemoryBytes false z cfg = .ok total ∧
    total ≤ cfg.memoryBudgetMb*megabyte

/-! Shares. -/

theorem sum_capacities (total n m : ℕ) :
    ((List.range' 0 m).map (fun p => partitionCapacity total p n)).sum =
      m*(total/n)+min m (total%n) := by
  induction m with
  | zero => simp
  | succ m ih =>
    rw [List.range'_1_concat, List.map_append, List.sum_append, ih, Nat.succ_mul]
    simp only [List.map_cons, List.map_nil, List.sum_cons, List.sum_nil, partitionCapacity]
    split <;> omega

theorem sum_partitionCapacity {total n : ℕ} (hn : 0 < n) :
    ((List.range' 0 n).map (fun p => partitionCapacity total p n)).sum = total := by
  have hmod := Nat.mod_lt total hn
  rw [sum_capacities, min_eq_right (le_of_lt hmod)]
  exact Nat.div_add_mod total n

theorem partitionCapacity_pos {total n : ℕ} (hn : 0 < n) (h : n ≤ total) (p : ℕ) :
    0 < partitionCapacity total p n := by
  have hdiv := Nat.div_pos h hn
  unfold partitionCapacity
  omega

theorem mem_carved {slots first count offset : ℕ} {p : Shares × List Region}
    (h : p ∈ carved z cfg n slots first count offset) :
    ∃ partition, p.1 = exactShares cfg n slots partition ∧
      p.2.map Region.bytes = partBytes z cfg n slots partition := by
  induction count generalizing first offset with
  | zero => cases h
  | succ count ih =>
    rcases List.mem_cons.mp h with rfl | h
    · exact ⟨first,rfl,place_bytes _ _⟩
    · exact ih h

theorem carved_length (slots first count offset : ℕ) :
    (carved z cfg n slots first count offset).length = count := by
  induction count generalizing first offset with
  | zero => rfl
  | succ count ih => rw [carved, List.length_cons, ih]

/-! Arenas. -/

theorem arenaInit_isSome {pages : ℕ} (h : pages ≤ 8192) (memory : ByteMemory.Memory) :
    (arenaInit memory pages).isSome := by
  have hroom : (2^32-1)/pageSize = 65535 := by decide
  rw [arenaInit, if_neg (by omega)]
  rfl

theorem arenaLoop_exact (strict : Bool) (allPages allArena : ℕ) (hp : pages ≤ 8192)
    (first count : ℕ) (hcount : first+count ≤ 256) :
    arenaLoop strict pages allPages allArena first count =
      .ok ((List.range' first count).map
          (fun i => ⟨allPages+i*(pages*arenaPageBytes),pages*arenaPageBytes⟩),
        (List.range' first count).map
          (fun i => ⟨allArena+i*(pages*pageSize),pages*pageSize⟩)) := by
  induction count generalizing first with
  | zero => rfl
  | succ count ih =>
    have hskip : first*pages ≤ 256*8192 := Nat.mul_le_mul (by omega) hp
    have hdesc : first*pages*arenaPageBytes < 2^64 := by unfold arenaPageBytes; omega
    have hmem : first*pages*pageSize < 2^64 := by unfold pageSize; omega
    obtain ⟨a,ha⟩ := Option.isSome_iff_exists.mp (arenaInit_isSome hp (fun _ => 0))
    rw [arenaLoop, fit_small strict (by omega), ok_bind, fit_small strict hdesc, ok_bind,
      fit_small strict hmem, ok_bind, ha]
    simp only
    rw [ih (first+1) (by omega), ok_bind, List.range'_succ, List.map_cons, List.map_cons,
      Nat.mul_assoc, Nat.mul_assoc]
    rfl

/-! Carving. -/

section
variable (z cfg n pages)

/-- Where the reserve, the page descriptors, the pages and the storage end. -/
def reserveStart : ℕ :=
  placeEnd 8 0 (allBytes z cfg n (keySlotsOf cfg) 0 n)

def pagesStart : ℕ := reserveStart z cfg n+64

def arenaStart : ℕ :=
  pagesStart z cfg n+alignUp 8 (pages*n*arenaPageBytes)

def storageEnd : ℕ :=
  arenaStart z cfg n pages+pages*n*pageSize

theorem reserveStart_dvd : 8 ∣ reserveStart z cfg n :=
  placeEnd_dvd _ _ (Nat.dvd_zero 8)

theorem pagesStart_dvd : 8 ∣ pagesStart z cfg n :=
  Nat.dvd_add (reserveStart_dvd z cfg n) (by decide)

theorem arenaStart_dvd : 8 ∣ arenaStart z cfg n pages :=
  Nat.dvd_add (pagesStart_dvd z cfg n) (alignUp_dvd 8 _)

theorem pageSize_dvd (m : ℕ) : 8 ∣ m*pageSize := Dvd.dvd.mul_left (by decide) m

theorem storageEnd_eq :
    placeEnd 8 0 (storageSizes z cfg n pages) = storageEnd z cfg n pages := by
  rw [storageSizes, fixedBytes, List.append_assoc, placeEnd_append]
  change placeEnd 8 (reserveStart z cfg n) [64,pages*n*arenaPageBytes,pages*n*pageSize] = _
  simp only [placeEnd]
  rw [alignUp_of_dvd (by omega) (reserveStart_dvd z cfg n),
    alignUp_of_dvd (by omega) (show 8 ∣ 64 by decide)]
  change alignUp 8 (alignUp 8 (pagesStart z cfg n)+alignUp 8 (pages*n*arenaPageBytes))+_ = _
  rw [alignUp_of_dvd (by omega) (pagesStart_dvd z cfg n)]
  change alignUp 8 (arenaStart z cfg n pages)+_ = _
  rw [alignUp_of_dvd (by omega) (arenaStart_dvd z cfg n pages),
    alignUp_of_dvd (by omega) (pageSize_dvd _)]
  rfl

def exactStorage : Storage where
  pages := pages
  partitions := carved z cfg n (keySlotsOf cfg) 0 n 0
  reserve := ⟨reserveStart z cfg n,64⟩
  pageDescriptors := slices (pagesStart z cfg n) (pages*arenaPageBytes) n
  arenaMemory := slices (arenaStart z cfg n pages) (pages*pageSize) n
  finish := storageEnd z cfg n pages

end

theorem storageTake_exact (strict : Bool) {offset bytes : ℕ} (hd : 8 ∣ offset)
    (hb : bytes < 2^63) (hend : offset+alignUp 8 bytes < 2^64) :
    storageTake strict offset bytes = .ok (⟨offset,bytes⟩,offset+alignUp 8 bytes) := by
  rw [storageTake, alignAppend_exact strict hd (by omega) hb, guarded, if_pos hend]
  rfl

theorem shmemStartup_exact (strict : Bool) (hc : Counted cfg n)
    (hpages : arenaPagesPerPartition false z cfg = .ok pages)
    (hend : storageEnd z cfg n pages < 2^64) :
    shmemStartup strict z cfg = .ok (exactStorage z cfg n pages) := by
  have hp := arenaPages_le hc hpages
  obtain ⟨hcount,hdesc,hmem⟩ := pageBytes_small hc.high (show pages < 2^32 by omega)
  have hstart : arenaStart z cfg n pages ≤ storageEnd z cfg n pages := Nat.le_add_right _ _
  have hfirst : pagesStart z cfg n ≤ arenaStart z cfg n pages := Nat.le_add_right _ _
  have hreserve : reserveStart z cfg n+64 = pagesStart z cfg n := rfl
  have h64 : alignUp 8 64 = 64 := by decide
  have harena : alignUp 8 (pages*n*pageSize) = pages*n*pageSize :=
    alignUp_of_dvd (by omega) (pageSize_dvd _)
  have hcarve : carveLoop strict z cfg n (keySlotsOf cfg) 0 n 0 =
      .ok (carved z cfg n (keySlotsOf cfg) 0 n 0,reserveStart z cfg n) :=
    carveLoop_exact strict (slots_le cfg) 0 n (Nat.dvd_zero 8)
      (show reserveStart z cfg n < 2^64 by omega)
  rw [shmemStartup, hc.count, ok_bind, arenaPages_exact strict hc, ← arenaPages_exact false hc,
    hpages, ok_bind, markerKeySlots_exact, ok_bind, hcarve, ok_bind]
  simp only
  rw [maxAlign_exact strict (by omega), ok_bind, h64,
    storageTake_exact strict (reserveStart_dvd z cfg n) (by omega) (by rw [h64]; omega), ok_bind,
    h64]
  simp only
  have htake : storageTake strict (pagesStart z cfg n) (pages*n*arenaPageBytes) =
      .ok (⟨pagesStart z cfg n,pages*n*arenaPageBytes⟩,arenaStart z cfg n pages) :=
    storageTake_exact strict (pagesStart_dvd z cfg n) hdesc (lt_of_le_of_lt hstart hend)
  rw [mulSize_small (by omega), ok_bind, mulSize_small (by omega), ok_bind, hreserve, htake,
    ok_bind]
  simp only
  rw [mulSize_small (by omega), ok_bind,
    storageTake_exact strict (arenaStart_dvd z cfg n pages) hmem (by rw [harena]; exact hend),
    ok_bind]
  simp only
  rw [arenaLoop_exact strict _ _ hp 0 n (by have := hc.high; omega), ok_bind, harena]
  rfl

/-! The regions. -/

theorem replicate_bytes (start bytes n : ℕ) :
    (slices start bytes n).map Region.bytes = List.replicate n bytes := by
  rw [slices, List.map_map]
  exact List.map_const'.trans (by rw [List.length_range'])

section
variable (z cfg n pages)

theorem regions_exact :
    regions (exactStorage z cfg n pages) =
      place 8 0 (allBytes z cfg n (keySlotsOf cfg) 0 n)++([⟨reserveStart z cfg n,64⟩]++
        (slices (pagesStart z cfg n) (pages*arenaPageBytes) n++
          slices (arenaStart z cfg n pages) (pages*pageSize) n)) := by
  rw [regions, exactStorage, carved_regions]

theorem descriptors_within :
    ∀ r ∈ slices (pagesStart z cfg n) (pages*arenaPageBytes) n,
      Within (pagesStart z cfg n) (arenaStart z cfg n pages) r := by
  have hsize : n*(pages*arenaPageBytes) = pages*n*arenaPageBytes := by ring
  have hle := le_alignUp (show 0 < 8 by omega) (pages*n*arenaPageBytes)
  intro r hr
  obtain ⟨hlow,hhigh⟩ := slices_within _ _ _ r hr
  refine ⟨hlow,hhigh.trans ?_⟩
  unfold arenaStart
  omega

theorem memory_within :
    ∀ r ∈ slices (arenaStart z cfg n pages) (pages*pageSize) n,
      Within (arenaStart z cfg n pages) (storageEnd z cfg n pages) r := by
  have hsize : n*(pages*pageSize) = pages*n*pageSize := by ring
  intro r hr
  have h := slices_within _ _ _ r hr
  rw [hsize] at h
  exact h

theorem within_mono {low low' high high' : ℕ} {r : Region} (h : Within low high r)
    (hl : low' ≤ low) (hh : high ≤ high') : Within low' high' r :=
  ⟨hl.trans h.1,h.2.trans hh⟩

theorem tail_within :
    ∀ r ∈ slices (pagesStart z cfg n) (pages*arenaPageBytes) n++
        slices (arenaStart z cfg n pages) (pages*pageSize) n,
      Within (pagesStart z cfg n) (storageEnd z cfg n pages) r := by
  intro r hr
  rcases List.mem_append.mp hr with hr | hr
  · exact within_mono (descriptors_within z cfg n pages r hr) (le_refl _) (Nat.le_add_right _ _)
  · exact within_mono (memory_within z cfg n pages r hr) (Nat.le_add_right _ _) (le_refl _)

theorem regions_within :
    (regions (exactStorage z cfg n pages)).Pairwise Before ∧
      ∀ r ∈ regions (exactStorage z cfg n pages), Within 0 (storageEnd z cfg n pages) r := by
  have hpages : pagesStart z cfg n ≤ storageEnd z cfg n pages :=
    (Nat.le_add_right _ _).trans (Nat.le_add_right _ _)
  have hreserve : ∀ r ∈ [(⟨reserveStart z cfg n,64⟩ : Region)],
      Within (reserveStart z cfg n) (pagesStart z cfg n) r := by
    intro r hr
    obtain rfl := List.mem_singleton.mp hr
    exact ⟨le_refl _,le_refl _⟩
  have hfront := place_within (show 0 < 8 by omega) 0 (allBytes z cfg n (keySlotsOf cfg) 0 n)
  have htail := tail_within z cfg n pages
  have hback : ∀ r ∈ [(⟨reserveStart z cfg n,64⟩ : Region)]++
      (slices (pagesStart z cfg n) (pages*arenaPageBytes) n++
        slices (arenaStart z cfg n pages) (pages*pageSize) n),
      Within (reserveStart z cfg n) (storageEnd z cfg n pages) r := by
    intro r hr
    rcases List.mem_append.mp hr with hr | hr
    · exact within_mono (hreserve r hr) (le_refl _) hpages
    · exact within_mono (htail r hr) (Nat.le_add_right _ _) (le_refl _)
  rw [regions_exact]
  constructor
  · refine apart_append (place_apart (by omega) _ _) ?_ hfront hback
    refine apart_append (List.pairwise_singleton _ _) ?_ hreserve htail
    exact apart_append (slices_apart _ _ _) (slices_apart _ _ _) (descriptors_within z cfg n pages)
      (memory_within z cfg n pages)
  · intro r hr
    rcases List.mem_append.mp hr with hr | hr
    · exact within_mono (hfront r hr) (le_refl _) ((Nat.le_add_right _ 64).trans hpages)
    · exact within_mono (hback r hr) (Nat.zero_le _) (le_refl _)

end

theorem last_fills (z : Sizes) (cfg : Config) {n : ℕ} (pages : ℕ) (hn : 0 < n) :
    ∃ r, (regions (exactStorage z cfg n pages)).getLast? = some r ∧
      r.start+r.bytes = storageEnd z cfg n pages := by
  obtain ⟨m,rfl⟩ : ∃ m, n = m+1 := ⟨n-1,by omega⟩
  have hlast : (slices (arenaStart z cfg (m+1) pages) (pages*pageSize) (m+1)).getLast? =
      some ⟨arenaStart z cfg (m+1) pages+m*(pages*pageSize),pages*pageSize⟩ := by
    rw [slices, List.range'_1_concat, List.map_append, List.map_singleton,
      List.getLast?_concat, Nat.zero_add]
  refine ⟨⟨arenaStart z cfg (m+1) pages+m*(pages*pageSize),pages*pageSize⟩,?_,?_⟩
  · rw [regions_exact, List.getLast?_append, List.getLast?_append, List.getLast?_append, hlast]
    rfl
  · change arenaStart z cfg (m+1) pages+m*(pages*pageSize)+pages*pageSize = _
    rw [storageEnd]
    ring

theorem exactStorage_laidOut {total : ℕ} (hc : Counted cfg n) (ha : Admitted z cfg total pages)
    (hend : storageEnd z cfg n pages < 2^64) : LaidOut z cfg (exactStorage z cfg n pages) := by
  have hp := arenaPages_le hc ha.paged
  have hn : 0 < n := lt_of_lt_of_le (by omega) hc.low
  obtain ⟨hapart,hinside⟩ := regions_within z cfg n pages
  have hshare : ∀ p ∈ (exactStorage z cfg n pages).partitions, ∃ partition,
      p.1 = exactShares cfg n (keySlotsOf cfg) partition ∧
        p.2.map Region.bytes = partBytes z cfg n (keySlotsOf cfg) partition :=
    fun p h => mem_carved h
  have hlength : (exactStorage z cfg n pages).partitions.length = n := carved_length _ _ _ _
  refine ⟨?_,hapart,fun r hr => (hinside r hr).2,last_fills z cfg pages hn,?_,?_,?_,?_,?_,?_,?_,?_,
    arenaInit_isSome hp,⟨total,ha.estimated,ha.within⟩⟩
  · change storageBytes false z cfg pages = .ok (storageEnd z cfg n pages)
    rw [storageBytes_exact false hc (by omega), storageEnd_eq]
    exact if_pos hend
  · intro r hr
    rcases List.mem_append.mp hr with hr | hr
    · change r ∈ (carved z cfg n (keySlotsOf cfg) 0 n 0).flatMap Prod.snd at hr
      rw [carved_regions] at hr
      exact place_dvd _ _ r hr
    · rcases List.mem_cons.mp hr with rfl | hr
      · exact reserveStart_dvd z cfg n
      · exact slices_dvd (arenaStart_dvd z cfg n pages) (pageSize_dvd _) _ r hr
  · have hstart : arenaPageAlign ∣ pagesStart z cfg n :=
      Dvd.dvd.trans (by decide) (pagesStart_dvd z cfg n)
    exact slices_dvd hstart (Dvd.dvd.mul_left (by decide) pages) n
  · intro p h
    obtain ⟨partition,hs,hb⟩ := hshare p h
    rw [hs]
    exact hb
  · rw [hlength]
    exact ⟨replicate_bytes _ _ _,replicate_bytes _ _ _⟩
  · change ((carved z cfg n (keySlotsOf cfg) 0 n 0).map (fun p => p.1.capacity)).sum = _
    have hmap : (carved z cfg n (keySlotsOf cfg) 0 n 0).map (fun p => p.1.capacity) =
        (List.range' 0 n).map (fun p => partitionCapacity cfg.cacheEntries p n) := by
      rw [show (fun p : Shares × List Region => p.1.capacity) = Shares.capacity ∘ Prod.fst from rfl,
        ← List.map_map, carved_shares, List.map_map]
      rfl
    rw [hmap]
    exact sum_partitionCapacity hn
  · intro p h
    obtain ⟨partition,hs,_⟩ := hshare p h
    rw [hs]
    exact partitionCapacity_pos hn hc.entries partition
  · intro p h
    obtain ⟨partition,hs,_⟩ := hshare p h
    rw [hs]
    exact ⟨⟨_,rfl⟩,le_bucketsFor _⟩
  · intro p h
    obtain ⟨partition,hs,_⟩ := hshare p h
    rw [hs]
    exact ⟨⟨_,rfl⟩,le_bucketsFor _⟩

/-- Every admitted configuration is carved into apart, aligned regions that end at the reserved
size, and the run in which no step may wrap around gives the same storage. -/
theorem startup_layout (z : Sizes) (cfg : Config)
    (h : validateStartupLimits false z cfg = .ok ()) :
    ∃ st, shmemStartup false z cfg = .ok st ∧ LaidOut z cfg st ∧
      validateStartupLimits true z cfg = .ok () ∧ shmemStartup true z cfg = .ok st := by
  obtain ⟨total,pages,ha⟩ := admitted_of_validate h
  obtain ⟨n,hc⟩ := counted_of_land ha.power
  obtain ⟨storage,hstorage⟩ := estimated_storage ha.estimated ha.paged
  have hp := arenaPages_le hc ha.paged
  rw [storageBytes_exact false hc (by omega), storageEnd_eq] at hstorage
  have hend := (guarded_ok.mp hstorage).1
  refine ⟨exactStorage z cfg n pages,shmemStartup_exact false hc ha.paged hend,
    exactStorage_laidOut hc ha hend,?_,shmemStartup_exact true hc ha.paged hend⟩
  rw [validate_mode true hc]
  exact h

/-- The settings as they are without a configuration file. -/
def defaultConfig : Config where
  port := 6380
  workers := 4
  cacheEntries := 262144
  dirtyMarkerEntries := -1
  dirtyMarkerMemoryMb := -1
  lockPartitions := 64
  relationStates := 1024
  maxClients := 256
  maxClientsPerWorker := 64
  memoryBudgetMb := 384
  maxDeferredMisses := 8
  port_le := by decide
  workers_range := by decide
  cacheEntries_range := by decide
  markerEntries_range := by decide
  markerMemory_range := by decide
  lockPartitions_range := by decide
  relationStates_range := by decide
  maxClients_range := by decide
  maxClientsPerWorker_range := by decide
  memoryBudget_range := by decide
  maxDeferredMisses_range := by decide

def typicalSizes : Sizes where
  sharedState := 40000
  cacheEntry := 192
  dirtyMarker := 96
  relationSlot := 64
  lwlockPadded := 128
  client := 512
  deferredMiss := 1600
  pollfd := 8
  tupleDescData := 24
  formAttribute := 104
  mapping := 800
  hashEstimateSize := fun n => mulSize n 256
  small := by decide

theorem default_layout : validateStartupLimits false typicalSizes defaultConfig = .ok () ∧
    ∃ st, shmemStartup false typicalSizes defaultConfig = .ok st ∧
      LaidOut typicalSizes defaultConfig st ∧
      validateStartupLimits true typicalSizes defaultConfig = .ok () ∧
      shmemStartup true typicalSizes defaultConfig = .ok st := by
  have h : validateStartupLimits false typicalSizes defaultConfig = .ok () := by decide +kernel
  exact ⟨h,startup_layout typicalSizes defaultConfig h⟩

end PgLocalCache.StartupLayout
