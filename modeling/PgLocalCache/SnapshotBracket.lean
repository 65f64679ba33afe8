import PgLocalCache.PartitionInvariant
import PgLocalCache.SystemRuns

/-!
# Fence snapshots

A snapshot reads thirteen counters one after the other while other backends go on. A
completed snapshot says something about every later state, and a coming one about every
state before it. Two equal snapshots together leave no room for a writer in between. A
row is loaded between the snapshot of the claim and the last snapshot of the store, and
both have to agree with one token.
-/

namespace PgLocalCache.SnapshotBracket

open ByteMemory CacheState CacheOperations PartitionModel PartitionInvariant EntryReads EntryStore
open EntryInvariant Outcome Interleaving SharedWorld BackendCode FenceDiscipline SystemRuns
open FenceLedger hiding Progress

variable {B : Type} [DecidableEq B] {env : Env} {w w' u : Pool B Shared Local}

/-- Values that are read one after the other along a run. -/
inductive Reads (env : Env) : Pool B Shared Local → List (Shared → ℕ) → List ℕ →
    Pool B Shared Local → Prop
  | done (w : Pool B Shared Local) : Reads env w [] [] w
  | next (w u w' : Pool B Shared Local) (read : Shared → ℕ) (rest : List (Shared → ℕ))
      (values : List ℕ) : Steps (menu env) w u → Reads env u rest values w' →
      Reads env w (read::rest) (read u.shared::values) w'

theorem reads_append (reads : List (Shared → ℕ)) (values : List ℕ) {rest : List (Shared → ℕ)}
    {others : List ℕ} (hlen : reads.length = values.length)
    (h : Reads env w (reads++rest) (values++others) w') :
    ∃ u, Reads env w reads values u ∧ Reads env u rest others w' := by
  induction reads generalizing w values with
  | nil =>
    rw [List.eq_nil_of_length_eq_zero hlen.symm] at h ⊢
    exact ⟨w,.done w,h⟩
  | cons read reads ih =>
    cases values with
    | nil => cases hlen
    | cons v values =>
      cases h with
      | next _ u _ _ _ _ hs hrest =>
        obtain ⟨x,hx,hx'⟩ := ih values (Nat.succ.inj hlen) hrest
        exact ⟨x,.next w u x read reads values hs hx,hx'⟩

theorem reads_nil (h : Reads env w [] [] w') : w' = w := by
  cases h
  rfl

theorem reads_at_once (reads : List (Shared → ℕ)) :
    Reads env w reads (reads.map (fun read => read w.shared)) w := by
  induction reads with
  | nil => exact .done w
  | cons read reads ih => exact .next w w w read reads _ .refl ih

variable [Fintype B] {setup : Setup} {i : ℕ} {r : FenceReads}

/-- The tags that a snapshot reads twice. -/
structure Tags where
  globalVersion : ℕ
  relationVersion : ℕ
  configGeneration : ℕ
  slotGeneration : ℕ
  relationIncarnation : ℕ

def tagReads (i : ℕ) : List (Shared → ℕ) :=
  [fun s => s.globalVersion,fun s => (s.slots i).version,fun s => s.configGeneration,
    fun s => (s.slots i).generation,fun s => (s.slots i).incarnation]

def tagValues (t : Tags) : List ℕ :=
  [t.globalVersion,t.relationVersion,t.configGeneration,t.slotGeneration,t.relationIncarnation]

/-- The reads of `read_fence_snapshot` for one slot, in their order. -/
def fenceReads (i : ℕ) : List (Shared → ℕ) :=
  tagReads i++[fun s => s.globalDirtyWriters,fun s => (s.slots i).dirtyWriters,
    fun s => s.globalEpoch]++tagReads i

def tagsOf (r : FenceReads) : Tags :=
  ⟨r.globalVersion,r.relationVersion,r.configGeneration,r.slotGeneration,r.relationIncarnation⟩

def tagsAfter (r : FenceReads) : Tags :=
  ⟨r.globalVersionAfter,r.relationVersionAfter,r.configGenerationAfter,r.slotGenerationAfter,
    r.relationIncarnationAfter⟩

def readValues (r : FenceReads) : List ℕ :=
  tagValues (tagsOf r)++[r.globalDirtyWriters,r.relationDirtyWriters,r.globalEpoch]++
    tagValues (tagsAfter r)

/-- A snapshot taken in the course of a run. -/
def Takes (env : Env) (i : ℕ) (r : FenceReads) (w w' : Pool B Shared Local) : Prop :=
  Reads env w (fenceReads i) (readValues r) w'

/-- What a stable snapshot has checked, apart from the descriptor. -/
structure StableReads (m : Mapping) (r : FenceReads) : Prop where
  tags : tagsAfter r = tagsOf r
  mapping : r.slotGeneration = m.relationSlotGeneration
  configured : r.configGeneration = m.configGeneration
  globalWriters : r.globalDirtyWriters = 0
  relationWriters : r.relationDirtyWriters = 0

theorem stableReads {cfg : Settings} {m : Mapping} {e : Option CacheEntry}
    (h : (readFenceSnapshot cfg m e r).1 = true) : StableReads m r := by
  simp only [readFenceSnapshot, snapshotStable, fenceSnapshot, Bool.and_eq_true, beq_iff_eq] at h
  obtain ⟨_,⟨⟨⟨⟨⟨⟨⟨⟨⟨⟨h1,h2⟩,h3⟩,h4⟩,h5⟩,h6⟩,h7⟩,_⟩,h8⟩,h9⟩,_⟩⟩ := h
  refine ⟨?_,h7,h6,h8,h9⟩
  rw [tagsAfter, tagsOf, h1, h2, h3, h4, h5]

/-! Tags. -/

/-- The pair of a mapping was handed out. -/
def HandedOut (s : Shared) (i generation : ℕ) : Prop :=
  ∃ x ∈ s.handed, x.slot = i ∧ x.generation = generation

theorem HandedOut.mono {s s' : Shared} {generation : ℕ} (h : HandedOut s i generation)
    (hp : Progress s s') : HandedOut s' i generation := by
  obtain ⟨x,hx,hx'⟩ := h
  exact ⟨x,hp.handed x hx,hx'⟩

theorem slot_comparable {s s' : Shared} {generation : ℕ} (hw : World s)
    (hp : Progress s s') (h : HandedOut s i generation)
    (hgen : (s'.slots i).generation = generation) :
    (s.slots i).generation = generation ∧ Comparable s s' (.slot i) := by
  obtain ⟨x,hx,rfl,rfl⟩ := h
  have hle := hw.grounded.handed x hx
  have hmono := hp.generation x.slot
  rw [Dated] at hle
  have hsame : (s.slots x.slot).generation = x.generation := by omega
  exact ⟨hsame,⟨x,hx,rfl,hsame.symm⟩,hgen.trans hsame.symm⟩

theorem slot_version {s s' : Shared} {generation : ℕ} (hw : World s)
    (hp : Progress s s') (h : HandedOut s i generation)
    (hgen : (s'.slots i).generation = generation) :
    (s.slots i).version ≤ (s'.slots i).version :=
  (hp.fences (.slot i) (slot_comparable hw hp h hgen).2).version

theorem global_version {s s' : Shared} (hp : Progress s s') :
    s.globalVersion ≤ s'.globalVersion := (hp.fences .all trivial).version

/-- A state has come as far as these tags. -/
structure Reached (i : ℕ) (t : Tags) (s : Shared) : Prop where
  globalVersion : t.globalVersion ≤ s.globalVersion
  configGeneration : t.configGeneration ≤ s.configGeneration
  generation : t.slotGeneration ≤ (s.slots i).generation
  incarnation : t.relationIncarnation ≤ (s.slots i).incarnation
  version : (s.slots i).generation = t.slotGeneration → t.relationVersion ≤ (s.slots i).version

/-- A state is not past these tags. -/
structure Within (i : ℕ) (t : Tags) (s : Shared) : Prop where
  globalVersion : s.globalVersion ≤ t.globalVersion
  configGeneration : s.configGeneration ≤ t.configGeneration
  generation : (s.slots i).generation ≤ t.slotGeneration
  incarnation : (s.slots i).incarnation ≤ t.relationIncarnation
  version : (s.slots i).generation = t.slotGeneration → (s.slots i).version ≤ t.relationVersion

/-- A state has exactly these tags. -/
structure Tagged (i : ℕ) (t : Tags) (s : Shared) : Prop where
  globalVersion : s.globalVersion = t.globalVersion
  configGeneration : s.configGeneration = t.configGeneration
  generation : (s.slots i).generation = t.slotGeneration
  incarnation : (s.slots i).incarnation = t.relationIncarnation
  version : (s.slots i).version = t.relationVersion

theorem tagged_of_between {t : Tags} {s : Shared} (h : Reached i t s) (h' : Within i t s) :
    Tagged i t s := by
  have hgen := Nat.le_antisymm h'.generation h.generation
  exact ⟨Nat.le_antisymm h'.globalVersion h.globalVersion,
    Nat.le_antisymm h'.configGeneration h.configGeneration,hgen,
    Nat.le_antisymm h'.incarnation h.incarnation,
    Nat.le_antisymm (h'.version hgen) (h.version hgen)⟩

theorem Tagged.reached {t : Tags} {s s' : Shared} (h : Tagged i t s) (hw : World s)
    (hp : Progress s s') (hout : HandedOut s i t.slotGeneration) : Reached i t s' := by
  refine ⟨h.globalVersion ▸ global_version hp,h.configGeneration ▸ hp.config,
    h.generation ▸ hp.generation i,h.incarnation ▸ hp.incarnation i,fun hgen => ?_⟩
  exact h.version ▸ (slot_version hw hp hout hgen)

theorem Tagged.within {t : Tags} {s s' : Shared} (h : Tagged i t s') (hw : World s)
    (hp : Progress s s') (hout : HandedOut s i t.slotGeneration) : Within i t s := by
  refine ⟨h.globalVersion ▸ global_version hp,h.configGeneration ▸ hp.config,
    h.generation ▸ hp.generation i,h.incarnation ▸ hp.incarnation i,fun _ => ?_⟩
  exact h.version ▸ (slot_version hw hp hout h.generation)

/-! Reads along a run. -/

theorem reads_cons {read : Shared → ℕ} {rest : List (Shared → ℕ)} {v : ℕ} {values : List ℕ}
    (hr : Reachable env setup w) (h : Reads env w (read::rest) (v::values) w') :
    ∃ u, Reachable env setup u ∧ Progress w.shared u.shared ∧ v = read u.shared ∧
      Reads env u rest values w' := by
  cases h with
  | next _ u _ _ _ _ hs hrest =>
    obtain ⟨hu,hp⟩ := steps_progress hr hs
    exact ⟨u,hu,hp,rfl,hrest⟩

/-- The tags are read one after the other: the states before are not past them, and the states
behind have reached them. -/
theorem tags_read {t : Tags} (hr : Reachable env setup w)
    (hout : HandedOut w.shared i t.slotGeneration)
    (h : Reads env w (tagReads i) (tagValues t) w') :
    Reachable env setup w' ∧ Progress w.shared w'.shared ∧ Within i t w.shared ∧
      Reached i t w'.shared := by
  obtain ⟨u1,hr1,hp1,hv1,h⟩ := reads_cons hr h
  obtain ⟨u2,hr2,hp2,hv2,h⟩ := reads_cons hr1 h
  obtain ⟨u3,hr3,hp3,hv3,h⟩ := reads_cons hr2 h
  obtain ⟨u4,hr4,hp4,hv4,h⟩ := reads_cons hr3 h
  obtain ⟨u5,hr5,hp5,hv5,h⟩ := reads_cons hr4 h
  cases reads_nil h
  have hp24 := hp3.trans hp4
  have hout1 := hout.mono hp1
  have hout2 := hout1.mono hp2
  -- the generation of the second read is between what was handed out and the fourth read
  obtain ⟨hgen2,_⟩ := slot_comparable (reachable_world hr2) hp24 hout2 hv4.symm
  have hp02 := hp1.trans hp2
  refine ⟨hr5,hp02.trans (hp24.trans hp5),⟨?_,?_,?_,?_,fun _ => ?_⟩,⟨?_,?_,?_,?_,fun hgen => ?_⟩⟩
  · rw [hv1]
    exact global_version hp1
  · rw [hv3]
    exact (hp02.trans hp3).config
  · rw [hv4]
    exact (hp02.trans hp24).generation i
  · rw [hv5]
    exact (hp02.trans (hp24.trans hp5)).incarnation i
  · rw [hv2]
    exact (slot_version (reachable_world hr) hp02 hout hgen2)
  · rw [hv1]
    exact global_version (hp2.trans (hp24.trans hp5))
  · rw [hv3]
    exact (hp4.trans hp5).config
  · rw [hv4]
    exact hp5.generation i
  · rw [hv5]
  · rw [hv2]
    exact (slot_version (reachable_world hr2) (hp24.trans hp5) hout2 hgen)

/-- A stable snapshot: an instant without a global writer, then one without a writer of the slot and
then the epoch, all with the tags it read. -/
structure Snapped (env : Env) (setup : Setup) (i : ℕ) (r : FenceReads) (w w' : Pool B Shared Local)
    (x y z : Pool B Shared Local) : Prop where
  reachable : Reachable env setup x ∧ Reachable env setup y ∧ Reachable env setup z ∧
    Reachable env setup w'
  progress : Progress w.shared x.shared ∧ Progress x.shared y.shared ∧
    Progress y.shared z.shared ∧ Progress z.shared w'.shared
  tagged : Tagged i (tagsOf r) x.shared ∧ Tagged i (tagsOf r) y.shared ∧
    Tagged i (tagsOf r) z.shared
  globalWriters : x.shared.globalDirtyWriters = 0
  relationWriters : (y.shared.slots i).dirtyWriters = 0
  epoch : z.shared.globalEpoch = r.globalEpoch

theorem Reached.mono {t : Tags} {s s' : Shared} (h : Reached i t s) (hw : World s)
    (hp : Progress s s') (hout : HandedOut s i t.slotGeneration) : Reached i t s' := by
  refine ⟨h.globalVersion.trans (global_version hp),h.configGeneration.trans hp.config,
    h.generation.trans (hp.generation i),h.incarnation.trans (hp.incarnation i),fun hgen => ?_⟩
  have hgen' := (slot_comparable hw hp hout hgen).1
  exact (h.version hgen').trans (slot_version hw hp hout hgen)

theorem Within.anti {t : Tags} {s s' : Shared} (h : Within i t s') (hw : World s)
    (hp : Progress s s') (hout : HandedOut s i t.slotGeneration) : Within i t s := by
  refine ⟨(global_version hp).trans h.globalVersion,hp.config.trans h.configGeneration,
    (hp.generation i).trans h.generation,(hp.incarnation i).trans h.incarnation,fun hgen => ?_⟩
  have hgen' : (s'.slots i).generation = t.slotGeneration :=
    Nat.le_antisymm h.generation (hgen ▸ hp.generation i)
  exact (slot_version hw hp hout hgen').trans (h.version hgen')

theorem takes_snapped {m : Mapping} (hr : Reachable env setup w) (hs : StableReads m r)
    (hout : HandedOut w.shared i m.relationSlotGeneration) (h : Takes env i r w w') :
    ∃ x y z, Snapped env setup i r w w' x y z := by
  rw [← hs.mapping] at hout
  obtain ⟨u,hfirst,hlast⟩ := reads_append (tagReads i++_) (tagValues (tagsOf r)++_) rfl h
  obtain ⟨v,htags,hwriters⟩ := reads_append (tagReads i) (tagValues (tagsOf r)) rfl hfirst
  rw [hs.tags] at hlast
  obtain ⟨hrv,hpv,_,hreached⟩ := tags_read (t := tagsOf r) hr hout htags
  obtain ⟨x,hrx,hpx,hvx,hwriters⟩ := reads_cons hrv hwriters
  obtain ⟨y,hry,hpy,hvy,hwriters⟩ := reads_cons hrx hwriters
  obtain ⟨z,hrz,hpz,hvz,hwriters⟩ := reads_cons hry hwriters
  cases reads_nil hwriters
  have houtv := hout.mono hpv
  have houtx := houtv.mono hpx
  have houty := houtx.mono hpy
  have houtz := houty.mono hpz
  obtain ⟨hrw,hpw,hwithin,_⟩ := tags_read (t := tagsOf r) hrz houtz hlast
  have hreachedx := hreached.mono (reachable_world hrv) hpx houtv
  have hreachedy := hreachedx.mono (reachable_world hrx) hpy houtx
  have hreachedz := hreachedy.mono (reachable_world hry) hpz houty
  have hwithiny := hwithin.anti (reachable_world hry) hpz houty
  have hwithinx := hwithiny.anti (reachable_world hrx) hpy houtx
  exact ⟨x,y,u,⟨hrx,hry,hrz,hrw⟩,⟨hpv.trans hpx,hpy,hpz,hpw⟩,
    ⟨tagged_of_between hreachedx hwithinx,tagged_of_between hreachedy hwithiny,
      tagged_of_between hreachedz hwithin⟩,hvx.symm.trans hs.globalWriters,
    hvy.symm.trans hs.relationWriters,hvz.symm⟩

/-! Two snapshots. -/

/-- The tags of a state, and that nobody is writing. -/
structure Undisturbed (i : ℕ) (t : Tags) (epoch : ℕ) (s : Shared) : Prop where
  tags : Tagged i t s
  epoch : s.globalEpoch = epoch
  globalWriters : s.globalDirtyWriters = 0
  relationWriters : (s.slots i).dirtyWriters = 0

/-- Two stable snapshots with equal tags, taken one after the other through one mapping: at every
instant in between nobody writes and the tags stand. -/
theorem equal_snapshots_quiet {m : Mapping} {cfg : Settings} {e e' : Option CacheEntry}
    {r r' : FenceReads} {w0 w1 w2 w3 : Pool B Shared Local} (hr : Reachable env setup w0)
    (hout : HandedOut w0.shared m.relationSlot m.relationSlotGeneration)
    (hfirst : Takes env m.relationSlot r w0 w1) (hstable : (readFenceSnapshot cfg m e r).1 = true)
    (hpause : Steps (menu env) w1 u) (hrest : Steps (menu env) u w2)
    (hsecond : Takes env m.relationSlot r' w2 w3)
    (hstable' : (readFenceSnapshot cfg m e' r').1 = true)
    (htags : tagsOf r' = tagsOf r) (hepoch : r'.globalEpoch = r.globalEpoch) :
    Undisturbed m.relationSlot (tagsOf r) r.globalEpoch u.shared := by
  have hs := stableReads hstable
  have hs' := stableReads hstable'
  obtain ⟨x,y,z,h⟩ := takes_snapped hr hs hout hfirst
  obtain ⟨hru,hp1⟩ := steps_progress h.reachable.2.2.2 hpause
  obtain ⟨hr2,hp2⟩ := steps_progress hru hrest
  have hgen : (tagsOf r).slotGeneration = m.relationSlotGeneration := hs.mapping
  rw [← hgen] at hout
  obtain ⟨hpx,hpy,hpz,hpw⟩ := h.progress
  have houtx := hout.mono hpx
  have houty := houtx.mono hpy
  have houtu := ((houty.mono hpz).mono hpw).mono hp1
  have hout2 := houtu.mono hp2
  rw [hgen] at hout2
  obtain ⟨x',y',z',h'⟩ := takes_snapped hr2 hs' hout2 hsecond
  obtain ⟨hpx',hpy',hpz',_⟩ := h'.progress
  have htagged := h'.tagged
  rw [htags] at htagged
  -- from the instants of the first snapshot to `u`, and from `u` to those of the second
  have hzu := hpw.trans hp1
  have hyu := hpz.trans hzu
  have hxu := hpy.trans hyu
  have hux := hp2.trans hpx'
  have huy := hux.trans hpy'
  have huz := huy.trans hpz'
  have hwu := reachable_world hru
  have hwx := reachable_world h.reachable.1
  have hwy := reachable_world h.reachable.2.1
  have htag : Tagged m.relationSlot (tagsOf r) u.shared := tagged_of_between
    (h.tagged.1.reached hwx hxu houtx) (htagged.1.within hwu hux houtu)
  refine ⟨htag,?_,?_,?_⟩
  · have h1 := hzu.epoch
    have h2 := huz.epoch
    rw [h.epoch] at h1
    rw [h'.epoch, hepoch] at h2
    exact Nat.le_antisymm h2 h1
  · have hquiet := (hxu.fences .all trivial).quiet_between (hux.fences .all trivial)
      (htagged.1.globalVersion.trans h.tagged.1.globalVersion.symm)
      (no_writers hwx h.globalWriters)
      (no_writers (reachable_world h'.reachable.1) h'.globalWriters)
    exact (hwu.fences .all).trans hquiet.2
  · have hquiet := (hyu.fences _ (slot_comparable hwy hyu houty htag.generation).2).quiet_between
      (huy.fences _ (slot_comparable hwu huy houtu htagged.2.1.generation).2)
      (htagged.2.1.version.trans h.tagged.2.1.version.symm)
      (no_writers hwy h.relationWriters)
      (no_writers (reachable_world h'.reachable.2.1) h'.relationWriters)
    exact (hwu.fences (.slot m.relationSlot)).trans hquiet.2

/-! The load of a row. -/

/-- The tags that a token carries. -/
def tokenTags (t : ReadToken) : Tags :=
  ⟨t.globalVersion,t.relationVersion,t.configGeneration,t.slotGeneration,t.relationIncarnation⟩

theorem token_tags {cfg : Settings} {m : Mapping} {e : Option CacheEntry} {t : ReadToken}
    (h : fencesMatchToken (readFenceSnapshot cfg m e r).2 t = true) :
    tagsOf r = tokenTags t ∧ r.globalEpoch = t.globalEpoch := by
  simp only [fencesMatchToken, readFenceSnapshot, fenceSnapshot, Bool.and_eq_true, beq_iff_eq] at h
  obtain ⟨⟨⟨⟨⟨⟨h1,h2⟩,h3⟩,h4⟩,h5⟩,h6⟩,_⟩ := h
  refine ⟨?_,h3⟩
  rw [tagsOf, tokenTags, h1, h2, h4, h5, h6]

/-- The snapshot `reads` is stable and agrees with the token. -/
def Agrees (cfg : Settings) (m : Mapping) (t : ReadToken) (reads : FenceReads) : Prop :=
  ∃ e, (readFenceSnapshot cfg m e reads).1 = true ∧
    fencesMatchToken (readFenceSnapshot cfg m e reads).2 t = true

variable {cfg : Settings} {hash : KeyTuple → ℕ} {P P' : Partition} {m : Mapping}

theorem claim_agrees {k : KeyTuple} {t : ReadToken} {reads : ClaimReads} {loadId : ℕ}
    (hrep : PartRep P)
    (h : runOp cfg hash (.claim m k t reads) P = .ok (.claimed .owner loadId) P') :
    Agrees cfg m t reads.after := by
  have hspec : Ensures (runOp cfg hash (.claim m k t reads)) P
      (fun res _ => res = .claimed .owner loadId → Agrees cfg m t reads.after) Exhausted := by
    refine ensures_seq (claimLoad_spec cfg m t reads _ hrep.entries (requestOf_ok hash k)) ?_
    rintro ⟨claim,n⟩ P1 hclaim hres
    cases hres
    obtain ⟨hno,_⟩ | ⟨id,_,_,_,_,_,_,_,hdone⟩ := hclaim
    · exact absurd rfl hno
    · obtain ⟨_,e,hstable,hmatch⟩ := hdone.owner rfl
      rw [matchesToken, Bool.and_eq_true] at hmatch
      exact ⟨some e,hstable,hmatch.1⟩
  exact ensures_ok hspec _ _ h rfl

theorem store_agrees {k : KeyTuple} {args : StoreArgs} {configGeneration : ℕ} {reads : StoreReads}
    (hrep : PartRep P)
    (h : runOp cfg hash (.store m k args configGeneration reads) P = .ok (.stored true) P') :
    Agrees cfg m args.token reads.after := by
  have hspec : Ensures (runOp cfg hash (.store m k args configGeneration reads)) P
      (fun res _ => res = .stored true → Agrees cfg m args.token reads.after) Exhausted := by
    rw [runOp, cacheStore]
    split
    · rename_i hallowed
      refine ensures_seq (cacheStoreLocked_spec cfg m args reads _ hrep.entries
        (requestOf_ok hash k) (storeAllowed_ok m args configGeneration hallowed)) ?_
      rintro ok P1 hstore hres
      cases hres
      obtain ⟨hno,_⟩ | ⟨id,_,_,_,_,_,_,_,hdone⟩ := hstore
      · cases hno
      · obtain ⟨e,_,hstable,hmatch⟩ := hdone.2 rfl
        exact ⟨some e,hstable,hmatch⟩
    · intro hres
      cases hres
  exact ensures_ok hspec _ _ h rfl

/-- A row that was stored under a token was loaded in peace: at every instant between the snapshot
of the claim and the snapshot at the end of the store nobody writes to its relation, nobody holds
the global fence and the tags of the token stand. -/
theorem stored_load_undisturbed {size : PartitionSize} {memory keyMemory : Memory}
    {trace : List Event} {claimed stored : Event} {k k' : KeyTuple} {t : ReadToken}
    {reads : ClaimReads} {args : StoreArgs} {configGeneration loadId : ℕ} {reads' : StoreReads}
    {w0 w1 w2 w3 : Pool B Shared Local}
    (hrun : Run cfg hash (partitionInit size memory keyMemory) trace)
    (hclaimed : claimed ∈ trace) (hclaim : claimed.op = .claim m k t reads)
    (howner : claimed.result = .claimed .owner loadId)
    (hstored : stored ∈ trace) (hstore : stored.op = .store m k' args configGeneration reads')
    (hok : stored.result = .stored true) (htoken : args.token = t)
    (hr : Reachable env setup w0)
    (hout : HandedOut w0.shared m.relationSlot m.relationSlotGeneration)
    (hfirst : Takes env m.relationSlot reads.after w0 w1) (hpause : Steps (menu env) w1 u)
    (hrest : Steps (menu env) u w2) (hsecond : Takes env m.relationSlot reads'.after w2 w3) :
    Undisturbed m.relationSlot (tokenTags t) t.globalEpoch u.shared := by
  have hat : ∀ {e : Event}, e ∈ trace → ∃ P, PartRep P ∧
      runOp cfg hash e.op P = .ok e.result e.after := by
    intro e he
    obtain ⟨newer,older,rfl⟩ := List.append_of_mem he
    obtain ⟨holder,hop⟩ := run_split newer hrun
    exact ⟨_,run_rep cfg (partitionInit_rep size memory keyMemory) holder,hop⟩
  obtain ⟨P,hP,hop⟩ := hat hclaimed
  obtain ⟨Q,hQ,hop'⟩ := hat hstored
  rw [hclaim, howner] at hop
  rw [hstore, hok] at hop'
  obtain ⟨e,hstable,hmatch⟩ := claim_agrees hP hop
  obtain ⟨e',hstable',hmatch'⟩ := store_agrees hQ hop'
  rw [htoken] at hmatch'
  obtain ⟨htags,hepoch⟩ := token_tags hmatch
  obtain ⟨htags',hepoch'⟩ := token_tags hmatch'
  rw [← htags, ← hepoch]
  exact equal_snapshots_quiet hr hout hfirst hstable hpause hrest hsecond hstable'
    (htags'.trans htags.symm) (hepoch'.trans hepoch.symm)

/-- The other backend has found the mapping too and is still inside the registry lock. -/
def sharedPool : Pool (Fin 2) Shared Local :=
  mappedPool.after (menu smallEnv) (Fin.last 1) (.resolve 1 1 [97]) true 3

theorem sharedPool_steps : Steps (menu smallEnv) mappedPool sharedPool :=
  steps_after .refl _ _ true 3 rfl ⟨rfl,rfl⟩

theorem calm_takes {w : Pool (Fin 2) Shared Local}
    (h : readValues calmFence = (fenceReads 0).map (fun read => read w.shared)) :
    Takes smallEnv 0 calmFence w w := by
  rw [Takes, h]
  exact reads_at_once _

theorem claimed_owner : claimedEvent.result = .claimed .owner 1 := by decide +kernel

/-- The run of `small_run`; between its two snapshots the other backend goes on. -/
theorem small_load_undisturbed : sharedPool.shared.registryLocked = true ∧
    Undisturbed 0 (tokenTags calmToken) calmToken.globalEpoch sharedPool.shared :=
  ⟨by decide +kernel,stored_load_undisturbed (m := smallMapping) (u := sharedPool) small_run
    (List.mem_of_mem_tail (.head _)) rfl claimed_owner (.head _) rfl (by decide +kernel) rfl
    mappedPool_reachable ⟨_,.head _,rfl,rfl⟩ (calm_takes (by decide +kernel)) sharedPool_steps .refl
    (calm_takes (by decide +kernel))⟩

end PgLocalCache.SnapshotBracket
