import PgLocalCache.EntryInstall

/-!
# Replacing one descriptor and its block

A store resizes the block of its descriptor in place or moves the key to a new
block. Between that and the write of the value the recorded lengths disagree;
the invariant then holds of the table in which the new lengths are recorded.
-/

namespace PgLocalCache.EntryRewrite

open ByteMemory FreeChain IndexInvariant CacheArena ArenaInvariant
open ArenaRelease CacheState CacheOperations EntryInvariant EntryRemoval EntryInstall
open Function (update update_of_ne update_self)

variable {P P' P'' : Partition} {held : Option (ℕ × ℕ)} {id : ℕ}

def rewritten (P : Partition) (id : ℕ) (e : CacheEntry) (a : Arena) : Partition :=
  { P with arena := a, entries := update P.entries id e }

/-- The fields by which a descriptor is found. -/
structure SameIdent (e' e : CacheEntry) : Prop where
  keyHash : e'.keyHash = e.keyHash
  databaseOid : e'.databaseOid = e.databaseOid
  relationOid : e'.relationOid = e.relationOid
  relationSlot : e'.relationSlot = e.relationSlot
  slotGeneration : e'.slotGeneration = e.slotGeneration
  inUse : e'.inUse = e.inUse

section Rewrite

variable {e : CacheEntry} {a : Arena}

theorem rewritten_other (x : ℕ) (h : x ≠ id) : (rewritten P id e a).entries x = P.entries x :=
  update_of_ne h _ _

theorem rewritten_self : (rewritten P id e a).entries id = e := update_self _ _ _

theorem rewritten_live (hi : SameIdent e (P.entries id)) (x : ℕ) :
    Live (rewritten P id e a) x ↔ Live P x := by
  by_cases h : x = id
  · subst h
    rw [Live, Live, rewritten_self, hi.inUse]
    rfl
  · rw [Live, Live, rewritten_other x h]
    rfl

theorem rewritten_besides
    (hb : ∀ x, x ≠ id → Live P x → SameBytes P (rewritten P id e a) x) :
    Besides P (rewritten P id e a) id :=
  ⟨sameMarkers_refl P,rfl,le_refl _,fun x hx => rewritten_other x hx,hb⟩

theorem rewritten_entryId (hi : SameIdent e (P.entries id))
    (hk : entryKey (rewritten P id e a) id = entryKey P id) :
    entryId (rewritten P id e a) id = entryId P id := by
  simp only [entryId, hk, rewritten_self, hi.keyHash, hi.databaseOid, hi.relationOid,
    hi.relationSlot, hi.slotGeneration]

theorem entryRep_rewrite {req : ℕ → Option ℕ} (hr : EntryRep P held none) (hl : Live P id)
    (hi : SameIdent e (P.entries id)) (ha : Sound a req)
    (ho : Owned (rewritten P id e a) none req)
    (hk : entryKey (rewritten P id e a) id = entryKey P id)
    (hb : ∀ x, x ≠ id → Live P x → SameBytes P (rewritten P id e a) x)
    (hsh : EntryShape e) (hv : e.version ≤ P.entryGeneration) :
    EntryRep (rewritten P id e a) none none := by
  have hlive : ∀ x, Live (rewritten P id e a) x ↔ Live P x := rewritten_live hi
  have hkey : ∀ x, Live P x → entryId (rewritten P id e a) x = entryId P x := by
    intro x hx
    by_cases h : x = id
    · rw [h]
      exact rewritten_entryId hi hk
    · exact besides_entryId hr (rewritten_besides hb) x h hx
  refine ⟨hr.bound,hr.buckets,?_,?_,?_,⟨req,ha,ho⟩,fun x hx => ?_,fun x y hx hy he => ?_,
    fun x hx => ?_⟩
  · refine indexed_congr hr.indexed (fun x => by simp only [Listed, hlive]) (fun x _ => ?_)
    by_cases h : x = id
    · subst h
      rw [hashOf, hashOf, rewritten_self, hi.keyHash]
    · rw [hashOf, hashOf, rewritten_other x h]
  · have hvac : ∀ x, Vacant (rewritten P id e a) x ↔ Vacant P x := fun x => by
      by_cases h : x = id
      · subst h
        rw [Vacant, Vacant, rewritten_self, hi.inUse]
        rfl
      · rw [Vacant, Vacant, rewritten_other x h]
        rfl
    refine lists_congr hr.free hvac (fun x hx => ?_)
    have h : x ≠ id := fun he => vacant_not_live (he ▸ hx) hl
    simp only [rewritten_other x h]
  · refine hr.count.trans (tally_congr _ _ _ (fun i _ => ?_))
    by_cases h : i+1 = id
    · rw [h, rewritten_self, hi.inUse]
    · rw [rewritten_other _ h]
  · by_cases h : x = id
    · rw [h, rewritten_self]
      exact hsh
    · rw [rewritten_other x h]
      exact hr.shape x ((hlive x).mp hx)
  · rw [hkey x ((hlive x).mp hx), hkey y ((hlive y).mp hy)] at he
    exact hr.unique x y ((hlive x).mp hx) ((hlive y).mp hy) he
  · by_cases h : x = id
    · rw [h, rewritten_self]
      exact hv
    · rw [rewritten_other x h]
      exact hr.versions x ((hlive x).mp hx)

end Rewrite

def resizedEntry (e : CacheEntry) (ref len : ℕ) (args : StoreArgs) : CacheEntry :=
  { e with
    blockRef := ref
    blockLen := len
    valueLen := newValueLen args
    negative := args.negative }

structure ArgsOk (args : StoreArgs) : Prop where
  value : args.value.length ≤ valueMax

theorem newValueLen_le (args : StoreArgs) (h : ArgsOk args) : newValueLen args ≤ valueMax := by
  unfold newValueLen
  split
  · omega
  · exact h.value

theorem resized_shape (e : CacheEntry) (ref : ℕ) (args : StoreArgs) (h : ArgsOk args)
    (hk : e.keyLen ≤ keyMax) :
    EntryShape (resizedEntry e ref (e.keyLen+newValueLen args) args) := by
  refine ⟨hk,newValueLen_le args h,rfl,fun hn => ?_⟩
  change args.negative = true at hn
  simp [resizedEntry, newValueLen, hn]

theorem owned_resize {req : ℕ → Option ℕ} {e : CacheEntry} {a : Arena} (ho : Owned P none req)
    (hl : Live P id) (hi : SameIdent e (P.entries id))
    (href : e.blockRef = (P.entries id).blockRef) :
    Owned (rewritten P id e a) none
      (update req (P.entries id).blockRef (some e.blockLen)) := by
  have hlive : ∀ x, Live (rewritten P id e a) x ↔ Live P x := rewritten_live hi
  have hrefs : ∀ x, ((rewritten P id e a).entries x).blockRef = (P.entries x).blockRef := by
    intro x
    by_cases h : x = id
    · rw [h, rewritten_self, href]
    · rw [rewritten_other x h]
  refine ⟨fun x hx => ?_,fun r hr => ?_,fun _ _ h => by simp at h,fun x y hx hy he => ?_⟩
  · have hx' := (hlive x).mp hx
    rw [hrefs]
    by_cases h : x = id
    · rw [h, rewritten_self, update_self]
    · rw [rewritten_other x h, update_of_ne (fun he => h (ho.inj x id hx' hl he))]
      exact ho.own x hx'
  · have hr' : req r ≠ none := by
      by_cases h : r = (P.entries id).blockRef
      · rw [h, ho.own id hl]
        simp
      · rwa [update_of_ne h] at hr
    rcases ho.owner r hr' with ⟨x,h1,h2⟩ | ⟨_,h⟩
    · exact Or.inl ⟨x,(hlive x).mpr h1,by rw [hrefs, h2]⟩
    · simp at h
  · rw [hrefs, hrefs] at he
    exact ho.inj x y ((hlive x).mp hx) ((hlive y).mp hy) he

theorem resize_step (hr : EntryRep P none none) (hl : Live P id) (args : StoreArgs)
    (hargs : ArgsOk args) (len : ℕ) (hlen : len = (P.entries id).keyLen+newValueLen args)
    (hfit : len ≤ arenaBlockClass P.arena (P.entries id).blockRef) :
    ∃ a, arenaResize P.arena (P.entries id).blockRef (P.entries id).blockLen len = (true,a) ∧
      EntryRep (rewritten P id
        (resizedEntry (P.entries id) (P.entries id).blockRef len args) a) none none ∧
      a.memory = P.arena.memory := by
  obtain ⟨req,hs,ho⟩ := hr.blocks
  have hown := ho.own id hl
  rw [arenaBlockClass_live hs.toCore _ (by simp [hown])] at hfit
  obtain ⟨a,h1,h2,h3,_⟩ := arenaResize_live hs _ _ len hown hfit
  subst hlen
  refine ⟨a,h1,entryRep_rewrite hr hl (by constructor <;> rfl) h2 (owned_resize ho hl
    (by constructor <;> rfl) rfl) ?_ (fun x hx _ i _ => ?_)
    (resized_shape _ _ _ hargs (hr.shape id hl).key) (hr.versions id hl),h3⟩
  · rw [entryKey, rewritten_self]
    simp only [rewritten, h3]
    rfl
  · simp only [rewritten, h3]

theorem owned_move {req : ℕ → Option ℕ} {e : CacheEntry} {a : Arena} {ref : ℕ}
    (ho : Owned P (some (ref,e.blockLen)) req) (hl : Live P id) (hi : SameIdent e (P.entries id))
    (href : e.blockRef = ref) :
    Owned (rewritten P id e a) none (update req (P.entries id).blockRef none) := by
  have hlive : ∀ x, Live (rewritten P id e a) x ↔ Live P x := rewritten_live hi
  obtain ⟨hreq,hne⟩ := ho.held ref e.blockLen rfl
  have hid : ((rewritten P id e a).entries id).blockRef = ref := by rw [rewritten_self, href]
  refine ⟨fun x hx => ?_,fun r hr => ?_,fun _ _ h => by simp at h,fun x y hx hy he => ?_⟩
  · have hx' := (hlive x).mp hx
    by_cases h : x = id
    · rw [h, hid, update_of_ne (hne id hl).symm, rewritten_self]
      exact hreq
    · rw [rewritten_other x h, update_of_ne (fun he => h (ho.inj x id hx' hl he))]
      exact ho.own x hx'
  · by_cases h : r = (P.entries id).blockRef
    · rw [h, update_self] at hr
      exact absurd rfl hr
    · rw [update_of_ne h] at hr
      rcases ho.owner r hr with ⟨x,h1,h2⟩ | ⟨len,h'⟩
      · have hx : x ≠ id := fun he => h (by rw [← h2, he])
        exact Or.inl ⟨x,(hlive x).mpr h1,by rw [rewritten_other x hx, h2]⟩
      · cases h'
        exact Or.inl ⟨id,(hlive id).mpr hl,hid⟩
  · have hx' := (hlive x).mp hx
    have hy' := (hlive y).mp hy
    by_cases h : x = id <;> by_cases h' : y = id
    · rw [h, h']
    · rw [h, hid, rewritten_other y h'] at he
      exact absurd he.symm (hne y hy')
    · rw [h', hid, rewritten_other x h] at he
      exact absurd he (hne x hx')
    · rw [rewritten_other x h, rewritten_other y h'] at he
      exact ho.inj x y hx' hy' he

theorem move_step (ref len : ℕ) (hr : EntryRep P (some (ref,len)) none) (hl : Live P id)
    (args : StoreArgs) (hargs : ArgsOk args)
    (hlen : len = (P.entries id).keyLen+newValueLen args) :
    arenaBlock P.arena ref = some ref ∧
    arenaBlock P.arena (P.entries id).blockRef = some (P.entries id).blockRef ∧
    ∃ a, arenaFree { P.arena with memory := (write P.arena.memory ref
        (read P.arena.memory (P.entries id).blockRef (P.entries id).keyLen)) }
        (P.entries id).blockRef (P.entries id).blockLen = (true,a) ∧
      EntryRep (rewritten P id (resizedEntry (P.entries id) ref len args) a) none none ∧
      Besides P (rewritten P id (resizedEntry (P.entries id) ref len args) a) id ∧
      entryKey (rewritten P id (resizedEntry (P.entries id) ref len args) a) id =
        entryKey P id := by
  obtain ⟨req,hs,ho⟩ := hr.blocks
  obtain ⟨hreq,hne⟩ := ho.held ref len rfl
  have hown := ho.own id hl
  have hfit := hs.fits _ _ hreq
  set bytes := read P.arena.memory (P.entries id).blockRef (P.entries id).keyLen with hbytes
  have hblen : bytes.length = (P.entries id).keyLen := by rw [hbytes, read_length]
  obtain ⟨hw,hkeep⟩ := sound_write hs ref (by simp [hreq]) (write P.arena.memory ref bytes)
    (fun x hx => write_outside _ _ _ _ (by omega))
  obtain ⟨a,h1,h2,h3⟩ := arenaFree_live hw _ _ hown
  have hkey : entryKey (rewritten P id (resizedEntry (P.entries id) ref len args) a) id =
      entryKey P id := by
    rw [entryKey, rewritten_self]
    change read a.memory ref (P.entries id).keyLen = bytes
    have hcongr : read a.memory ref (P.entries id).keyLen =
        read (write P.arena.memory ref bytes) ref (P.entries id).keyLen := by
      refine read_congr _ _ _ _ (fun x hx hx' => ?_)
      have hk := (h3 ref ⟨by simp [hreq],(hne id hl).symm⟩).2 (x-ref)
        (by change x-ref < blockSize P.arena ref; omega)
      rwa [Nat.add_sub_cancel' hx] at hk
    rw [hcongr, ← hblen]
    exact read_write_same _ _ _
  have hsame : ∀ x, x ≠ id → Live P x →
      SameBytes P (rewritten P id (resizedEntry (P.entries id) ref len args) a) x := by
    intro x hx hlx i hi
    have hown' := ho.own x hlx
    have hfit' := hs.fits _ _ hown'
    have hk1 := hkeep _ ⟨by simp [hown'],hne x hlx⟩
    have hk2 := h3 (P.entries x).blockRef ⟨by simp [hown'],fun he => hx (ho.inj x id hlx hl he)⟩
    exact (hk2.2 i (by rw [hk1.1]; omega)).trans (hk1.2 i (by omega))
  have hi : SameIdent (resizedEntry (P.entries id) ref len args) (P.entries id) := by
    constructor <;> rfl
  refine ⟨arenaBlock_live hs.toCore _ (by simp [hreq]),
    arenaBlock_live hs.toCore _ (by simp [hown]),a,h1,?_,rewritten_besides hsame,hkey⟩
  refine entryRep_rewrite hr hl hi h2 (owned_move ho hl hi rfl) hkey hsame ?_
    (hr.versions id hl)
  subst hlen
  exact resized_shape _ _ _ hargs (hr.shape id hl).key

end PgLocalCache.EntryRewrite
