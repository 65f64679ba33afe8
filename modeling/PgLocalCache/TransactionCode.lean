import PgLocalCache.FenceCode

/-!
# Transactions

What a backend between two operations holds is what its dirty records note. Publication
raises the fences of the records that are reserved for their relation, or the global
fence; the end of a transaction leaves each of them once.
-/

namespace PgLocalCache.TransactionCode

open DirtySet DirtyRuns Interleaving FenceLedger SharedWorld
open BackendCode FenceDiscipline PlainCode RegistryCode RecordCode FenceCode

variable {B : Type} [DecidableEq B] [Fintype B] {env : Env} {v : Server}

/-! Dirty records. -/

/-- The vector lists each record of the table once. -/
structure Indexed (d : LocalDirty) : Prop where
  addresses : (addressesOf d.table).Nodup
  below : ∀ c ∈ d.table, c.1 < d.nextAddress
  vector : d.ordered.Perm (addressesOf d.table)
  count : d.count = d.table.length

theorem addresses_update (table : List Cell) (address : ℕ) (f : Entry → Entry) :
    addressesOf (updateEntry table address f) = addressesOf table := by
  rw [addressesOf, updateEntry, List.map_map, addressesOf]
  refine List.map_congr_left (fun c _ => ?_)
  rw [Function.comp]
  split <;> rfl

theorem indexed_update {d : LocalDirty} (h : Indexed d) (address : ℕ) (f : Entry → Entry) :
    Indexed { d with table := updateEntry d.table address f } := by
  have haddr := addresses_update d.table address f
  refine ⟨by rw [haddr]; exact h.addresses,fun c hc => ?_,by rw [haddr]; exact h.vector,?_⟩
  · obtain ⟨x,hx,rfl⟩ := List.mem_map.mp hc
    have hlt := h.below x hx
    split <;> exact hlt
  · rw [h.count, updateEntry, List.length_map]

theorem indexed_enter {d : LocalDirty} (h : Indexed d) (k : DirtyKey) :
    Indexed (enterRecord v k d) := by
  rw [enterRecord]
  split
  · exact h
  · have hnew : d.nextAddress ∉ addressesOf d.table := by
      intro hmem
      obtain ⟨c,hc,heq⟩ := List.mem_map.mp hmem
      exact absurd (h.below c hc) (by omega)
    have haddr : addressesOf (d.table++[(d.nextAddress,freshEntry v k)]) =
        addressesOf d.table++[d.nextAddress] := by
      rw [addressesOf, List.map_append]
      rfl
    refine ⟨?_,fun c hc => ?_,?_,?_⟩
    · rw [haddr]
      exact List.nodup_append_comm.mp (List.nodup_cons.mpr ⟨hnew,h.addresses⟩)
    · obtain hc | hc := List.mem_append.mp hc
      · exact (h.below c hc).trans (Nat.lt_succ_self _)
      · rw [List.mem_singleton.mp hc]
        exact Nat.lt_succ_self _
    · rw [haddr]
      exact h.vector.append_right _
    · simp [h.count]

/-- What collecting keeps: it changes other fields or enters a record. -/
theorem perform_kept {Q : LocalDirty → Prop} (call : Call) {d : LocalDirty}
    (hfields : ∀ d d', d'.table = d.table → d'.nextAddress = d.nextAddress →
      d'.ordered.Perm d.ordered → d'.count = d.count → Q d → Q d')
    (henter : ∀ d k, Q d → Q (enterRecord v k d)) (h : Q d) : Q (perform v call d) := by
  have hcollect : ∀ d kind db rel nspace key, Q d → Q (collectDirty v kind db rel nspace key d) :=
    fun d kind db rel nspace key hd => henter _ _ (hfields d _ rfl rfl (.refl _) rfl hd)
  cases call with
  | key db rel nspace key =>
    rw [perform, collectKey]
    split
    · exact h
    · split
      · exact h
      · simp only
        split
        · exact hcollect _ _ _ _ _ _ (hfields d _ rfl rfl (.refl _) rfl h)
        · split
          · exact h
          · exact hcollect _ _ _ _ _ _ h
  | relation db rel nspace => exact hcollect _ _ _ _ _ _ h
  | forget db rel nspace => exact hcollect _ _ _ _ _ _ h
  | global db bump =>
    have hall := hcollect d .global db 0 none none h
    rw [perform, collectGlobal]
    split
    · exact hfields (collectDirty v .global db 0 none none d) _ rfl rfl (.refl _) rfl hall
    · exact hall
  | order =>
    rw [perform, orderedLocalDirtyEntries]
    split
    · exact h
    · exact hfields d _ rfl rfl (v.qsort.perm _ _) rfl h

theorem indexed_fields {d d' : LocalDirty} (htable : d'.table = d.table)
    (hnext : d'.nextAddress = d.nextAddress) (hordered : d'.ordered.Perm d.ordered)
    (hcount : d'.count = d.count) (h : Indexed d) : Indexed d' := by
  refine ⟨?_,?_,?_,?_⟩
  · rw [htable]
    exact h.addresses
  · rw [htable, hnext]
    exact h.below
  · rw [htable]
    exact hordered.trans h.vector
  · rw [hcount, htable, h.count]

theorem indexed_perform (call : Call) {d : LocalDirty} (h : Indexed d) :
    Indexed (perform v call d) :=
  perform_kept call (fun _ _ => indexed_fields) (fun _ k hd => indexed_enter hd k) h

theorem indexed_ordered {d : LocalDirty} (h : Indexed d) :
    Indexed (orderedLocalDirtyEntries v d) := indexed_perform .order h

theorem table_ordered (d : LocalDirty) : (orderedLocalDirtyEntries v d).table = d.table := by
  rw [orderedLocalDirtyEntries]
  split <;> rfl

/-- No record has a published fence. -/
def Unflagged (d : LocalDirty) : Prop :=
  ∀ c ∈ d.table, c.2.sharedRelationFencePublished = false

theorem unflagged_perform (call : Call) {d : LocalDirty} (h : Unflagged d) :
    Unflagged (perform v call d) := by
  refine perform_kept call (fun d d' htable _ _ _ hd => ?_) (fun d k hd => ?_) h
  · rw [Unflagged, htable]
    exact hd
  · rw [enterRecord]
    split
    · exact hd
    · intro c hc
      obtain hc | hc := List.mem_append.mp hc
      · exact hd c hc
      · rw [List.mem_singleton.mp hc]
        rfl

theorem unflagged_update {d : LocalDirty} (h : Unflagged d) {address : ℕ} {f : Entry → Entry}
    (hf : Mild f) : Unflagged { d with table := updateEntry d.table address f } := by
  intro c hc
  obtain ⟨x,hx,rfl⟩ := List.mem_map.mp hc
  have hold := h x hx
  split
  · exact hf x.2 hold
  · exact hold

theorem resetLoop_length {table table' : List Cell} {addresses : List ℕ}
    (h : resetLoop addresses table = some table') :
    table'.length+addresses.length = table.length := by
  induction addresses generalizing table with
  | nil =>
    cases h
    rfl
  | cons a rest ih =>
    obtain ⟨e,_,h⟩ := Option.bind_eq_some_iff.mp h
    obtain ⟨less,hless,h⟩ := Option.bind_eq_some_iff.mp h
    rw [hashRemove] at hless
    split at hless
    · rename_i hsome
      cases hless
      have hlen := ih h
      obtain ⟨c,hc⟩ := Option.isSome_iff_exists.mp hsome
      have hmem := List.mem_of_find?_eq_some hc
      rw [List.length_eraseP_of_mem hmem (List.find?_some hc)] at hlen
      have hpos := List.length_pos_of_mem hmem
      rw [List.length_cons]
      omega
    · cases hless

theorem reset_empty {d d' : LocalDirty} (hi : Indexed d) (h : resetLocalDirty d = some d') :
    d'.table = [] ∧ Indexed d' := by
  have hempty : d'.table = [] ∧ d'.ordered = [] ∧ d'.count = 0 := by
    have hlen := hi.vector.length_eq
    rw [addressesOf, List.length_map] at hlen
    rw [resetLocalDirty] at h
    split at h
    · obtain ⟨table,htable,hrest⟩ := Option.bind_eq_some_iff.mp h
      cases hrest
      have hloop := resetLoop_length htable
      have hnil : table = [] := List.eq_nil_of_length_eq_zero (by omega)
      exact ⟨hnil,rfl,rfl⟩
    · cases h
      have hcount := hi.count
      have hnil : d.table = [] := List.eq_nil_of_length_eq_zero (by omega)
      exact ⟨hnil,rfl,rfl⟩
  refine ⟨hempty.1,?_,?_,?_,?_⟩
  · rw [hempty.1]
    exact List.nodup_nil
  · rw [hempty.1]
    exact fun _ hc => (by cases hc)
  · rw [hempty.1, hempty.2.1]
    exact .refl _
  · rw [hempty.1, hempty.2.2]
    rfl

/-! What a backend holds. -/

def fenceCell (c : Cell) : List (Fence Target) :=
  if c.2.sharedRelationFencePublished then [⟨.slot c.2.sharedSlot,true⟩] else []

def globalFences (fallback : Bool) : List (Fence Target) := if fallback then [⟨.all,true⟩] else []

/-- The fences that a backend notes. -/
def fencesOf (l : Local) : List (Fence Target) :=
  globalFences l.globalFallback++l.dirty.table.flatMap fenceCell

theorem moved_fencesOf {l : Local} {f : Fence Target} (hf : f ∈ fencesOf l) : f.moved = true := by
  obtain hf | hf := List.mem_append.mp hf
  · rw [globalFences] at hf
    split at hf
    · rw [List.mem_singleton.mp hf]
    · cases hf
  · obtain ⟨c,_,hc⟩ := List.mem_flatMap.mp hf
    rw [fenceCell] at hc
    split at hc
    · rw [List.mem_singleton.mp hc]
    · cases hc

/-- The holdings of a backend are those it notes, besides some that are being raised or dropped. -/
structure Noted (noted : List (Fence Target)) (l : Local) : Prop where
  indexed : Indexed l.dirty
  stray : ∀ f ∈ l.stray, f.moved = true
  fences : l.held.fences.Perm (noted++l.stray)

/-- A backend between two operations. -/
structure Settled (l : Local) : Prop extends Noted (fencesOf l) l where
  clean : l.published = false → l.aborting = false → l.globalFallback = false ∧ Unflagged l.dirty

def Ready (_ : Shared) (l : Local) : Prop := l.held.registry = false ∧ Settled l

theorem ready_stable : Stable (fences B) Ready := fun _ _ _ h _ => h

theorem fencesOf_clean {l : Local} (hglobal : l.globalFallback = false)
    (hflags : Unflagged l.dirty) : fencesOf l = [] := by
  rw [fencesOf, globalFences, if_neg (by rw [hglobal]; exact Bool.false_ne_true), List.nil_append,
    List.flatMap_eq_nil_iff]
  intro c hc
  rw [fenceCell, if_neg (by rw [hflags c hc]; exact Bool.false_ne_true)]

/-! Publication. -/

/-- A transaction that has raised no fence yet. -/
structure Resting (l : Local) : Prop extends Noted [] l where
  running : l.published = false ∧ l.aborting = false
  global : l.globalFallback = false
  flags : Unflagged l.dirty

/-- A transaction while it raises its fences. -/
structure Raising (l : Local) : Prop extends Noted (fencesOf l) l where
  running : l.published = false ∧ l.aborting = false

theorem Resting.settled {l : Local} (h : Resting l) : Settled l := by
  refine ⟨⟨h.indexed,h.stray,?_⟩,fun _ _ => ⟨h.global,h.flags⟩⟩
  rw [fencesOf_clean h.global h.flags]
  exact h.fences

theorem resting_of_settled {l : Local} (h : Settled l) (hopen : l.published = false)
    (habort : l.aborting = false) : Resting l := by
  obtain ⟨hglobal,hflags⟩ := h.clean hopen habort
  refine ⟨⟨h.indexed,h.stray,?_⟩,⟨hopen,habort⟩,hglobal,hflags⟩
  have hfences := h.fences
  rw [fencesOf_clean hglobal hflags] at hfences
  exact hfences

theorem resting_insensitive : Insensitive Resting := by
  refine ⟨fun l address f hf h => ?_,
    fun l value h => ⟨⟨h.indexed,h.stray,h.fences⟩,h.running,h.global,h.flags⟩⟩
  exact ⟨⟨indexed_update h.indexed address f,h.stray,h.fences⟩,h.running,h.global,
    unflagged_update h.flags hf⟩

/-- The transaction may be aborted where its fences are noted. -/
theorem triple_interruptible {P : Local → Prop} (ok : Bool)
    (hP : ∀ l, P l → Noted (fencesOf l) l) :
    Triple (fences B) Ready (Here P) (interruptible ok)
      (fun _ => Here P) := by
  have heither : Triple (fences B) Ready (Here P) either
      (fun _ => Here P) := .either (fun _ _ _ h => h)
  refine .bind heither (fun interrupted => ?_)
  cases interrupted with
  | false => exact .pure ok (fun _ _ h => h)
  | true =>
    intro k _ s l hp
    refine .act _ s l (fun s1 s' l' p hr ho hf => ?_) (fun s1 s' l' p hr ho hf _ => ?_)
    · cases hf
      exact (edit_refl ho.world).move ho rfl (fun _ => sameRegistry_refl _)
    · cases hf
      have hn := hP l hp.2.1
      exact .halt _ _ (fun _ _ => ⟨hp.1,⟨hn.indexed,hn.stray,hn.fences⟩,
        fun _ hno => (by cases hno)⟩)

theorem plain_reserveSection {ready : Shared → Local → Prop} {mode : Mode}
    {known : Shared → Prop} (address : ℕ) : Plain B ready mode known
      (do let answer ← atomic (reserveStep address); consistent answer) := by
  refine plain_section _ (fun s l a s' l' hf => ?_)
  rw [reserveStep] at hf
  split at hf
  · cases hf
    exact .inl ⟨rfl,rfl⟩
  · split at hf
    · cases hf
      exact .inr ⟨_,_,address,_,mild_reservedAs _,rfl,rfl⟩
    · rw [raised] at hf
      split at hf
      · cases hf
      · cases hf
        exact .inl ⟨rfl,rfl⟩

theorem triple_reserveKeyEntries : Triple (fences B) Ready
    (Here Resting) reserveKeyEntries (fun _ => Here Resting) := by
  have hrecord : ∀ address, Triple (fences B) Ready (Here Resting)
      (reserveRecord address) (fun _ => Here Resting) := by
    intro address
    show Triple _ _ _ ((do let answer ← atomic (reserveStep address); consistent answer) >>=
      interruptible) _
    exact .bind ((plain_reserveSection address).here resting_insensitive)
      (fun ok => triple_interruptible ok (fun _ h => h.settled.toNoted))
  have hread : Triple (fences B) Ready (Here Resting)
      (readLocal (fun l => keyAddresses l.dirty)) (fun _ => Here Resting) :=
    (plain_read _).here resting_insensitive
  refine .bind hread (fun keys => (Triple.forAll (g := fun _ => Here Resting)
    (b := Here Resting) keys (fun a _ => (hrecord a).conseq (fun _ _ h => h) ?_)).conseq
    (fun _ _ h => h) ?_) <;>
    (intro ok s l h
     cases ok <;> exact h)

theorem triple_chooseFences : Triple (fences B) Ready (Here Resting)
    (chooseFences env) (fun _ => Here Resting) := by
  have hkeep := @resting_insensitive
  refine .bind ((plain_read _).here hkeep) (fun hasGlobal => .ite
    (fun _ => .pure true (fun _ _ h => h)) (fun _ => .bind ((plain_resolveAndPinRelations env).here
    hkeep) (fun resolved => .ite (fun _ => .pure true (fun _ _ h => h)) (fun _ => .bind
    triple_reserveKeyEntries (fun reserved => .ite (fun _ => .pure false (fun _ _ h => h))
    (fun _ => .bind ((plain_widenToRelations env).here hkeep)
    (fun _ => .pure _ (fun _ _ h => h))))))))

/-! Raising. -/

theorem fences_published {table : List Cell} {address : ℕ} {e : Entry}
    (hn : (addressesOf table).Nodup) (hmem : (address,e) ∈ table)
    (hflag : e.sharedRelationFencePublished = false) :
    ((updateEntry table address fencePublished).flatMap fenceCell).Perm
      (⟨.slot e.sharedSlot,true⟩::table.flatMap fenceCell) := by
  have hothers : ∀ rest : List Cell, address ∉ addressesOf rest →
      updateEntry rest address fencePublished = rest := by
    intro rest hnot
    refine (List.map_congr_left (fun c hc => if_neg (fun heq => hnot ?_))).trans (List.map_id _)
    exact heq ▸ List.mem_map_of_mem hc
  induction table with
  | nil => cases hmem
  | cons c rest ih =>
    obtain ⟨hnot,hrest⟩ := List.nodup_cons.mp hn
    rw [updateEntry, List.map_cons, List.flatMap_cons, List.flatMap_cons]
    obtain heq | hmem := List.mem_cons.mp hmem
    · subst heq
      have htail := hothers rest hnot
      rw [updateEntry] at htail
      rw [htail, if_pos rfl, fenceCell, fenceCell, hflag]
      exact .refl _
    · have hne : c.1 ≠ address := fun heq => hnot (heq ▸ List.mem_map_of_mem hmem)
      rw [if_neg hne]
      exact ((ih hrest hmem).append_left _).trans List.perm_middle

/-- The records that are still to be visited have no fence. -/
structure RaisingRest (rest : List ℕ) (l : Local) : Prop extends Raising l where
  global : l.globalFallback = false
  nodup : rest.Nodup
  flags : ∀ a ∈ rest, ∀ e, entryAt l.dirty.table a = some e →
    e.sharedRelationFencePublished = false

theorem entryAt_update_of_ne {table : List Cell} {a address : ℕ} {f : Entry → Entry}
    (hne : a ≠ address) : entryAt (updateEntry table address f) a = entryAt table a := by
  induction table with
  | nil => rfl
  | cons c rest ih =>
    rw [entryAt, entryAt, updateEntry, List.map_cons, List.find?_cons, List.find?_cons]
    by_cases hc : c.1 = address
    · have hno : (c.1 == a) = false := beq_eq_false_iff_ne.mpr (fun h => hne (h.symm.trans hc))
      rw [if_pos hc]
      simp only [hno]
      exact ih
    · rw [if_neg hc]
      split
      · rfl
      · exact ih

theorem Noted.allMoved {noted : List (Fence Target)} {l : Local} (h : Noted noted l)
    (hnoted : ∀ f ∈ noted, f.moved = true) : ∀ f ∈ l.held.fences, f.moved = true := by
  intro f hf
  obtain hf | hf := List.mem_append.mp (h.fences.mem_iff.mp hf)
  · exact hnoted f hf
  · exact h.stray f hf

theorem Noted.left {t : Target} {rest : List (Fence Target)} {l : Local}
    (h : Noted (⟨t,true⟩::rest) l) : Noted rest (note (leftFence t) l) := by
  refine ⟨h.indexed,h.stray,?_⟩
  have herase := h.fences.erase ⟨t,true⟩
  rw [List.cons_append, List.erase_cons_head] at herase
  exact herase

theorem Noted.mem {t : Target} {rest : List (Fence Target)} {l : Local}
    (h : Noted (⟨t,true⟩::rest) l) : ⟨t,true⟩ ∈ l.held.fences := h.fences.mem_iff.mpr (.head _)

theorem Noted.advanced {t : Target} {noted : List (Fence Target)} {l : Local} (h : Noted noted l)
    (hnoted : ∀ f ∈ noted, f.moved = true) : Noted noted (note (movedFences t) l) := by
  refine ⟨h.indexed,h.stray,?_⟩
  show (moveFences t l.held.fences).Perm _
  rw [moveFences_moved (h.allMoved hnoted)]
  exact h.fences

theorem raisingRest_published {address : ℕ} {rest : List ℕ} {e : Entry} {l : Local}
    (h : Ahead ⟨.slot e.sharedSlot,true⟩ (fun l => RaisingRest (address::rest) l ∧
      entryAt l.dirty.table address = some e) l) :
    RaisingRest rest (setEntryAt address fencePublished l) := by
  obtain ⟨held,hheld,h,hentry⟩ := h
  obtain ⟨hnot,hrest⟩ := List.nodup_cons.mp h.nodup
  refine ⟨⟨⟨indexed_update h.indexed address _,h.stray,?_⟩,h.running⟩,h.global,hrest,
    fun a ha x hx => ?_⟩
  · show l.held.fences.Perm _
    have hpub := fences_published h.indexed.addresses (entryAt_mem hentry)
      (h.flags address (.head _) e hentry)
    have hall : (⟨.slot e.sharedSlot,true⟩::fencesOf l).Perm (globalFences l.globalFallback++
        (updateEntry l.dirty.table address fencePublished).flatMap fenceCell) :=
      List.perm_middle.symm.trans (hpub.symm.append_left _)
    rw [hheld]
    exact (h.fences.cons _).trans (hall.append_right l.stray)
  · have hne : a ≠ address := fun heq => hnot (heq ▸ ha)
    exact h.flags a (.tail _ ha) x ((entryAt_update_of_ne hne).symm.trans hx)

theorem triple_beginReserved (address : ℕ) (rest : List ℕ) :
    Triple (fences B) Ready (Here (RaisingRest (address::rest)))
      (beginReserved address) (fun _ => Here (RaisingRest rest)) := by
  have hK := lasting_true .outside
  refine triple_withRecord hK (fun e => .ite (fun _ => ?_) (fun _ => ?_))
  · refine .bind (triple_enter_ahead hK _) (fun _ => triple_advance hK _ (fun _ => rfl)
      (fun l h => raisingRest_published (ahead_moved ?_ h)))
    exact fun l h => h.1.allMoved (fun _ => moved_fencesOf)
  · exact .pure () (fun _ _ h => ⟨h.1,⟨h.2.1.1.toRaising,h.2.1.1.global,
      (List.nodup_cons.mp h.2.1.1.nodup).2,fun a ha => h.2.1.1.flags a (.tail _ ha)⟩,h.2.2⟩)

theorem triple_publishRecord (address : ℕ) : Triple (fences B) Ready
    (Here Raising) (publishRecord address) (fun _ => Here Raising) := by
  have hstep : Triple (fences B) Ready (Here Raising)
      (atomic (publishStep address)) (fun _ => Here Raising) := by
    refine triple_edit (lasting_true _) _ (fun s l a s' l' hw hp hf => ?_)
    have hcase : (s' = s ∨ ∃ p Q, s' = setPartition s p Q) ∧ l' = l := by
      rw [publishStep] at hf
      split at hf
      · cases hf
        exact ⟨.inl rfl,rfl⟩
      · split at hf
        · cases hf
          exact ⟨.inl rfl,rfl⟩
        · split at hf
          · cases hf
            exact ⟨.inl rfl,rfl⟩
          · split at hf
            · cases hf
              exact ⟨.inr ⟨_,_,rfl⟩,rfl⟩
            · rw [raised] at hf
              split at hf
              · cases hf
              · cases hf
                exact ⟨.inl rfl,rfl⟩
    obtain ⟨rfl | ⟨p,Q,rfl⟩,rfl⟩ := hcase
    · exact ⟨edit_refl hw,fun _ => sameRegistry_refl _,rfl,hp.2.1⟩
    · exact ⟨edit_partition hw p Q,fun _ => ⟨rfl,fun _ => rfl⟩,rfl,hp.2.1⟩
  refine .bind hstep (fun answer => ?_)
  cases answer with
  | none => exact fun _ _ s l _ => .fault s l
  | some ok => exact triple_interruptible ok (fun _ h => h.toNoted)

/-- A transaction behind its publication. -/
structure Raised (l : Local) : Prop extends Noted (fencesOf l) l where
  running : l.aborting = false

theorem raisingRest_start {l : Local} (h : Resting l) : RaisingRest l.dirty.ordered l := by
  refine ⟨⟨h.settled.toNoted,h.running⟩,h.global,?_,fun a _ e he => h.flags _ (entryAt_mem he)⟩
  exact h.indexed.vector.nodup_iff.mpr h.indexed.addresses

theorem triple_beginGlobalFence : Triple (fences B) Ready (Here Resting)
    beginGlobalFence (fun _ => Here (Ahead ⟨.all,true⟩ Resting)) :=
  .bind (triple_enter_ahead (lasting_true _) .all) (fun _ => .bind
    (triple_advance_ahead (lasting_true _) (fun l h => h.allMoved (fun _ hf => (by cases hf))))
    (fun _ => triple_advanceGlobalEpoch (lasting_true _)))

theorem triple_raiseFences (globalFallback : Bool) :
    Triple (fences B) Ready (Here Resting) (raiseFences globalFallback)
      (fun _ => Here Raised) := by
  have hK := lasting_true .outside
  refine .ite (fun _ => .bind triple_beginGlobalFence (fun _ => triple_modifyLocal hK
    (fun _ => rfl) ?_)) (fun _ => ?_)
  · rintro l ⟨held,hheld,h⟩
    have hnoted : fencesOf { l with globalFallback := true } = [⟨.all,true⟩] := by
      have hnone := fencesOf_clean h.global h.flags
      rw [fencesOf, List.append_eq_nil_iff] at hnone
      show globalFences true++l.dirty.table.flatMap fenceCell = _
      rw [show l.dirty.table.flatMap fenceCell = [] from hnone.2]
      rfl
    refine ⟨⟨h.indexed,h.stray,?_⟩,h.running.2⟩
    rw [hnoted]
    show l.held.fences.Perm _
    rw [hheld]
    exact h.fences.cons _
  · refine .bind (triple_readLocal hK _) (fun ordered => .bind (m := fun _ => Here Raising)
      ((Triple.forEach (g := fun rest => Here (RaisingRest rest)) ordered
        triple_beginReserved).conseq ?_ (fun _ _ _ h => ⟨h.1,h.2.1.toRaising,h.2.2⟩)) (fun _ => ?_))
    · rintro s l ⟨hreg,⟨hrest,rfl⟩,hk⟩
      exact ⟨hreg,raisingRest_start hrest,hk⟩
    · have hread : Triple (fences B) Ready (Here Raising)
          (readLocal (fun l => keyAddresses l.dirty)) (fun _ => Here Raising) :=
        (triple_readLocal hK _).conseq (fun _ _ h => h) (fun _ _ _ h => ⟨h.1,h.2.1.1,h.2.2⟩)
      have hkeys : ∀ keys, Triple (fences B) Ready (Here Raising)
          (forAll publishRecord keys) (fun _ => Here Raising) := by
        intro keys
        refine (Triple.forAll (g := fun _ => Here Raising) (b := Here Raising) keys
          (fun a _ => (triple_publishRecord a).conseq (fun _ _ h => h) ?_)).conseq
          (fun _ _ h => h) ?_ <;>
          (intro ok s l h
           cases ok <;> exact h)
      exact .bind hread (fun keys => .bind (hkeys keys) (fun _ => .pure ()
        (fun _ _ h => ⟨h.1,⟨h.2.1.toNoted,h.2.1.running.2⟩,h.2.2⟩)))

theorem resting_ordered (v : Server) {l : Local} (h : Resting l) :
    Resting { l with dirty := orderedLocalDirtyEntries v l.dirty } := by
  refine ⟨⟨indexed_ordered h.indexed,h.stray,h.fences⟩,h.running,h.global,?_⟩
  rw [Unflagged, table_ordered]
  exact h.flags

theorem triple_publishDirty : Triple (fences B) Ready (Here Resting)
    (publishDirty env) (fun _ => Ready) := by
  have hK := lasting_true .outside
  have hread : Triple (fences B) Ready (Here Resting)
      (readLocal (fun l => l.dirty.count == 0 || l.published)) (fun _ => Here Resting) :=
    (plain_read _).here resting_insensitive
  refine .bind hread (fun nothing => .ite (fun _ => .pure () (fun _ _ h => ⟨h.1,h.2.1.settled⟩))
    (fun _ => .bind (triple_modifyLocal hK (fun _ => rfl) (fun _ => resting_ordered env.server))
    (fun _ => .bind triple_chooseFences (fun fallback => .bind
    ((plain_resolveAndPinForgetRelations env).here resting_insensitive) (fun _ => .bind
    (triple_raiseFences fallback) (fun _ => ?_))))))
  have hpub : Triple (fences B) Ready (Here Raised)
      (modifyLocal (fun l => { l with published := true })) (fun _ => Here Settled) :=
    triple_modifyLocal hK (fun _ => rfl) (fun l h =>
      ⟨⟨h.indexed,h.stray,h.fences⟩,fun hno => (by cases hno)⟩)
  exact hpub.conseq (fun _ _ h => h) (fun _ _ _ h => ⟨h.1,h.2.1⟩)

end PgLocalCache.TransactionCode
