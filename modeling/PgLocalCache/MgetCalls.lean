import PgLocalCache.MgetSweeps
import PgLocalCache.FastPath

/-!
# What MGET leaves alone

A part of the world that no call of the backend touches is touched by no step of
MGET in front of the queue of deferred misses, whether the step returns or raises.
-/

namespace PgLocalCache.MgetCalls

open CacheState WireKey WorkerBackend MgetCommand FastPath Outcome RespWriter

variable {W D γ α : Type}

/-- No call of the backend but the one that defers changes this part of the world. -/
def Apart (B : Backend W D) (π : W → γ) : Prop := ∀ w w', Call B w w' → π w' = π w

section Rules

variable {π : W → γ}

theorem leaves_call (f : W → α × W) (hf : ∀ w, π (f w).2 = π w) : Leaves π (call f) := hf

theorem leaves_perform (f : W → W) (hf : ∀ w, π (f w) = π w) : Leaves π (perform f) := hf

theorem leaves_enter (f : W → Except PgError α × W) (hf : ∀ w, π (f w).2 = π w) :
    Leaves π (enter f) := by
  intro w
  unfold KeepsAt Ensures enter
  cases (f w).1 with
  | ok a => exact hf w
  | error e => exact hf w

/-- The same part, seen from a frame of MGET. -/
def beneath (π : W → γ) (s : MgetFrame W D) : γ := π s.world

theorem leaves_onWorld {x : WorldM W α} (h : Leaves π x) :
    Leaves (beneath (D := D) π) (onWorld x) := by
  intro s
  unfold KeepsAt Ensures onWorld
  have hx := h s.world
  unfold KeepsAt Ensures at hx
  cases hrun : x s.world with
  | ok a w =>
    rw [hrun] at hx
    exact hx
  | error e w =>
    rw [hrun] at hx
    exact hx

theorem leaves_setItem (i : ℕ) (item : MgetItem D) :
    Leaves (beneath π) (setItem (W := W) i item) := fun _ => rfl

theorem leaves_setTally (f : Tally → Tally) :
    Leaves (beneath π) (setTally (W := W) (D := D) f) := fun _ => rfl

theorem leaves_fail (failure : MgetFailure) :
    Leaves (beneath π) (fail (W := W) (D := D) failure) := fun _ => rfl

theorem leaves_sweep {stop : MgetFrame W D → Bool} {f : ℕ → MgetItem D → MgetM W D Unit}
    (hf : ∀ i item, Leaves (beneath π) (f i item)) (is : List ℕ) :
    Leaves (beneath π) (sweep stop f is) := by
  induction is with
  | nil => exact leaves_pure ()
  | cons i is ih =>
    refine leaves_bind leaves_get (fun s => leaves_ite (leaves_pure ()) ?_)
    cases s.items[i]? with
    | none => exact ih
    | some item => exact leaves_bind (hf i item) (fun _ => ih)

theorem leaves_overItems {stop : MgetFrame W D → Bool} {f : ℕ → MgetItem D → MgetM W D Unit}
    (hf : ∀ i item, Leaves (beneath π) (f i item)) : Leaves (beneath π) (overItems stop f) :=
  leaves_bind leaves_get (fun _ => leaves_sweep hf _)

end Rules

variable {S : Server D} {B : Backend W D} {cfg : WorkerSettings} {π : W → γ}

/-! The world. -/

section World

variable (hB : Apart B π)
include hB

theorem clock_leaves : Leaves π (clock B) := leaves_call _ (fun w => hB _ _ (.clock w))

theorem deadlinePassed_leaves (deadline : ℕ) : Leaves π (deadlinePassed B deadline) :=
  leaves_bind (clock_leaves hB) (fun _ => leaves_pure _)

theorem waitExceeded_leaves (started : ℕ) : Leaves π (waitExceeded B cfg started) :=
  leaves_bind (clock_leaves hB) (fun _ => leaves_pure _)

theorem retryExpired_leaves (started left : ℕ) : Leaves π (retryExpired B cfg started left) :=
  leaves_ite (waitExceeded_leaves hB started) (leaves_pure _)

theorem enabled_leaves : Leaves π (call B.cacheIsEnabled) :=
  leaves_call _ (fun w => hB _ _ (.enabled w))

theorem lookup_leaves (m : WorkerMapping D) (key : Bytes) :
    Leaves π (call (B.cacheLookupQuiet m key)) := leaves_call _ (fun w => hB _ _ (.lookup w m key))

theorem invalidate_leaves (m : WorkerMapping D) (key : Bytes) :
    Leaves π (call (B.cacheInvalidateKey m key)) :=
  leaves_call _ (fun w => hB _ _ (.invalidate w m key))

theorem release_leaves (m : WorkerMapping D) (key : Bytes) (token : ReadToken) (loadId : ℕ) :
    Leaves π (perform (B.cacheReleaseLoad m key token loadId)) :=
  leaves_perform _ (fun w => hB _ _ (.release w m key token loadId))

theorem store_leaves (m : WorkerMapping D) (key : Bytes) (token : ReadToken) (v : Option Bytes)
    (loadId xmin : ℕ) : Leaves π (call (B.cacheStore m key token v loadId xmin)) :=
  leaves_call _ (fun w => hB _ _ (.store w m key token v loadId xmin))

theorem begin_leaves (timeout : ℕ) (oids : List ℕ) :
    Leaves π (enter (B.beginMgetSpi timeout oids)) :=
  leaves_enter _ (fun w => hB _ _ (.begin w timeout oids))

theorem commit_leaves : Leaves π (enter B.commitSpi) :=
  leaves_enter _ (fun w => hB _ _ (.commit w))

theorem mgetQuietLookup_leaves (item : MgetItem D) : Leaves π (mgetQuietLookup S B item) := by
  refine leaves_bind (lookup_leaves hB _ _) (fun found => ?_)
  dsimp only
  cases found.result with
  | miss => exact leaves_pure _
  | negative => exact leaves_pure _
  | value bytes =>
    dsimp only
    cases cachedRowJson S item.mapping bytes with
    | some json => exact leaves_pure _
    | none =>
      refine leaves_bind (invalidate_leaves hB _ _) (fun _ => ?_)
      exact leaves_bind (lookup_leaves hB _ _) (fun _ => leaves_pure _)

theorem ensureMappingCurrent_leaves (m : WorkerMapping D) :
    Leaves π (ensureMappingCurrent B m) :=
  leaves_bind (leaves_call _ (fun w => hB _ _ (.generation w)))
    (fun _ => leaves_ite (leaves_throw _) (leaves_pure _))

theorem readRow_leaves (m : WorkerMapping D) (keyValues : List D) :
    Leaves π (readRow B m keyValues) := by
  refine leaves_bind (ensureMappingCurrent_leaves hB m) (fun _ => ?_)
  refine leaves_bind (leaves_enter _ (fun w => hB _ _ (.plan w m keyValues))) (fun row => ?_)
  refine leaves_bind (ensureMappingCurrent_leaves hB m) (fun _ => ?_)
  cases row with
  | none => exact leaves_pure _
  | some row =>
    dsimp only
    cases sourceRowJson row with
    | none => exact leaves_throw _
    | some json => exact leaves_pure _

theorem mgetReadOne_leaves (item : MgetItem D) : Leaves π (mgetReadOne S B item) := by
  refine leaves_bind (readRow_leaves hB _ _) (fun row => ?_)
  cases row with
  | none => exact leaves_pure _
  | some row => exact leaves_pure _

theorem storeResult_leaves (item : MgetItem D) : Leaves π (storeResult B item) := by
  refine leaves_ite (store_leaves hB _ _ _ _ _ _) ?_
  cases item.payload with
  | some payload => exact store_leaves hB _ _ _ _ _ _
  | none => exact leaves_pure _

/-! The read of one key. -/

theorem oneDeadlinePassed_leaves (deadline : ℕ) : Leaves π (oneDeadlinePassed B deadline) :=
  leaves_ite (leaves_pure _) (deadlinePassed_leaves hB deadline)

theorem oneTimeout_leaves (deadline : ℕ) : Leaves π (oneTimeout B cfg deadline) := by
  refine leaves_ite (leaves_pure _) (leaves_bind (clock_leaves hB) (fun _ => ?_))
  exact leaves_ite (leaves_pure _) (leaves_pure _)

theorem lookupOne_leaves (m : WorkerMapping D) (key : Bytes) : Leaves π (lookupOne S B m key) := by
  refine leaves_bind (lookup_leaves hB _ _) (fun found => ?_)
  cases found.result with
  | miss => exact leaves_pure _
  | negative => exact leaves_pure _
  | value bytes =>
    dsimp only
    cases cachedRowJson S m bytes with
    | some json => exact leaves_pure _
    | none =>
      refine leaves_bind (invalidate_leaves hB _ _) (fun _ => ?_)
      exact leaves_bind (lookup_leaves hB _ _) (fun _ => leaves_pure _)

theorem waitRound_leaves (m : WorkerMapping D) (key : Bytes) (deadline started : ℕ)
    (claim : LoadClaim) {next : ReadToken → WorldM W WaitEnd} (hnext : ∀ t, Leaves π (next t)) :
    Leaves π (waitRound S B cfg m key deadline started claim next) := by
  refine leaves_bind (lookupOne_leaves hB m key) (fun found => ?_)
  cases found with
  | answer element => exact leaves_pure _
  | stale token =>
    refine leaves_bind (oneDeadlinePassed_leaves hB deadline) (fun _ => ?_)
    refine leaves_ite (leaves_pure _) (leaves_bind (waitExceeded_leaves hB started) (fun _ => ?_))
    exact leaves_ite (leaves_pure _) (hnext token)
  | miss token =>
    refine leaves_bind (waitExceeded_leaves hB started) (fun _ => leaves_ite (leaves_pure _) ?_)
    refine leaves_ite ?_ (hnext token)
    exact leaves_bind (leaves_perform _ (fun w => hB _ _ (.latch w))) (fun _ => hnext token)

theorem waitLoop_leaves (m : WorkerMapping D) (key : Bytes) (deadline started rounds retries : ℕ)
    (token : ReadToken) :
    Leaves π (waitLoop S B cfg m key deadline started rounds retries token) := by
  induction rounds generalizing retries token with
  | zero => exact leaves_pure _
  | succ rounds ih =>
    refine leaves_bind (oneDeadlinePassed_leaves hB deadline) (fun _ => ?_)
    refine leaves_ite (leaves_pure _) (leaves_bind
      (leaves_call _ (fun w => hB _ _ (.claim w m key token))) (fun claim => ?_))
    cases claim.1 with
    | owner => exact leaves_pure _
    | bypass => exact leaves_pure _
    | wait => exact waitRound_leaves hB m key deadline started .wait (fun t => ih _ t)
    | retry =>
      refine leaves_ite (leaves_pure _) ?_
      exact waitRound_leaves hB m key deadline started .retry (fun t => ih _ t)

theorem enterWait_leaves (m : WorkerMapping D) (key : Bytes) (deadline : ℕ) :
    Leaves π (enterWait S B cfg m key deadline) := by
  refine leaves_bind (enabled_leaves hB) (fun _ => leaves_ite ?_ (leaves_pure _))
  refine leaves_bind (lookupOne_leaves hB m key) (fun found => ?_)
  cases found with
  | answer element => exact leaves_pure _
  | stale token =>
    exact leaves_bind (clock_leaves hB) (fun _ => waitLoop_leaves hB m key deadline _ _ _ _)
  | miss token =>
    exact leaves_bind (clock_leaves hB) (fun _ => waitLoop_leaves hB m key deadline _ _ _ _)

theorem releaseOne_leaves (m : WorkerMapping D) (key : Bytes) (token : ReadToken)
    (load : Option ℕ) : Leaves π (releaseOne B m key token load) := by
  cases load with
  | none => exact leaves_pure _
  | some loadId => exact release_leaves hB m key token loadId

theorem readAndStore_leaves (m : WorkerMapping D) (key : Bytes) (keyValues : List D)
    (timeoutMs : ℕ) (token : ReadToken) (load : Option ℕ) :
    Leaves π (readAndStore S B m key keyValues timeoutMs token load) := by
  have hend : ∀ row : Option (Option Bytes), Leaves π (do
      releaseOne B m key token load
      return row) :=
    fun _ => leaves_bind (releaseOne_leaves hB m key token load) (fun _ => leaves_pure _)
  refine leaves_bind (begin_leaves hB _ _) (fun _ => leaves_ite (hend none) ?_)
  refine leaves_bind (readRow_leaves hB m keyValues) (fun row => ?_)
  refine leaves_bind (commit_leaves hB) (fun _ => ?_)
  cases load with
  | none => exact hend _
  | some loadId =>
    cases row with
    | none => exact leaves_bind (store_leaves hB _ _ _ _ _ _) (fun _ => hend _)
    | some row =>
      dsimp only
      cases encodePayload S m row.1 with
      | none => exact hend _
      | some payload => exact leaves_bind (store_leaves hB _ _ _ _ _ _) (fun _ => hend _)

theorem commandMgetOne_leaves (m : WorkerMapping D) (key : Bytes) (keyValues : List D)
    (deadline : ℕ) : Leaves π (commandMgetOne S B cfg m key keyValues deadline) := by
  refine leaves_bind (oneDeadlinePassed_leaves hB deadline) (fun _ => ?_)
  refine leaves_ite (leaves_pure _) (leaves_bind (enterWait_leaves hB m key deadline) ?_)
  intro waited
  cases waited with
  | reply element => exact leaves_pure _
  | read token load =>
    refine leaves_bind (oneTimeout_leaves hB deadline) (fun timeout => ?_)
    cases timeout with
    | none => exact leaves_bind (releaseOne_leaves hB m key token load) (fun _ => leaves_pure _)
    | some timeoutMs =>
      refine leaves_bind (leaves_tryCatch (readAndStore_leaves hB m key keyValues timeoutMs token
        load) (fun e => leaves_bind (releaseOne_leaves hB m key token load)
          (fun _ => leaves_throw e))) (fun row => ?_)
      cases row with
      | none => exact leaves_pure _
      | some row =>
        cases row with
        | none => exact leaves_pure _
        | some json => exact leaves_pure _

/-! The sweeps. -/

theorem lookupItem_leaves (i : ℕ) (item : MgetItem D) :
    Leaves (beneath π) (lookupItem S B i item) := by
  refine leaves_ite ?_ (leaves_pure _)
  refine leaves_bind (leaves_onWorld (mgetQuietLookup_leaves hB item)) (fun _ => ?_)
  refine leaves_bind (leaves_setItem i _) (fun _ => ?_)
  exact leaves_ite (leaves_setTally _) (leaves_pure _)

theorem claimLoop_leaves (deadline started i left : ℕ) (item : MgetItem D) :
    Leaves (beneath π) (claimLoop S B cfg deadline started i left item) := by
  induction left generalizing item with
  | zero => exact leaves_pure _
  | succ left ih =>
    refine leaves_bind (leaves_onWorld (deadlinePassed_leaves hB deadline)) (fun _ => ?_)
    refine leaves_ite (leaves_fail _) ?_
    refine leaves_bind (leaves_onWorld (retryExpired_leaves hB started _)) (fun _ => ?_)
    refine leaves_ite (leaves_pure _) (leaves_bind (leaves_onWorld
      (leaves_call _ (fun w => hB _ _ (.claim w _ _ _)))) (fun claim => ?_))
    dsimp only
    cases claim.1 with
    | owner => exact leaves_setItem i _
    | bypass => exact leaves_setItem i _
    | wait => exact leaves_setItem i _
    | retry =>
      refine leaves_ite (leaves_setItem i _) ?_
      refine leaves_bind (leaves_onWorld (mgetQuietLookup_leaves hB _)) (fun found => ?_)
      refine leaves_bind (leaves_setItem i _) (fun _ => ?_)
      exact leaves_ite (leaves_setTally _) (ih _)

theorem claimItem_leaves (deadline i : ℕ) (item : MgetItem D) :
    Leaves (beneath π) (claimItem S B cfg deadline i item) :=
  leaves_bind (leaves_onWorld (clock_leaves hB))
    (fun _ => leaves_ite (leaves_pure _) (claimLoop_leaves hB deadline _ i _ item))

theorem readItem_leaves (deadline i : ℕ) (item : MgetItem D) :
    Leaves (beneath π) (readItem S B deadline i item) := by
  refine leaves_ite (leaves_pure _) ?_
  refine leaves_bind (leaves_onWorld (deadlinePassed_leaves hB deadline)) (fun _ => ?_)
  refine leaves_ite (leaves_fail _) ?_
  refine leaves_bind (leaves_onWorld (mgetReadOne_leaves hB item)) (fun _ => ?_)
  exact leaves_bind (leaves_setItem i _) (fun _ => leaves_setTally _)

theorem readItems_leaves (deadline : ℕ) :
    Leaves (beneath (D := D) π) (readItems S B cfg deadline) := by
  refine leaves_bind (leaves_onWorld (clock_leaves hB)) (fun _ => ?_)
  refine leaves_ite (leaves_fail _) (leaves_bind leaves_get (fun _ => ?_))
  refine leaves_bind (leaves_onWorld (begin_leaves hB _ _)) (fun _ => ?_)
  refine leaves_ite (leaves_setTally _) ?_
  refine leaves_bind (leaves_modify _ (fun _ => rfl)) (fun _ => ?_)
  refine leaves_bind (leaves_overItems (readItem_leaves hB deadline)) (fun _ => ?_)
  refine leaves_bind (leaves_modify _ (fun _ => rfl)) (fun _ => ?_)
  refine leaves_bind (leaves_onWorld (commit_leaves hB)) (fun _ => ?_)
  intro s
  refine keepsAt_get (keepsAt_ite (fun _ => keepsAt_pure ()) (fun _ => ?_))
  refine keepsAt_store _ rfl ?_
  exact leaves_bind (leaves_onWorld (deadlinePassed_leaves hB deadline))
    (fun _ => leaves_ite (leaves_fail _) (leaves_pure _)) _

theorem releaseItem_leaves (i : ℕ) (item : MgetItem D) :
    Leaves (beneath π) (releaseItem B i item) :=
  leaves_ite (leaves_bind (leaves_onWorld (release_leaves hB _ _ _ _))
    (fun _ => leaves_setItem i _)) (leaves_pure _)

theorem mgetReleaseClaims_leaves : Leaves (beneath (D := D) π) (mgetReleaseClaims B) :=
  leaves_overItems (releaseItem_leaves hB)

theorem storeItem_leaves (i : ℕ) (item : MgetItem D) :
    Leaves (beneath π) (storeItem B i item) := by
  refine leaves_ite (leaves_pure _) ?_
  refine leaves_bind (leaves_onWorld (storeResult_leaves hB item)) (fun _ => ?_)
  refine leaves_ite (leaves_setItem i _) ?_
  exact leaves_bind (leaves_onWorld (release_leaves hB _ _ _ _)) (fun _ => leaves_setItem i _)

theorem waitItem_leaves (deadline i : ℕ) (item : MgetItem D) :
    Leaves (beneath π) (waitItem S B cfg deadline i item) := by
  refine leaves_ite (leaves_pure _) ?_
  refine leaves_bind (leaves_onWorld (deadlinePassed_leaves hB deadline)) (fun _ => ?_)
  refine leaves_ite (leaves_fail _) ?_
  refine leaves_bind (leaves_onWorld (commandMgetOne_leaves hB _ _ _ deadline)) (fun reply => ?_)
  cases reply with
  | none => exact leaves_setTally _
  | some element =>
    refine leaves_ite ?_ ?_
    · exact leaves_bind (leaves_setItem i _) (fun _ => leaves_fail _)
    · exact leaves_bind (leaves_setItem i _) (fun _ => leaves_setTally _)

/-! The command. -/

theorem mgetObtain_leaves (deadline : ℕ) :
    Leaves (beneath (D := D) π) (mgetObtain S B cfg deadline) := by
  refine leaves_bind (leaves_overItems (claimItem_leaves hB deadline)) (fun _ => ?_)
  refine leaves_bind (leaves_bind leaves_get
    (fun _ => leaves_ite (readItems_leaves hB deadline) (leaves_pure _))) (fun _ => ?_)
  refine leaves_bind (leaves_bind leaves_get
    (fun _ => leaves_ite (leaves_pure _) (leaves_overItems (storeItem_leaves hB)))) (fun _ => ?_)
  exact leaves_overItems (waitItem_leaves hB deadline)

theorem mgetCleanup_leaves (e : PgError) : Leaves (beneath (D := D) π) (mgetCleanup B e) := by
  have hend : Leaves (beneath (D := D) π) (do
      mgetReleaseClaims B
      throw e : MgetM W D Unit) :=
    leaves_bind (mgetReleaseClaims_leaves hB) (fun _ => leaves_throw e)
  refine leaves_bind leaves_get (fun _ => leaves_ite ?_ hend)
  exact leaves_bind (leaves_onWorld (leaves_perform _ (fun w => hB _ _ (.abort w))))
    (fun _ => hend)

theorem mgetAnswer_leaves (deadline : ℕ) (slots : List ℕ) :
    Leaves (beneath (D := D) π) (mgetAnswer B deadline slots) := by
  have hend : ∀ reply : Option Bytes, Leaves (beneath (D := D) π) (do
      mgetReleaseClaims B
      return reply) :=
    fun _ => leaves_bind (mgetReleaseClaims_leaves hB) (fun _ => leaves_pure _)
  refine leaves_bind (leaves_onWorld (deadlinePassed_leaves hB deadline)) (fun _ => ?_)
  refine leaves_ite (hend _) (leaves_bind leaves_get (fun s => ?_))
  cases assemble s.items slots (arrayHeader slots.length) with
  | error e => exact leaves_throw e
  | ok reply =>
    cases reply with
    | some response => exact leaves_pure _
    | none => exact hend _

theorem prepareLoop_leaves (mappings : List (WorkerMapping D)) (wireKeys : List Bytes)
    (items : List (MgetItem D)) (slots : List ℕ) :
    Leaves π (prepareLoop S B mappings wireKeys items slots) := by
  induction wireKeys generalizing items slots with
  | nil => exact leaves_pure _
  | cons wireKey wireKeys ih =>
    unfold prepareLoop
    cases resolveKey S mappings wireKey with
    | error fault =>
      cases fault with
      | reply message => exact leaves_pure _
      | raise error => exact leaves_throw _
    | ok key =>
      have hadd : Leaves π (addKey B key items) :=
        leaves_ite (leaves_bind (enabled_leaves hB) (fun _ => leaves_pure _)) (leaves_pure _)
      exact leaves_bind hadd (fun added => ih added.1 _)

/-! The fast path. -/

theorem fastLookup_leaves (client : Client) (m : WorkerMapping D) (key : Bytes) :
    Leaves π (fastLookup S B client m key) := by
  refine leaves_bind (lookup_leaves hB m key) (fun found => ?_)
  cases found.result with
  | miss => exact leaves_pure _
  | negative => exact leaves_pure _
  | value bytes =>
    dsimp only
    cases cachedRowJson S m bytes with
    | some json => exact leaves_pure _
    | none => exact leaves_bind (invalidate_leaves hB m key) (fun _ => leaves_pure _)

theorem fastLoop_leaves (client : Client) (wireKey : Bytes) (mappings : List (WorkerMapping D)) :
    Leaves π (fastLoop S B client wireKey mappings) := by
  induction mappings with
  | nil => exact leaves_pure _
  | cons m mappings ih =>
    refine leaves_ite ih (leaves_ite (leaves_pure _) ?_)
    cases fastScan S m (wireKey.drop (wirePrefix S m).length) with
    | none => exact leaves_pure _
    | some canonical => exact fastLookup_leaves hB client m canonical

theorem tryFastMgetHit_leaves (mappings : List (WorkerMapping D)) (client : Client)
    (args : List Bytes) : Leaves π (tryFastMgetHit S B mappings client args) := by
  match args with
  | [] => exact leaves_pure _
  | [_] => exact leaves_pure _
  | _::_::_::_ => exact leaves_pure _
  | [name,wireKey] =>
    refine leaves_ite (leaves_pure _) (leaves_ite (leaves_pure _) ?_)
    refine leaves_bind (enabled_leaves hB) (fun _ => leaves_ite (leaves_pure _) ?_)
    exact leaves_ite (leaves_pure _) (fastLoop_leaves hB client wireKey mappings)

end World

end PgLocalCache.MgetCalls
