import PgLocalCache.MgetCommand

/-!
# The results an MGET obtains

A result is the absence of a row or its text. `Answered` says where the result of
a key came from in a run: a cache lookup or a read plan in a world that follows
from the first one. Every path of `command_mget_one` ends in a result, unless the
deadline passes, the relation is locked or something raises.
-/

namespace PgLocalCache.MgetResults

open CacheState WireKey WorkerBackend MgetCommand Outcome RespWriter RowPayload

inductive RowResult where
  | null
  | row (json : Bytes)
  deriving DecidableEq, Repr

def RowResult.encode : RowResult → Bytes
  | .null => respNull
  | .row json => respBulk json

def RowResult.ofRow : Option Bytes → RowResult
  | none => .null
  | some json => .row json

variable {W D : Type} (S : Server D) (B : Backend W D) (cfg : WorkerSettings)

inductive Answered (w0 : W) (mapping : WorkerMapping D) (canonical : Bytes)
    (keyValues : List D) : RowResult → Prop
  | negative (w : W) : Follows B w0 w →
      (B.cacheLookupQuiet mapping canonical w).1.result = .negative →
      Answered w0 mapping canonical keyValues .null
  | cached (w : W) (bytes json : Bytes) : Follows B w0 w →
      (B.cacheLookupQuiet mapping canonical w).1.result = .value bytes →
      cachedRowJson S mapping bytes = some json →
      Answered w0 mapping canonical keyValues (.row json)
  | absent (w : W) : Follows B w0 w → (B.executeGetPlan mapping keyValues w).1 = .ok none →
      Answered w0 mapping canonical keyValues .null
  | read (w : W) (row : SourceRow) (json : Bytes) : Follows B w0 w →
      (B.executeGetPlan mapping keyValues w).1 = .ok (some row) →
      sourceRowJson row = some json →
      Answered w0 mapping canonical keyValues (.row json)

/-! What can keep an MGET from its results: the deadline, a locked relation or an error. -/

/-- A world that the calls between these two come by has the property. -/
def Met (p : W → Prop) (w0 w' : W) : Prop := ∃ w, Follows B w0 w ∧ p w ∧ Follows B w w'

theorem met_call {p : W → Prop} {w0 w w' : W} (hf : Follows B w0 w) (hp : p w)
    (hc : Call B w w') : Met B p w0 w' :=
  ⟨w,hf,hp,.single hc⟩

theorem met_follows {p : W → Prop} {w0 w : W} (h : Met B p w0 w) : Follows B w0 w := by
  obtain ⟨_,h1,_,h2⟩ := h
  exact h1.trans h2

theorem met_trans {p : W → Prop} {w0 w w' : W} (h : Met B p w0 w) (hf : Follows B w w') :
    Met B p w0 w' := by
  obtain ⟨v,h1,hp,h2⟩ := h
  exact ⟨v,h1,hp,h2.trans hf⟩

def Late (w0 : W) (deadline : ℕ) : W → Prop :=
  Met B (fun w => deadline ≤ (B.getCurrentTimestamp w).1) w0

def Locked : W → W → Prop :=
  Met B (fun w => ∃ timeout oids, (B.beginMgetSpi timeout oids w).1 = .ok true)

inductive Raises (mappings : List (WorkerMapping D)) (w : W) : PgError → Prop
  | start (timeout : ℕ) (oids : List ℕ) (e : PgError) :
      (B.beginMgetSpi timeout oids w).1 = .error e → Raises mappings w e
  | plan (m : WorkerMapping D) (keyValues : List D) (e : PgError) :
      (B.executeGetPlan m keyValues w).1 = .error e → Raises mappings w e
  | commit (e : PgError) : (B.commitSpi w).1 = .error e → Raises mappings w e
  | changed (m : WorkerMapping D) : m ∈ mappings →
      m.cache.configGeneration ≠ (B.configGeneration w).1 → Raises mappings w mappingChanged
  | large (m : WorkerMapping D) (keyValues : List D) (row : SourceRow) :
      (B.executeGetPlan m keyValues w).1 = .ok (some row) → sourceRowJson row = none →
      Raises mappings w rowTooLarge

def Raised (mappings : List (WorkerMapping D)) (w0 : W) (e : PgError) : W → Prop :=
  Met B (fun w => Raises B mappings w e) w0

theorem answered_length (w0 : W) (mapping : WorkerMapping D) (canonical : Bytes)
    (keyValues : List D) (json : Bytes)
    (h : Answered S B w0 mapping canonical keyValues (.row json)) :
    json.length ≤ responseValueMax := by
  cases h with
  | cached w bytes json hw hb hj =>
    have := (payloadGetJsonChecked_some S.crc32c mapping.row bytes json hj).2
    exact le_trans this (by decide)
  | read w row json hw hp hj =>
    unfold sourceRowJson at hj
    split at hj
    · rename_i hfit
      cases hj
      exact hfit.2
    · cases hj

variable {mappings : List (WorkerMapping D)} {w0 w : W} {deadline : ℕ}
  {E : PgError → W → Prop}

theorem clock_follows (hf : Follows B w0 w) :
    Ensures (clock B) w (fun _ w' => Follows B w0 w') E :=
  follows_call B w0 w _ hf (Call.clock w)

theorem deadlinePassed_follows (hf : Follows B w0 w) :
    Ensures (deadlinePassed B deadline) w
      (fun late w' => Follows B w0 w' ∧ (late = true → Late B w0 deadline w')) E :=
  ⟨follows_call B w0 w _ hf (Call.clock w),
    fun h => met_call B hf (of_decide_eq_true h) (Call.clock w)⟩

theorem oneDeadlinePassed_follows (hf : Follows B w0 w) :
    Ensures (oneDeadlinePassed B deadline) w
      (fun late w' => Follows B w0 w' ∧ (late = true → Late B w0 deadline w')) E := by
  unfold oneDeadlinePassed
  split
  · exact ⟨hf,fun h => by cases h⟩
  · exact deadlinePassed_follows B hf

theorem waitExceeded_follows (started : ℕ) (hf : Follows B w0 w) :
    Ensures (waitExceeded B cfg started) w (fun _ w' => Follows B w0 w') E :=
  follows_call B w0 w _ hf (Call.clock w)

theorem remaining_none (now : ℕ) (h : remainingMs now deadline = 0) : deadline ≤ now := by
  unfold remainingMs intMax at h
  omega

theorem ensureMappingCurrent_follows (hf : Follows B w0 w) (m : WorkerMapping D)
    (hm : m ∈ mappings) :
    Ensures (ensureMappingCurrent B m) w (fun _ w' => Follows B w w') (Raised B mappings w0) := by
  simp only [ensureMappingCurrent, ensures_bind, ensures_call]
  split
  · rename_i hchanged
    exact met_call B hf (.changed m hm hchanged) (Call.generation w)
  · exact .single (Call.generation w)

theorem readRow_answered (hf : Follows B w0 w) (m : WorkerMapping D) (hm : m ∈ mappings)
    (canonical : Bytes) (keyValues : List D) :
    Ensures (readRow B m keyValues) w (fun row w' => Follows B w0 w' ∧
      Answered S B w0 m canonical keyValues (.ofRow (row.map Prod.fst)))
      (Raised B mappings w0) := by
  unfold readRow
  apply ensures_seq (ensureMappingCurrent_follows B hf m hm)
  intro _ w1 h1
  replace h1 := hf.trans h1
  rw [ensures_bind]
  have hcall := Call.plan (B := B) w1 m keyValues
  apply ensures_enter _ ?_ (fun e he => met_call B h1 (.plan m keyValues e he) hcall)
  intro row hrow
  have h2 := follows_call B w0 w1 _ h1 hcall
  apply ensures_seq (ensureMappingCurrent_follows B h2 m hm)
  intro _ w3 h3
  cases row with
  | none => exact ⟨h2.trans h3,Answered.absent w1 h1 hrow⟩
  | some row =>
    cases hj : sourceRowJson row with
    | none =>
      simp only [hj]
      exact met_trans B (met_call B h1 (.large m keyValues row hrow hj) hcall) h3
    | some json =>
      simp only [hj]
      exact ⟨h2.trans h3,Answered.read w1 row json h1 hrow hj⟩

/-! Waiting for one key. -/

section
variable (m : WorkerMapping D) (canonical : Bytes) (keyValues : List D)

def OneAnswered (w0 : W) : OneLookup → Prop
  | .answer element => ∃ r, Answered S B w0 m canonical keyValues r ∧ element = r.encode
  | _ => True

theorem lookupOne_follows (hf : Follows B w0 w) :
    Ensures (lookupOne S B m canonical) w (fun found w' => Follows B w0 w' ∧
      OneAnswered S B m canonical keyValues w0 found) E := by
  simp only [lookupOne, ensures_bind, ensures_call]
  have h1 := follows_call B w0 w _ hf (Call.lookup w m canonical)
  cases hr : (B.cacheLookupQuiet m canonical w).1.result with
  | miss => exact ⟨h1,trivial⟩
  | negative => exact ⟨h1,_,Answered.negative w hf hr,rfl⟩
  | value bytes =>
    cases hj : cachedRowJson S m bytes with
    | some json =>
      simp only [hj]
      exact ⟨h1,_,Answered.cached w bytes json hf hr hj,rfl⟩
    | none =>
      simp only [hj, ensures_bind, ensures_call]
      have h2 := follows_call B w0 _ _ h1 (Call.invalidate _ m canonical)
      exact ⟨follows_call B w0 _ _ h2 (Call.lookup _ m canonical),trivial⟩

/-- The element is a result of the key, or the deadline has passed. -/
def Replied (w0 : W) (deadline : ℕ) (element : Bytes) (w : W) : Prop :=
  (∃ r, Answered S B w0 m canonical keyValues r ∧ element = r.encode) ∨
    (element = deadlineExceeded ∧ Late B w0 deadline w)

def WaitAnswered (w0 : W) (deadline : ℕ) (w : W) : WaitEnd → Prop
  | .reply element => Replied S B m canonical keyValues w0 deadline element w
  | .read _ _ => True

def Waited (w0 : W) (deadline : ℕ) (ended : WaitEnd) (w : W) : Prop :=
  Follows B w0 w ∧ WaitAnswered S B m canonical keyValues w0 deadline w ended

theorem waitRound_waited (hf : Follows B w0 w) (started : ℕ) (claim : LoadClaim)
    (next : ReadToken → WorldM W WaitEnd)
    (hnext : ∀ token w', Follows B w0 w' →
      Ensures (next token) w' (Waited S B m canonical keyValues w0 deadline) E) :
    Ensures (waitRound S B cfg m canonical deadline started claim next) w
      (Waited S B m canonical keyValues w0 deadline) E := by
  unfold waitRound
  apply ensures_seq (lookupOne_follows S B m canonical keyValues hf)
  intro found w1 ⟨h1,hfound⟩
  cases found with
  | answer element => exact ⟨h1,Or.inl hfound⟩
  | stale token =>
    apply ensures_seq (oneDeadlinePassed_follows B h1)
    intro late w2 ⟨h2,_⟩
    cases late with
    | true => exact ⟨h2,trivial⟩
    | false =>
      apply ensures_seq (waitExceeded_follows B cfg started h2)
      intro ended w3 h3
      cases ended with
      | true => exact ⟨h3,trivial⟩
      | false => exact hnext token w3 h3
  | miss token =>
    apply ensures_seq (waitExceeded_follows B cfg started h1)
    intro ended w2 h2
    cases ended with
    | true => exact ⟨h2,trivial⟩
    | false =>
      cases claim with
      | wait => exact hnext token _ (follows_call B w0 w2 _ h2 (Call.latch w2))
      | _ => exact hnext token w2 h2

theorem waitLoop_waited (started rounds retries : ℕ) (token : ReadToken) (hf : Follows B w0 w) :
    Ensures (waitLoop S B cfg m canonical deadline started rounds retries token) w
      (Waited S B m canonical keyValues w0 deadline) E := by
  induction rounds generalizing w retries token with
  | zero => exact ⟨hf,trivial⟩
  | succ rounds ih =>
    unfold waitLoop
    apply ensures_seq (oneDeadlinePassed_follows B hf)
    intro late w1 ⟨h1,hlate⟩
    cases late with
    | true => exact ⟨h1,Or.inr ⟨rfl,hlate rfl⟩⟩
    | false =>
      simp only [Bool.false_eq_true, if_false, ensures_bind, ensures_call]
      have h2 := follows_call B w0 w1 _ h1 (Call.claim w1 m canonical token)
      cases (B.cacheClaimLoad m canonical token w1).1.1 with
      | owner => exact ⟨h2,trivial⟩
      | bypass => exact ⟨h2,trivial⟩
      | wait =>
        exact waitRound_waited S B cfg m canonical keyValues h2 started .wait _
          (fun token' w' h' => ih retries token' h')
      | retry =>
        simp only
        split
        · exact ⟨h2,trivial⟩
        · exact waitRound_waited S B cfg m canonical keyValues h2 started .retry _
            (fun token' w' h' => ih (retries+1) token' h')

theorem enterWait_waited (hf : Follows B w0 w) :
    Ensures (enterWait S B cfg m canonical deadline) w
      (Waited S B m canonical keyValues w0 deadline) E := by
  simp only [enterWait, ensures_bind, ensures_call]
  have h1 := follows_call B w0 w _ hf (Call.enabled w)
  split
  · apply ensures_seq (lookupOne_follows S B m canonical keyValues h1)
    rintro found w2 ⟨h2,hfound⟩
    have hwait : ∀ token, Ensures (do
        let started ← clock B
        waitLoop S B cfg m canonical deadline started cfg.waitRounds 0 token) w2
        (Waited S B m canonical keyValues w0 deadline) E := by
      intro token
      apply ensures_seq (clock_follows B h2)
      intro started w3 h3
      exact waitLoop_waited S B cfg m canonical keyValues started cfg.waitRounds 0 token h3
    cases found with
    | answer element => exact ⟨h2,Or.inl hfound⟩
    | stale token => exact hwait token
    | miss token => exact hwait token
  · exact ⟨h1,trivial⟩

theorem releaseOne_follows (token : ReadToken) (load : Option ℕ) (hf : Follows B w0 w) :
    Ensures (releaseOne B m canonical token load) w (fun _ w' => Follows B w0 w') E := by
  cases load with
  | none => exact hf
  | some id => exact follows_call B w0 w _ hf (Call.release w m canonical token id)

def RowAnswered (w0 w : W) : Option (Option Bytes) → Prop
  | none => Locked B w0 w
  | some found => Answered S B w0 m canonical keyValues (.ofRow found)

theorem readAndStore_answered (hf : Follows B w0 w) (hm : m ∈ mappings) (timeoutMs : ℕ)
    (token : ReadToken) (load : Option ℕ) :
    Ensures (readAndStore S B m canonical keyValues timeoutMs token load) w
      (fun row w' => Follows B w0 w' ∧ RowAnswered S B m canonical keyValues w0 w' row)
      (Raised B mappings w0) := by
  have hend : ∀ found w', Answered S B w0 m canonical keyValues (.ofRow found) →
      Follows B w0 w' → Ensures (do
        releaseOne B m canonical token load
        return some found) w'
        (fun row w' => Follows B w0 w' ∧ RowAnswered S B m canonical keyValues w0 w' row)
        (Raised B mappings w0) := by
    intro found w' hrow h'
    apply ensures_seq (releaseOne_follows B m canonical token load h')
    intro _ w'' h''
    exact ⟨h'',hrow⟩
  unfold readAndStore
  rw [ensures_bind]
  have hcall := Call.begin (B := B) w timeoutMs [m.cache.relationOid]
  apply ensures_enter _ ?_ (fun e he => met_call B hf (.start timeoutMs _ e he) hcall)
  intro locked hlocked
  have h1 := follows_call B w0 w _ hf hcall
  cases locked with
  | true =>
    apply ensures_seq (releaseOne_follows B m canonical token load (follows_refl B _))
    intro _ w2 h2
    exact ⟨h1.trans h2,met_trans B (met_call B hf ⟨_,_,hlocked⟩ hcall) h2⟩
  | false =>
    simp only [Bool.false_eq_true, if_false]
    apply ensures_seq (readRow_answered S B h1 m hm canonical keyValues)
    intro row w2 ⟨h2,hrow⟩
    rw [ensures_bind]
    apply ensures_enter _ ?_ (fun e he => met_call B h2 (.commit e he) (Call.commit w2))
    intro _ _
    have h3 := follows_call B w0 w2 _ h2 (Call.commit w2)
    cases load with
    | none => exact hend _ _ hrow h3
    | some id =>
      cases row with
      | none =>
        exact hend _ _ hrow (follows_call B w0 _ _ h3
          (Call.store _ m canonical token none id 0))
      | some row =>
        simp only
        cases encodePayload S m row.1 with
        | none => exact hend _ _ hrow h3
        | some payload =>
          exact hend _ _ hrow (follows_call B w0 _ _ h3
            (Call.store _ m canonical token (some payload) id row.2))

theorem oneTimeout_follows (hf : Follows B w0 w) :
    Ensures (oneTimeout B cfg deadline) w
      (fun timeout w' => Follows B w0 w' ∧ (timeout = none → Late B w0 deadline w')) E := by
  unfold oneTimeout
  split
  · exact ⟨hf,fun h => by cases h⟩
  · simp only [MgetCommand.clock, ensures_bind, ensures_call]
    have h1 := follows_call B w0 w _ hf (Call.clock w)
    split
    · rename_i hnone
      exact ⟨h1,fun _ => met_call B hf (remaining_none _ hnone) (Call.clock w)⟩
    · exact ⟨h1,fun h => by cases h⟩

def OneReplied (w0 : W) (deadline : ℕ) (w : W) : Option Bytes → Prop
  | none => Locked B w0 w
  | some element => Replied S B m canonical keyValues w0 deadline element w

/-- A key that has to be waited for gets a result, unless its relation is locked, the deadline
passes or the read raises. -/
theorem commandMgetOne_replied (hf : Follows B w0 w) (hm : m ∈ mappings) :
    Ensures (commandMgetOne S B cfg m canonical keyValues deadline) w
      (fun reply w' => Follows B w0 w' ∧
        OneReplied S B m canonical keyValues w0 deadline w' reply) (Raised B mappings w0) := by
  unfold commandMgetOne
  apply ensures_seq (oneDeadlinePassed_follows B hf)
  rintro late w1 ⟨h1,hlate⟩
  cases late with
  | true => exact ⟨h1,Or.inr ⟨rfl,hlate rfl⟩⟩
  | false =>
    apply ensures_seq (enterWait_waited S B cfg m canonical keyValues h1)
    rintro waited w2 ⟨h2,hwaited⟩
    cases waited with
    | reply element => exact ⟨h2,hwaited⟩
    | read token load =>
      apply ensures_seq (oneTimeout_follows B cfg h2)
      rintro timeout w3 ⟨h3,htimeout⟩
      cases timeout with
      | none =>
        apply ensures_seq (releaseOne_follows B m canonical token load (follows_refl B w3))
        intro _ w4 h4
        exact ⟨h3.trans h4,Or.inr ⟨rfl,met_trans B (htimeout rfl) h4⟩⟩
      | some ms =>
        apply ensures_seq (ensures_tryCatch
          (readAndStore_answered S B m canonical keyValues h3 hm ms token load) ?_)
        · rintro row w4 ⟨h4,hrow⟩
          match row with
          | none => exact ⟨h4,hrow⟩
          | some none => exact ⟨h4,Or.inl ⟨_,hrow,rfl⟩⟩
          | some (some json) => exact ⟨h4,Or.inl ⟨_,hrow,rfl⟩⟩
        · intro e w4 he
          rw [ensures_bind]
          cases load with
          | none => exact he
          | some id => exact met_trans B he (.single (Call.release w4 m canonical token id))

end

end PgLocalCache.MgetResults
