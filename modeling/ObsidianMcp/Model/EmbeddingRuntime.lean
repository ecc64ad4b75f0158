import ObsidianMcp.Model.EmbeddingDraft

/-! # The state of the embedding runtime

Every definition here is one critical section of the state lock, or a part of one. Instants are
milliseconds; hash maps and sets are finite maps and sets. -/

namespace ObsidianMcp

def maxDirtyInterval : ℕ := 2000
def maxRetryDelay : ℕ := 30

inductive EmbeddingPhase where
  | warming
  | ready
  | degraded
  deriving DecidableEq

structure EmbeddingRuntimeStatus where
  phase : EmbeddingPhase := .warming
  queryable : Bool := false
  indexedNotes : ℕ := 0
  totalNotes : ℕ := 0
  pendingNotes : ℕ := 0
  lastError : Option Text := none
  deriving DecidableEq

/-- A generation as it was handed out. -/
structure Intent where
  path : OsString
  generation : ℕ
  kind : PendingKind
  deriving DecidableEq

structure RuntimeState where
  nextGeneration : ℕ := 0
  pending : Table OsString PendingWork := ∅
  inflight : Table OsString (ℕ × PendingKind) := ∅
  batchStartedAt : Option ℕ := none
  initialRemaining : Finset OsString := ∅
  initialStarted : Bool := false
  reconciliationComplete : Bool := false
  failures : Table OsString Text := ∅
  persistenceError : Option Text := none
  cacheError : Option Text := none
  staged : Table OsString StagedNote := ∅
  /-- Whether the model and the store are published; the coordinator holds them itself. -/
  model : Bool := false
  store : Bool := false
  storeQueryable : Bool := false
  status : EmbeddingRuntimeStatus := {}
  /-- The history of the generations handed out; nothing computes with it. -/
  issued : List Intent := []

/-- The clock's last instant and the spelling of a path in a message. -/
structure RuntimeEnv where
  clockLimit : ℕ
  displayPath : OsString → Text

/-! ## Failures -/

def transientSourceIo (error : IoError) : Bool :=
  error.rawOsError = some 5 || error.kind = .interrupted || error.kind = .wouldBlock ||
    error.kind = .timedOut || error.kind = .resourceBusy || error.kind = .connectionAborted ||
    error.kind = .connectionReset || error.kind = .notConnected || error.kind = .brokenPipe

/-- A minimum retry delay; zero keeps ordinary backoff, and none means terminal. -/
def retryHint : VaultError → Option ℕ
  | .embeddingRequest _ true retryAfter => some (retryAfter.getD 0)
  | .io error => if transientSourceIo error then some 0 else none
  | .storage _ _ .unavailable _ _ => some 0
  | .storage _ _ .remoteFailure _ _ => some 0
  | _ => none

def retryDelay (attempt : ℕ) : ℕ :=
  min (2 ^ min (attempt - 1) 5) maxRetryDelay * 1000

namespace RuntimeState

def stateGeneration (path : OsString) (state : RuntimeState) : Option ℕ :=
  match state.pending.lookup path with
  | some work => some work.generation
  | none => (state.inflight.lookup path).map Prod.fst

/-- The work carries the newest generation of its path. -/
def isCurrent (work : PendingWork) (state : RuntimeState) : Bool :=
  state.stateGeneration work.path = some work.generation

def distinctPendingCount (state : RuntimeState) : ℕ :=
  (state.pending.keys.toFinset ∪ state.inflight.keys.toFinset).card

def updatePendingStatus (state : RuntimeState) : RuntimeState :=
  let pendingNotes := state.distinctPendingCount
  let phase :=
    if pendingNotes > 0 && state.status.lastError.isNone && state.status.phase = .ready then
      .warming
    else state.status.phase
  { state with status := { state.status with pendingNotes := pendingNotes, phase := phase } }

/-! ## Intents -/

/-- The next value of the 64-bit counter; zero is skipped. -/
def advanceGeneration (generation : ℕ) : ℕ :=
  let next := (generation + 1) % 2 ^ 64
  if next = 0 then 1 else next

/-- Hand out a generation and make it the pending one of its path. -/
def enqueue (path : OsString) (kind : PendingKind) (now : ℕ) (state : RuntimeState) :
    RuntimeState :=
  let generation := advanceGeneration state.nextGeneration
  { state with
    nextGeneration := generation
    pending := state.pending.insert path ⟨path, generation, kind, 0, now⟩
    issued := state.issued ++ [⟨path, generation, kind⟩] }

/-- The critical section of `submit`. -/
def submit (path : OsString) (kind : PendingKind) (now : ℕ) (state : RuntimeState) :
    RuntimeState :=
  (enqueue path kind now { state with
    staged := state.staged.erase path
    failures := state.failures.erase path }).updatePendingStatus

/-- Queue a path of the initial index unless an intent came first. -/
def enqueueInitial (now : ℕ) (state : RuntimeState) (initial : OsString × PendingKind) :
    RuntimeState :=
  if (state.pending.lookup initial.1).isSome then state
  else state.enqueue initial.1 initial.2 now

/-- The critical section that publishes a loaded store and queues the initial work. -/
def beginReconciliation (cacheError : Option Text) (queryable : Bool)
    (initial : List (OsString × PendingKind)) (now : ℕ) (state : RuntimeState) : RuntimeState :=
  (initial.foldl (enqueueInitial now) { state with
    cacheError := cacheError
    model := true
    store := true
    storeQueryable := queryable
    initialStarted := true
    initialRemaining := (initial.map Prod.fst).toFinset }).updatePendingStatus

/-! ## Batches -/

/-- Removals first, then by generation, then by path. -/
def dueBefore (left right : OsString × PendingWork) : Bool :=
  let priority (work : PendingWork) := if work.kind = .upsert then 1 else 0
  toLex (priority left.2, toLex (left.2.generation, left.1.map UInt8.toNat)) ≤
    toLex (priority right.2, toLex (right.2.generation, right.1.map UInt8.toNat))

def takeWork (taken : List PendingWork × RuntimeState) (path : OsString) :
    List PendingWork × RuntimeState :=
  match taken.2.pending.lookup path with
  | none => taken
  | some work =>
      (taken.1 ++ [work], { taken.2 with
        pending := taken.2.pending.erase path
        inflight := taken.2.inflight.insert path (work.generation, work.kind) })

/-- The paths of the works that are due, in the order they are taken. -/
def duePaths (now : ℕ) (state : RuntimeState) : List OsString :=
  let due := (state.pending.entries.map fun e => (e.1, e.2)).filter fun e =>
    e.2.kind ≠ .awaitingLexical && e.2.notBefore ≤ now
  (due.mergeSort dueBefore).map Prod.fst

structure DueBatch where
  batch : List PendingWork
  pendingEmpty : Bool

/-- When the next work falls due only decides how long the coordinator sleeps, and is left out. -/
def takeDueBatch (batchSize now : ℕ) (state : RuntimeState) : DueBatch × RuntimeState :=
  let taken := ((state.duePaths now).take batchSize).foldl takeWork ([], state)
  let pendingEmpty := taken.2.pending.keys.isEmpty && taken.2.inflight.keys.isEmpty
  (⟨taken.1, pendingEmpty⟩,
    { taken.2 with
      batchStartedAt := if taken.1.isEmpty then none else some now }.updatePendingStatus)

/-- The generations of the due upserts, those of the batch included. -/
def dueObservationPaths (batch : List PendingWork) (now : ℕ) (state : RuntimeState) :
    Table OsString ℕ :=
  ((state.pending.entries.map Sigma.snd ++ batch).filter fun work =>
    work.kind = .upsert && work.notBefore ≤ now).foldl
      (fun generations work => generations.insert work.path work.generation) ∅

/-! ## Ends of a work -/

/-- Drop the in-flight mark of a work, if it is this work's. -/
def dropInflight (work : PendingWork) (state : RuntimeState) : RuntimeState :=
  if (state.inflight.lookup work.path).map Prod.fst = some work.generation then
    { state with inflight := state.inflight.erase work.path }
  else state

def discardInflight (work : PendingWork) (state : RuntimeState) : RuntimeState :=
  (state.dropInflight work).updatePendingStatus

def deferPending (work : PendingWork) (now : ℕ) (state : RuntimeState) : RuntimeState :=
  let deferred :=
    if state.isCurrent work then
      { state with pending := state.pending.insert work.path { work with notBefore := now } }
    else state
  (deferred.dropInflight work).updatePendingStatus

def deferWork (draft : StagedNote) (retain : Bool) (now : ℕ) (state : RuntimeState) :
    RuntimeState :=
  let work := { draft.work with notBefore := now }
  let deferred :=
    if state.isCurrent draft.work then
      { state with
        pending := state.pending.insert work.path work
        staged :=
          if retain then state.staged.insert work.path { draft with work := work }
          else state.staged }
    else state
  (deferred.dropInflight draft.work).updatePendingStatus

def finishSuccess (work : PendingWork) (state : RuntimeState) : RuntimeState :=
  { state with
    inflight := state.inflight.erase work.path
    initialRemaining := state.initialRemaining.erase work.path
    failures := state.failures.erase work.path }.updatePendingStatus

/-- What the commits do to a work that is no longer current. -/
def dropSuperseded (work : PendingWork) (state : RuntimeState) : RuntimeState :=
  { state with inflight := state.inflight.erase work.path }.updatePendingStatus

/-- The attempt and the deadline of a retry, if there is to be one. -/
def planRetry (env : RuntimeEnv) (now : ℕ) (work : PendingWork) (retryAfter : Option ℕ) :
    PendingWork × Option ℕ :=
  match retryAfter with
  | none => (work, none)
  | some minimum =>
      let work := { work with attempt := min (work.attempt + 1) 255 }
      let deadline := now + max (retryDelay work.attempt) minimum
      (work, if deadline ≤ env.clockLimit then some deadline else none)

def failureMessage (env : RuntimeEnv) (work : PendingWork) (error : Text)
    (unrepresentable : Bool) : Text :=
  "embedding update for ".toList ++ env.displayPath work.path ++ " failed: ".toList ++ error ++
    if unrepresentable then
      "; retry delay cannot be represented by the runtime clock".toList
    else []

/-- Queue a failed work again, keeping its draft. -/
def retryWork (work : PendingWork) (deadline now : ℕ) (staged : Option StagedNote)
    (state : RuntimeState) : RuntimeState :=
  let work := { work with notBefore := deadline }
  { state with
    pending := state.pending.insert work.path work
    staged :=
      match staged with
      | none => state.staged
      | some draft =>
          state.staged.insert work.path { draft with work := work, lastUsed := now } }

/-- The failure of a current work. -/
def failWork (env : RuntimeEnv) (now : ℕ) (work : PendingWork) (error : Text)
    (retryAfter : Option ℕ) (staged : Option StagedNote) (state : RuntimeState) :
    RuntimeState :=
  let plan := planRetry env now work retryAfter
  let state := { state with
    initialRemaining := state.initialRemaining.erase work.path
    failures := state.failures.insert work.path
      (failureMessage env work error (retryAfter.isSome && plan.2.isNone)) }
  match plan.2 with
  | some deadline => state.retryWork plan.1 deadline now staged
  | none => { state with staged := state.staged.erase work.path }

def recordFailureMessage (env : RuntimeEnv) (now : ℕ) (work : PendingWork) (error : Text)
    (retryAfter : Option ℕ) (staged : Option StagedNote) (state : RuntimeState) :
    RuntimeState :=
  let dropped := state.dropInflight work
  (if state.isCurrent work then dropped.failWork env now work error retryAfter staged
    else dropped).updatePendingStatus

/-! ## The staging budget -/

def stagedBytes (staged : Table OsString StagedNote) : ℕ :=
  Table.total (fun _ draft => draft.memoryBytes) staged

def availableStaging (activeBytes : ℕ) (state : RuntimeState) : ℕ :=
  maxStagingBytes - saturatingAdd activeBytes (stagedBytes state.staged)

/-- The paused draft that was used longest ago. -/
def oldest (staged : Table OsString StagedNote) : Option OsString :=
  (staged.entries.argmin fun e => e.2.lastUsed).map Sigma.fst

/-- Drop paused drafts until the required bytes fit. -/
def evict (activeBytes required : ℕ) : ℕ → Table OsString StagedNote →
    Bool × Table OsString StagedNote
  | rounds, staged =>
      if saturatingAdd (saturatingAdd activeBytes (stagedBytes staged)) required ≤
          maxStagingBytes then (true, staged)
      else
        match rounds, oldest staged with
        | rounds + 1, some path => evict activeBytes required rounds (staged.erase path)
        | _, _ => (false, staged)

def admitStaging (activeBytes required : ℕ) (state : RuntimeState) : Bool × RuntimeState :=
  if saturatingAdd activeBytes required > maxStagingBytes then (false, state)
  else
    let admitted := evict activeBytes required state.staged.entries.length state.staged
    (admitted.1, { state with staged := admitted.2 })

/-- Take the draft kept for a path, which counts if it is of the work's generation. -/
def takeStaged (work : PendingWork) (state : RuntimeState) : Option StagedNote × RuntimeState :=
  ((state.staged.lookup work.path).filter fun draft => draft.work.generation = work.generation,
    { state with staged := state.staged.erase work.path })

/-! ## Status -/

def statusForLoadedState (totalNotes indexedNotes : ℕ) (state : RuntimeState) :
    EmbeddingRuntimeStatus :=
  let pendingNotes := state.distinctPendingCount
  let lastError := (state.persistenceError.or state.cacheError).or
    (state.failures.entries.head?.map Sigma.snd)
  let phase :=
    if lastError.isSome then EmbeddingPhase.degraded
    else if !state.reconciliationComplete || pendingNotes > 0 then .warming
    else .ready
  { phase := phase
    queryable := state.storeQueryable && state.model && state.store
    indexedNotes := indexedNotes
    totalNotes := totalNotes
    pendingNotes := pendingNotes
    lastError := lastError }

def recordTerminalFailureMessage (message : Text) (totalNotes : ℕ) (state : RuntimeState) :
    RuntimeState :=
  { state with
    model := false
    store := false
    storeQueryable := false
    status := {
      phase := .degraded
      queryable := false
      indexedNotes := 0
      totalNotes := totalNotes
      pendingNotes := state.distinctPendingCount
      lastError := some message } }

end RuntimeState

end ObsidianMcp
