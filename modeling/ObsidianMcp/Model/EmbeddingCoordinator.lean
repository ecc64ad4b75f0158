import ObsidianMcp.Library.Interleaving
import ObsidianMcp.Model.EmbeddingCache
import ObsidianMcp.Model.EmbeddingRuntime

/-! # The embedding coordinator

The coordinator is one sequential program. Each access to shared data is a section; between two
sections callers submit intents, writers change the index and owners retire the runtime. -/

namespace ObsidianMcp

def budgetResource : Text := "embedding preparation budget".toList

/-! ## The index -/

/-- What the coordinator sees of the note index. -/
structure IndexView where
  /-- The notes, with the content last applied. -/
  notes : Table OsString Text := ∅
  waitingForLexical : Table OsString ℕ := ∅
  /-- The intents that the writer holding the lock has yet to submit. -/
  owed : List (OsString × PendingKind) := []

namespace IndexView

def hasNote (path : OsString) (index : IndexView) : Bool :=
  (index.notes.lookup path).isSome

def currentPaths (index : IndexView) : List OsString :=
  index.notes.keys

def embeddingChange (path : OsString) (wasNote : Bool) (index : IndexView) :
    Option PendingKind :=
  if (index.waitingForLexical.lookup path).isSome then some .awaitingLexical
  else if index.hasNote path then some .upsert
  else if wasNote then some .remove
  else none

def initialEmbeddingWork (index : IndexView) : List (OsString × PendingKind) :=
  (index.notes.keys.filterMap fun path =>
    (index.embeddingChange path false).map fun kind => (path, kind)).mergeSort
      fun left right => left.1 ≤ right.1

/-- A writer applies what it observed at a path: a note's content, or nothing. The stamp is the
one a lexical index gave the document. The writer then owes the embedding change. -/
def applyObservation (allowsSource : OsString → Text → Bool) (path : OsString)
    (content : Option Text) (stamp : Option ℕ) (index : IndexView) : IndexView :=
  let wasNote := index.hasNote path
  let changed : IndexView :=
    match content.filter (allowsSource path) with
    | none => { index with
        notes := index.notes.erase path
        waitingForLexical := index.waitingForLexical.erase path }
    | some content => { index with
        notes := index.notes.insert path content
        waitingForLexical :=
          match stamp with
          | none => index.waitingForLexical.erase path
          | some stamp => index.waitingForLexical.insert path stamp }
  { changed with
    owed := ((changed.embeddingChange path wasNote).map fun kind => (path, kind)).toList }

/-- A writer finds a note unchanged and asks for its embedding again. -/
def refreshUnchanged (path : OsString) (index : IndexView) : IndexView :=
  if index.hasNote path then
    { index with
      owed := ((index.embeddingChange path true).map fun kind => (path, kind)).toList }
  else index

/-- Release the upserts whose lexical stamps are published. -/
def publishEmbeddingUpserts (committed : ℕ) (index : IndexView) : IndexView :=
  let ready := ((index.waitingForLexical.entries.map fun e => (e.1, e.2)).filter fun e =>
    e.2 ≤ committed).mergeSort fun left right => left.2 ≤ right.2
  { index with
    waitingForLexical := ready.foldl (fun waiting e => waiting.erase e.1) index.waitingForLexical
    owed := (ready.filter fun e => index.hasNote e.1).map fun e => (e.1, .upsert) }

end IndexView

/-! ## The world -/

/-- The locals of `process_batch`. -/
structure BatchLocals where
  active : List (Option StagedNote) := []
  activeBytes : ℕ := 0
  dirty : Bool := false
  sourceFailed : Bool := false
  /-- History: the failure path of the inference loop has begun. -/
  abandoned : Bool := false

inductive CommitOutcome where
  | inserted (entry : NoteEmbeddingEntry)
  | removed
  | unchanged

/-- History of a work that was applied: the observation behind it and the state before. -/
structure Commit where
  work : PendingWork
  outcome : CommitOutcome
  source : Option ObservedBatch
  before : RuntimeState

/-- History of the end of the first pass. -/
structure Finalization where
  emptyVault : Bool
  emptyStore : Bool
  before : RuntimeState

structure World where
  tick : ℕ := 0
  live : Bool := true
  state : RuntimeState := {}
  index : IndexView
  store : EmbeddingStore
  firstLoadError : Option Text := none
  batch : BatchLocals := {}
  commits : List Commit := []
  finalizations : List Finalization := []

/-- The moves of the other parties. -/
inductive Move where
  | submit (path : OsString) (kind : PendingKind) (now : ℕ)
  | applyObservation (path : OsString) (content : Option Text) (stamp : Option ℕ)
  | refreshUnchanged (path : OsString)
  | publishEmbeddingUpserts (committed : ℕ)
  | submitOwed (now : ℕ)
  | retire
  | withdraw (message : Text)

/-- Everything outside the runtime. Answers are numbered by the section that asks. The last two
fields bound how often the two retry loops are followed. -/
structure Surroundings where
  moves : ℕ → List Move
  cut : Option ℕ
  clock : ℕ → ℕ
  clock_mono : Monotone clock
  runtime : RuntimeEnv
  layout : Layout
  json : IdentityJson
  identity : EmbeddingSpaceIdentity
  dimension : ℕ
  batchSize : ℕ
  remote : Bool
  allowsSource : OsString → Text → Bool
  sourceRevision : Text → Text
  loader : Except VaultError Unit
  cacheFile : Except VaultError (Option (List UInt8))
  cacheTaskError : Option Text
  observeBatch : ℕ → List OsString → Except VaultError Unit
  readExactBounded : ℕ → OsString → ℕ → Option Text → Except VaultError (Buffer Text)
  prepareNote : ℕ → OsString → Text → ℕ → Except VaultError PreparedNote
  preparationTaskError : ℕ → Option Text
  embedder : ℕ → EmbedderCalls
  inferenceTaskError : ℕ → Option Text
  publish : ℕ → List UInt8 → Except VaultError Bool
  writeTaskError : ℕ → Option Text
  retries : ℕ
  rounds : ℕ

/-- Why a run of the coordinator ended: it was cut off, it returned, or it was still in one of
the two loops when their bound was reached. -/
inductive Stop where
  | cut
  | returned
  | preparing
  | inferring
  deriving DecidableEq

namespace World

variable (env : Surroundings)

def withState (w : World) (f : RuntimeState → RuntimeState) : World :=
  { w with state := f w.state }

def submit (path : OsString) (kind : PendingKind) (now : ℕ) (w : World) : World :=
  if !w.live then w
  else
    match normalizeIntentPath path env.remote with
    | .error _ => w
    | .ok normalized =>
        if normalized.isEmpty then w
        else w.withState (RuntimeState.submit normalized kind now)

/-- The writer submits the first intent it owes; after the last one it releases the index. -/
def submitOwed (now : ℕ) (w : World) : World :=
  match w.index.owed with
  | [] => w
  | (path, kind) :: owed =>
      { w with index := { w.index with owed := owed } }.submit env path kind now

/-- A change of the index, which waits while another writer holds the lock. -/
def write (f : IndexView → IndexView) (w : World) : World :=
  if w.index.owed.isEmpty then { w with index := f w.index } else w

def recordTerminalFailureMessage (message : Text) (totalNotes : ℕ) (w : World) : World :=
  { w with
    firstLoadError := w.firstLoadError.or (some message)
    state := w.state.recordTerminalFailureMessage message totalNotes }

/-- The runtime is retired because the identity of its source has been rejected. -/
def withdraw (message : Text) (w : World) : World :=
  { w with live := false }.recordTerminalFailureMessage message w.state.status.totalNotes

def move (m : Move) (w : World) : World :=
  match m with
  | .submit path kind now => w.submit env path kind now
  | .applyObservation path content stamp =>
      w.write (IndexView.applyObservation env.allowsSource path content stamp)
  | .refreshUnchanged path => w.write (IndexView.refreshUnchanged path)
  | .publishEmbeddingUpserts committed => w.write (IndexView.publishEmbeddingUpserts committed)
  | .submitOwed now => w.submitOwed env now
  | .retire => { w with live := false }
  | .withdraw message => if w.live then w.withdraw message else w

/-- The writer finishes and releases the index. -/
def payOwed (w : World) : World :=
  w.index.owed.foldl (fun w _ => w.submitOwed env (env.clock w.tick)) w

/-! ### Sections with more than the state lock -/

/-- Remove a path for a current work; an error leaves the work as it was. -/
def tryRemove (work : PendingWork) (source : Option ObservedBatch) (w : World) :
    Except VaultError Bool × World :=
  if !w.live then (.ok false, w)
  else if !w.state.isCurrent work then (.ok false, w.withState (RuntimeState.dropSuperseded work))
  else
    match w.store.remove work.path with
    | (.error error, store) => (.error error, { w with store := store })
    | (.ok removed, store) =>
        (.ok removed, { w with
          store := store
          state := w.state.finishSuccess work
          commits := w.commits ++ [⟨work, .removed, source, w.state⟩] })

def tryInsert (work : PendingWork) (entry : NoteEmbeddingEntry) (source : ObservedBatch)
    (w : World) : Except VaultError Bool × World :=
  if !w.live then (.ok false, w)
  else if !w.state.isCurrent work then (.ok false, w.withState (RuntimeState.dropSuperseded work))
  else
    match w.store.insertNote env.json work.path entry with
    | (.error error, store) => (.error error, { w with store := store })
    | (.ok _, store) =>
        let state := w.state.finishSuccess work
        (.ok true, { w with
          store := store
          state := { state with
            storeQueryable := state.storeQueryable || state.reconciliationComplete }
          commits := w.commits ++ [⟨work, .inserted entry, some source, w.state⟩] })

def markSuccess (work : PendingWork) (source : ObservedBatch) (w : World) : World :=
  if !w.live then w
  else if w.state.isCurrent work then
    { w with
      state := w.state.finishSuccess work
      commits := w.commits ++ [⟨work, .unchanged, some source, w.state⟩] }
  else w.withState (RuntimeState.dropSuperseded work)

def finalizeReconciliation (emptyVault : Bool) (w : World) : Bool × World :=
  if !w.live then (false, w)
  else if !w.state.initialStarted || w.state.reconciliationComplete ||
      w.state.initialRemaining ≠ ∅ then (false, w)
  else
    let emptyStore := w.store.embeddings.keys.isEmpty
    (!w.store.firstPassComplete, { w with
      state := { w.state with
        reconciliationComplete := true
        cacheError := none
        storeQueryable := w.state.storeQueryable || emptyVault || !emptyStore }
      store := w.store.setFirstPassComplete true
      finalizations := w.finalizations ++ [⟨emptyVault, emptyStore, w.state⟩] })

/-- The number of indexed notes that have a vector. -/
def indexedNotes (paths : List OsString) (w : World) : ℕ :=
  paths.countP fun path =>
    ((w.store.embeddings.lookup path).bind fun entry => entry.chunks.head?).isSome

/-! ### The locals of a batch -/

def activate (draft : StagedNote) (w : World) : World :=
  { w with batch := { w.batch with
      active := w.batch.active ++ [some draft]
      activeBytes := w.batch.activeBytes + draft.memoryBytes } }

/-- The draft in a slot. -/
def slot (index : ℕ) (w : World) : Option StagedNote :=
  (w.batch.active[index]?).join

/-- Empty a slot. -/
def clearSlot (index : ℕ) (w : World) : World :=
  { w with batch := { w.batch with active := w.batch.active.set index none } }

def releaseBytes (bytes : ℕ) (w : World) : World :=
  { w with batch := { w.batch with activeBytes := w.batch.activeBytes - bytes } }

/-- Store a vector in the draft it was requested for. -/
def deliver (job : ℕ × ℕ) (vector : List F32) (w : World) : World :=
  match w.slot job.1 with
  | none => w
  | some draft =>
      { w with batch := { w.batch with
          active := w.batch.active.set job.1 (some (draft.fill job.2 vector)) } }

end World

/-! ## Programs -/

/-- A program of the coordinator. -/
abbrev Coordinator (α : Type) := EStateM Stop World α

inductive PreparationOutcome where
  | prepared (note : PreparedNote)
  | unchanged
  | missing
  | deferred

/-- The works due at one observation and what the observation gave. -/
structure ObservationPass where
  generations : Table OsString ℕ
  observed : Except VaultError ObservedBatch

namespace ObservationPass

def contains (batch : List PendingWork) (pass : ObservationPass) : Bool :=
  batch.all fun work =>
    work.kind = .remove || pass.generations.lookup work.path = some work.generation

def consume (batch : List PendingWork) (pass : ObservationPass) : ObservationPass :=
  { pass with
    generations := batch.foldl (fun generations work =>
      if generations.lookup work.path = some work.generation then generations.erase work.path
      else generations) pass.generations }

end ObservationPass

/-- The locals of the coordinator's loop. -/
structure LoopState where
  dirty : Bool
  observation : Option ObservationPass
  lastPersist : ℕ
  persistRetryAt : ℕ
  persistAttempt : ℕ

namespace Coordinator

variable (env : Surroundings)

/-- Others run, then the next section begins. -/
def meantime : Coordinator Unit :=
  interfere (fun w => env.moves w.tick) (World.move env)
    (fun w => if env.cut = some w.tick then some Stop.cut else none)
    (fun w => { w with tick := w.tick + 1 })

def locked {α : Type} (f : World → α × World) : Coordinator α := do
  meantime env
  modifyGet f

/-- A section of the state lock, with the instant it reads. -/
def withState (f : ℕ → RuntimeState → RuntimeState) : Coordinator Unit :=
  locked env fun w => ((), w.withState (f (env.clock w.tick)))

/-- A section of the index lock; a writer that holds it finishes first. -/
def readIndex {α : Type} (f : IndexView → α) : Coordinator α :=
  locked env fun w =>
    let w := w.payOwed env
    (f w.index, w)

/-- A change of the coordinator's own locals. -/
def ownLocals (f : World → World) : Coordinator Unit :=
  modify f

def sourceIsLive : Coordinator Bool :=
  locked env fun w => (w.live, w)

def markDirty (changed : Bool) : Coordinator Unit :=
  ownLocals fun w => { w with batch := { w.batch with dirty := w.batch.dirty || changed } }

def recordTerminalFailure (error : VaultError) : Coordinator Unit := do
  let totalNotes ← readIndex env fun index => index.currentPaths.length
  locked env fun w => ((), w.recordTerminalFailureMessage error.display totalNotes)

/-! ### Ends of a work -/

def workIsCurrent (work : PendingWork) : Coordinator Bool := do
  if ← sourceIsLive env then
    locked env fun w => (w.state.isCurrent work, w)
  else return false

def discardInflight (work : PendingWork) : Coordinator Unit :=
  withState env fun _ => RuntimeState.discardInflight work

def deferPending (work : PendingWork) : Coordinator Unit :=
  withState env fun now => RuntimeState.deferPending work now

def deferWork (draft : StagedNote) (retain : Bool) : Coordinator Unit :=
  withState env fun now => RuntimeState.deferWork draft retain now

def recordFailureMessage (work : PendingWork) (error : Text) (retryAfter : Option ℕ)
    (staged : Option StagedNote) : Coordinator Unit :=
  withState env fun now =>
    RuntimeState.recordFailureMessage env.runtime now work error retryAfter staged

def recordFailure (work : PendingWork) (error : VaultError) (staged : Option StagedNote) :
    Coordinator Unit :=
  recordFailureMessage env work error.display (retryHint error) staged

/-- The result of a commit, whose error becomes the work's failure. -/
def concludeCommit (work : PendingWork) : Except VaultError Bool → Coordinator Bool
  | .ok changed => return changed
  | .error error => do
      recordFailure env work error none
      return false

def commitRemove (work : PendingWork) (source : Option ObservedBatch) : Coordinator Bool := do
  let outcome ← locked env fun w => w.tryRemove work source
  concludeCommit env work outcome

def commitNote (work : PendingWork) (entry : NoteEmbeddingEntry) (source : ObservedBatch) :
    Coordinator Bool := do
  let outcome ← locked env fun w => w.tryInsert env work entry source
  concludeCommit env work outcome

def markSuccess (work : PendingWork) (source : ObservedBatch) : Coordinator Unit :=
  locked env fun w => ((), w.markSuccess work source)

/-! ### Preparation -/

def admitStaging (required : ℕ) : Coordinator Bool :=
  locked env fun w =>
    let admitted := w.state.admitStaging w.batch.activeBytes required
    (admitted.1, { w with state := admitted.2 })

/-- The error of a preparation that did not fit, as a share of the whole reservation. -/
def chargeReservation (reserved available : ℕ) : VaultError → VaultError
  | .semanticResourceLimit resource actual limit =>
      if resource = budgetResource then
        .semanticResourceLimit resource (saturatingAdd reserved actual) available
      else .semanticResourceLimit resource actual limit
  | error => error

/-- The preparation of a text that was read. -/
def prepareRead (work : PendingWork) (previous : Option NoteEmbeddingEntry)
    (available overhead : ℕ) (raw : Buffer Text) :
    Coordinator (Except VaultError PreparationOutcome) := do
  let allowed ← readIndex env fun _ => env.allowsSource work.path raw.value
  if !allowed then return .ok .missing
  else if previous.any fun note => env.sourceRevision raw.value = note.sourceRevision then
    return .ok .unchanged
  else
    let reserved := saturatingAdd overhead raw.capacity
    locked env fun w =>
      (match env.preparationTaskError w.tick with
        | some error => .error (.embeddingRequest
            ("embedding preparation task failed: ".toList ++ error) true none)
        | none => ((env.prepareNote w.tick work.path raw.value (available - reserved)).mapError
            (chargeReservation reserved available)).map .prepared, w)

/-- One attempt at a preparation within the available budget. -/
def attemptPreparation (work : PendingWork) (previous : Option NoteEmbeddingEntry)
    (available overhead : ℕ) : Coordinator (Except VaultError PreparationOutcome) := do
  if available ≤ overhead then
    return .error (.semanticResourceLimit budgetResource (saturatingAdd overhead 1) available)
  else
    let readLimit := min maxSourceBytes (available - saturatingAdd overhead 1)
    if !(← readIndex env (IndexView.hasNote work.path)) then return .ok .missing
    else
      let raw ← locked env fun w =>
        (env.readExactBounded w.tick work.path readLimit (w.index.notes.lookup work.path), w)
      match raw with
      | .error error => return .error error
      | .ok raw => prepareRead env work previous available overhead raw

/-- What a retry has to reserve, if the error is one that more space may cure. -/
def retryRequirement (overhead : ℕ) : VaultError → Option ℕ
  | .semanticResourceLimit resource actual limit =>
      if resource = budgetResource then some actual
      else if "source bytes for ".toList.isPrefixOf resource ∧ limit < maxSourceBytes then
        some (saturatingAdd (saturatingAdd overhead actual) 1)
      else none
  | _ => none

/-- An attempt that failed for want of space is repeated when paused drafts can make room. -/
def retryPreparation (again : Coordinator (Except VaultError PreparationOutcome))
    (overhead : ℕ) :
    Except VaultError PreparationOutcome → Coordinator (Except VaultError PreparationOutcome)
  | .ok outcome => return .ok outcome
  | .error error =>
      match retryRequirement overhead error with
      | none => return .error error
      | some required => do
          if ← admitStaging env required then again
          else
            let w ← get
            if w.batch.activeBytes > 0 then return .ok .deferred
            else return .error (.semanticResourceLimit budgetResource required maxStagingBytes)

def prepareWorkObserved (work : PendingWork) (reuseIndexBytes : ℕ)
    (previous : Option NoteEmbeddingEntry) :
    ℕ → Coordinator (Except VaultError PreparationOutcome)
  | 0 => throw .preparing
  | retries + 1 => do
      let available ← locked env fun w => (w.state.availableStaging w.batch.activeBytes, w)
      let overhead := saturatingAdd (draftOverhead env.layout work) reuseIndexBytes
      let prepared ← attemptPreparation env work previous available overhead
      retryPreparation env (prepareWorkObserved work reuseIndexBytes previous retries) overhead
        prepared

/-! ### Admission -/

/-- Publish a complete draft. -/
def publishDraft (draft : StagedNote) : Coordinator Unit := do
  match draft.intoEntry with
  | .ok entry => markDirty (← commitNote env draft.work entry draft.source)
  | .error error => recordFailure env draft.work error none

/-- The last admission: a complete draft is published, another one becomes active. -/
def admitDraft (draft : StagedNote) : Coordinator Unit := do
  if !(← workIsCurrent env draft.work) then discardInflight env draft.work
  else if !(← admitStaging env draft.memoryBytes) then
    let w ← get
    deferWork env { draft with lastUsed := env.clock w.tick } false
  else if draft.complete then publishDraft env draft
  else ownLocals (World.activate draft)

/-- The draft of a note that was prepared. -/
def newDraft (work : PendingWork) (prepared : PreparedNote)
    (previous : Option NoteEmbeddingEntry) (memoryBytes now : ℕ) (source : ObservedBatch) :
    StagedNote where
  work := work
  prepared := prepared
  vectors := reusedVectors previous prepared
  hashOrder := prepared.hashOrder
  memoryBytes := memoryBytes
  lastUsed := now
  source := source

/-- The failures that make the rest of an observation useless. -/
def isSourceFailure : VaultError → Bool
  | .storage _ _ kind _ _ => kind = .unavailable || kind = .protocol || kind = .identityChanged
  | _ => false

def admitPrepared (work : PendingWork) (observed : ObservedBatch)
    (previous : Option NoteEmbeddingEntry) (prepared : PreparedNote) : Coordinator Unit := do
  match stagingSize env.layout prepared env.dimension work with
  | .error error => recordFailure env work error none
  | .ok memoryBytes =>
      if ← admitStaging env (saturatingAdd memoryBytes (reuseIndexBytes previous)) then
        let w ← get
        admitDraft env
          (newDraft work prepared previous memoryBytes (env.clock w.tick) observed)
      else deferPending env work

/-- What follows the preparation of a work. -/
def concludePreparation (work : PendingWork) (observed : ObservedBatch)
    (previous : Option NoteEmbeddingEntry) :
    Except VaultError PreparationOutcome → Coordinator Unit
  | .ok (.prepared prepared) => admitPrepared env work observed previous prepared
  | .ok .missing => do markDirty (← commitRemove env work (some observed))
  | .ok .unchanged => markSuccess env work observed
  | .ok .deferred => deferPending env work
  | .error error => do
      ownLocals fun w => { w with batch := { w.batch with
        sourceFailed := w.batch.sourceFailed || isSourceFailure error } }
      recordFailure env work error none

def prepareDraft (observed : Except VaultError ObservedBatch) (work : PendingWork) :
    Coordinator Unit := do
  match observed with
  | .error error => recordFailureMessage env work error.display (retryHint error) none
  | .ok observed =>
      let previous ← locked env fun w => (w.store.embeddings.lookup work.path, w)
      let prepared ← prepareWorkObserved env work (reuseIndexBytes previous) previous env.retries
      concludePreparation env work observed previous prepared

def processWork (observed : Except VaultError ObservedBatch) (work : PendingWork) :
    Coordinator Unit := do
  if !(← workIsCurrent env work) then discardInflight env work
  else
    let existing ← locked env fun w =>
      let taken := w.state.takeStaged work
      (taken.1, { w with state := taken.2 })
    match existing with
    | some draft => admitDraft env { draft with work := work }
    | none => prepareDraft env observed work

/-- The works of a group: removals first. -/
def processGroup (observed : Except VaultError ObservedBatch) (group : List PendingWork) :
    Coordinator Unit := do
  (group.filter fun work => work.kind = .remove).forM fun work => do
    markDirty (← commitRemove env work none)
  (group.filter fun work => work.kind ≠ .remove).forM (processWork env observed)

/-! ### Inference -/

/-- The jobs of one slot, which is emptied if its work is no longer current. -/
def selectJobs (index : ℕ) : Coordinator (List (ℕ × ℕ)) := do
  let w ← get
  match w.slot index with
  | none => return []
  | some draft =>
      if ← workIsCurrent env draft.work then
        return draft.jobs.map fun chunk => (index, chunk)
      else
        discardInflight env draft.work
        ownLocals fun w => (w.releaseBytes draft.memoryBytes).clearSlot index
        return []

def collectJobs : List ℕ → Coordinator (List (ℕ × ℕ))
  | [] => return []
  | index :: rest => do
      let jobs ← selectJobs env index
      let others ← collectJobs rest
      return jobs ++ others

/-- The text of a job. -/
def jobText (w : World) (job : ℕ × ℕ) : Text :=
  (((w.slot job.1).bind fun draft => draft.prepared.chunks.value[job.2]?).map fun chunk =>
    chunk.text.value).getD []

/-- One request on a prefix of the jobs. -/
def infer (jobs : List (ℕ × ℕ)) : Coordinator (ℕ × Except VaultError (List (List F32))) :=
  locked env fun w =>
    (match env.inferenceTaskError w.tick with
      | some error => (jobs.length, .error (.embeddingRequest
          ("embedding inference task failed: ".toList ++ error) true none))
      | none =>
          if !w.live then
            (0, .error (.embedding "embedding source authority was withdrawn".toList))
          else
            let answer := embedNextBatch (env.embedder w.tick) w.live (jobs.map (jobText w))
            (answer.1, answer.2.bind fun vectors =>
              validateEmbeddingBatch vectors answer.1 env.dimension), w)

/-- Publish the draft of a slot once it is complete. -/
def completeSlot (index : ℕ) : Coordinator Unit := do
  let w ← get
  match w.slot index with
  | none => return
  | some draft =>
      if draft.complete then
        ownLocals fun w => (w.clearSlot index).releaseBytes draft.memoryBytes
        publishDraft env draft
      else return

/-- A failed request: the drafts in it fail, the others wait for another batch. -/
def abandonSlot (affected : List ℕ) (message : Text) (retryAfter : Option ℕ) (index : ℕ) :
    Coordinator Unit := do
  let w ← get
  match w.slot index with
  | none => return
  | some draft =>
      ownLocals (World.clearSlot index)
      if index ∈ affected then
        recordFailureMessage env draft.work message retryAfter (some draft)
      else deferWork env draft true

/-- What follows a request. -/
def concludeInference (again : Coordinator Unit) (jobs : List (ℕ × ℕ)) (count : ℕ) :
    Except VaultError (List (List F32)) → Coordinator Unit
  | .ok vectors => do
      ownLocals fun w => ((jobs.take count).zip vectors).foldl
        (fun w delivery => w.deliver delivery.1 delivery.2) w
      let w ← get
      (List.range w.batch.active.length).forM (completeSlot env)
      again
  | .error error => do
      ownLocals fun w => { w with batch := { w.batch with abandoned := true } }
      let w ← get
      (List.range w.batch.active.length).forM
        (abandonSlot env ((jobs.take count).map Prod.fst) error.display (retryHint error))

def inferenceLoop : ℕ → Coordinator Unit
  | 0 => throw .inferring
  | rounds + 1 => do
      let w ← get
      let jobs ← collectJobs env (List.range w.batch.active.length)
      if jobs.isEmpty then return
      else
        let answer ← infer env jobs
        concludeInference env (inferenceLoop rounds) jobs answer.1 answer.2

def processBatch (batch : List PendingWork) (observed : Except VaultError ObservedBatch) :
    Coordinator (Bool × Bool) := do
  ownLocals fun w => { w with batch := { sourceFailed := observed.isOk = false } }
  (batch.toChunks 32).forM (processGroup env observed)
  inferenceLoop env env.rounds
  let w ← get
  ownLocals fun w => { w with batch := {} }
  return (w.batch.dirty, w.batch.sourceFailed)

/-! ### The loop -/

def finalizeReconciliationIfComplete : Coordinator Bool := do
  let emptyVault ← readIndex env fun index => index.currentPaths.isEmpty
  locked env (World.finalizeReconciliation emptyVault)

def refreshStatus : Coordinator Unit := do
  let paths ← readIndex env IndexView.currentPaths
  let indexedNotes ← locked env fun w => (w.indexedNotes paths, w)
  withState env fun _ state =>
    { state with status := state.statusForLoadedState paths.length indexedNotes }

/-- Write the cache file; false means that the runtime was retired. -/
def persistStore : Coordinator (Except VaultError Bool) := do
  let encoded ← locked env fun w => (w.store.encodeCache env.json, w)
  match encoded with
  | .error error => return .error error
  | .ok bytes =>
      if !(← sourceIsLive env) then return .ok false
      else
        locked env fun w =>
          (match env.writeTaskError w.tick with
            | some error => .error (.embedding ("cache write task failed: ".toList ++ error))
            | none => env.publish w.tick bytes, w)

/-- The errors of the cache file that stop the coordinator. -/
def isConfinementFailure : VaultError → Bool
  | .outsideVault _ => true
  | .invalidPath _ => true
  | _ => false

/-- What follows an attempt to write the cache. -/
def concludePersist (loop : LoopState) : Except VaultError Bool → Coordinator LoopState
  | .ok true => do
      withState env fun _ state => { state with persistenceError := none }
      refreshStatus env
      let w ← get
      return { loop with
        dirty := false
        persistAttempt := 0
        persistRetryAt := env.clock w.tick
        lastPersist := env.clock w.tick }
  | .ok false => throw .returned
  | .error error => do
      if isConfinementFailure error then
        recordTerminalFailure env error
        throw .returned
      else
        withState env fun _ state => { state with persistenceError := some error.display }
        refreshStatus env
        let attempt := min (loop.persistAttempt + 1) 255
        let w ← get
        return { loop with
          persistAttempt := attempt
          persistRetryAt := env.clock w.tick + retryDelay attempt }

def persistDirty (loop : LoopState) : Coordinator LoopState := do
  let published ← persistStore env
  concludePersist env loop published

/-- Observe the sources of everything that is due, unless the last observation still serves. -/
def observeDue (loop : LoopState) (batch : List PendingWork) : Coordinator ObservationPass := do
  match loop.observation.filter (ObservationPass.contains batch) with
  | some pass => return pass
  | none =>
      let generations ← locked env fun w =>
        (w.state.dueObservationPaths batch (env.clock w.tick), w)
      locked env fun w =>
        (⟨generations, (env.observeBatch w.tick generations.keys).map fun _ =>
          ⟨generations, w.state.issued.length⟩⟩, w)

/-- Serve a batch that is not empty. -/
def serveBatch (loop : LoopState) (batch : List PendingWork) : Coordinator LoopState := do
  if batch.all fun work => work.kind = .remove then
    ownLocals fun w => { w with batch := {} }
    batch.forM fun work => do markDirty (← commitRemove env work none)
    let w ← get
    ownLocals fun w => { w with batch := {} }
    return { loop with
      dirty := loop.dirty || w.batch.dirty
      observation := loop.observation.map (ObservationPass.consume batch) }
  else
    let pass ← observeDue env loop batch
    let processed ← processBatch env batch pass.observed
    let pass := pass.consume batch
    return { loop with
      dirty := loop.dirty || processed.1
      observation :=
        if processed.2 || pass.generations.keys.isEmpty then none else some pass }

/-- Persist after a batch when enough time has passed. -/
def afterBatch (loop : LoopState) : Coordinator LoopState := do
  if !(← sourceIsLive env) then throw .returned
  else
    withState env fun _ state => { state with batchStartedAt := none }
    let changed ← finalizeReconciliationIfComplete env
    refreshStatus env
    let loop := { loop with dirty := loop.dirty || changed }
    let w ← get
    let now := env.clock w.tick
    if loop.dirty && loop.persistRetryAt ≤ now && maxDirtyInterval ≤ now - loop.lastPersist then
      persistDirty env loop
    else return loop

/-- Persist or sleep when nothing is due. -/
def whenIdle (loop : LoopState) (pendingEmpty : Bool) : Coordinator LoopState := do
  let loop := { loop with observation := none }
  let w ← get
  let now := env.clock w.tick
  if loop.dirty && loop.persistRetryAt ≤ now &&
      (pendingEmpty || maxDirtyInterval ≤ now - loop.lastPersist) then
    persistDirty env loop
  else
    meantime env
    return loop

/-- One turn of the loop of `run_coordinator`. -/
def turn (loop : LoopState) : Coordinator LoopState := do
  if !(← sourceIsLive env) then throw .returned
  else
    let due ← locked env fun w =>
      let taken := w.state.takeDueBatch env.batchSize (env.clock w.tick)
      (taken.1, { w with state := taken.2 })
    if due.batch.isEmpty then whenIdle env loop due.pendingEmpty
    else
      let loop ← serveBatch env loop due.batch
      afterBatch env loop

/-! ### Loading -/

/-- The cache file's store and the error that a rebuild reports; `none` stops the coordinator. -/
def loadCache (currentCount : ℕ) :
    Except VaultError (Option EmbeddingStore × Option Text) :=
  match env.cacheTaskError with
  | some error =>
      .ok (none, some ("embedding cache task failed; rebuilding: ".toList ++ error))
  | none =>
      let loaded := env.cacheFile.bind fun file =>
        match file with
        | none => .ok none
        | some bytes => (EmbeddingStore.decodeFile env.json bytes (some env.identity)
            (min (saturatingAdd currentCount 1024) maxCacheEntries)).map some
      match loaded with
      | .ok store => .ok (store, none)
      | .error (.embeddingCacheIncompatible _) => .ok (none, none)
      | .error error =>
          if isConfinementFailure error then .error error
          else .ok (none, some
            ("embedding cache could not be loaded; rebuilding: ".toList ++ error.display))

/-- Stop unless the source is live. -/
def checkLive : Coordinator Unit := do
  if !(← sourceIsLive env) then throw .returned
  else return

/-- Stop with a terminal failure. -/
def failTerminally {α : Type} (error : VaultError) : Coordinator α := do
  recordTerminalFailure env error
  throw .returned

/-- Publish the store, queue the initial work and finish a first pass that is already over. -/
def startReconciliation (store : EmbeddingStore) (cacheError : Option Text)
    (queryable removed : Bool) : Coordinator LoopState := do
  let initialPaths ← readIndex env IndexView.initialEmbeddingWork
  locked env fun w =>
    ((), { w with
      store := store
      state := w.state.beginReconciliation cacheError queryable initialPaths
        (env.clock w.tick) })
  let changed ← finalizeReconciliationIfComplete env
  checkLive env
  refreshStatus env
  let w ← get
  let now := env.clock w.tick
  return {
    dirty := removed || changed
    observation := none
    lastPersist := now
    persistRetryAt := now
    persistAttempt := 0 }

/-- Everything before the loop of `run_coordinator`. -/
def load : Coordinator LoopState := do
  checkLive env
  match env.loader with
  | .error error => failTerminally env error
  | .ok _ =>
      checkLive env
      let currentPaths ← readIndex env IndexView.currentPaths
      match loadCache env currentPaths.length with
      | .error error => failTerminally env error
      | .ok (loaded, cacheError) =>
          checkLive env
          let store := loaded.getD (EmbeddingStore.newWithIdentity env.identity)
          match store.retainPaths store.embeddings.keys (fun path => path ∈ currentPaths) with
          | (.error error, _) => failTerminally env error
          | (.ok removed, retained) =>
              startReconciliation env retained cacheError
                (store.firstPassComplete &&
                  (currentPaths.isEmpty || !retained.embeddings.keys.isEmpty)) removed

end Coordinator

end ObsidianMcp
