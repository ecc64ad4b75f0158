import ObsidianMcp.Model.EmbeddingDraft
import ObsidianMcp.Model.LexicalIndex

/-! # Lexical publication and embedding

Callers change the index and stage documents under its lock, publish without it, and take it again
to release what embedding waits for. -/

namespace ObsidianMcp

namespace VaultIndex

def embeddingChange (path : OsString) (wasNote : Bool) (index : VaultIndex) :
    Option PendingKind :=
  if (index.waitingForLexical.lookup path).isSome then some .awaitingLexical
  else if (index.notes.lookup path).isSome then some .upsert
  else if wasNote then some .remove
  else none

/-- The paths that wait for a stamp that is committed, in the order of their stamps. -/
def readyUpserts (committed : ℕ) (index : VaultIndex) : List (OsString × ℕ) :=
  (index.waitingForLexical.toPairs.filter fun entry => entry.2 ≤ committed).mergeSort
    fun left right => left.2 ≤ right.2

/-- Release only the current stamps covered by the successfully published reader. The second part
are the paths that are upserted. -/
def publishEmbeddingUpserts (committed : ℕ) (index : VaultIndex) :
    VaultIndex × List (OsString × ℕ) :=
  ({ index with
      waitingForLexical := index.waitingForLexical.filter fun _ stamp => !(stamp ≤ committed) },
    (index.readyUpserts committed).filter fun entry => (index.notes.lookup entry.1).isSome)

end VaultIndex

/-- A vault with an embedding runtime: the stamps whose publication has succeeded and whose upserts
are still to be released, and what has been submitted. -/
structure Session (W : Type) where
  projection : Projection W
  unreleased : List ℕ
  submitted : List (OsString × PendingKind)
  /-- The latest stamp that a reader covers. -/
  published : ℕ
  /-- The stamps of the latest staged documents. -/
  stamps : Table OsString ℕ
  /-- The upserts that were released, with the stamps they waited for. -/
  released : List (OsString × ℕ)

/-- A section of a caller: one call with its submission, a stat-only observation, one publication
or one release. -/
inductive SessionStep where
  | call (call : Projection.Call) (watched : Bool)
  | unchanged (path : OsString) (revision : Text) (stat : FileStat) (current : Bool)
  | publish (reload : Except VaultError Unit)
  | release (committed : ℕ)

namespace Session

variable {W : Type} (source : NoteSource) (exclude : ExcludeSet) (writer : IndexWriter W)

/-- The stamps after the writer was asked. -/
def restamp (path : OsString) (asked : Option LexicalCall) (w : W) (stamps : Table OsString ℕ) :
    Table OsString ℕ :=
  match asked with
  | none => stamps
  | some .remove => stamps.erase path
  | some (.replace note content) =>
      match (writer.replaceDocument source path note content w).2 with
      | .ok stamp => stamps.insert path stamp
      | .error _ => stamps.erase path

def submit (path : OsString) (change : Option PendingKind) (session : Session W) : Session W :=
  { session with submitted := session.submitted ++ (change.map (path, ·)).toList }

def isResourceLimitResult (result : Except VaultError Bool) : Bool :=
  match result with
  | .error error => VaultIndex.isResourceLimit error
  | .ok _ => false

/-- One call and, unless it was refused for the size, its submission. The watcher submits anyway. -/
def call (call : Projection.Call) (watched : Bool) (session : Session W) : Option (Session W) :=
  (call.apply source exclude writer true session.projection).map fun (projection, result) =>
    let wasNote := (session.projection.index.notes.lookup call.path).isSome
    let change :=
      if !watched && isResourceLimitResult result then none
      else projection.index.embeddingChange call.path wasNote
    submit call.path change
      { session with
        projection
        stamps := restamp source writer call.path (call.asks source exclude session.projection)
          session.projection.writer session.stamps }

/-- A stat-only observation submits what embedding neither has nor works on. -/
def unchanged (path : OsString) (revision : Text) (stat : FileStat) (current : Bool)
    (session : Session W) : Session W :=
  let (index, result) := session.projection.index.refreshUnchangedNote source path revision stat
  let session := { session with projection := { session.projection with index } }
  match result with
  | .ok true => if current then session else submit path (index.embeddingChange path true) session
  | _ => session

def publish (reload : Except VaultError Unit) (session : Session W) : Session W :=
  let (w, result) := writer.publish reload session.projection.writer
  let session := { session with projection := { session.projection with writer := w } }
  match result with
  | .ok committed => { session with
      unreleased := committed :: session.unreleased
      published := max session.published committed }
  | .error _ => session

/-- Release what waits for a stamp. -/
def release (committed : ℕ) (session : Session W) : Session W :=
  let (index, upserts) := session.projection.index.publishEmbeddingUpserts committed
  { session with
    projection := { session.projection with index }
    unreleased := session.unreleased.erase committed
    submitted := session.submitted ++ upserts.map fun entry => (entry.1, .upsert)
    released := session.released ++ upserts }

def step : SessionStep → Session W → Option (Session W)
  | .call c watched, session => session.call source exclude writer c watched
  | .unchanged path revision stat current, session =>
      some (session.unchanged source path revision stat current)
  | .publish reload, session => some (session.publish writer reload)
  | .release committed, session =>
      if committed ∈ session.unreleased then some (session.release committed) else none

end Session

end ObsidianMcp
