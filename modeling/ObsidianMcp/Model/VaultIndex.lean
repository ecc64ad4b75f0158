import ObsidianMcp.Library.Inverse
import ObsidianMcp.Model.NoteMetadata

/-! # The vault index

Counters are natural numbers. A subtraction below zero and a sum of sizes beyond 64 bits that the
code does not check end the run: the operations return `none` there. -/

namespace ObsidianMcp

open Text

def u64Max : ℕ := 2 ^ 64 - 1

def checkedSub (a b : ℕ) : Option ℕ :=
  if b ≤ a then some (a - b) else none

/-- A sum of 64-bit numbers. -/
def checkedAdd (a b : ℕ) : Option ℕ :=
  if a + b ≤ u64Max then some (a + b) else none

/-! ## Paths -/

/-- A path belongs to the visible indexing namespace. -/
def isVisiblePath (path : OsString) : Bool :=
  path.toStr.any fun text =>
    (text.splitOnP fun c => c = '/' || c = '\\').all fun name => name.head? ≠ some '.'

def logicalSeparators (path : OsString) : OsString :=
  match path.toStr with
  | some raw => if '\\' ∈ raw then utf8Bytes (portableSeparators raw) else path
  | none => path

/-- The rules that keep paths and sources out of the index. -/
structure ExcludeSet where
  isExcluded : OsString → Bool
  allowsSource : OsString → Text → Bool

inductive FileClass where
  | note
  | excluded
  | attachment
  deriving DecidableEq

def classify (path : OsString) (exclude : ExcludeSet) : FileClass :=
  if !isMarkdown path then .attachment
  else if exclude.isExcluded path then .excluded
  else .note

/-! ## Watched paths -/

/-- The names of a path. -/
def pathNames (path : OsString) : List OsString :=
  path.splitOn 0x2F

def joinNames (names : List OsString) : OsString :=
  List.intercalate [0x2F] names

/-- A path and the folders above it, the vault itself left out. -/
def pathPrefixes (path : OsString) : List OsString :=
  ((pathNames path).inits.reverse.map joinNames).filter fun p => !p.isEmpty

def foldedPath (source : NoteSource) (path : OsString) : Text :=
  (source.text.nfc (source.text.toStringLossy path)).flatMap source.upper

/-- Native spellings for each case-folded path prefix in the tracked inventory. -/
abbrev WatchPaths := Table (Text × OsString) ℕ

namespace WatchPaths

def insert (source : NoteSource) (path : OsString) (watch : WatchPaths) : WatchPaths :=
  (pathPrefixes path).foldl
    (fun watch p => AList.insert (foldedPath source p, p)
      ((watch.lookup (foldedPath source p, p)).getD 0 + 1) watch) watch

def removePrefix (source : NoteSource) (watch : WatchPaths) (p : OsString) : Option WatchPaths :=
  match watch.lookup (foldedPath source p, p) with
  | none => some watch
  | some count =>
      (checkedSub count 1).map fun count =>
        if count = 0 then watch.erase (foldedPath source p, p)
        else AList.insert (foldedPath source p, p) count watch

def remove (source : NoteSource) (path : OsString) (watch : WatchPaths) : Option WatchPaths :=
  (pathPrefixes path).foldlM (removePrefix source) watch

end WatchPaths

/-! ## State -/

structure VaultStats where
  totalNotes : ℕ
  totalFiles : ℕ
  totalTags : ℕ
  totalLinks : ℕ
  vaultSizeBytes : ℕ
  excludedNotes : ℕ
  deriving DecidableEq

structure VaultIndex where
  notes : Table OsString NoteMetadata
  sourceRevisions : Table OsString Text
  tags : Inverse Text OsString
  linkResolver : LinkResolver
  backlinks : Inverse OsString OsString
  stats : VaultStats
  attachments : Table OsString ℕ
  attachmentBytes : ℕ
  excludedNotePaths : Finset OsString
  sourceBatch : Bool
  watchPaths : Option WatchPaths
  waitingForLexical : Table OsString ℕ

namespace VaultIndex

def empty : VaultIndex where
  notes := ∅
  sourceRevisions := ∅
  tags := ∅
  linkResolver := ⟨∅, ∅⟩
  backlinks := ∅
  stats := ⟨0, 0, 0, 0, 0, 0⟩
  attachments := ∅
  attachmentBytes := 0
  excludedNotePaths := ∅
  sourceBatch := false
  watchPaths := none
  waitingForLexical := ∅

def tracks (path : OsString) (index : VaultIndex) : Bool :=
  (index.notes.lookup (logicalSeparators path)).isSome ||
    logicalSeparators path ∈ index.excludedNotePaths ||
    (index.attachments.lookup (logicalSeparators path)).isSome

def trackedPaths (index : VaultIndex) : Finset OsString :=
  index.notes.keys.toFinset ∪ index.excludedNotePaths ∪ index.attachments.keys.toFinset

variable (source : NoteSource)

def trackWatchPath (path : OsString) (index : VaultIndex) : VaultIndex :=
  { index with watchPaths := index.watchPaths.map (WatchPaths.insert source path) }

/-! ## Backlinks -/

/-- The notes that links resolve to. -/
def linkTargets (resolver : LinkResolver) (links : List WikiLink) : List OsString :=
  links.filterMap fun link =>
    if link.target = [] then none else resolver.resolve source.text link.target

def rebuildBacklinks (index : VaultIndex) : VaultIndex :=
  { index with
    backlinks := index.notes.toPairs.foldl
      (fun backlinks entry => (linkTargets source index.linkResolver entry.2.links).foldl
        (Inverse.add entry.1) backlinks) ∅ }

/-- Update the backlinks of one file whose content changed. -/
def updateBacklinksForFile (path : OsString) (oldLinks : Option (List WikiLink))
    (index : VaultIndex) : VaultIndex :=
  let dropped := (oldLinks.map fun links => linkTargets source index.linkResolver links).getD []
  let added := ((index.notes.lookup path).map fun note =>
    linkTargets source index.linkResolver note.links).getD []
  { index with
    backlinks := added.foldl (Inverse.add path)
      (dropped.foldl (Inverse.drop path) index.backlinks) }

/-! ## Totals -/

def recomputeStats (index : VaultIndex) : VaultStats where
  totalNotes := index.notes.len
  totalFiles := index.notes.len + index.attachments.len
  totalTags := index.tags.len
  totalLinks := index.notes.total fun _ note => note.links.length
  vaultSizeBytes := index.notes.total (fun _ note => note.stat.size) + index.attachmentBytes
  excludedNotes := index.excludedNotePaths.card

def inventorySizeError (path : OsString) : VaultError :=
  .storage "index observation".toList (source.text.toStringLossy path) .resourceLimit
    "aggregate source byte size exceeds the supported u64 range".toList .notDispatched

/-- Admit aggregate changes before replacing any contribution. -/
def observedByteTotals (path : OsString) (size : ℕ) (attachment : Bool) (index : VaultIndex) :
    Except VaultError (ℕ × ℕ) :=
  let oldAttachment := (index.attachments.lookup path).getD 0
  let oldSize := ((index.notes.lookup path).map fun note => note.stat.size).getD oldAttachment
  let total := (checkedSub index.stats.vaultSizeBytes oldSize).bind (checkedAdd · size)
  let attachmentBytes := (checkedSub index.attachmentBytes oldAttachment).bind
    (checkedAdd · (if attachment then size else 0))
  match total, attachmentBytes with
  | some total, some attachmentBytes => .ok (total, attachmentBytes)
  | _, _ => .error (inventorySizeError source path)

/-! ## Removal -/

/-- One step of the loop over the tags of a removed note: the tag table and the tags whose last
path left. -/
def dropTag (path : OsString) (state : Inverse Text OsString × List Text) (tag : Text) :
    Inverse Text OsString × List Text :=
  let key := source.text.toLowercase tag
  match state.1.lookup key with
  | none => state
  | some paths =>
      (state.1.insert key (paths.erase path),
        if paths.erase path = ∅ then state.2 ++ [key] else state.2)

def withoutTags (path : OsString) (noteTags : List Text) (tags : Inverse Text OsString) :
    Inverse Text OsString :=
  let dropped := noteTags.foldl (dropTag source path) (tags, [])
  dropped.2.foldl (fun tags tag => tags.erase tag) dropped.1

/-- Remove the contributions of a note that is present. -/
def removeNote (path : OsString) (old : NoteMetadata) (index : VaultIndex) : Option VaultIndex := do
  let notes := index.notes.erase path
  let tags := withoutTags source path old.tags index.tags
  let totalLinks ← checkedSub index.stats.totalLinks old.links.length
  let vaultSizeBytes ← checkedSub index.stats.vaultSizeBytes old.stat.size
  return { index with
    notes, tags,
    stats := { index.stats with
      totalNotes := Table.len notes
      totalFiles := Table.len notes + index.attachments.len
      totalTags := Table.len tags
      totalLinks, vaultSizeBytes } }

def removeNoteContributions (path : OsString) (index : VaultIndex) :
    Option (VaultIndex × Option NoteMetadata) :=
  match index.notes.lookup path with
  | none => some (index, none)
  | some old => (index.removeNote source path old).map (·, some old)

def untrackWatchPath (path : OsString) (index : VaultIndex) : Option VaultIndex :=
  match index.watchPaths with
  | none => some index
  | some watch =>
      if index.tracks path then
        (watch.remove source path).map fun watch => { index with watchPaths := some watch }
      else some index

def dropExcluded (path : OsString) (index : VaultIndex) : Option VaultIndex :=
  if path ∈ index.excludedNotePaths then
    (checkedSub index.stats.excludedNotes 1).map fun excludedNotes =>
      { index with
        excludedNotePaths := index.excludedNotePaths.erase path
        stats := { index.stats with excludedNotes } }
  else some index

def dropAttachment (path : OsString) (index : VaultIndex) : Option VaultIndex :=
  match index.attachments.lookup path with
  | none => some index
  | some size => do
      let attachmentBytes ← checkedSub index.attachmentBytes size
      let totalFiles ← checkedSub index.stats.totalFiles 1
      let vaultSizeBytes ← checkedSub index.stats.vaultSizeBytes size
      return { index with
        attachments := index.attachments.erase path
        attachmentBytes
        stats := { index.stats with totalFiles, vaultSizeBytes } }

/-- What follows the removal of a note. -/
def unlinkNote (path : OsString) (index : VaultIndex) : VaultIndex :=
  let index := { index with
    linkResolver := index.linkResolver.removePath source.text path
    backlinks := index.backlinks.erase path }
  if index.sourceBatch then index else index.rebuildBacklinks source

/-- Remove all contributions for a deleted file. -/
def removeFile (path : OsString) (index : VaultIndex) : Option VaultIndex := do
  let path := logicalSeparators path
  let index := { index with sourceRevisions := index.sourceRevisions.erase path }
  let index ← index.untrackWatchPath source path
  let index := { index with waitingForLexical := index.waitingForLexical.erase path }
  let index ← index.dropExcluded path
  let index ← index.dropAttachment path
  let (index, old) ← index.removeNoteContributions source path
  return if old.isSome then index.unlinkNote source path else index

/-! ## Replacement -/

/-- The attachment at a path gives way to a note. -/
def takeAttachment (path : OsString) (index : VaultIndex) : Option VaultIndex :=
  match index.attachments.lookup path with
  | none => some index
  | some size =>
      (checkedSub index.attachmentBytes size).map fun attachmentBytes =>
        { index with attachments := index.attachments.erase path, attachmentBytes }

def addTags (path : OsString) (noteTags : List Text) (tags : Inverse Text OsString) :
    Inverse Text OsString :=
  (noteTags.map source.text.toLowercase).foldl (Inverse.add path) tags

/-- The totals after a note has taken its place. -/
def storeNote (path : OsString) (metadata : NoteMetadata) (totalBytes : ℕ) (index : VaultIndex) :
    VaultIndex :=
  let tags := addTags source path metadata.tags index.tags
  let notes := index.notes.insert path metadata
  { index with
    notes, tags,
    stats := {
      totalNotes := Table.len notes
      totalFiles := Table.len notes + index.attachments.len
      totalTags := Table.len tags
      totalLinks := index.stats.totalLinks + metadata.links.length
      vaultSizeBytes := totalBytes
      excludedNotes := index.excludedNotePaths.card } }

/-- The graph after a note has taken its place. -/
def linkNote (path : OsString) (old : Option NoteMetadata) (wasExisting : Bool)
    (index : VaultIndex) : VaultIndex :=
  let index := if wasExisting then index
    else { index with linkResolver := index.linkResolver.addPath source.text path }
  if index.sourceBatch then index
  else if wasExisting then
    index.updateBacklinksForFile source path (old.map NoteMetadata.links)
  else index.rebuildBacklinks source

def replaceNote (path : OsString) (metadata : NoteMetadata) (totalBytes : ℕ)
    (index : VaultIndex) : Option VaultIndex := do
  let index := { index with waitingForLexical := index.waitingForLexical.erase path }
  let wasExisting := (index.notes.lookup path).isSome
  let index := if index.tracks path then index else index.trackWatchPath source path
  let index := { index with excludedNotePaths := index.excludedNotePaths.erase path }
  let index ← index.takeAttachment path
  let (index, old) ← index.removeNoteContributions source path
  return (index.storeNote source path metadata totalBytes).linkNote source path old wasExisting

/-! ## Observations -/

/-- Track a markdown file that is excluded from the index. -/
def addExcludedFile (path : OsString) (index : VaultIndex) : Option VaultIndex :=
  let path := logicalSeparators path
  if path ∈ index.excludedNotePaths then some index
  else
    (index.removeFile source path).map fun index =>
      if isVisiblePath path && isMarkdown path then
        let index := index.trackWatchPath source path
        { index with
          excludedNotePaths := insert path index.excludedNotePaths
          stats := { index.stats with excludedNotes := index.stats.excludedNotes + 1 } }
      else index

def observeAttachment (path : OsString) (stat : FileStat) (index : VaultIndex) :
    Option (VaultIndex × Except VaultError (Option Text)) :=
  if index.attachments.lookup path = some stat.size then some (index, .ok none)
  else
    match index.observedByteTotals source path stat.size true with
    | .error error => some (index, .error error)
    | .ok (total, attachmentBytes) =>
        (index.removeFile source path).map fun index =>
          let index := index.trackWatchPath source path
          ({ index with
            attachments := index.attachments.insert path stat.size
            attachmentBytes
            stats := { index.stats with
              totalFiles := index.stats.totalFiles + 1
              vaultSizeBytes := total } }, .ok none)

def observeNote (path : OsString) (content : Text) (stat : FileStat) (index : VaultIndex) :
    Option (VaultIndex × Except VaultError (Option Text)) :=
  match parseNoteMetadata source path content stat with
  | .error error => some (index, .error error)
  | .ok note =>
      match index.observedByteTotals source path note.stat.size false with
      | .error error => some (index, .error error)
      | .ok (total, _) =>
          (index.replaceNote source path note total).map fun index =>
            ({ index with
              sourceRevisions := index.sourceRevisions.insert path (source.sourceRevision content) },
              .ok (some content))

def updateObservation (exclude : ExcludeSet) (path : OsString) (content : Option Text)
    (stat : FileStat) (index : VaultIndex) :
    Option (VaultIndex × Except VaultError (Option Text)) :=
  if !isVisiblePath path then (index.removeFile source path).map (·, .ok none)
  else
    match classify path exclude with
    | .note =>
        match content with
        | none =>
            some (index, .error (.other ("missing content for observed note: ".toList ++
              source.text.toStringLossy path)))
        | some content =>
            if !exclude.allowsSource path content then
              (index.addExcludedFile source path).map (·, .ok none)
            else index.observeNote source path content stat
    | .excluded => (index.addExcludedFile source path).map (·, .ok none)
    | .attachment => index.observeAttachment source path stat

/-- The lexical index, as one call finds it. -/
structure Lexical where
  replaceDocument : OsString → NoteMetadata → Text → Except VaultError ℕ
  removeFileBatch : OsString → Except VaultError Unit

def isResourceLimit : VaultError → Bool
  | .storage _ _ .resourceLimit _ _ => true
  | _ => false

/-- What lexical search makes of a finished update. -/
inductive LexicalStep where
  | unchanged
  | replaced (stamp : ℕ)
  | removed
  | failed (error : VaultError)

/-- A path without content leaves lexical search if it was a note. -/
def lexicalRemoval (path : OsString) (wasNote : Bool) (lexical : Lexical) : LexicalStep :=
  if wasNote then
    match lexical.removeFileBatch path with
    | .ok _ => .removed
    | .error error => .failed error
  else .unchanged

def lexicalStep (path : OsString) (wasNote : Bool) (content : Option Text)
    (lexical : Option Lexical) (index : VaultIndex) : LexicalStep :=
  match lexical with
  | none => .unchanged
  | some lexical =>
      match content, index.notes.lookup path with
      | some content, some metadata =>
          match lexical.replaceDocument path metadata content with
          | .ok stamp => .replaced stamp
          | .error error => .failed error
      | _, _ => lexicalRemoval path wasNote lexical

/-- Bring lexical search up to date after an update that was not refused for its size. -/
def finishLexical (path : OsString) (wasNote : Bool) (update : Except VaultError (Option Text))
    (lexical : Option Lexical) (embeddingsEnabled : Bool) (index : VaultIndex) :
    Option (VaultIndex × Except VaultError Bool) :=
  let content := update.toOption.join
  let outcome : Bool → Except VaultError Bool := fun dirty => update.map fun _ => dirty
  match index.lexicalStep path wasNote content lexical with
  | .unchanged => some (index, outcome false)
  | .removed => some (index, outcome true)
  | .replaced stamp =>
      let waiting := if embeddingsEnabled then index.waitingForLexical.insert path stamp
        else index.waitingForLexical
      some ({ index with waitingForLexical := waiting }, outcome true)
  | .failed cleanup =>
      (index.removeFile source path).map fun index =>
        (index, .error (match update with
          | .ok _ => cleanup
          | .error error =>
              .other (error.display ++ "; synchronizing search for ".toList ++
                source.text.toStringLossy path ++ " also failed: ".toList ++ cleanup.display)))

def finishRefresh (path : OsString) (wasNote : Bool)
    (update : VaultIndex × Except VaultError (Option Text)) (lexical : Option Lexical)
    (embeddingsEnabled : Bool) : Option (VaultIndex × Except VaultError Bool) :=
  match update with
  | (index, .error error) =>
      if isResourceLimit error then
        some ({ index with sourceRevisions := index.sourceRevisions.erase path }, .error error)
      else
        (index.removeFile source path).bind
          (finishLexical source path wasNote (.error error) lexical embeddingsEnabled)
  | (index, .ok content) =>
      finishLexical source path wasNote (.ok content) lexical embeddingsEnabled index

/-- Apply one complete source observation to metadata and lexical search. -/
def applyObservation (exclude : ExcludeSet) (path : OsString) (content : Option Text)
    (stat : FileStat) (lexical : Option Lexical) (embeddingsEnabled : Bool) (index : VaultIndex) :
    Option (VaultIndex × Except VaultError Bool) :=
  (index.updateObservation source exclude path content stat).bind fun update =>
    finishRefresh source path (index.notes.lookup path).isSome update lexical embeddingsEnabled

/-- Refresh a stat-only observation whose raw source still matches. -/
def refreshUnchangedNote (path : OsString) (revision : Text) (stat : FileStat)
    (index : VaultIndex) : VaultIndex × Except VaultError Bool :=
  match index.notes.lookup path with
  | none => (index, .ok false)
  | some note =>
      if index.sourceRevisions.lookup path ≠ some revision then (index, .ok false)
      else
        match index.observedByteTotals source path stat.size false with
        | .error error =>
            ({ index with sourceRevisions := index.sourceRevisions.erase path }, .error error)
        | .ok (total, _) =>
            ({ index with
              notes := index.notes.insert path { note with stat := stat }
              stats := { index.stats with vaultSizeBytes := total } }, .ok true)

def removeProjection (path : OsString) (lexical : Option Lexical) (index : VaultIndex) :
    Option (VaultIndex × Except VaultError Bool) :=
  (index.removeFile source path).map fun removed =>
    (removed,
      if (index.notes.lookup path).isSome then
        match lexical with
        | none => .ok false
        | some lexical => (lexical.removeFileBatch path).map fun _ => true
      else .ok false)

/-- Defer graph reconstruction while a source catalog is loading. -/
def beginSourceBatch (index : VaultIndex) : VaultIndex :=
  { index with sourceBatch := true }

/-- Complete the graph of a loaded catalog. -/
def finishSourceBatch (index : VaultIndex) : VaultIndex :=
  if index.sourceBatch then
    rebuildBacklinks source { index with sourceBatch := false }
  else index

/-! ## Cold build -/

/-- A regular file as the walk over a vault finds it, with what reading it gives. -/
structure VaultFile where
  path : OsString
  content : Except VaultError Text
  stat : FileStat

def readIndexedNote (file : VaultFile) : Except VaultError (NoteMetadata × Text) := do
  let content ← file.content
  let metadata ← parseNoteMetadata source file.path content file.stat
  return (metadata, content)

/-- Take up one file: the bytes observed so far and the index. -/
def buildFile (exclude : ExcludeSet) (indexContent : NoteMetadata → Text → Except VaultError Unit)
    (state : ℕ × VaultIndex) (file : VaultFile) : Except VaultError (ℕ × VaultIndex) :=
  let (observedBytes, index) := state
  let excluded := { index with
    excludedNotePaths := insert file.path index.excludedNotePaths }
  match classify file.path exclude with
  | .excluded => .ok (observedBytes, excluded)
  | .attachment =>
      match checkedAdd observedBytes file.stat.size,
        checkedAdd index.attachmentBytes file.stat.size with
      | some observedBytes, some attachmentBytes =>
          .ok (observedBytes, { index with
            attachments := index.attachments.insert file.path file.stat.size
            attachmentBytes })
      | _, _ => .error (inventorySizeError source file.path)
  | .note =>
      match readIndexedNote source file with
      | .error _ => .ok state
      | .ok (metadata, content) =>
          if !exclude.allowsSource file.path content then .ok (observedBytes, excluded)
          else
            match checkedAdd observedBytes metadata.stat.size with
            | none => .error (inventorySizeError source file.path)
            | some observedBytes => do
                indexContent metadata content
                return (observedBytes, { index with
                  tags := addTags source file.path metadata.tags index.tags
                  sourceRevisions :=
                    index.sourceRevisions.insert file.path (source.sourceRevision content)
                  notes := index.notes.insert file.path metadata })

/-- The graph and the totals of a walk. -/
def finishBuild (index : VaultIndex) : VaultIndex :=
  let notePaths := index.notes.toPairs.map fun (_, note) => note.path
  let index := { index with linkResolver := LinkResolver.build source.text notePaths }
  let index := index.rebuildBacklinks source
  { index with stats := index.recomputeStats }

/-- Build an index from the files of a vault, in the order of the walk. -/
def buildSync (exclude : ExcludeSet) (indexContent : NoteMetadata → Text → Except VaultError Unit)
    (files : List VaultFile) : Except VaultError VaultIndex :=
  (files.foldlM (buildFile source exclude indexContent) (0, empty)).map fun state =>
    state.2.finishBuild source

end VaultIndex

end ObsidianMcp
