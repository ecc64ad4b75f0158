import ObsidianMcp.Model.Filesystem

/-! # Watcher events

An event names a path. What became of it is found out on disk. -/

namespace ObsidianMcp

open Text

variable (source : NoteSource)

/-! ## Watched spellings -/

/-- Whole leading names of a folded path. -/
def startsWithKey (key base : Text) : Bool :=
  base.isEmpty || (base.splitOn '/').isPrefixOf (key.splitOn '/')

namespace WatchPaths

/-- The order of the spellings: by their folded names, then by their own. -/
def keyOrder (key : Text × OsString) : List (List ℕ) ×ₗ List (List ℕ) :=
  toLex ((key.1.splitOn '/').map fun name => name.map Char.toNat, pathOrder key.2)

/-- The native spellings of a path, or of it and everything below it. -/
def pathsMatching (path : OsString) (descendants : Bool) (watch : WatchPaths) : List OsString :=
  let folded := foldedPath source path
  ((watch.keys.mergeSort fun a b => keyOrder a ≤ keyOrder b).filter fun key =>
    if descendants then startsWithKey key.1 folded else key.1 = folded).map Prod.snd

end WatchPaths

namespace VaultIndex

/-- The watched paths are listed at their first use. -/
def initWatchPaths (index : VaultIndex) : VaultIndex :=
  match index.watchPaths with
  | some _ => index
  | none =>
      let tracked := index.notes.keys ++ sortedPaths index.excludedNotePaths ++
        index.attachments.keys
      let watch := tracked.foldl (fun watch path => WatchPaths.insert source path watch) ∅
      { index with watchPaths := some watch }

/-! ## Files -/

variable (exclude : ExcludeSet) (disk : Disk)

/-- Classify a physical filesystem entry and return source only for a live note. -/
def updateFile (path : OsString) (requireExisting : Bool) (index : VaultIndex) :
    Option (VaultIndex × Except VaultError (Option Text)) :=
  if !isVisiblePath path then (index.removeFile source path).map (·, .ok none)
  else
    match disk.entryMetadataExact source path with
    | .ok (.file content stat) =>
        match classify path exclude with
        | .note =>
            match content with
            | .ok content => index.updateObservation source exclude path (some content) stat
            | .error error => some (index, .error error)
        | _ => index.updateObservation source exclude path none ⟨stat.size, none, none⟩
    | .ok _ => (index.removeFile source path).map (·, .ok none)
    | .error error =>
        if !requireExisting && isMissingEntry error then
          (index.removeFile source path).map (·, .ok none)
        else some (index, .error error)

/-- Refresh metadata and lexical search from the same source. -/
def refreshFile (path : OsString) (lexical : Option Lexical) (embeddingsEnabled : Bool)
    (index : VaultIndex) : Option (VaultIndex × Except VaultError Bool) :=
  (index.updateFile source exclude disk path false).bind fun update =>
    finishRefresh source path (index.notes.lookup path).isSome update lexical embeddingsEnabled

end VaultIndex

/-! ## Changed paths -/

inductive Change where
  | refresh
  | remove
  deriving DecidableEq

abbrev Changes := Table OsString Change

variable (disk : Disk)

/-- A path and the folders above it, from the top. -/
def spellings (path : OsString) : List OsString :=
  (pathPrefixes path).reverse

/-- A backend can report only the new spelling of a renamed file or directory. -/
def previousSpelling (watch : WatchPaths) (actual : OsString) : Option (OsString × OsString) :=
  (spellings actual).findSome? fun current =>
    ((watch.pathsMatching source current false).find? fun previous =>
      previous ≠ current && parentPath previous = parentPath current &&
        (disk.resolveExisting source previous).toOption = some current).map (·, current)

/-- The metadata of a file or folder; `none` for other entries and for missing ones. -/
def eventMetadata (relative : OsString) : Except VaultError (Option DiskEntry) :=
  match disk.entryMetadataExact source relative with
  | .ok (.file content stat) => .ok (some (.file content stat))
  | .ok .folder => .ok (some .folder)
  | .ok _ => .ok none
  | .error error => if skipChangedEntry error then .ok none else .error error

/-- The physical spelling of a path with metadata. -/
def actualPath (relative : OsString) (metadata : Option DiskEntry) :
    Except VaultError (Option OsString) :=
  match metadata with
  | none => .ok none
  | some _ => if relative = [] then .ok (some []) else
      (disk.resolveExisting source relative).map some

/-- The tracked paths at or below a prefix are removed. -/
def removeTracked (index : VaultIndex) (watch : WatchPaths) (changes : Changes)
    (base : OsString) : Changes :=
  (watch.pathsMatching source base true).foldl (fun changes tracked =>
    if startsWith tracked base && index.tracks tracked then changes.insert tracked .remove
    else changes) changes

/-- The visible files at or below an existing path are refreshed. -/
def refreshExisting (actual : OsString) (metadata : DiskEntry) (changes : Changes) :
    Except VaultError Changes :=
  match metadata with
  | .folder => (disk.visitFiles source actual).map fun files =>
      files.foldl (fun changes path => changes.insert path .refresh) changes
  | _ => .ok (changes.insert actual .refresh)

/-- Reconcile a path with the disk: what is tracked there goes, what is found there comes. -/
def reconcilePaths (index : VaultIndex) (watch : WatchPaths) (relative : OsString)
    (actual : Option OsString) (metadata : Option DiskEntry) : Except VaultError Changes :=
  let bases := relative :: (actual.filter fun path => path ≠ relative).toList
  let removed := bases.foldl (removeTracked source index watch) ∅
  match metadata, actual with
  | some metadata, some actual => refreshExisting source disk actual metadata removed
  | _, _ => .ok removed

/-- The paths that are not tracked as they are, after the watched paths have been listed. -/
def eventChanges (index : VaultIndex) (watch : WatchPaths) (relative : OsString)
    (actual : Option OsString) (metadata : Option DiskEntry) : Except VaultError Changes :=
  match (actual.filter fun path => path ≠ [] && path = relative).bind
    (previousSpelling source disk watch) with
  | some (previous, current) => do
      let metadata ← disk.entryMetadataExact source current
      reconcilePaths source disk index watch previous (some current) (some metadata)
  | none => reconcilePaths source disk index watch relative actual metadata

def eventPaths (relative : OsString) (index : VaultIndex) :
    VaultIndex × Except VaultError Changes :=
  match eventMetadata source disk relative with
  | .error error => (index, .error error)
  | .ok metadata =>
      match actualPath source disk relative metadata with
      | .error error => (index, .error error)
      | .ok actual =>
          if metadata.any DiskEntry.isFile && actual = some relative && index.tracks relative then
            (index, .ok (AList.insert relative .refresh ∅))
          else
            let index := index.initWatchPaths source
            (index, eventChanges source disk index (index.watchPaths.getD ∅) relative actual
              metadata)

/-! ## Staging -/

variable (exclude : ExcludeSet)

/-- Known descendants are looked at again if a path could not be reconciled. -/
def trackedChanges (relative : OsString) (index : VaultIndex) : Changes :=
  ((sortedPaths index.trackedPaths).filter fun path => startsWith path relative).foldl
    (fun changes path => changes.insert path .refresh) ∅

def stageChange (lexical : Option VaultIndex.Lexical) (embeddingsEnabled : Bool) (changes : Changes)
    (state : VaultIndex × Bool) (path : OsString) : Option (VaultIndex × Bool) :=
  let (index, dirty) := state
  let wasNote := (index.notes.lookup path).isSome
  let result := match changes.lookup path with
    | some .refresh => index.refreshFile source exclude disk path lexical embeddingsEnabled
    | some .remove => index.removeProjection source path lexical
    | none => some (index, .ok false)
  result.map fun (index, result) =>
    (index, dirty || match result with
      | .ok changed => changed
      | .error _ => lexical.isSome && wasNote)

/-- Bring the index up to date with the disk for one event on a path below the vault. -/
def stageEvent (lexical : Option VaultIndex.Lexical) (embeddingsEnabled : Bool)
    (relative : OsString) (index : VaultIndex) : Option (VaultIndex × Bool) :=
  if !isVisiblePath relative then some (index, false)
  else
    let (index, paths) := eventPaths source disk relative index
    let changes := match paths with
      | .ok changes => changes
      | .error _ => trackedChanges relative index
    (sortedPaths changes.keys.toFinset).foldlM
      (stageChange source disk exclude lexical embeddingsEnabled changes) (index, false)

end ObsidianMcp
