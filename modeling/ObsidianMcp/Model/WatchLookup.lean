import ObsidianMcp.Library.Components
import ObsidianMcp.Model.Watcher

/-! # Lookup of watched paths

The watched spellings are an ordered map. Its keys are pairs of paths, and paths are compared
component by component. -/

namespace ObsidianMcp

open Text

/-- The order of components: the root, the current and the parent directory, then the names by
their bytes. -/
def componentRank {α : Type*} (bytes : List α → List UInt8) : Unix.Component α → List ℕ
  | .rootDir => [0]
  | .curDir => [1]
  | .parentDir => [2]
  | .normal name => 3 :: (bytes name).map UInt8.toNat

def foldedComponents (folded : Text) : List (Unix.Component Char) :=
  Unix.components '/' '.' folded

def foldedOrder (folded : Text) : List (List ℕ) :=
  (foldedComponents folded).map (componentRank utf8Bytes)

def nativeOrder (path : OsString) : List (List ℕ) :=
  (Unix.components 0x2F 0x2E path).map (componentRank id)

namespace WatchPaths

def spellingOrder (key : Text × OsString) : List (List ℕ) ×ₗ List (List ℕ) :=
  toLex (foldedOrder key.1, nativeOrder key.2)

/-- The keys of the map in their order. -/
def spellings (watch : WatchPaths) : List (Text × OsString) :=
  watch.keys.mergeSort fun a b => spellingOrder a ≤ spellingOrder b

/-- Scan the spellings from the folded path on, until they are no longer those of the path, or of
the path and everything below it. -/
def matching (source : NoteSource) (path : OsString) (descendants : Bool) (watch : WatchPaths) :
    List OsString :=
  let folded := foldedPath source path
  ((watch.spellings.filter fun key =>
    toLex (foldedOrder folded, nativeOrder []) ≤ spellingOrder key).takeWhile fun key =>
      if descendants then (foldedComponents folded).isPrefixOf (foldedComponents key.1)
      else foldedComponents key.1 = foldedComponents folded).map Prod.snd

end WatchPaths

/-- The spellings of some paths, listed one after the other. -/
def listWatchPaths (source : NoteSource) (paths : List OsString) : WatchPaths :=
  paths.foldl (fun watch path => WatchPaths.insert source path watch) ∅

end ObsidianMcp
