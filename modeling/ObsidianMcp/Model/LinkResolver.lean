import ObsidianMcp.Library.Casing
import ObsidianMcp.Library.Table
import ObsidianMcp.Model.Path

/-! # Wikilink resolution -/

namespace ObsidianMcp

open Text

/-- The character tables and the text that stands for a path that is not UTF-8. -/
structure PathText extends Unicode where
  lossy : OsString → Text

def PathText.toStringLossy (u : PathText) (path : OsString) : Text :=
  path.toStr.getD (u.lossy path)

/-- The last name of a path, if it has one. -/
def logicalFileName (path : OsString) : Option Text :=
  path.toStr.bind fun text =>
    ((text.splitOnP fun c => c = '/' || c = '\\').getLast?).filter fun name => !name.isEmpty

def portableSeparators (text : Text) : Text :=
  text.map fun c => if c = '\\' then '/' else c

def stripSuffix (suffix text : Text) : Option Text :=
  if suffix.isSuffixOf text then some (text.take (text.length - suffix.length)) else none

/-- Normalize to NFC, lowercase, then strip the `.md` suffix (if present). -/
def lookupKeyWithoutMd (u : PathText) (s : Text) : Text :=
  let lower := u.toLowercase (u.nfc s)
  (stripSuffix ".md".toList lower).getD lower

/-- Resolves wikilink targets to file paths: by filename stem and by vault-relative path. -/
structure LinkResolver where
  byStem : Table Text (List OsString)
  byPath : Table Text OsString

namespace LinkResolver

variable (u : PathText)

def normalizeTarget (target : Text) : Text :=
  lookupKeyWithoutMd u (portableSeparators target)

def pathKey (path : OsString) : Text :=
  lookupKeyWithoutMd u (portableSeparators (u.toStringLossy path))

def stemKey (path : OsString) : Text :=
  lookupKeyWithoutMd u ((logicalFileName path).getD [])

def insert (path : OsString) (resolver : LinkResolver) : LinkResolver where
  byPath := resolver.byPath.insert (pathKey u path) path
  byStem := resolver.byStem.insert (stemKey u path)
    ((resolver.byStem.lookup (stemKey u path)).getD [] ++ [path])

def build (notePaths : List OsString) : LinkResolver :=
  notePaths.foldl (fun resolver path => resolver.insert u path) ⟨∅, ∅⟩

/-- The only path of a list. -/
def single : List OsString → Option OsString
  | [path] => some path
  | _ => none

def resolve (target : Text) (resolver : LinkResolver) : Option OsString :=
  let normalized := normalizeTarget u target
  if normalized.isEmpty then none
  else if '/' ∈ normalized then resolver.byPath.lookup normalized
  else (resolver.byStem.lookup normalized).bind single

/-- All candidate paths for a target. -/
def resolveCandidates (target : Text) (resolver : LinkResolver) : List OsString :=
  let normalized := normalizeTarget u target
  if normalized.isEmpty then []
  else if '/' ∈ normalized then (resolver.byPath.lookup normalized).toList
  else (resolver.byStem.lookup normalized).getD []

def isResolved (target : Text) (resolver : LinkResolver) : Bool :=
  (resolver.resolve u target).isSome

def addPath (path : OsString) (resolver : LinkResolver) : LinkResolver :=
  resolver.insert u path

/-- The stem table without one path; a stem without paths has no entry. -/
def removeStem (stem : Text) (path : OsString) (byStem : Table Text (List OsString)) :
    Table Text (List OsString) :=
  match byStem.lookup stem with
  | none => byStem
  | some paths =>
      if (paths.filter fun p => p ≠ path).isEmpty then byStem.erase stem
      else byStem.insert stem (paths.filter fun p => p ≠ path)

def removePath (path : OsString) (resolver : LinkResolver) : LinkResolver where
  byPath := resolver.byPath.erase (pathKey u path)
  byStem := removeStem (stemKey u path) path resolver.byStem

/-- Move a path from `old` to `new` in both maps. -/
def renamePath (old new : OsString) (resolver : LinkResolver) : LinkResolver :=
  (resolver.removePath u old).insert u new

end LinkResolver

end ObsidianMcp
