import ObsidianMcp.Library.Components
import ObsidianMcp.Model.LinkResolver

/-! # Native spellings of vault paths -/

namespace ObsidianMcp

open Text

/-- A single name from directory enumeration. -/
def VaultPath.entry (name : Text) : Except VaultError VaultPath :=
  if name = [] ∨ name = ['.'] ∨ name = ['.', '.'] ∨ '/' ∈ name ∨ '\\' ∈ name ∨
      name.any isControl then
    .error (.invalidPath "unrepresentable vault directory entry".toList)
  else .ok ⟨name⟩

/-- The names left after one component of a path. -/
def pushComponent (path : Text) (names : List Text) :
    Unix.Component Char → Except VaultError (List Text)
  | .normal name => .ok (names ++ [name])
  | .curDir => .ok names
  | .parentDir => if names = [] then .error (.outsideVault path) else .ok names.dropLast
  | .rootDir => .error (.invalidPath ("absolute paths not allowed: ".toList ++ path))

/-- The walk of `normalizeRelative` over the components of the path. -/
def normalizeComponents (path : OsString) : Except VaultError OsString :=
  match path.toStr with
  | none => .error (.invalidPath "vault-relative paths must be UTF-8".toList)
  | some text =>
      ((Unix.components '/' '.' (portableSeparators text)).foldlM (pushComponent text) []).map
        fun names => utf8Bytes (List.intercalate ['/'] names)

/-- One path behind another. -/
def pathJoin (parent child : Text) : Text :=
  if child.head? = some '/' then child
  else if parent = [] ∨ parent.getLast? = some '/' then parent ++ child
  else parent ++ '/' :: child

end ObsidianMcp
