import ObsidianMcp.Library.Utf8
import ObsidianMcp.Model.Error

/-! # Vault-relative paths -/

namespace ObsidianMcp

open Text

/-- A native path spelling: any bytes. -/
abbrev OsString := List UInt8

/-- The text of a path, if it is UTF-8. -/
def OsString.toStr (path : OsString) : Option Text :=
  fromUtf8 path

/-- The Unicode control characters. -/
def isControl (c : Char) : Bool :=
  c.toNat < 0x20 || (0x7F ≤ c.toNat && c.toNat < 0xA0)

/-- A logical key in a vault namespace. -/
structure VaultPath where
  asStr : Text
  deriving DecidableEq

/-- The names left after one component; `none` when it climbs above the root. -/
def VaultPath.pushName (names : List Text) (name : Text) : Option (List Text) :=
  if name = [] ∨ name = ['.'] then some names
  else if name = ['.', '.'] then
    if names = [] then none else some names.dropLast
  else some (names ++ [name])

def VaultPath.parse (value : Text) : Except VaultError VaultPath :=
  if value.head? = some '/' ∨ value.head? = some '\\' ∨ value.any isControl then
    .error (.invalidPath "expected a vault-relative UTF-8 path".toList)
  else
    let spelling := value.map fun c => if c = '\\' then '/' else c
    match (spelling.splitOn '/').foldlM VaultPath.pushName [] with
    | none => .error (.outsideVault value)
    | some names => .ok ⟨List.intercalate ['/'] names⟩

/-- The vault-relative spelling of a native path. -/
def normalizeRelative (path : OsString) : Except VaultError OsString :=
  match path.toStr with
  | none => .error (.invalidPath "vault-relative paths must be UTF-8".toList)
  | some text =>
      let portable := text.map fun c => if c = '\\' then '/' else c
      if portable.head? = some '/' then
        .error (.invalidPath ("absolute paths not allowed: ".toList ++ text))
      else
        match (portable.splitOn '/').foldlM VaultPath.pushName [] with
        | none => .error (.outsideVault text)
        | some names => .ok (utf8Bytes (List.intercalate ['/'] names))

def normalizeIntentPath (path : OsString) (remote : Bool) : Except VaultError OsString :=
  if !remote then normalizeRelative path
  else
    match path.toStr with
    | none => .error (.invalidPath "vault-relative paths must be UTF-8".toList)
    | some text => (VaultPath.parse text).map fun path => utf8Bytes path.asStr

end ObsidianMcp
