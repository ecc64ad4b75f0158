import ObsidianMcp.Model.VaultIndex

/-! # The vault on disk

The file system keeps names apart by their bytes. An entry carries what opening it gives. -/

namespace ObsidianMcp

open Text

/-! ## Native paths -/

inductive Component where
  | rootDir
  | curDir
  | parentDir
  | normal (name : OsString)
  deriving DecidableEq

def curDirName : OsString := [0x2E]

def parentDirName : OsString := [0x2E, 0x2E]

/-- The components of a path. A current directory counts only at the start. -/
def components (path : OsString) : List Component :=
  let start :=
    if path.head? = some 0x2F then [.rootDir]
    else if (pathNames path).head? = some curDirName then [.curDir]
    else []
  start ++ (pathNames path).filterMap fun name =>
    if name = [] ∨ name = curDirName then none
    else if name = parentDirName then some .parentDir
    else some (.normal name)

/-- The names of a physical path; the vault itself has none. -/
def nativeNames (path : OsString) : List OsString :=
  (pathNames path).filter fun name => !name.isEmpty

def parentPath (path : OsString) : OsString :=
  joinNames (nativeNames path).dropLast

def fileName (path : OsString) : OsString :=
  (nativeNames path).getLast?.getD []

def joinPath (base name : OsString) : OsString :=
  if base = [] then name else base ++ 0x2F :: name

/-- A path is a prefix or below it. -/
def startsWith (path base : OsString) : Bool :=
  (nativeNames base).isPrefixOf (nativeNames path)

/-- Paths are ordered name by name, and names by their bytes. -/
def pathOrder (path : OsString) : List (List ℕ) :=
  (pathNames path).map fun name => name.map UInt8.toNat

/-- A path comes before another or is the same. -/
def PathLe (a b : OsString) : Prop :=
  pathOrder a ≤ pathOrder b

instance : DecidableRel PathLe :=
  fun a b => inferInstanceAs (Decidable (pathOrder a ≤ pathOrder b))

theorem pathOrder_injective : Function.Injective pathOrder := by
  intro a b h
  have hnames : pathNames a = pathNames b := by
    apply List.map_injective_iff.mpr _ h
    exact List.map_injective_iff.mpr fun x y hxy => UInt8.toNat_inj.mp hxy
  have hjoin := congrArg (List.intercalate [0x2F]) hnames
  rwa [pathNames, pathNames, List.intercalate_splitOn, List.intercalate_splitOn] at hjoin

instance : IsTrans OsString PathLe := ⟨fun _ _ _ => le_trans⟩

instance : Std.Antisymm PathLe := ⟨fun _ _ h h' => pathOrder_injective (le_antisymm h h')⟩

instance : Std.Total PathLe := ⟨fun a b => le_total (pathOrder a) (pathOrder b)⟩

/-- The paths of a set in their order. -/
def sortedPaths (paths : Finset OsString) : List OsString :=
  paths.sort PathLe

variable (source : NoteSource)

def portableName (path : OsString) : Component → Except VaultError OsString
  | .normal name =>
      if name.toStr.any fun text => '\\' ∉ text then .ok name
      else .error (.invalidPath ("unrepresentable vault filename: ".toList ++
        source.text.toStringLossy name))
  | _ => .error (.invalidPath ("expected a physical vault-relative path: ".toList ++
      source.text.toStringLossy path))

/-- Keep the exact disk identity when serializing a native relative name. -/
def portableNative (path : OsString) : Except VaultError OsString :=
  ((components path).mapM (portableName source path)).map joinNames

/-! ## Errors -/

def isMissingEntry (error : VaultError) : Bool :=
  error.isNotFound ||
    match error with
    | .io error => error.kind = .notADirectory
    | _ => false

/-- Only for no-follow opens or stats of a previously validated native name. -/
def skipChangedEntry (error : VaultError) : Bool :=
  match error with
  | .invalidPath _ => true
  | error => isMissingEntry error

def notADirectory : VaultError :=
  .io ⟨.notADirectory, some 20, "Not a directory (os error 20)".toList⟩

/-! ## Entries -/

/-- An entry of a folder. A link carries the vault path its target is found at, if there is one. -/
inductive DiskEntry where
  | file (content : Except VaultError Text) (stat : FileStat)
  | folder
  | link (target : Except VaultError (Option OsString))
  | special

def DiskEntry.isFile : DiskEntry → Bool
  | file _ _ => true
  | _ => false

def DiskEntry.isLink : DiskEntry → Bool
  | link _ => true
  | _ => false

/-- The entries below the vault by their paths, each in a folder. -/
structure Disk where
  entries : Table OsString DiskEntry
  named : ∀ path, (entries.lookup path).isSome → ∀ name ∈ pathNames path,
    name ≠ [] ∧ name ≠ curDirName ∧ name ≠ parentDirName
  inFolder : ∀ path, (entries.lookup path).isSome → parentPath path ≠ [] →
    entries.lookup (parentPath path) = some .folder

namespace Disk

variable (disk : Disk)

/-- The names of the entries of a folder. -/
def children (base : OsString) : List OsString :=
  disk.entries.keys.filterMap fun path =>
    if parentPath path = base then some (fileName path) else none

/-- Open one folder of a folder, never a link. -/
def openChildDir (path relative : OsString) : Except VaultError Unit :=
  match disk.entries.lookup path with
  | some .folder => .ok ()
  | some (.link _) => .error (.invalidPath ("unexpected symlink in physical path: ".toList ++
      source.text.toStringLossy relative))
  | some _ => .error notADirectory
  | none => .error (.noteNotFound (source.text.toStringLossy relative))

/-- Open the folders along a list of names. -/
def openNames (relative : OsString) : OsString → List OsString → Except VaultError OsString
  | dir, [] => .ok dir
  | dir, name :: names => do
      disk.openChildDir source (joinPath dir name) relative
      openNames relative (joinPath dir name) names

/-- Open a physical directory: each folder on the way must be an entry, never a link. -/
def openDirExact (relative : OsString) : Except VaultError OsString := do
  let exact ← portableNative source relative
  disk.openNames source relative [] (nativeNames exact)

/-- No-follow metadata of an exact entry. -/
def entryMetadataExact (relative : OsString) : Except VaultError DiskEntry :=
  if relative = [] then .ok .folder
  else do
    let _ ← portableNative source relative
    let dir ← disk.openDirExact source (parentPath relative)
    match disk.entries.lookup (joinPath dir (fileName relative)) with
    | some entry => return entry
    | none => .error (.noteNotFound (source.text.toStringLossy relative))

/-- The visible regular file at a path. -/
def fileAt (path : OsString) : Option VaultIndex.VaultFile :=
  match disk.entries.lookup path with
  | some (.file content stat) => if isVisiblePath path then some ⟨path, content, stat⟩ else none
  | _ => none

/-! ## Resolution -/

/-- The entry that a name stands for: its own spelling, else the only one with its canonical
form. -/
def lookupComponent (dir requested : OsString) :
    Except VaultError (Option (OsString × DiskEntry)) :=
  match requested.toStr with
  | none => .error (.invalidPath "vault paths must be UTF-8".toList)
  | some text =>
      match disk.entries.lookup (joinPath dir requested) with
      | some entry => .ok (some (requested, entry))
      | none =>
          let equivalent := (disk.children dir).filter fun name =>
            name.toStr.any fun name => source.text.nfc name = source.text.nfc text
          match equivalent with
          | [] => .ok none
          | [name] => .ok ((disk.entries.lookup (joinPath dir name)).map (name, ·))
          | _ => .error (.invalidPath ("ambiguous vault filename: ".toList ++ text))

/-- Resolve the names that are left, from a physical folder on. -/
def resolveNames (relative : OsString) : OsString → List OsString → Except VaultError OsString
  | physical, [] => portableNative source physical
  | physical, requested :: parts => do
      match ← disk.lookupComponent source physical requested with
      | none => .error (.noteNotFound (source.text.toStringLossy relative))
      | some (_, .link target) =>
          match ← target with
          | none => .error (.invalidPath ("dangling vault link: ".toList ++
              source.text.toStringLossy relative))
          | some target =>
              if !parts.isEmpty then
                let _ ← disk.openDirExact source target
              resolveNames relative target parts
      | some (name, _) =>
          if !parts.isEmpty then
            disk.openChildDir source (joinPath physical name) (joinPath physical name)
          resolveNames relative (joinPath physical name) parts

/-- Resolve user aliases to physical vault keys. -/
def resolveExisting (relative : OsString) : Except VaultError OsString := do
  let normalized ← normalizeRelative relative
  disk.resolveNames source relative [] (nativeNames normalized)

/-! ## Walks -/

/-- The number of names on the longest path. -/
def depth : ℕ :=
  (disk.entries.keys.map fun path => (pathNames path).length).foldr max 0

/-- What a walk finds at one entry, with what it finds below a folder. -/
def visitEntry (below : OsString → List OsString) (base name : OsString) : List OsString :=
  if !isVisiblePath name then []
  else
    match portableNative source (joinPath base name) with
    | .error _ => []
    | .ok path =>
        match disk.entries.lookup path with
        | some (.file _ _) => [path]
        | some .folder => below path
        | _ => []

/-- The visible regular files below a folder, a given number of folders deep. -/
def walk : ℕ → OsString → List OsString
  | 0, _ => []
  | depth + 1, base => (disk.children base).flatMap (disk.visitEntry source (walk depth) base)

/-- Visit the files below a folder without following links. -/
def visitFiles (directory : OsString) : Except VaultError (List OsString) := do
  let base ← disk.openDirExact source directory
  return disk.walk source disk.depth base

/-- The files that a cold build finds. -/
def files : List VaultIndex.VaultFile :=
  (disk.walk source disk.depth []).filterMap disk.fileAt

end Disk

end ObsidianMcp
