import ObsidianMcp.Library.Cursor
import ObsidianMcp.Model.LinkResolver
import ObsidianMcp.Model.Source
import ObsidianMcp.Model.VaultIndex

/-! # Path exclusion

Glob expressions and SHA-256 are parameters. The set of accepted patterns is a list; it is sorted
when it is taken out. -/

namespace ObsidianMcp.Exclude

open Text

/-- The glob library: a set matches when one of its globs does. -/
structure GlobLibrary where
  Glob : Type
  GlobSet : Type
  newGlob : Text → Except Text Glob
  buildSet : List Glob → Except Text GlobSet
  globMatch : Glob → OsString → Bool
  isMatch : GlobSet → OsString → Bool
  isMatch_eq : ∀ globs set, buildSet globs = .ok set →
    ∀ path, isMatch set path = globs.any fun glob => globMatch glob path

/-- Compiled set of glob patterns for excluding vault paths from indexing. -/
structure ExcludeSet (globs : GlobLibrary) where
  set : globs.GlobSet
  patterns : List Text
  privateMemory : Bool

/-- A folder stands for all that is in it. -/
def expandFolder (trimmed : Text) : Text :=
  match stripSuffix ['/'] trimmed with
  | some front => front ++ "/**".toList
  | none => trimmed

/-- The pattern of a rule, if it is not blank. -/
def normalizeRule (raw : Text) : Option Text :=
  if trim raw = [] then none else some (expandFolder (trim raw))

section

variable (globs : GlobLibrary)

/-- The accepted patterns and their globs. -/
abbrev Accepted : Type := List Text × List globs.Glob

/-- One step of the loop over the rules of some sources. -/
def acceptRule (accepted : Accepted globs) (entry : Text × ℕ × Text) :
    Except VaultError (Accepted globs) :=
  match normalizeRule entry.2.2 with
  | none => .ok accepted
  | some normalized =>
      if normalized ∈ accepted.1 then .ok accepted
      else
        match globs.newGlob normalized with
        | .error kind =>
            .error (.invalidPath ("invalid exclusion pattern in ".toList ++ entry.1 ++
              " at line ".toList ++ displayNat entry.2.1 ++ ": ".toList ++ kind))
        | .ok glob => .ok (accepted.1 ++ [normalized], accepted.2 ++ [glob])

/-- `privateMemory` tells whether the environment names an authorizer. -/
def fromSources (privateMemory : Bool) (entries : List (Text × ℕ × Text)) :
    Except VaultError (ExcludeSet globs) := do
  let accepted ← entries.foldlM (acceptRule globs) ([], [])
  match globs.buildSet accepted.2 with
  | .error error => .error (.other ("compile exclusion policy: ".toList ++ error))
  | .ok set => .ok ⟨set, accepted.1.mergeSort fun a b => a ≤ b, privateMemory⟩

/-- Compile a complete policy. -/
def build (privateMemory : Bool) (patterns : List Text) : Except VaultError (ExcludeSet globs) :=
  fromSources globs privateMemory (patterns.zipIdx.map fun entry =>
    ("exclusion policy".toList, entry.2 + 1, entry.1))

end

/-! ## Hashes -/

def digestHex (hash : Hash) : Text :=
  hash.toList.flatMap hexPair

/-- Storage identity of a canonical native vault path. -/
def vaultStorageKey (sha256 : List UInt8 → Hash) (canonicalRoot : OsString) : Text :=
  digestHex (sha256 (utf8Bytes "obsidian-mcp/vault-path/v2\x00".toList ++ canonicalRoot))

/-- The bytes of the rules behind the root. -/
def ruleBytes (privateMemory : Bool) (patterns : List Text) : List UInt8 :=
  (if privateMemory then utf8Bytes "private-memory-corpus/v1\x00".toList else []) ++
    patterns.flatMap fun rule => beBytes 8 (byteLen rule) ++ utf8Bytes rule

/-- The bytes that a scope id is the hash of. -/
def scopeBytes (sha256 : List UInt8 → Hash) (canonicalRoot : OsString) (privateMemory : Bool)
    (patterns : List Text) : List UInt8 :=
  utf8Bytes "obsidian-mcp/index-scope/v1\x00".toList ++
    utf8Bytes (vaultStorageKey sha256 canonicalRoot) ++ ruleBytes privateMemory patterns

namespace ExcludeSet

variable {globs : GlobLibrary} (exclude : ExcludeSet globs)

def merged (privateMemory : Bool) (extra : List Text) : Except VaultError (ExcludeSet globs) :=
  build globs privateMemory (exclude.patterns ++ extra)

def scopeId (sha256 : List UInt8 → Hash) (canonicalRoot : OsString) : Text :=
  digestHex (sha256 (scopeBytes sha256 canonicalRoot exclude.privateMemory exclude.patterns))

def isEmpty : Bool :=
  exclude.patterns.isEmpty

/-- Check whether a vault-relative path is excluded. -/
def isExcluded (relativePath : OsString) : Bool :=
  if exclude.isEmpty then false else globs.isMatch exclude.set relativePath

/-- Whether a source may be indexed; private memory asks for the eligible ones. -/
def allowsSource (privateSourceEligible : OsString → Text → Bool) (path : OsString)
    (content : Text) : Bool :=
  !exclude.privateMemory || privateSourceEligible path content

/-- The rules as the vault index uses them. -/
def rules (privateSourceEligible : OsString → Text → Bool) : ObsidianMcp.ExcludeSet where
  isExcluded := exclude.isExcluded
  allowsSource := exclude.allowsSource privateSourceEligible

end ExcludeSet

/-! ## Client restrictions -/

/-- Client restrictions on background document processing. -/
structure IndexScope where
  version : ℕ
  excludePatterns : List Text
  deriving DecidableEq

def IndexScope.new (patterns : List Text) : IndexScope :=
  ⟨1, patterns⟩

end ObsidianMcp.Exclude
