import ObsidianMcp.Library.Loop
import ObsidianMcp.Model.NoteMetadata

/-! # Bulk reads of notes

The vault answers from a state of its own, so a file may change between two of its answers. -/

namespace ObsidianMcp.NoteReads

open Text

def defaultMaxFiles : ℕ := 20

def maxFilesCap : ℕ := 100

def defaultMaxBytes : ℕ := 64 * 1024

def maxBytesCap : ℕ := 256 * 1024

def maxSkippedDetails : ℕ := 100

structure NoteReadManyParams where
  paths : Option (List Text) := none
  dir : Option Text := none
  recursive : Option Bool := none
  glob : Option Text := none
  maxFiles : Option ℕ := none
  maxBytes : Option ℕ := none

structure NoteReadManyItem where
  path : Text
  content : Text
  deriving DecidableEq

inductive NoteReadManySkipReason where
  | fileLimit
  | byteLimit
  | notFound
  | unreadable
  deriving DecidableEq

structure NoteReadManySkipped where
  path : Text
  reason : NoteReadManySkipReason
  deriving DecidableEq

structure NoteReadManyOutput where
  notes : List NoteReadManyItem
  skipped : List NoteReadManySkipped
  skippedCount : ℕ
  contentBytes : ℕ
  deriving DecidableEq

structure ReadCandidate where
  path : OsString
  displayPath : Text
  deriving DecidableEq

/-- The error of a tool: refused parameters or a failure of the vault. -/
inductive ErrorData where
  | invalidParams (message : Text)
  | vault (error : VaultError)
  deriving DecidableEq

/-- A file that a read batch has resolved. -/
structure ReadTarget (τ : Type) where
  relative : OsString
  handle : τ

/-- What a bulk read asks of the vault and of a read batch of its storage. -/
structure Vault (σ τ : Type) where
  isScoped : Bool
  listRegularFiles : Text → Bool → Option Text → EStateM VaultError σ (List OsString)
  storage : EStateM VaultError σ Unit
  readBatch : EStateM VaultError σ Unit
  validatePath : OsString → EStateM VaultError σ Unit
  canonicalExistingRelativePath : OsString → EStateM VaultError σ OsString
  fileStat : OsString → EStateM VaultError σ FileStat
  readNoteBounded : OsString → ℕ → EStateM VaultError σ Text
  batchValidate : OsString → EStateM VaultError σ Unit
  batchPrepare : OsString → EStateM VaultError σ (ReadTarget τ)
  batchStat : ReadTarget τ → EStateM VaultError σ FileStat
  batchRead : ReadTarget τ → ℕ → EStateM VaultError σ Text

variable {σ τ : Type}

/-! ## Parameters -/

def validatedLimit (requested : Option ℕ) (default hardCap : ℕ) (name : Text) :
    Except ErrorData ℕ :=
  let value := requested.getD default
  if value = 0 then
    .error (.invalidParams ("`".toList ++ name ++ "` must be greater than zero".toList))
  else .ok (min value hardCap)

/-- The candidates that the parameters select. -/
def candidatesOf (vault : Vault σ τ) (params : NoteReadManyParams) :
    EStateM ErrorData σ (List ReadCandidate) :=
  if params.paths.isSome ∧ (params.recursive.isSome ∨ params.glob.isSome) then
    throw (.invalidParams
      "`recursive` and `glob` are only valid with the `dir` selector".toList)
  else
    match params.paths, params.dir with
    | some _, some _ | none, none =>
        throw (.invalidParams "Exactly one of `paths` or `dir` must be provided".toList)
    | some paths, none =>
        if paths = [] then
          throw (.invalidParams "`paths` must contain at least one path".toList)
        else if maxFilesCap < paths.length then
          throw (.invalidParams ("`paths` accepts at most ".toList ++ displayNat maxFilesCap ++
            " entries".toList))
        else return paths.map fun path => ⟨utf8Bytes path, path⟩
    | none, some dir => do
        let files ← (vault.listRegularFiles dir (params.recursive.getD false) params.glob)
          |>.adaptExcept .vault
        return (files.filter isMarkdown).filterMap fun path =>
          path.toStr.map fun displayPath => ⟨path, displayPath⟩

/-! ## One candidate -/

/-- What the loop over the candidates holds. -/
structure Gathered where
  notes : List NoteReadManyItem := []
  skipped : List NoteReadManySkipped := []
  skippedCount : ℕ := 0
  contentBytes : ℕ := 0

def recordSkipped (gathered : Gathered) (path : Text) (reason : NoteReadManySkipReason) :
    Gathered :=
  { gathered with
    skippedCount := gathered.skippedCount + 1
    skipped :=
      if gathered.skipped.length < maxSkippedDetails then gathered.skipped ++ [⟨path, reason⟩]
      else gathered.skipped }

/-- The reason to skip a file after an error; `none` when the error ends the request. -/
def skipReason : VaultError → Option NoteReadManySkipReason
  | .noteNotFound _ => some .notFound
  | .io _ => some .unreadable
  | .storage _ _ .invalidSource _ _ => some .unreadable
  | .storage operation _ .permissionDenied _ _ =>
      if operation ∈ ["open".toList, "read".toList, "stat".toList, "lstat".toList,
          "fstat".toList, "opendir".toList, "readdir".toList] then some .unreadable
      else none
  | _ => none

def recordFileError (error : VaultError) (path : Text) (gathered : Gathered) :
    Except VaultError Gathered :=
  match skipReason error with
  | some reason => .ok (recordSkipped gathered path reason)
  | none => .error error

namespace Vault

variable (vault : Vault σ τ)

/-- Resolve a candidate; a scoped vault resolves it without the batch. -/
def prepare (candidate : ReadCandidate) :
    EStateM VaultError σ (OsString × Option (ReadTarget τ)) :=
  if vault.isScoped then do
    let path ← vault.canonicalExistingRelativePath candidate.path
    return (path, none)
  else do
    let target ← vault.batchPrepare candidate.path
    return (target.relative, some target)

def stat (actualPath : OsString) : Option (ReadTarget τ) → EStateM VaultError σ FileStat
  | some target => vault.batchStat target
  | none => vault.fileStat actualPath

def read (actualPath : OsString) (maxBytes : ℕ) :
    Option (ReadTarget τ) → EStateM VaultError σ Text
  | some target => vault.batchRead target maxBytes
  | none => vault.readNoteBounded actualPath maxBytes

def validate (candidate : ReadCandidate) : EStateM VaultError σ Unit :=
  if vault.isScoped then vault.validatePath candidate.path
  else vault.batchValidate candidate.path

end Vault

/-- The round of the loop for one candidate. -/
def readCandidate (vault : Vault σ τ) (maxBytes : ℕ) (gathered : Gathered)
    (candidate : ReadCandidate) : EStateM VaultError σ Gathered := do
  match ← attempt (vault.prepare candidate) with
  | .error error => raise (recordFileError error candidate.displayPath gathered)
  | .ok (actualPath, target) =>
      let displayPath := actualPath.toStr.getD candidate.displayPath
      let remainingBytes := maxBytes - gathered.contentBytes
      match ← attempt (vault.stat actualPath target) with
      | .error error => raise (recordFileError error displayPath gathered)
      | .ok stat =>
          if remainingBytes < stat.size then
            return recordSkipped gathered displayPath .byteLimit
          else
            match ← attempt (vault.read actualPath remainingBytes target) with
            | .error (.semanticResourceLimit _ _ _) =>
                return recordSkipped gathered displayPath .byteLimit
            | .error error => raise (recordFileError error displayPath gathered)
            | .ok content =>
                if remainingBytes < byteLen content then
                  return recordSkipped gathered displayPath .byteLimit
                else
                  return { gathered with
                    contentBytes := gathered.contentBytes + byteLen content
                    notes := gathered.notes ++ [⟨displayPath, content⟩] }

def readCandidates (vault : Vault σ τ) (maxBytes : ℕ) (gathered : Gathered) :
    List ReadCandidate → EStateM VaultError σ Gathered
  | [] => return gathered
  | candidate :: candidates => do
      let gathered ← readCandidate vault maxBytes gathered candidate
      readCandidates vault maxBytes gathered candidates

/-! ## The request -/

/-- The output once the inspected candidates are read and the others are left out. -/
def finish (gathered : Gathered) (candidates : List ReadCandidate) (inspectedCount : ℕ) :
    NoteReadManyOutput where
  notes := gathered.notes
  skipped :=
    gathered.skipped ++
      ((candidates.drop inspectedCount).take (maxSkippedDetails - gathered.skipped.length)).map
        fun candidate => ⟨candidate.displayPath, .fileLimit⟩
  skippedCount := gathered.skippedCount + (candidates.length - inspectedCount)
  contentBytes := gathered.contentBytes

/-- What comes before the loop over the candidates: open the storage and a batch on it, and check
every path of an explicit selection. -/
def openBatch (vault : Vault σ τ) (params : NoteReadManyParams)
    (candidates : List ReadCandidate) : EStateM VaultError σ Unit := do
  vault.storage
  vault.readBatch
  if params.paths.isSome then candidates.forM vault.validate

def noteReadMany (vault : Vault σ τ) (params : NoteReadManyParams) :
    EStateM ErrorData σ NoteReadManyOutput := do
  let maxFiles ← raise
    (validatedLimit params.maxFiles defaultMaxFiles maxFilesCap "max_files".toList)
  let maxBytes ← raise
    (validatedLimit params.maxBytes defaultMaxBytes maxBytesCap "max_bytes".toList)
  let candidates ← candidatesOf vault params
  let inspectedCount := min candidates.length maxFiles
  (openBatch vault params candidates).adaptExcept .vault
  let gathered ← (readCandidates vault maxBytes {} (candidates.take inspectedCount)).adaptExcept
    .vault
  return finish gathered candidates inspectedCount

end ObsidianMcp.NoteReads
