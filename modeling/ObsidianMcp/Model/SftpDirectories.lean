import ObsidianMcp.Library.Casing
import ObsidianMcp.Library.Loop
import ObsidianMcp.Library.Table
import ObsidianMcp.Model.Path
import ObsidianMcp.Model.SftpFrames

/-! # Directories and paths on an SFTP server

A server answers every request from a state of its own. Totals are compared with bounds far below
the largest machine number, so they are plain numbers here. -/

namespace ObsidianMcp.Sftp

open Text

inductive FileType where
  | blockDevice
  | characterDevice
  | directory
  | fifo
  | regularFile
  | socket
  | symlink
  deriving DecidableEq

structure FileAttrs where
  fileType : Option FileType
  size : Option ℕ
  modified : Option ℕ
  deriving DecidableEq

structure NameEntry where
  filename : OsString
  attrs : FileAttrs
  deriving DecidableEq

structure DirectoryPage where
  entries : List NameEntry
  skippedCount : ℕ
  skippedBytes : ℕ

/-- Why a request has no answer. -/
inductive RequestError where
  | noSuchFile
  | storage (kind : StorageErrorKind) (message : Text) (outcome : MutationOutcome)

/-- What a server answers to the requests for names. -/
structure Server (σ : Type) where
  lstat : Text → EStateM RequestError σ FileAttrs
  realpath : Text → EStateM RequestError σ OsString
  opendir : Text → EStateM RequestError σ Bytes
  readdir : Bytes → EStateM RequestError σ DirectoryPage
  close : Bytes → EStateM RequestError σ Unit

variable {σ β : Type}

def storageError (operation path : Text) (kind : StorageErrorKind) (message : Text) : VaultError :=
  .storage operation path kind message .notDispatched

def RequestError.toVaultError (operation path : Text) : RequestError → VaultError
  | .noSuchFile => .noteNotFound path
  | .storage kind message outcome => .storage operation path kind message outcome

/-- A request about a path. -/
def request {α : Type} (operation path : Text) (answer : EStateM RequestError σ α) :
    EStateM VaultError σ α := fun s =>
  if maxPacket / 4 < byteLen path then
    .error (storageError operation [] .resourceLimit
      "SFTP path exceeds the supported request size".toList) s
  else
    match answer s with
    | .ok a t => .ok a t
    | .error error t => .error (error.toVaultError operation path) t

namespace Session

variable (server : Server σ)

def lstat (path : Text) : EStateM VaultError σ FileAttrs :=
  request "lstat".toList path (server.lstat path)

def realpath (path : Text) : EStateM VaultError σ Text := do
  let result ← request "realpath".toList path (server.realpath path)
  match result.toStr with
  | some text => return text
  | none => throw (storageError "decode_path".toList [] .protocol "remote path is not UTF-8".toList)

def opendir (path : Text) : EStateM VaultError σ Bytes :=
  request "opendir".toList path (server.opendir path)

def readdir (handle : Bytes) : EStateM VaultError σ DirectoryPage :=
  request "readdir".toList [] (server.readdir handle)

def close (handle : Bytes) : EStateM VaultError σ Unit :=
  request "close".toList [] (server.close handle)

end Session

/-! ## Paths -/

def validateAbsolute (path : Text) : Except VaultError Unit :=
  if path.head? ≠ some '/' ∨ path.any isControl ∨ '\\' ∈ path ∨
      (path.splitOn '/').any fun s => s = ['.'] ∨ s = ['.', '.'] then
    .error (.invalidPath "server returned an invalid canonical remote path".toList)
  else .ok ()

def relativeUnder (root path : Text) : Except VaultError Text :=
  match validateAbsolute path with
  | .error error => .error error
  | .ok () =>
      if path = root then .ok []
      else
        let below := stripPrefix (if root = ['/'] then root else trimEndMatches '/' root) path
        match below.bind fun s => if root = ['/'] then some s else stripPrefix ['/'] s with
        | some s => .ok s
        | none => .error (.outsideVault path)

def absolute (root relative : Text) : Text :=
  if relative = [] then root
  else if root = [] then relative
  else trimEndMatches '/' root ++ '/' :: relative

structure ResolvedPath where
  absolute : Text
  relative : Text

def resolved (root relative : Text) : ResolvedPath where
  absolute := Sftp.absolute root relative
  relative := relative

def pathText (path : OsString) : Except VaultError Text :=
  match path.toStr with
  | some text => .ok text
  | none => .error (.invalidPath "remote paths must be UTF-8".toList)

def normalizeRemote (path : OsString) : Except VaultError Text := do
  let text ← pathText path
  let parsed ← VaultPath.parse text
  return parsed.asStr

/-! ## Listings -/

def maxReadBytes : ℕ := 64 * 1024 * 1024

def maxEntries : ℕ := 1000000

/-- What a visit has counted so far, and the names it has seen. -/
structure Listed where
  seen : List Text := []
  nameBytes : ℕ := 0
  entryCount : ℕ := 0

def Listed.overBudget (listed : Listed) : Bool :=
  maxEntries < listed.entryCount || maxReadBytes < listed.nameBytes

/-- Count the entries that the page leaves out. -/
def Listed.countSkipped (listed : Listed) (page : DirectoryPage) : Listed :=
  { listed with
    nameBytes := listed.nameBytes + page.skippedBytes
    entryCount := listed.entryCount + page.skippedCount }

def directoryBudgetError (path : Text) : VaultError :=
  storageError "list".toList path .resourceLimit "directory entry budget exceeded".toList

/-- Count an entry; the name is there if the entry is to be visited. -/
def admitName (path : Text) (listed : Listed) (entry : NameEntry) :
    Except VaultError (Listed × Option Text) :=
  match entry.filename.toStr with
  | none => .error (storageError "list".toList path .protocol
      "directory response contains an undecoded name".toList)
  | some name =>
      let listed := { listed with
        nameBytes := listed.nameBytes + byteLen name
        entryCount := listed.entryCount + 1 }
      if listed.overBudget then .error (directoryBudgetError path)
      else if name = [] ∨ '/' ∈ name ∨ '\x00' ∈ name then
        .error (storageError "list".toList path .protocol
          "server returned an invalid directory basename".toList)
      else if name = ['.'] ∨ name = ['.', '.'] then .ok (listed, none)
      else if '\\' ∈ name ∨ name.any isControl then .ok (listed, none)
      else if name ∈ listed.seen then
        .error (storageError "list".toList path .protocol
          "server repeated a directory entry".toList)
      else .ok ({ listed with seen := name :: listed.seen }, some name)

/-- The attributes of an entry, asked for when the listing leaves them out. -/
def entryAttrs (server : Server σ) (path name : Text) (entry : NameEntry) :
    EStateM VaultError σ FileAttrs := do
  let attrs ←
    (if entry.attrs.fileType = none ∨
        (entry.attrs.fileType = some .regularFile ∧ entry.attrs.size = none) then
      Session.lstat server (absolute path name)
    else pure entry.attrs)
  if attrs.fileType = none then
    throw (storageError "list".toList path .unsupported
      "server omitted the directory entry type".toList)
  else return attrs

section Visits

variable (server : Server σ) (path : Text) (visit : β → Text → FileAttrs → Except VaultError β)

def visitEntry (state : Listed × β) (entry : NameEntry) : EStateM VaultError σ (Listed × β) := do
  let (listed, found) ← raise (admitName path state.1 entry)
  match found with
  | none => return (listed, state.2)
  | some name => do
      let attrs ← entryAttrs server path name entry
      let acc ← raise (visit state.2 name attrs)
      return (listed, acc)

def visitEntries : List NameEntry → Listed × β → EStateM VaultError σ (Listed × β)
  | [], state => return state
  | entry :: entries, state => do
      let state ← visitEntry server path visit state entry
      visitEntries entries state

def visitPage (handle : Bytes) (state : Listed × β) :
    EStateM VaultError σ ((Listed × β) ⊕ β) := do
  let page ← Session.readdir server handle
  let listed := state.1.countSkipped page
  if listed.overBudget then throw (directoryBudgetError path)
  else if page.entries = [] ∧ page.skippedCount = 0 then return .inr state.2
  else do
    let state ← visitEntries server path visit page.entries (listed, state.2)
    return .inl state

variable {server path visit}

theorem admitName_counts {listed : Listed} {entry : NameEntry} {result : Listed × Option Text}
    (h : admitName path listed entry = .ok result) :
    result.1.entryCount = listed.entryCount + 1 ∧ result.1.entryCount ≤ maxEntries := by
  rw [admitName] at h
  cases hname : entry.filename.toStr with
  | none => simp [hname] at h
  | some name =>
      simp only [hname] at h
      split_ifs at h with hbudget hinvalid hdots hskip hseen
      all_goals
        simp only [Listed.overBudget, Bool.or_eq_true, decide_eq_true_eq, not_or, not_lt] at hbudget
        injection h with h
        subst h
        exact ⟨rfl, hbudget.1⟩

theorem visitEntries_counts {entries : List NameEntry} {state result : Listed × β} {s t : σ}
    (h : visitEntries server path visit entries state s = .ok result t)
    (hcount : state.1.entryCount ≤ maxEntries) :
    result.1.entryCount = state.1.entryCount + entries.length ∧
      result.1.entryCount ≤ maxEntries := by
  induction entries generalizing state s with
  | nil =>
      simp only [visitEntries, estateM_pure, EStateM.Result.ok.injEq] at h
      obtain ⟨rfl, -⟩ := h
      exact ⟨rfl, hcount⟩
  | cons entry entries ih =>
      rw [visitEntries, estateM_bind_ok] at h
      obtain ⟨next, u, hentry, hrest⟩ := h
      rw [visitEntry, estateM_bind_ok] at hentry
      obtain ⟨⟨listed, found⟩, v, hallow, hentry⟩ := hentry
      have hcounts := admitName_counts (raise_eq_ok.mp hallow).1
      have hnext : next.1 = listed := by
        cases found with
        | none =>
            simp only [estateM_pure, EStateM.Result.ok.injEq] at hentry
            rw [← hentry.1]
        | some name =>
            simp only [estateM_bind_ok, estateM_pure, EStateM.Result.ok.injEq] at hentry
            obtain ⟨attrs, w, -, acc, x, -, rfl, -⟩ := hentry
            rfl
      obtain ⟨hlength, hbound⟩ := ih hrest (by rw [hnext]; exact hcounts.2)
      rw [hnext, hcounts.1] at hlength
      exact ⟨by rw [hlength, List.length_cons]; omega, hbound⟩

variable (server path visit)

/-- The pages of a directory, up to an empty one. Every other page counts an entry. -/
def visitPages (handle : Bytes) : Loop VaultError σ (Listed × β) β where
  round := visitPage server path visit handle
  measure state := maxEntries + 1 - state.1.entryCount
  decreases := by
    intro state s state' t h
    rw [visitPage, estateM_bind_ok] at h
    obtain ⟨page, u, -, h⟩ := h
    split_ifs at h with hbudget hempty
    · simp at h
    · simp at h
    · simp only [estateM_bind_ok, estateM_pure, EStateM.Result.ok.injEq, Sum.inl.injEq] at h
      obtain ⟨result, v, hentries, rfl, -⟩ := h
      simp only [Listed.overBudget, Bool.or_eq_true, decide_eq_true_eq, not_or, not_lt] at hbudget
      have hcounts := visitEntries_counts hentries hbudget.1
      have hskipped : (state.1.countSkipped page).entryCount =
          state.1.entryCount + page.skippedCount := rfl
      have hpos : 0 < page.entries.length + page.skippedCount := by
        by_contra hzero
        refine hempty ⟨List.eq_nil_of_length_eq_zero ?_, ?_⟩ <;> omega
      simp only at hcounts
      omega

/-- Visit the entries of a directory; one at a time, in the order of the server. -/
def visitDirectory (init : β) : EStateM VaultError σ β := do
  let opened ← attempt (Session.opendir server path)
  match opened with
  | .error error => throw (if error.isNotFound then .directoryNotFound path else error)
  | .ok handle => do
      let result ← attempt ((visitPages server path visit handle).run ({}, init))
      let closed ← attempt (Session.close server handle)
      match result, closed with
      | .error error, _ => throw error
      | .ok _, .error error => throw error
      | .ok acc, .ok () => return acc

end Visits

/-- The entries of a directory. -/
def listDirectory (server : Server σ) (path : Text) :
    EStateM VaultError σ (List (Text × FileAttrs)) :=
  visitDirectory server path (fun entries name attrs => .ok (entries ++ [(name, attrs)])) []

/-! ## The spelling of a name -/

structure EntryMatcher where
  requested : Text
  key : Text
  folded : Text
  nativeMatch : Bool
  exact : Option (Text × FileAttrs)
  found : Option (Text × FileAttrs)
  ambiguous : Bool

namespace EntryMatcher

variable (u : Unicode)

def new (requested : Text) (nativeMatch : Bool) : EntryMatcher where
  requested := requested
  key := u.nfc requested
  folded := u.toLowercase (u.nfc requested)
  nativeMatch := nativeMatch
  exact := none
  found := none
  ambiguous := false

def observe (matcher : EntryMatcher) (name : Text) (attrs : FileAttrs) : EntryMatcher :=
  if name = matcher.requested then { matcher with exact := some (name, attrs) }
  else if u.nfc name = matcher.key ∨
      (matcher.nativeMatch ∧ u.toLowercase (u.nfc name) = matcher.folded) then
    { matcher with
      ambiguous := matcher.ambiguous || matcher.found.isSome
      found := some (name, attrs) }
  else matcher

def finish (matcher : EntryMatcher) : Except VaultError (Option (Text × FileAttrs)) :=
  if matcher.exact.isSome then .ok matcher.exact
  else if matcher.ambiguous then
    .error (.invalidPath "ambiguous Unicode-equivalent remote path".toList)
  else if matcher.nativeMatch ∧ matcher.found = none then
    .error (.invalidPath "cannot identify the exact spelling of the native remote match".toList)
  else .ok matcher.found

end EntryMatcher

variable (u : Unicode) (server : Server σ)

/-- Whether the server itself finds the name. -/
def nativeMatch (path : Text) : EStateM VaultError σ Bool := do
  let answer ← attempt (Session.lstat server path)
  match answer with
  | .ok _ => return true
  | .error error => if error.isNotFound then return false else throw error

/-- Look for a name among the entries of a directory. -/
def findEntry (parent name : Text) : EStateM VaultError σ (Option (Text × FileAttrs)) := do
  let native ← nativeMatch server (absolute parent name)
  let matcher ← visitDirectory server parent
    (fun matcher name attrs => .ok (matcher.observe u name attrs)) (EntryMatcher.new u name native)
  raise matcher.finish

/-! ## Batches of reads -/

/-- The root must still be where the storage was opened. -/
def checkRoot (operation canonical : Text) : EStateM VaultError σ Unit := do
  let path ← Session.realpath server canonical
  if path ≠ canonical then
    throw (storageError operation [] .identityChanged
      "remote root changed; reopen the source".toList)
  else return ()

structure ReadBatch where
  directories : Table Text (Table Text FileAttrs) := ∅
  nameBytes : ℕ := 0
  entryCount : ℕ := 0

/-- A program that works on a batch beside the server. -/
abbrev BatchM (σ α : Type) := EStateM VaultError (σ × ReadBatch) α

def onServer {α : Type} (x : EStateM VaultError σ α) : BatchM σ α := fun s =>
  match x s.1 with
  | .ok a t => .ok a (t, s.2)
  | .error e t => .error e (t, s.2)

/-- The bytes of a listing's names. -/
def namesBytes (names : Table Text FileAttrs) : ℕ :=
  Table.total (fun name _ => byteLen name) names

namespace ReadBatch

/-- Take a listing out of the batch. -/
def forget (parent : Text) (batch : ReadBatch) : ReadBatch :=
  match batch.directories.lookup parent with
  | none => batch
  | some previous =>
      { directories := batch.directories.erase parent
        nameBytes := batch.nameBytes - (byteLen parent + namesBytes previous)
        entryCount := batch.entryCount - previous.len }

/-- What the observation of a directory has gathered. -/
structure Observation where
  nameBytes : ℕ
  entryCount : ℕ
  names : Table Text FileAttrs

def observationBudgetError (parent : Text) : VaultError :=
  storageError "resolve".toList parent .resourceLimit
    "batch directory observation budget exceeded".toList

def observeEntry (parent : Text) (observation : Observation) (name : Text) (attrs : FileAttrs) :
    Except VaultError Observation :=
  let nameBytes := observation.nameBytes + byteLen name
  let entryCount := observation.entryCount + 1
  if maxReadBytes < nameBytes ∨ maxEntries < entryCount then .error (observationBudgetError parent)
  else .ok ⟨nameBytes, entryCount, observation.names.insert name attrs⟩

def observeDirectory (parent : Text) : BatchM σ Unit := do
  modify fun s => (s.1, s.2.forget parent)
  let batch := (← get).2
  let observation ← onServer (visitDirectory server parent (observeEntry parent)
    ⟨batch.nameBytes + byteLen parent, batch.entryCount, ∅⟩)
  if maxReadBytes < observation.nameBytes then throw (observationBudgetError parent)
  else modify fun s =>
    (s.1, ⟨s.2.directories.insert parent observation.names, observation.nameBytes,
      observation.entryCount⟩)

/-- Whether a listing has to be refreshed before a name is looked up in it. A newly observed native
match must not be redirected to an entry that was listed before. -/
def refreshes (native : Bool) (name : Text) : Option (Table Text FileAttrs) → Bool
  | none => true
  | some names => native && !(names.lookup name).isSome

/-- Look for a name in a listing of the batch. -/
def selectEntry (name : Text) (native : Bool) :
    Option (Table Text FileAttrs) → Except VaultError (Option (Text × FileAttrs))
  | none => (EntryMatcher.new u name native).finish
  | some names =>
      match names.lookup name with
      | some attrs => .ok (some (name, attrs))
      | none =>
          (names.toPairs.foldl (fun matcher entry => matcher.observe u entry.1 entry.2)
            (EntryMatcher.new u name native)).finish

def findEntry (parent name : Text) : BatchM σ (Option (Text × FileAttrs)) := do
  let native ← onServer (nativeMatch server (absolute parent name))
  let cached := (← get).2.directories.lookup parent
  if refreshes native name cached then do
    observeDirectory server parent
    let listing := (← get).2.directories.lookup parent
    raise (selectEntry u name native listing)
  else raise (selectEntry u name native cached)

/-- The names of a path that come before and after a place, as one path. -/
def joinRelative (actual : Text) (names : List Text) : Text :=
  List.intercalate ['/'] ([actual, List.intercalate ['/'] names].filter fun s => !s.isEmpty)

/-- The loop of `resolve` over the names that are left. -/
def resolveNames (canonical path : Text) (allowMissing : Bool) :
    List Text → Text → BatchM σ ResolvedPath
  | [], actual => return resolved canonical actual
  | name :: names, actual => do
      let parent := absolute canonical actual
      let found ← findEntry u server parent name
      match found with
      | some (name, _) => do
          let target ← onServer (Session.realpath server (absolute parent name))
          let actual ← raise (relativeUnder canonical target)
          resolveNames canonical path allowMissing names actual
      | none =>
          if allowMissing then return resolved canonical (joinRelative actual (name :: names))
          else throw (.noteNotFound path)

def resolve (canonical : Text) (path : OsString) (allowMissing : Bool) : BatchM σ ResolvedPath := do
  onServer (checkRoot server "resolve".toList canonical)
  let text ← raise (pathText path)
  let requested ← raise (VaultPath.parse text)
  let names := (requested.asStr.splitOn '/').filter fun s => !s.isEmpty
  resolveNames u server canonical text allowMissing names []

end ReadBatch

end ObsidianMcp.Sftp
