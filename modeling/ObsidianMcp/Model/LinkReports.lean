import ObsidianMcp.Model.ReadView

/-! # Link reports

The answers of the link queries of an unscoped vault. A hash set lists its elements in an order of
its own. -/

namespace ObsidianMcp

open Text

/-- An order in which sets list their elements. -/
structure SetListing (K : Type*) where
  list : Finset K → List K
  nodup : ∀ s, (list s).Nodup
  mem : ∀ s x, x ∈ list s ↔ x ∈ s

namespace VaultIndex

variable (source : NoteSource) (index : VaultIndex)

def getNote (path : OsString) : Option NoteMetadata :=
  index.notes.lookup (logicalSeparators path)

def backlinksTo (listing : SetListing OsString) (path : OsString) : List NoteMetadata :=
  ((index.backlinks.lookup (logicalSeparators path)).map fun sources =>
    (listing.list sources).filterMap index.notes.lookup).getD []

def outgoingLinks (path : OsString) : List WikiLink :=
  ((index.notes.lookup (logicalSeparators path)).map NoteMetadata.links).getD []

def resolveLink (target : Text) : Option OsString :=
  index.linkResolver.resolve source.text target

def orphanNotes : List NoteMetadata :=
  (index.notes.toPairs.filter fun entry : OsString × NoteMetadata =>
    let hasIncoming := (index.backlinks.lookup entry.1).any fun sources => sources ≠ ∅
    let hasOutgoing := entry.2.links.any fun link => !link.target.isEmpty
    !hasIncoming && !hasOutgoing).map Prod.snd

end VaultIndex

/-- A vault during one query: its index, whether the catalog can be read and the physical spelling
that storage has for a path. -/
structure LinkVault where
  index : VaultIndex
  requireCatalog : Except VaultError Unit
  canonicalExistingRelativePath : OsString → Except VaultError OsString
  listing : SetListing OsString

namespace LinkVault

variable (source : NoteSource) (vault : LinkVault)

def getNoteMetadata (path : OsString) : Except VaultError NoteMetadata := do
  vault.requireCatalog
  let actualPath ← vault.canonicalExistingRelativePath path
  match vault.index.getNote actualPath with
  | some note => return note
  | none => throw (.noteNotFound (source.text.toStringLossy actualPath))

def backlinks (path : OsString) : Except VaultError (List NoteMetadata) := do
  vault.requireCatalog
  let actualPath ← vault.canonicalExistingRelativePath path
  return vault.index.backlinksTo vault.listing actualPath

def outgoingLinks (path : OsString) : Except VaultError (List WikiLink) := do
  vault.requireCatalog
  let actualPath ← vault.canonicalExistingRelativePath path
  return vault.index.outgoingLinks actualPath

def brokenLinks : Except VaultError (List (OsString × WikiLink)) := do
  vault.requireCatalog
  return vault.index.brokenLinks source

def resolveLink (target : Text) : Option OsString :=
  vault.index.resolveLink source target

def orphanNotes : Except VaultError (List NoteMetadata) := do
  vault.requireCatalog
  return vault.index.orphanNotes

end LinkVault

/-! ## Responses -/

structure BacklinkRef where
  raw : Text
  line : ℕ
  deriving DecidableEq

structure BacklinkSource where
  sourcePath : OsString
  links : List BacklinkRef
  deriving DecidableEq

structure OutgoingLink where
  raw : Text
  target : Text
  resolvedPath : Option OsString
  heading : Option Text
  blockRef : Option Text
  displayAlias : Option Text
  deriving DecidableEq

structure BrokenLink where
  sourcePath : OsString
  linkRaw : Text
  target : Text
  deriving DecidableEq

inductive OrphanStatus where
  | noLinks
  | brokenOutgoingOnly
  deriving DecidableEq

structure OrphanNoteEntry where
  path : OsString
  status : OrphanStatus
  brokenTargets : List Text
  deriving DecidableEq

inductive WikilinkEntries where
  | backlinks (entries : List BacklinkSource)
  | outgoing (entries : List OutgoingLink)
  | broken (entries : List BrokenLink)
  | orphans (entries : List OrphanNoteEntry)
  deriving DecidableEq

structure WikilinksParams where
  query : Text
  path : Option Text

inductive WikilinksError where
  | invalidParams (message : Text)
  | vault (error : VaultError)
  deriving DecidableEq

/-! ## Queries -/

section Queries

variable (source : NoteSource) (vault : LinkVault)

def hasResolvedTarget (target : Text) : Bool :=
  !target.isEmpty && (vault.resolveLink source target).isSome

def isBrokenTarget (target : Text) : Bool :=
  !target.isEmpty && (vault.resolveLink source target).isNone

/-- The links of a note that resolve to a path, if there are any. -/
def backlinkSource (targetPath : OsString) (note : NoteMetadata) : Option BacklinkSource :=
  let matching := (note.links.filter fun link =>
    (vault.resolveLink source link.target).any fun resolved => resolved = targetPath).map
      fun link => (⟨link.raw, link.line⟩ : BacklinkRef)
  if matching.isEmpty then none else some ⟨note.path, matching⟩

def wikilinksBacklinks (notePath : OsString) : Except VaultError (List BacklinkSource) := do
  let targetPath ← vault.canonicalExistingRelativePath notePath
  let _ ← vault.getNoteMetadata source targetPath
  let backlinkNotes ← vault.backlinks targetPath
  return backlinkNotes.filterMap (backlinkSource source vault targetPath)

def wikilinksOutgoing (notePath : OsString) : Except VaultError (List OutgoingLink) := do
  let actualPath ← vault.canonicalExistingRelativePath notePath
  let _ ← vault.getNoteMetadata source actualPath
  let links ← vault.outgoingLinks actualPath
  return links.map fun link =>
    ⟨link.raw, link.target, vault.resolveLink source link.target, link.heading, link.blockRef,
      link.displayAlias⟩

def wikilinksBroken (notePath : Option OsString) : Except VaultError (List BrokenLink) :=
  match notePath with
  | some path => do
      let actualPath ← vault.canonicalExistingRelativePath path
      let _ ← vault.getNoteMetadata source actualPath
      let links ← vault.outgoingLinks actualPath
      return (links.filter fun link => isBrokenTarget source vault link.target).map fun link =>
        ⟨actualPath, link.raw, link.target⟩
  | none => do
      let all ← vault.brokenLinks source
      return all.map fun entry => ⟨entry.1, entry.2.raw, entry.2.target⟩

/-- The targets of broken links, by the note that has them. -/
def brokenBySource (broken : List (OsString × WikiLink)) : Inverse OsString Text :=
  broken.foldl (fun table entry => Inverse.add entry.2.target table entry.1) ∅

/-- One step of the loop over the notes with broken links: the notes found so far and their
paths. -/
def orphanStep (targets : SetListing Text) (state : List OrphanNoteEntry × Finset OsString)
    (entry : OsString × Finset Text) :
    Except VaultError (List OrphanNoteEntry × Finset OsString) :=
  let (disconnected, seenPaths) := state
  let (sourcePath, brokenTargets) := entry
  if sourcePath ∈ seenPaths then .ok state
  else do
    let incoming ← vault.backlinks sourcePath
    if !incoming.isEmpty then return state
    else do
      let links ← vault.outgoingLinks sourcePath
      if links.any fun link => hasResolvedTarget source vault link.target then return state
      else
        return (disconnected ++ [⟨sourcePath, .brokenOutgoingOnly,
          (targets.list brokenTargets).mergeSort fun a b => a ≤ b⟩], insert sourcePath seenPaths)

def wikilinksOrphans (targets : SetListing Text) : Except VaultError (List OrphanNoteEntry) := do
  let orphans ← vault.orphanNotes
  let disconnected := orphans.map fun note => (⟨note.path, .noLinks, []⟩ : OrphanNoteEntry)
  let seenPaths := (disconnected.map OrphanNoteEntry.path).toFinset
  let broken ← vault.brokenLinks source
  let (disconnected, _) ← (brokenBySource broken).toPairs.foldlM
    (orphanStep source vault targets) (disconnected, seenPaths)
  return disconnected.mergeSort fun a b => a.path ≤ b.path

/-- Query the graph of the vault: backlinks, outgoing links, broken links, or orphan notes. -/
def wikilinks (targets : SetListing Text) (params : WikilinksParams) :
    Except WikilinksError WikilinkEntries :=
  let required : Text → Except WikilinksError OsString := fun query =>
    match params.path with
    | some path => .ok (utf8Bytes path)
    | none => .error (.invalidParams ("'path' is required for query '".toList ++ query ++
        "'".toList))
  if eqIgnoreAsciiCase params.query "backlinks".toList then do
    let path ← required "backlinks".toList
    ((wikilinksBacklinks source vault path).map .backlinks).mapError .vault
  else if eqIgnoreAsciiCase params.query "outgoing".toList then do
    let path ← required "outgoing".toList
    ((wikilinksOutgoing source vault path).map .outgoing).mapError .vault
  else if eqIgnoreAsciiCase params.query "broken".toList then
    ((wikilinksBroken source vault (params.path.map utf8Bytes)).map .broken).mapError .vault
  else if eqIgnoreAsciiCase params.query "orphans".toList then
    ((wikilinksOrphans source vault targets).map .orphans).mapError .vault
  else
    .error (.invalidParams ("Unknown query '".toList ++ params.query ++
      "'. Valid values: \"backlinks\", \"outgoing\", \"broken\", \"orphans\"".toList))

end Queries

end ObsidianMcp
