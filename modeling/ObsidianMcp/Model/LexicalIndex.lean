import ObsidianMcp.Model.VaultIndex

/-! # The lexical index

The full-text engine is another library: its writer is taken with what its documentation says
about stamps and about deletions by term. -/

namespace ObsidianMcp

open Text

/-! ## Documents -/

section Documents

variable (source : NoteSource)

mutual

def collectJsonStrings : Json → List Text
  | .string s => [s]
  | .array items => collectItems items
  | .object fields => collectFields fields
  | .number n => [source.displayJson (.number n)]
  | .bool b => [(if b then "true" else "false").toList]
  | .null => []

def collectItems : List Json → List Text
  | [] => []
  | item :: items => collectJsonStrings item ++ collectItems items

def collectFields : List (Text × Json) → List Text
  | [] => []
  | (key, value) :: fields => key :: (collectJsonStrings value ++ collectFields fields)

end

/-- Flatten a frontmatter into a text of its keys and values. -/
def stringifyFrontmatter (value : Json) : Text :=
  List.intercalate [' '] (collectJsonStrings source value)

/-- The fields of a document. A tag is a facet: its names from the top. -/
structure Document where
  path : Text
  title : Text
  headings : Text
  body : Text
  frontmatterText : Text
  tags : List (List Text)
  deriving DecidableEq

def buildDocument (path : OsString) (note : NoteMetadata) (content : Text) : Document where
  path := source.text.toStringLossy path
  title := note.title
  headings := List.intercalate " | ".toList (note.headings.map Heading.text)
  body :=
    match extractRawFrontmatter content with
    | some (_, bodyStart) => dropBytes bodyStart content
    | none => content
  frontmatterText := (note.frontmatter.map (stringifyFrontmatter source)).getD []
  tags := note.tags.map fun tag => (source.text.toLowercase tag).splitOn '/'

end Documents

/-! ## The writer -/

/-- The writer of the engine. Its documents are those that are staged or committed and not deleted;
its stamps are handed out in order. -/
structure IndexWriter (W : Type) where
  deleteTerm : Text → W → W
  addDocument : Document → W → W × Except VaultError ℕ
  commit : W → W × Except VaultError ℕ
  documents : W → List Document
  opstamp : W → ℕ
  documents_deleteTerm : ∀ term w,
    documents (deleteTerm term w) = (documents w).filter fun document => document.path ≠ term
  documents_addDocument : ∀ document w stamp, (addDocument document w).2 = .ok stamp →
    (documents (addDocument document w).1).Perm (document :: documents w)
  documents_commit : ∀ w stamp, (commit w).2 = .ok stamp →
    (documents (commit w).1).Perm (documents w)
  opstamp_deleteTerm : ∀ term w, opstamp w ≤ opstamp (deleteTerm term w)
  opstamp_addDocument : ∀ document w, opstamp w ≤ opstamp (addDocument document w).1
  stamp_addDocument : ∀ document w stamp, (addDocument document w).2 = .ok stamp →
    opstamp w < stamp ∧ stamp ≤ opstamp (addDocument document w).1
  opstamp_commit : ∀ w, opstamp w ≤ opstamp (commit w).1
  stamp_commit : ∀ w stamp, (commit w).2 = .ok stamp →
    opstamp w ≤ stamp ∧ stamp ≤ opstamp (commit w).1

namespace IndexWriter

variable {W : Type} (source : NoteSource) (writer : IndexWriter W)

def replaceDocument (path : OsString) (note : NoteMetadata) (content : Text) (w : W) :
    W × Except VaultError ℕ :=
  writer.addDocument (buildDocument source path note content)
    (writer.deleteTerm (source.text.toStringLossy path) w)

/-- Remove a file without committing. -/
def removeFileBatch (path : OsString) (w : W) : W × Except VaultError Unit :=
  (writer.deleteTerm (source.text.toStringLossy path) w, .ok ())

/-- Commit, then reload the reader. The stamp is that of the last operation a reader sees. -/
def publish (reload : Except VaultError Unit) (w : W) : W × Except VaultError ℕ :=
  match writer.commit w with
  | (w, .error error) => (w, .error error)
  | (w, .ok committed) => (w, reload.map fun _ => committed)

/-- What the index finds when it turns to the writer. -/
def lexical (w : W) : VaultIndex.Lexical where
  replaceDocument path note content := (writer.replaceDocument source path note content w).2
  removeFileBatch path := (writer.removeFileBatch source path w).2

end IndexWriter

/-! ## Index and writer -/

/-- What an update asks of the writer for its path. -/
inductive LexicalCall where
  | replace (note : NoteMetadata) (content : Text)
  | remove

/-- A live note with content is replaced; anything else leaves if it was a note. -/
def VaultIndex.lexicalCall (path : OsString) (wasNote : Bool) (content : Option Text)
    (index : VaultIndex) : Option LexicalCall :=
  match content, index.notes.lookup path with
  | some content, some note => some (.replace note content)
  | _, _ => if wasNote then some .remove else none

/-- The index of a vault and the writer of its lexical index. -/
structure Projection (W : Type) where
  index : VaultIndex
  writer : W

namespace Projection

variable {W : Type} (source : NoteSource) (exclude : ExcludeSet) (writer : IndexWriter W)
  (embeddingsEnabled : Bool)

def perform (path : OsString) (call : Option LexicalCall) (w : W) : W :=
  match call with
  | some (.replace note content) => (writer.replaceDocument source path note content w).1
  | some .remove => (writer.removeFileBatch source path w).1
  | none => w

/-- The writer takes what it is asked. -/
def accepts (path : OsString) (call : Option LexicalCall) (w : W) : Bool :=
  match call with
  | some (.replace note content) => (writer.replaceDocument source path note content w).2.isOk
  | some .remove => (writer.removeFileBatch source path w).2.isOk
  | none => true

/-- What the writer is asked after an update. A refusal for the size asks nothing. -/
def updateCall (path : OsString) (wasNote : Bool)
    (update : VaultIndex × Except VaultError (Option Text)) : Option LexicalCall :=
  match update with
  | (index, .ok content) => index.lexicalCall path wasNote content
  | (index, .error error) =>
      if VaultIndex.isResourceLimit error then none else index.lexicalCall path wasNote none

def observationCall (path : OsString) (content : Option Text) (stat : FileStat)
    (state : Projection W) : Option LexicalCall :=
  (state.index.updateObservation source exclude path content stat).bind
    (updateCall path (state.index.notes.lookup path).isSome)

/-- Apply one complete source observation to metadata and lexical search. -/
def applyObservation (path : OsString) (content : Option Text) (stat : FileStat)
    (state : Projection W) : Option (Projection W × Except VaultError Bool) :=
  (state.index.applyObservation source exclude path content stat
    (some (writer.lexical source state.writer)) embeddingsEnabled).map fun (index, result) =>
      (⟨index, perform source writer path
        (observationCall source exclude path content stat state) state.writer⟩, result)

def removalCall (path : OsString) (state : Projection W) : Option LexicalCall :=
  if (state.index.notes.lookup path).isSome then some .remove else none

def removeProjection (path : OsString) (state : Projection W) :
    Option (Projection W × Except VaultError Bool) :=
  (state.index.removeProjection source path (some (writer.lexical source state.writer))).map
    fun (index, result) =>
      (⟨index, perform source writer path (removalCall path state) state.writer⟩, result)

/-- A call for a path. -/
inductive Call where
  | observe (path : OsString) (content : Option Text) (stat : FileStat)
  | remove (path : OsString)

def Call.path : Call → OsString
  | observe path _ _ => path
  | .remove path => path

def Call.apply : Call → Projection W → Option (Projection W × Except VaultError Bool)
  | observe path content stat =>
      applyObservation source exclude writer embeddingsEnabled path content stat
  | .remove path => removeProjection source writer path

/-- What a call asks of the writer. -/
def Call.asks : Call → Projection W → Option LexicalCall
  | observe path content stat => observationCall source exclude path content stat
  | .remove path => removalCall path

end Projection

end ObsidianMcp
