import ObsidianMcp.Library.Selection
import ObsidianMcp.Model.EmbeddingCache
import ObsidianMcp.Model.LinkResolver
import ObsidianMcp.Model.Source

/-! # Source-bound semantic ranking and result construction

Scores are elements of a total order; the similarity of a vector is a parameter. Rendering is `none`
where the text would be cut outside of it or off a character boundary. -/

namespace ObsidianMcp

open Text

variable {Score : Type}

structure SemanticEvidence (Score : Type) where
  scope : EvidenceScope
  cosineSimilarity : Score
  range : SourceRange
  headingPath : List Text
  sectionRange : Option SourceRange
  deriving DecidableEq

/-- An immutable semantic observation retained until its source is rendered. -/
structure RankedNote (Score : Type) where
  path : OsString
  score : Score
  evidence : SemanticEvidence Score
  entry : NoteEmbeddingEntry
  deriving DecidableEq

/-! ## Ranking -/

/-- The similarity to a query, and which scores are finite. -/
structure CosineQuery (Score : Type) where
  similarity : List F32 → Score
  isFinite : Score → Bool

section Ranking

variable [LinearOrder Score] (u : PathText) (query : CosineQuery Score)

/-- One step of the scan over the chunks; the winner is a score and a start byte. -/
def bestStep (path : OsString) (winner : Option (Score × ℕ)) (chunk : ChunkEmbedding) :
    Except VaultError (Option (Score × ℕ)) :=
  let score := query.similarity chunk.vector
  if !query.isFinite score then
    .error (.embedding ("non-finite semantic score for ".toList ++ u.toStringLossy path))
  else if winner.all fun previous =>
      decide (previous.1 < score) ||
        (decide (score = previous.1) && decide (chunk.range.startByte < previous.2)) then
    .ok (some (score, chunk.range.startByte))
  else .ok winner

def bestNote (path : OsString) (entry : NoteEmbeddingEntry) :
    Except VaultError (RankedNote Score) := do
  let winner ← entry.chunks.foldlM (bestStep u query path) none
  match winner with
  | none =>
      .error (.embedding ("no complete semantic input for ".toList ++ u.toStringLossy path))
  | some (score, start) =>
      match entry.chunks.find? fun chunk => chunk.range.startByte = start with
      | none => .error (.embedding "semantic winner is absent from its observation".toList)
      | some chunk =>
          .ok {
            path := path
            score := score
            evidence := {
              scope := chunk.scope
              cosineSimilarity := score
              range := chunk.range
              headingPath := chunk.headingPath
              sectionRange := chunk.sectionRange }
            entry := entry }

/-- Descending scores, then paths. -/
def rankedBefore (left right : RankedNote Score) : Bool :=
  decide (right.score < left.score) ||
    (decide (left.score = right.score) && decide (left.path ≤ right.path))

def finishRanking (selection : Selection (RankedNote Score) rankedBefore)
    (hits : List (RankedNote Score)) (topK : ℕ) : List (RankedNote Score) :=
  let hits := if topK < hits.length then (selection.select hits topK).take topK else hits
  hits.mergeSort rankedBefore

/-- Rank captured entries, which come in the order in which the map yields them. -/
def rankSemantic (selection : Selection (RankedNote Score) rankedBefore)
    (entries : List (OsString × NoteEmbeddingEntry)) (topK : ℕ) :
    Except VaultError (List (RankedNote Score)) := do
  let hits ← entries.mapM fun entry => bestNote u query entry.1 entry.2
  .ok (finishRanking selection hits topK)

end Ranking

/-- The entries of a store under the allowed paths, in the order in which the map yields them. -/
def EmbeddingStore.captureEntries (store : EmbeddingStore) (allowed : OsString → Bool) :
    List (OsString × NoteEmbeddingEntry) :=
  store.embeddings.toPairs.filter fun entry => allowed entry.1

/-! ## Rendering -/

inductive SourceStatus where
  | current
  | changed
  | unavailable
  deriving DecidableEq

structure SemanticPreview where
  range : SourceRange
  completeEvidence : Bool
  deriving DecidableEq

structure SemanticContextError where
  code : Text
  message : Text
  currentRevision : Option Text
  deriving DecidableEq

structure SemanticNoteResult (Score : Type) where
  path : OsString
  title : Text
  score : Score
  tags : List Text
  snippet : Option Text
  content : Option Text
  sourceRevision : Text
  sourceBytes : ℕ
  sourceStatus : SourceStatus
  evidence : SemanticEvidence Score
  preview : Option SemanticPreview
  contextError : Option SemanticContextError
  deriving DecidableEq

/-- A compiled expression: where its first match in a text starts, at a character boundary. -/
structure Matcher where
  find : Text → Option ℕ
  boundary : ∀ text position, find text = some position → isCharBoundary text position = true

/-- The expression library. -/
structure RegexEngine where
  escape : Text → Text
  new : Text → Option Matcher

/-- The words of a text. -/
def splitWhitespace (text : Text) : List Text :=
  (text.splitOnP isWhitespace).filter fun word => !word.isEmpty

def compileQueryWordRegex (regexes : RegexEngine) (query : Text) : Option Matcher :=
  let pattern := List.intercalate ['|'] ((splitWhitespace query).map regexes.escape)
  if pattern = [] then none else regexes.new ("(?i)".toList ++ pattern)

def maxPreviewChars : ℕ := 300

/-- The byte offset of a character of a text, if the text has so many. -/
def charIndicesNth (text : Text) (n : ℕ) : Option ℕ :=
  if n < text.length then some (byteLen (text.take n)) else none

/-- The number of characters before a match. -/
def charsBefore (text : Text) : Option ℕ → Option ℕ
  | none => some 0
  | some position => (sliceAt text 0 position).map List.length

def previewRange (regexes : RegexEngine) (raw : Text) (evidence : SourceRange) (query : Text) :
    Option SourceRange := do
  let text ← sliceAt raw evidence.startByte evidence.endByte
  let found := (compileQueryWordRegex regexes query).bind fun regex => regex.find text
  let target ← charsBefore text found
  let startChar := target - maxPreviewChars / 2
  let start := (charIndicesNth text startChar).getD (byteLen text)
  let rest ← sliceAt text start (byteLen text)
  let stop := ((charIndicesNth rest maxPreviewChars).map (start + ·)).getD (byteLen text)
  some ⟨evidence.startByte + start, evidence.startByte + stop⟩

/-- The checks before anything of a source is shown. -/
def validSource (snapshot : SourceSnapshot) (sourceBytes : ℕ) (range : SourceRange)
    (sectionRange : Option SourceRange) : Except VaultError Unit := do
  snapshot.validateRange range
  if sourceBytes ≠ byteLen snapshot.content then
    .error (.invalidSourceRange
      "indexed source length does not match the observed revision".toList)
  else
    match sectionRange with
    | none => .ok ()
    | some outer => do
        snapshot.validateRange outer
        if range.startByte < outer.startByte ∨ outer.endByte < range.endByte then
          .error (.invalidSourceRange
            "indexed section does not contain its semantic evidence".toList)
        else .ok ()

/-- The result without context. -/
def RankedNote.result (hit : RankedNote Score) : SemanticNoteResult Score where
  path := hit.path
  title := hit.entry.title
  score := hit.score
  tags := hit.entry.tags
  snippet := none
  content := none
  sourceRevision := hit.entry.sourceRevision
  sourceBytes := hit.entry.sourceBytes
  sourceStatus := .current
  evidence := hit.evidence
  preview := none
  contextError := none

/-- Build context from exactly one observation, never from mixed source revisions. -/
def renderSnapshot (regexes : RegexEngine) (snapshot : Except VaultError SourceSnapshot)
    (hit : RankedNote Score) (query : Text) (includeContent : Bool) :
    Option (SemanticNoteResult Score) :=
  let result := hit.result
  match snapshot with
  | .ok snapshot =>
      if snapshot.sourceRevision ≠ result.sourceRevision then
        some { result with
          sourceStatus := .changed
          contextError := some {
            code := "source_changed".toList
            message := "The note changed after this semantic observation was indexed.".toList
            currentRevision := some snapshot.sourceRevision } }
      else
        match validSource snapshot result.sourceBytes result.evidence.range
            result.evidence.sectionRange with
        | .error error =>
            some { result with
              sourceStatus := .unavailable
              contextError := some {
                code := "invalid_source_range".toList
                message := error.display
                currentRevision := some snapshot.sourceRevision } }
        | .ok () =>
            if includeContent then some { result with content := some snapshot.content }
            else do
              let preview ← previewRange regexes snapshot.content result.evidence.range query
              let snippet ← sliceAt snapshot.content preview.startByte preview.endByte
              some { result with
                snippet := some snippet
                preview := some ⟨preview, preview = result.evidence.range⟩ }
  | .error error =>
      some { result with
        sourceStatus := .unavailable
        contextError := some {
          code := "source_unavailable".toList
          message := error.display
          currentRevision := none } }

end ObsidianMcp
