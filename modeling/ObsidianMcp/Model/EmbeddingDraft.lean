import ObsidianMcp.Library.KeyOrder
import ObsidianMcp.Model.Embeddings

/-! # Prepared notes and unpublished drafts -/

namespace ObsidianMcp

open Text

def maxStagingBytes : ℕ := 64 * 1024 * 1024
def maxSourceBytes : ℕ := 16 * 1024 * 1024

/-- A growable value with the capacity of its allocation. -/
structure Buffer (α : Type) where
  value : α
  capacity : ℕ

/-- The sizes of records whose layout is the compiler's choice. -/
structure Layout where
  stagedNote : ℕ
  preparedNote : ℕ
  preparedChunk : ℕ
  chunkEmbedding : ℕ

/-- The size of a native word, a reference or a pointer. -/
def wordBytes : ℕ := 8

/-- The size of a string or vector header. -/
def vecBytes : ℕ := 24

structure PreparedChunk where
  text : Buffer Text
  inputHash : Hash
  scope : EvidenceScope
  range : SourceRange
  overlapRange : Option SourceRange
  headingPath : Buffer (List (Buffer Text))
  sectionRange : Option SourceRange
  blockKind : Option (Buffer Text)

structure PreparedNote where
  sourceRevision : Buffer Text
  sourceBytes : ℕ
  bodyRange : SourceRange
  title : Buffer Text
  tags : Buffer (List (Buffer Text))
  chunks : Buffer (List PreparedChunk)

/-- A sum that stops at the largest word. -/
def saturatingSum (sizes : List ℕ) : ℕ :=
  sizes.foldl saturatingAdd 0

def stringVecBytes (strings : Buffer (List (Buffer Text))) : ℕ :=
  saturatingAdd (saturatingMul strings.capacity vecBytes)
    (saturatingSum (strings.value.map Buffer.capacity))

def vectorReservation (layout : Layout) (dimension : ℕ) : ℕ :=
  saturatingAdd (saturatingAdd (saturatingAdd vecBytes layout.chunkEmbedding)
    (saturatingMul dimension 4)) 256

def PreparedChunk.stagingBytes (layout : Layout) (dimension : ℕ) (chunk : PreparedChunk) : ℕ :=
  saturatingAdd (saturatingAdd (saturatingAdd chunk.text.capacity
    (stringVecBytes chunk.headingPath)) ((chunk.blockKind.map Buffer.capacity).getD 0))
    (vectorReservation layout dimension)

/-- Retained capacities and space reserved for every eventual chunk vector. -/
def PreparedNote.stagingBytes (layout : Layout) (dimension : ℕ) (prepared : PreparedNote) : ℕ :=
  saturatingAdd (saturatingAdd (saturatingAdd (saturatingAdd
    (saturatingAdd layout.preparedNote prepared.sourceRevision.capacity)
    prepared.title.capacity) (stringVecBytes prepared.tags))
    (saturatingMul prepared.chunks.capacity layout.preparedChunk))
    (saturatingSum (prepared.chunks.value.map (PreparedChunk.stagingBytes layout dimension)))

/-! ## Works -/

inductive PendingKind where
  /-- Invalidates older work and keeps the last published evidence queryable. It becomes
  runnable only after the corresponding lexical commit. -/
  | awaitingLexical
  | upsert
  | remove
  deriving DecidableEq

structure PendingWork where
  path : OsString
  generation : ℕ
  kind : PendingKind
  attempt : ℕ
  notBefore : ℕ
  deriving DecidableEq

/-- One directory observation: the works it was made for and, for the history, how many intents
had been handed out before it. Reading through it is a part of the surroundings. -/
structure ObservedBatch where
  recorded : Table OsString ℕ
  takenAt : ℕ

structure StagedNote where
  work : PendingWork
  prepared : PreparedNote
  vectors : List (Option (List F32))
  hashOrder : List ℕ
  memoryBytes : ℕ
  lastUsed : ℕ
  /-- The observation the text was read under; nothing computes with it. -/
  source : ObservedBatch

/-- The paths in `process_batch` are clones, whose buffers are exact. -/
def draftOverhead (layout : Layout) (work : PendingWork) : ℕ :=
  saturatingAdd (saturatingAdd layout.stagedNote (2 * wordBytes))
    (saturatingMul work.path.length 2)

def stagingSize (layout : Layout) (prepared : PreparedNote) (dimension : ℕ)
    (work : PendingWork) : Except VaultError ℕ :=
  let bytes := saturatingAdd (draftOverhead layout work) (prepared.stagingBytes layout dimension)
  if bytes > maxStagingBytes then
    .error (.semanticResourceLimit "unpublished embedding staging bytes".toList bytes
      maxStagingBytes)
  else .ok bytes

/-! ## Chunks by the hash of their text -/

/-- A hash as a key: byte strings are compared lexicographically. -/
def Hash.key (hash : Hash) : List ℕ :=
  hash.toList.map UInt8.toNat

/-- The key of the chunk at an index. -/
def PreparedNote.hashAt (prepared : PreparedNote) (index : ℕ) : List ℕ :=
  ((prepared.chunks.value[index]?).map fun chunk => chunk.inputHash.key).getD []

/-- The indices of the chunks by hash and, within one hash, by index. -/
def PreparedNote.hashOrder (prepared : PreparedNote) : List ℕ :=
  keyOrder prepared.hashAt prepared.chunks.value.length

/-- The space of the index over a previous entry's chunks. -/
def reuseIndexBytes : Option NoteEmbeddingEntry → ℕ
  | none => 0
  | some note => saturatingAdd vecBytes (saturatingMul note.chunks.length wordBytes)

/-- The vectors of a previous entry for chunks whose text it already has. Of several chunks
with one hash the search may return any; this is the first. -/
def reusedVectors (previous : Option NoteEmbeddingEntry) (prepared : PreparedNote) :
    List (Option (List F32)) :=
  prepared.chunks.value.map fun chunk =>
    previous.bind fun note =>
      (note.chunks.find? fun cached => cached.inputHash = chunk.inputHash).map ChunkEmbedding.vector

namespace StagedNote

def complete (draft : StagedNote) : Bool :=
  draft.vectors.length = draft.prepared.chunks.value.length && draft.vectors.all Option.isSome

def intoEntry (draft : StagedNote) : Except VaultError NoteEmbeddingEntry :=
  if !draft.complete then
    .error (.embedding "attempted to publish an incomplete note embedding".toList)
  else
    .ok {
      sourceRevision := draft.prepared.sourceRevision.value
      sourceBytes := draft.prepared.sourceBytes
      bodyRange := draft.prepared.bodyRange
      title := draft.prepared.title.value
      tags := draft.prepared.tags.value.map Buffer.value
      chunks := (draft.prepared.chunks.value.zip draft.vectors).map fun (chunk, vector) => {
        inputHash := chunk.inputHash
        vector := vector.getD []
        scope := chunk.scope
        range := chunk.range
        overlapRange := chunk.overlapRange
        headingPath := chunk.headingPath.value.map Buffer.value
        sectionRange := chunk.sectionRange
        blockKind := chunk.blockKind.map Buffer.value } }

/-- Where the block of a hash starts in the hash order. -/
def blockStart (draft : StagedNote) (hash : List ℕ) : ℕ :=
  partitionPoint (fun index => draft.prepared.hashAt index < hash) draft.hashOrder

def blockEnd (draft : StagedNote) (hash : List ℕ) : ℕ :=
  partitionPoint (fun index => draft.prepared.hashAt index ≤ hash) draft.hashOrder

/-- A chunk is sent when it lacks a vector and is the first with its hash. -/
def needsVector (draft : StagedNote) (index : ℕ) : Bool :=
  draft.vectors[index]? = some none &&
    draft.hashOrder[draft.blockStart (draft.prepared.hashAt index)]? = some index

/-- The chunks of a draft that go into the next request. -/
def jobs (draft : StagedNote) : List ℕ :=
  (List.range draft.prepared.chunks.value.length).filter draft.needsVector

/-- Copy a vector to the chunk at an index if that has none. -/
def copyVector (vector : List F32) (vectors : List (Option (List F32))) (index : ℕ) :
    List (Option (List F32)) :=
  if vectors[index]? = some none then vectors.set index (some vector) else vectors

/-- Fan a vector out to all chunks with the hash of the one it was computed for. -/
def fill (draft : StagedNote) (chunkIndex : ℕ) (vector : List F32) : StagedNote :=
  let hash := draft.prepared.hashAt chunkIndex
  let block := (draft.hashOrder.take (draft.blockEnd hash)).drop (draft.blockStart hash)
  let vectors := (block.filter fun index => index ≠ chunkIndex).foldl (copyVector vector)
    draft.vectors
  { draft with vectors := vectors.set chunkIndex (some vector) }

end StagedNote

/-! ## Requests -/

/-- The parts of an embedder that its implementations provide. -/
structure EmbedderCalls where
  planBatch : List Text → Except VaultError ℕ
  dispatchDocuments : List Text → Except VaultError (List (List F32))

/-- Embed a prefix of the texts; the count says which texts the outcome is about. -/
def embedNextBatch (calls : EmbedderCalls) (ownerLive : Bool) (texts : List Text) :
    ℕ × Except VaultError (List (List F32)) :=
  if !ownerLive then (1, .error (.embedding "embedding scope retired".toList))
  else
    match calls.planBatch texts with
    | .error error => (1, .error error)
    | .ok count =>
        if 0 < count ∧ count ≤ texts.length then (count, calls.dispatchDocuments (texts.take count))
        else (1, .error (.embedding "embedding request planner did not make progress".toList))

def validateEmbeddingBatch (vectors : List (List F32)) (expectedCount expectedDim : ℕ) :
    Except VaultError (List (List F32)) := do
  ensure (vectors.length = expectedCount)
    (.embedding ("embedding backend returned ".toList ++ displayNat vectors.length ++
      " vectors for ".toList ++ displayNat expectedCount ++ " inputs".toList))
  vectors.forM fun vector => validateVector vector expectedDim
  return vectors

end ObsidianMcp
