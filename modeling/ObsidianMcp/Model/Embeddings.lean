import ObsidianMcp.Library.Table
import ObsidianMcp.Model.Path

/-! # Embedding entries and their validation -/

namespace ObsidianMcp

open Text

def cacheMagic : List UInt8 := [0x4F, 0x42, 0x53, 0x4D, 0x43, 0x50, 0x45, 0x4D]
def cacheSchemaVersion : ℕ := 2
def embeddingInputVersion : ℕ := 2
def chunkingVersion : ℕ := 1
def maxCacheBytes : ℕ := 1024 * 1024 * 1024
def maxCacheEntries : ℕ := 1000000
def maxCachePathBytes : ℕ := 16 * 1024
def maxNoteTags : ℕ := 4096
def maxNoteMetadataBytes : ℕ := 64 * 1024
def maxCacheDimension : ℕ := 65536
def maxNoteChunks : ℕ := 4096
def maxContextBytes : ℕ := 16 * 1024
def maxNoteSourceBytes : ℕ := 16 * 1024 * 1024

/-- The largest value of the native unsigned word. -/
def usizeMax : ℕ := 2 ^ 64 - 1

abbrev Hash := Vector UInt8 32

/-- A single-precision number by its bit pattern. -/
abbrev F32 := UInt32

/-- Infinities and NaNs have an exponent of ones. -/
def F32.isFinite (value : F32) : Bool :=
  value.toNat / 2 ^ 23 % 2 ^ 8 ≠ 2 ^ 8 - 1

structure SourceRange where
  startByte : ℕ
  endByte : ℕ
  deriving DecidableEq

inductive EvidenceScope where
  | note
  | passage
  deriving DecidableEq

inductive EmbeddingBackendKind where
  | local
  | api
  deriving DecidableEq

/-- Identifies the vector space an embedding cache represents. -/
structure EmbeddingSpaceIdentity where
  backend : EmbeddingBackendKind
  model : Text
  endpointFingerprint : Option Hash
  dimension : ℕ
  inputVersion : ℕ
  tokenizerFingerprint : Hash
  maxInputTokens : ℕ
  chunkingVersion : ℕ
  deriving DecidableEq

/-- One vector and its source provenance. -/
structure ChunkEmbedding where
  inputHash : Hash
  vector : List F32
  scope : EvidenceScope
  range : SourceRange
  overlapRange : Option SourceRange
  headingPath : List Text
  sectionRange : Option SourceRange
  blockKind : Option Text
  deriving DecidableEq

/-- A complete semantic projection of one note revision. -/
structure NoteEmbeddingEntry where
  sourceRevision : Text
  sourceBytes : ℕ
  bodyRange : SourceRange
  title : Text
  tags : List Text
  chunks : List ChunkEmbedding
  deriving DecidableEq

def cacheError {α : Type} (message : Text) : Except VaultError α :=
  .error (.embedding message)

/-- Fail with an error unless a check holds. -/
def ensure (check : Bool) (error : VaultError) : Except VaultError Unit :=
  if check then .ok () else .error error

/-! ## Validation -/

def validateRange (range : SourceRange) (sourceBytes : ℕ) : Except VaultError Unit :=
  ensure (!(range.startByte > range.endByte || range.endByte > sourceBytes))
    (.embedding "embedding cache contains an invalid source range".toList)

/-- Native addition that stops at the largest word. -/
def saturatingAdd (m n : ℕ) : ℕ :=
  min (m + n) usizeMax

/-- Native multiplication that stops at the largest word. -/
def saturatingMul (m n : ℕ) : ℕ :=
  min (m * n) usizeMax

def contextPrefixBytes (title : Text) (headingBytes headingCount : ℕ) : ℕ :=
  let titleBytes := saturatingAdd (byteLen title) 1
  if headingCount = 0 then titleBytes
  else
    saturatingAdd
      (saturatingAdd (saturatingAdd titleBytes headingBytes)
        (saturatingMul (headingCount - 1) 3)) 1

def validateNoteMetadata (title : Text) (tags : List Text) : Except VaultError Unit := do
  ensure (!(tags.length > maxNoteTags))
    (.semanticResourceLimit "embedding note tags".toList tags.length maxNoteTags)
  let metadataBytes := tags.foldl (fun total tag => saturatingAdd total (byteLen tag))
    (byteLen title)
  ensure (!(metadataBytes > maxNoteMetadataBytes))
    (.semanticResourceLimit "embedding note metadata bytes".toList metadataBytes
      maxNoteMetadataBytes)

def validateVector (vector : List F32) (expectedDim : ℕ) : Except VaultError Unit := do
  ensure (vector.length = expectedDim)
    (.embedding ("embedding dimension mismatch: expected ".toList ++ displayNat expectedDim ++
      ", got ".toList ++ displayNat vector.length))
  ensure (!vector.any fun value => !value.isFinite)
    (.embedding "embedding vector contains a non-finite value".toList)

def validateOverlap (entry : NoteEmbeddingEntry) (chunk : ChunkEmbedding) :
    Except VaultError Unit :=
  match chunk.overlapRange with
  | none => .ok ()
  | some overlap => do
      validateRange overlap entry.sourceBytes
      ensure (!(overlap.startByte < entry.bodyRange.startByte ||
          overlap.endByte > chunk.range.startByte))
        (.embedding "embedding overlap is outside its preceding source".toList)

def validateSection (entry : NoteEmbeddingEntry) (chunk : ChunkEmbedding) :
    Except VaultError Unit :=
  match chunk.sectionRange with
  | none => .ok ()
  | some range => do
      validateRange range entry.sourceBytes
      ensure (!(range.startByte > chunk.range.startByte || range.endByte < chunk.range.endByte))
        (.embedding "embedding chunk is outside its section".toList)

/-- The checks of one chunk, which has to start at `nextByte`. -/
def validateChunk (entry : NoteEmbeddingEntry) (dim nextByte : ℕ) (chunk : ChunkEmbedding) :
    Except VaultError ℕ := do
  validateVector chunk.vector dim
  validateRange chunk.range entry.sourceBytes
  ensure (!(chunk.range.startByte ≠ nextByte || chunk.range.endByte < chunk.range.startByte ||
      (chunk.range.startByte = chunk.range.endByte &&
        entry.bodyRange.startByte ≠ entry.bodyRange.endByte)))
    (.embedding "embedding chunk ranges do not cover the complete body exactly".toList)
  validateOverlap entry chunk
  validateSection entry chunk
  let contextBytes := contextPrefixBytes entry.title (chunk.headingPath.map byteLen).sum
    chunk.headingPath.length
  ensure (!(chunk.headingPath.length > 6 || contextBytes > maxContextBytes))
    (.embedding "embedding chunk context exceeds supported limit".toList)
  ensure (!chunk.blockKind.any fun kind => byteLen kind > maxContextBytes)
    (.embedding "embedding block metadata exceeds supported limit".toList)
  ensure (!(chunk.scope = .note && (entry.chunks.length ≠ 1 || chunk.range ≠ entry.bodyRange ||
      !chunk.headingPath.isEmpty || chunk.sectionRange.isSome)))
    (.embedding "whole-note embedding has invalid evidence metadata".toList)
  return chunk.range.endByte

/-- A lowercase hexadecimal digit. -/
def isRevisionDigit (c : Char) : Bool :=
  ('0' ≤ c && c ≤ '9') || ('a' ≤ c && c ≤ 'f')

def validateNoteEntry (entry : NoteEmbeddingEntry) (dim : ℕ) : Except VaultError Unit := do
  ensure (!(byteLen entry.sourceRevision ≠ 64 || !entry.sourceRevision.all isRevisionDigit))
    (.embedding ("embedding cache entry has an invalid source revision or ".toList ++
      "prepared-text hash".toList))
  ensure (!(entry.sourceBytes > maxNoteSourceBytes))
    (.embedding "embedding source exceeds supported byte limit".toList)
  validateRange entry.bodyRange entry.sourceBytes
  ensure (entry.bodyRange.endByte = entry.sourceBytes)
    (.embedding "embedding body range must end at source EOF".toList)
  validateNoteMetadata entry.title entry.tags
  ensure (!(entry.chunks.isEmpty || entry.chunks.length > maxNoteChunks))
    (.embedding "embedding note has an invalid chunk count".toList)
  ensure (!(entry.bodyRange.startByte = entry.bodyRange.endByte &&
      (entry.chunks.length ≠ 1 || !(entry.chunks.head?.any fun chunk => chunk.scope = .note))))
    (.embedding "an empty note body requires one whole-note embedding".toList)
  let nextByte ← entry.chunks.foldlM (validateChunk entry dim) entry.bodyRange.startByte
  ensure (nextByte = entry.bodyRange.endByte)
    (.embedding "embedding chunks omit body content".toList)

def validateSpaceIdentity (identity : EmbeddingSpaceIdentity) : Except VaultError Unit := do
  ensure (!(identity.dimension = 0 || identity.dimension > maxCacheDimension))
    (.embedding ("embedding dimension is outside supported bounds (1..=".toList ++
      displayNat maxCacheDimension ++ ")".toList))
  ensure (!((trim identity.model).isEmpty || byteLen identity.model > maxCachePathBytes))
    (.embedding "embedding cache model identity must not be empty".toList)
  ensure (identity.inputVersion = embeddingInputVersion)
    (.embeddingCacheIncompatible ("unsupported embedding input version ".toList ++
      displayNat identity.inputVersion))
  ensure (identity.maxInputTokens ≠ 0)
    (.embedding "embedding input capacity must be positive".toList)
  ensure (identity.chunkingVersion = chunkingVersion)
    (.embeddingCacheIncompatible ("unsupported embedding chunking version ".toList ++
      displayNat identity.chunkingVersion))
  match identity.backend, identity.endpointFingerprint with
  | .local, none => .ok ()
  | .api, some _ => .ok ()
  | .local, some _ =>
      cacheError
        "local embedding cache identity must not contain an API endpoint fingerprint".toList
  | .api, none =>
      cacheError "API embedding cache identity is missing its endpoint fingerprint".toList

def validateCachePath (path : Text) : Except VaultError OsString := do
  ensure (!(path.isEmpty || byteLen path > maxCachePathBytes || path.elem '\\'))
    (.embedding ("invalid embedding cache path '".toList ++ path ++ "'".toList))
  match VaultPath.parse path with
  | .error error =>
      cacheError ("invalid embedding cache path '".toList ++ path ++ "': ".toList ++
        error.display)
  | .ok normalized =>
      ensure (normalized.asStr = path)
        (.embedding ("embedding cache path is not normalized: '".toList ++ path ++ "'".toList))
      return utf8Bytes normalized.asStr

end ObsidianMcp
