import ObsidianMcp.Library.Wire
import ObsidianMcp.Model.Embeddings

/-! # The embedding store and its cache file

Allocation failures are not modelled: the bytes a writer collects are a list. -/

namespace ObsidianMcp

open Text

/-- The JSON form of an identity, as the serialization crate writes and reads it. -/
structure IdentityJson where
  toVec : EmbeddingSpaceIdentity → Except Text (List UInt8)
  fromSlice : List UInt8 → Except Text EmbeddingSpaceIdentity

/-! ## Writing -/

structure CacheWriter where
  bytes : List UInt8
  counting : Bool
  length : ℕ

namespace CacheWriter

def new (counting : Bool) : CacheWriter := ⟨[], counting, 0⟩

def put (out : CacheWriter) (bytes : List UInt8) : Except VaultError CacheWriter := do
  let needed := out.length + bytes.length
  ensure (needed ≤ usizeMax) (.embedding "embedding cache size overflow".toList)
  ensure (!(needed > maxCacheBytes)) (.embedding "embedding cache is too large to persist".toList)
  return { out with
    bytes := if out.counting then out.bytes else out.bytes ++ bytes
    length := needed }

def number (out : CacheWriter) (value : ℕ) : Except VaultError CacheWriter := do
  ensure (value < 2 ^ 32)
    (.embedding "cache length exceeds supported integer range".toList)
  out.put (leBytes 4 value)

def string (out : CacheWriter) (text : Text) : Except VaultError CacheWriter := do
  let out ← out.number (byteLen text)
  out.put (utf8Bytes text)

def range (out : CacheWriter) (range : SourceRange) : Except VaultError CacheWriter := do
  let out ← out.number range.startByte
  out.number range.endByte

def flag (out : CacheWriter) (value : Bool) : Except VaultError CacheWriter :=
  out.put [if value then 1 else 0]

def optionalRange (out : CacheWriter) (range : Option SourceRange) :
    Except VaultError CacheWriter := do
  let out ← out.flag range.isSome
  match range with
  | some range => out.range range
  | none => return out

/-- The field with its presence flag, as the block kind is written. -/
def optionalString (out : CacheWriter) (text : Option Text) : Except VaultError CacheWriter := do
  let out ← out.flag text.isSome
  match text with
  | some text => out.string text
  | none => return out

end CacheWriter

def writeHeader (json : IdentityJson) (out : CacheWriter) (magic : List UInt8) (schema : ℕ)
    (identity : EmbeddingSpaceIdentity) (complete : Bool) (count : ℕ) :
    Except VaultError CacheWriter := do
  let out ← out.put magic
  let out ← out.put (leBytes 2 schema)
  match json.toVec identity with
  | .error error => cacheError ("cache identity serialization failed: ".toList ++ error)
  | .ok identity =>
      ensure (!(identity.length > maxNoteMetadataBytes))
        (.embedding "embedding identity exceeds supported metadata limit".toList)
      let out ← out.number identity.length
      let out ← out.put identity
      let out ← out.flag complete
      out.number count

def writeChunk (out : CacheWriter) (chunk : ChunkEmbedding) : Except VaultError CacheWriter := do
  let out ← out.put chunk.inputHash.toList
  let out ← out.flag (chunk.scope = .passage)
  let out ← out.range chunk.range
  let out ← out.optionalRange chunk.overlapRange
  let out ← out.number chunk.headingPath.length
  let out ← chunk.headingPath.foldlM CacheWriter.string out
  let out ← out.optionalRange chunk.sectionRange
  let out ← out.optionalString chunk.blockKind
  let out ← out.number chunk.vector.length
  chunk.vector.foldlM (fun out value => out.put (leBytes 4 value.toNat)) out

def writeEntry (out : CacheWriter) (path : Text) (entry : NoteEmbeddingEntry) :
    Except VaultError CacheWriter := do
  let out ← out.string path
  let out ← out.string entry.sourceRevision
  let out ← out.number entry.sourceBytes
  let out ← out.range entry.bodyRange
  let out ← out.string entry.title
  let out ← out.number entry.tags.length
  let out ← entry.tags.foldlM CacheWriter.string out
  let out ← out.number entry.chunks.length
  entry.chunks.foldlM writeChunk out

def encodedEntryLen (path : Text) (entry : NoteEmbeddingEntry) : Except VaultError ℕ := do
  let writer ← writeEntry (CacheWriter.new true) path entry
  return writer.length

def cacheHeaderLen (json : IdentityJson) (identity : EmbeddingSpaceIdentity) :
    Except VaultError ℕ := do
  let writer ← writeHeader json (CacheWriter.new true) cacheMagic cacheSchemaVersion identity
    false 0
  return writer.length

/-! ## The store -/

/-- Complete note projections with the totals that bound their cache file. -/
structure EmbeddingStore where
  embeddings : Table OsString NoteEmbeddingEntry
  dim : ℕ
  identity : Option EmbeddingSpaceIdentity
  firstPassComplete : Bool
  encodedEntriesBytes : ℕ
  totalChunks : ℕ

namespace EmbeddingStore

def newWithIdentity (identity : EmbeddingSpaceIdentity) : EmbeddingStore where
  embeddings := ∅
  dim := identity.dimension
  identity := some identity
  firstPassComplete := false
  encodedEntriesBytes := 0
  totalChunks := 0

def len (store : EmbeddingStore) : ℕ := store.embeddings.entries.length

/-- The size of the entry to be replaced, if there is one. -/
def encodedOldLen (path : Text) : Option NoteEmbeddingEntry → Except VaultError ℕ
  | some old => encodedEntryLen path old
  | none => .ok 0

def headerSize (json : IdentityJson) (store : EmbeddingStore) : Except VaultError ℕ :=
  match store.identity with
  | some identity => cacheHeaderLen json identity
  | none => .ok maxNoteMetadataBytes

/-- The checks of an insertion and the totals it leads to. -/
def planInsert (json : IdentityJson) (store : EmbeddingStore) (path : OsString)
    (entry : NoteEmbeddingEntry) : Except VaultError (ℕ × ℕ) := do
  match path.toStr with
  | none => cacheError "cache path is not UTF-8".toList
  | some pathText =>
      let _ ← validateCachePath pathText
      validateNoteEntry entry store.dim
      let entryBytes ← encodedEntryLen pathText entry
      let old := store.embeddings.lookup path
      let oldBytes ← encodedOldLen pathText old
      let oldChunks := (old.map fun old => old.chunks.length).getD 0
      let chunks := store.totalChunks - oldChunks + entry.chunks.length
      ensure (chunks ≤ usizeMax) (.embedding "embedding chunk count overflow".toList)
      let entriesBytes := store.encodedEntriesBytes - oldBytes + entryBytes
      ensure (entriesBytes ≤ usizeMax) (.embedding "embedding cache size overflow".toList)
      let notes := store.len + if old.isNone then 1 else 0
      ensure (!(chunks > maxCacheEntries || notes > maxCacheEntries))
        (.embedding "embedding cache contains too many entries or chunks".toList)
      let headerSize ← store.headerSize json
      ensure (!(saturatingAdd entriesBytes headerSize > maxCacheBytes))
        (.embedding "embedding cache is too large to persist".toList)
      return (chunks, entriesBytes)

/-- Replace one note's entry. -/
def insertNote (json : IdentityJson) (path : OsString) (entry : NoteEmbeddingEntry)
    (store : EmbeddingStore) : Except VaultError Unit × EmbeddingStore :=
  match store.planInsert json path entry with
  | .error error => (.error error, store)
  | .ok (chunks, entriesBytes) =>
      (.ok (), { store with
        embeddings := store.embeddings.insert path entry
        encodedEntriesBytes := entriesBytes
        totalChunks := chunks })

/-- The totals a removal leads to, if the path has an entry. -/
def planRemove (store : EmbeddingStore) (path : OsString) :
    Except VaultError (Option (ℕ × ℕ)) := do
  match store.embeddings.lookup path with
  | none => return none
  | some old =>
      match path.toStr with
      | none => cacheError "cache path is not UTF-8".toList
      | some pathText =>
          let oldBytes ← encodedEntryLen pathText old
          ensure (old.chunks.length ≤ store.totalChunks)
            (.embedding "embedding chunk accounting underflow".toList)
          ensure (oldBytes ≤ store.encodedEntriesBytes)
            (.embedding "embedding cache size accounting underflow".toList)
          return some (store.totalChunks - old.chunks.length,
            store.encodedEntriesBytes - oldBytes)

def remove (path : OsString) (store : EmbeddingStore) :
    Except VaultError Bool × EmbeddingStore :=
  match store.planRemove path with
  | .error error => (.error error, store)
  | .ok none => (.ok false, store)
  | .ok (some (totalChunks, encodedEntriesBytes)) =>
      (.ok true, { store with
        embeddings := store.embeddings.erase path
        encodedEntriesBytes := encodedEntriesBytes
        totalChunks := totalChunks })

/-- The loop of `retainPaths`, which stops at the first removal that fails. -/
def removeAll : List OsString → EmbeddingStore → Except VaultError Unit × EmbeddingStore
  | [], store => (.ok (), store)
  | path :: rest, store =>
      match store.remove path with
      | (.error error, store) => (.error error, store)
      | (.ok _, store) => removeAll rest store

/-- Drop the entries outside a set of paths. `keys` is the order in which the map yields its
keys. -/
def retainPaths (keys : List OsString) (paths : OsString → Bool) (store : EmbeddingStore) :
    Except VaultError Bool × EmbeddingStore :=
  let removed := keys.filter fun path => !paths path
  match store.removeAll removed with
  | (.error error, store) => (.error error, store)
  | (.ok _, store) => (.ok !removed.isEmpty, store)

def setFirstPassComplete (complete : Bool) (store : EmbeddingStore) : EmbeddingStore :=
  { store with firstPassComplete := complete }

/-- The entries in the order of their paths. -/
def sortedEntries (store : EmbeddingStore) : List (OsString × NoteEmbeddingEntry) :=
  (store.embeddings.entries.map fun e => (e.1, e.2)).mergeSort fun a b => a.1 ≤ b.1

/-- Write one entry of the cache file. -/
def encodeEntry (dim : ℕ) (out : CacheWriter) (e : OsString × NoteEmbeddingEntry) :
    Except VaultError CacheWriter := do
  match e.1.toStr with
  | none => cacheError "cache path is not UTF-8".toList
  | some path =>
      let _ ← validateCachePath path
      validateNoteEntry e.2 dim
      writeEntry out path e.2

def encodeCache (json : IdentityJson) (store : EmbeddingStore) :
    Except VaultError (List UInt8) := do
  match store.identity with
  | none => cacheError "embedding store has no vector-space identity".toList
  | some identity =>
      validateSpaceIdentity identity
      ensure (identity.dimension = store.dim)
        (.embedding "embedding store identity has an invalid dimension".toList)
      ensure (!(store.len > maxCacheEntries || store.totalChunks > maxCacheEntries))
        (.embedding "embedding cache contains too many entries or chunks".toList)
      let entries := store.sortedEntries
      let out ← writeHeader json (CacheWriter.new false) cacheMagic cacheSchemaVersion identity
        store.firstPassComplete entries.length
      let out ← entries.foldlM (encodeEntry store.dim) out
      return out.bytes

end EmbeddingStore

/-! ## Reading -/

/-- The unread bytes of the file and how many the file had left by its length. -/
structure CacheReader where
  reader : List UInt8
  remaining : ℕ

/-- A reading step. -/
abbrev Input (α : Type) := StateT CacheReader (Except VaultError) α

namespace CacheReader

def fail {α : Type} (message : Text) : Input α := fun _ => cacheError message

def take (length : ℕ) : Input (List UInt8) := fun input =>
  if length > input.remaining then cacheError "cache deserialize error: truncated field".toList
  else if input.reader.length < length then
    cacheError "cache deserialize error: failed to fill whole buffer".toList
  else
    .ok (input.reader.take length, ⟨input.reader.drop length, input.remaining - length⟩)

def array (n : ℕ) : Input (Vector UInt8 n) := fun input =>
  if n > input.remaining then cacheError "cache deserialize error: truncated field".toList
  else if h : input.reader.length < n then
    cacheError "cache deserialize error: failed to fill whole buffer".toList
  else
    .ok (⟨(input.reader.take n).toArray, by simp; omega⟩,
      ⟨input.reader.drop n, input.remaining - n⟩)

def u16 : Input ℕ := do
  return leValue (← array 2).toList

def number : Input ℕ := do
  return leValue (← array 4).toList

def count (maximum : ℕ) (kind : Text) : Input ℕ := do
  let value ← number
  if value > maximum then
    fail ("embedding cache contains too many ".toList ++ kind ++ ": ".toList ++
      displayNat value ++ " (limit ".toList ++ displayNat maximum ++ ")".toList)
  else return value

def flag : Input Bool := do
  let value := (← array 1).toList
  if value = [0] then return false
  else if value = [1] then return true
  else fail "cache deserialize error: invalid flag".toList

def bytes (maximum : ℕ) : Input (List UInt8) := do
  let length ← count maximum "field bytes".toList
  take length

def string (maximum : ℕ) : Input Text := do
  match fromUtf8 (← bytes maximum) with
  | some text => return text
  | none => fail "cache field is not UTF-8: invalid utf-8 sequence".toList

def range : Input SourceRange := do
  let startByte ← number
  let endByte ← number
  return ⟨startByte, endByte⟩

def optionalRange : Input (Option SourceRange) := do
  if ← flag then
    let range ← range
    return some range
  else return none

def optionalString (maximum : ℕ) : Input (Option Text) := do
  if ← flag then
    let text ← string maximum
    return some text
  else return none

end CacheReader

open CacheReader

/-- Strings that share one budget of bytes, of which `used` are spent. -/
def readStrings (maximum : ℕ) : ℕ → ℕ → Input (List Text)
  | 0, _ => return []
  | n + 1, used => do
      let text ← string (maximum - used)
      let rest ← readStrings maximum n (used + byteLen text)
      return text :: rest

def readVector : ℕ → Input (List F32)
  | 0 => return []
  | n + 1 => do
      let value ← array 4
      let rest ← readVector n
      return UInt32.ofNat (leValue value.toList) :: rest

def readChunk (dim : ℕ) (title : Text) : Input ChunkEmbedding := do
  let inputHash ← array 32
  let passage ← flag
  let scope := if passage then EvidenceScope.passage else EvidenceScope.note
  let range ← range
  let overlapRange ← optionalRange
  let headings ← count 6 "ancestor headings".toList
  let contextBytes := contextPrefixBytes title 0 headings
  if contextBytes > maxContextBytes then
    fail "embedding chunk context exceeds supported limit".toList
  else
    let headingPath ← readStrings maxContextBytes headings contextBytes
    let sectionRange ← optionalRange
    let blockKind ← optionalString maxContextBytes
    let vectorLength ← number
    if vectorLength ≠ dim then
      fail ("embedding dimension mismatch: expected ".toList ++ displayNat dim ++
        ", got ".toList ++ displayNat vectorLength)
    else
      let input ← get
      if saturatingMul vectorLength 4 > input.remaining then
        fail "cache deserialize error: truncated vector".toList
      else
        let vector ← readVector vectorLength
        return ⟨inputHash, vector, scope, range, overlapRange, headingPath, sectionRange,
          blockKind⟩

def readChunks (dim : ℕ) (title : Text) : ℕ → Input (List ChunkEmbedding)
  | 0 => return []
  | n + 1 => do
      let chunk ← readChunk dim title
      let rest ← readChunks dim title n
      return chunk :: rest

def readEntry (dim storedChunks : ℕ) : Input NoteEmbeddingEntry := do
  let sourceRevision ← string 64
  let sourceBytes ← count maxNoteSourceBytes "source bytes".toList
  let bodyRange ← range
  let title ← string maxNoteMetadataBytes
  let tagCount ← count maxNoteTags "tags".toList
  let tags ← readStrings maxNoteMetadataBytes tagCount (byteLen title)
  let chunkCount ← count (min maxNoteChunks (maxCacheEntries - storedChunks)) "chunks".toList
  let chunks ← readChunks dim title chunkCount
  return ⟨sourceRevision, sourceBytes, bodyRange, title, tags, chunks⟩

namespace EmbeddingStore

/-- The entry loop of `decodeFile`. -/
def decodeEntries (json : IdentityJson) : ℕ → EmbeddingStore → Input EmbeddingStore
  | 0, store => return store
  | n + 1, store => do
      let pathText ← string maxCachePathBytes
      let path ← (validateCachePath pathText : Except VaultError OsString)
      if (store.embeddings.lookup path).isSome then
        fail ("embedding cache contains duplicate path '".toList ++ pathText ++ "'".toList)
      else
        let entry ← readEntry store.dim store.totalChunks
        match store.insertNote json path entry with
        | (.error error, _) => throw error
        | (.ok _, store) => decodeEntries json n store

/-- What `decodeFile` reads, up to the last entry. -/
def decodeStore (json : IdentityJson) (expected : Option EmbeddingSpaceIdentity)
    (maxEntries : ℕ) : Input EmbeddingStore := do
  let magic ← array 8
  if magic.toList ≠ cacheMagic then
    fail "unsupported legacy embedding cache format or invalid magic".toList
  else
    let schema ← u16
    if schema ≠ cacheSchemaVersion then
      throw (.embeddingCacheIncompatible ("unsupported embedding cache schema version ".toList ++
        displayNat schema ++ "; rebuilding required".toList))
    else
      let identityBytes ← bytes maxNoteMetadataBytes
      match json.fromSlice identityBytes with
      | .error error => fail ("cache identity deserialize error: ".toList ++ error)
      | .ok identity =>
          (validateSpaceIdentity identity : Except VaultError Unit)
          if expected.any fun expected => identity ≠ expected then
            throw (.embeddingCacheIncompatible
              "embedding cache vector-space identity mismatch".toList)
          else
            let firstPassComplete ← flag
            let count ← count maxEntries "entries".toList
            decodeEntries json count
              { newWithIdentity identity with firstPassComplete := firstPassComplete }

/-- The store of a cache file whose content is `file`. -/
def decodeFile (json : IdentityJson) (file : List UInt8)
    (expected : Option EmbeddingSpaceIdentity) (maxEntries : ℕ) :
    Except VaultError EmbeddingStore :=
  if file.length > maxCacheBytes then cacheError "embedding cache is too large".toList
  else
    match decodeStore json expected maxEntries
        ⟨file.take (maxCacheBytes + 1), file.length⟩ with
    | .error error => .error error
    | .ok (store, input) =>
        if input.remaining ≠ 0 then
          cacheError "embedding cache contains trailing bytes".toList
        else if !input.reader.isEmpty then
          cacheError "embedding cache contains trailing bytes".toList
        else .ok store

end EmbeddingStore

end ObsidianMcp
