import ObsidianMcp.Library.Components
import ObsidianMcp.Model.EmbeddingChunks

/-! # Preparation of a note for embedding

The title, the tags and the chunks of a note, prepared within a budget. -/

namespace ObsidianMcp.Chunks

open Text

/-! ## The size of the frontmatter -/

/-- A YAML value as the deserializer hands it to a visitor, down to where it is no YAML. -/
inductive YamlNode where
  | scalar
  | text (bytes : ℕ)
  | sequence (items : List YamlNode)
  | mapping (entries : List (YamlNode × YamlNode))
  | invalid (message : Text)

/-- Why a value is not measured. -/
inductive MeasureFailure where
  | exceeded (bytes : ℕ)
  | failed (message : Text)
  deriving DecidableEq

/-- The size of a JSON value and the bytes that the visitor has left. -/
structure ValueAllocationSize where
  jsonValue : ℕ
  available : ℕ

namespace ValueAllocationSize

variable (visitor : ValueAllocationSize)

def accept (bytes : ℕ) : Except MeasureFailure ℕ :=
  if visitor.available < bytes then .error (.exceeded bytes) else .ok bytes

def sequenceBytes (length nested : ℕ) : ℕ :=
  saturatingAdd nested
    (saturatingMul (InlineTags.allocationCapacityBound length) visitor.jsonValue)

def mappingBytes (length nested : ℕ) : ℕ :=
  saturatingAdd nested (saturatingMul length 1024)

mutual

/-- The bytes of a value at a depth. -/
def deserialize (depth : ℕ) (node : YamlNode) : Except MeasureFailure ℕ :=
  if 128 < depth then .error (.failed "frontmatter nesting exceeds 128 levels".toList)
  else
    match node with
    | .scalar => .ok 0
    | .text bytes => visitor.accept bytes
    | .sequence items => visitSeq depth items 0 0
    | .mapping entries => visitMap depth entries 0 0
    | .invalid message => .error (.failed message)

def visitSeq (depth : ℕ) : List YamlNode → ℕ → ℕ → Except MeasureFailure ℕ
  | [], length, nested => .ok (visitor.sequenceBytes length nested)
  | item :: items, length, nested => do
      let bytes ← deserialize (depth + 1) item
      let _ ← visitor.accept (visitor.sequenceBytes (length + 1) (saturatingAdd nested bytes))
      visitSeq depth items (length + 1) (saturatingAdd nested bytes)

def visitMap (depth : ℕ) : List (YamlNode × YamlNode) → ℕ → ℕ → Except MeasureFailure ℕ
  | [], length, nested => .ok (mappingBytes length nested)
  | (key, value) :: entries, length, nested => do
      let keyBytes ← deserialize (depth + 1) key
      let valueBytes ← deserialize (depth + 1) value
      let nested := saturatingAdd (saturatingAdd nested keyBytes) valueBytes
      let _ ← visitor.accept (mappingBytes (length + 1) nested)
      visitMap depth entries (length + 1) nested

end

end ValueAllocationSize

/-! ## Blocks -/

/-- The names of the kinds of blocks. -/
def blockKinds : List Text :=
  ["paragraph".toList, "heading".toList, "quote".toList, "code".toList, "html".toList,
    "list".toList, "table".toList, "metadata".toList, "other".toList, "rule".toList]

/-! ## Tags -/

/-- What a preparation takes from other libraries: the parsers of Markdown and YAML, the capacities
of collected vectors and the digest of a text. -/
structure PreparationSource extends NoteSource where
  events : Text → InlineTags.Events
  structureBytes : Text → ℕ
  markdownStructure : Text → Except VaultError MarkdownStructure
  yamlNode : Text → YamlNode
  jsonValue : ℕ
  collected : List Text → Buffer (List (Buffer Text))
  textHash : Text → Hash

/-- The space of the tags in a frontmatter. -/
def frontmatterTagBytes (displayJson : Json → Text) (frontmatter : Json) : ℕ :=
  let itemBytes : Json → ℕ := fun item =>
    match item with
    | .string text => byteLen text
    | other =>
        let length := byteLen (displayJson other)
        max (if InlineTags.nextPowerOfTwo length ≤ usizeMax then InlineTags.nextPowerOfTwo length
          else usizeMax) 128
  let (count, textBytes) :=
    match frontmatter with
    | .object fields =>
        match Fields.get "tags".toList fields with
        | some (.string text) =>
            (((text.splitOn ',').filter fun part => !(trim part).isEmpty).length, byteLen text)
        | some (.array items) =>
            let items := items.filter fun item =>
              match item with
              | .null => false
              | _ => true
            (items.length, saturatingSum (items.map itemBytes))
        | _ => (0, 0)
    | _ => (0, 0)
  saturatingAdd textBytes (saturatingMul (InlineTags.allocationCapacityBound count) vecBytes)

/-- The tags in order, each once; equal tags may differ in their capacities. -/
def sortedDedupBuffers (tags : List (Buffer Text)) : List (Buffer Text) :=
  (tags.mergeSort fun a b => a.value ≤ b.value).destutter fun a b => a.value ≠ b.value

section

variable (source : PreparationSource) (p : Preparation) (path : OsString) (raw : Text)

/-- The bytes of the frontmatter value, when as many bytes are in use. -/
def yamlBytes (used : ℕ) : Except Failure ℕ :=
  match extractRawFrontmatter raw with
  | none => .ok 0
  | some (yaml, _) =>
      if trim yaml = [] then .ok 0
      else
        match ValueAllocationSize.deserialize ⟨source.jsonValue, p.limit - used⟩ 0
          (source.yamlNode yaml) with
        | .ok bytes => .ok bytes
        | .error (.exceeded bytes) =>
            .error (.error (.semanticResourceLimit budgetResource (saturatingAdd used bytes) p.limit))
        | .error (.failed message) =>
            .error (.error (.frontmatterParse (source.text.toStringLossy path) message))

/-- The tags behind the inline tags, in a vector with room for both. -/
def mergeTags (tags inlineTags : Buffer (List (Buffer Text))) : Buffer (List (Buffer Text)) :=
  ⟨sortedDedupBuffers (tags.value ++ inlineTags.value),
    if inlineTags.value.length ≤ tags.capacity - tags.value.length then tags.capacity
    else p.capacity (tags.value.length + inlineTags.value.length)⟩

def sourceTags (inlineBytes : ℕ) : Preparing (Buffer (List (Buffer Text))) := scope do
  let bytes ← reading (yamlBytes source p path raw)
  p.reserve .yaml bytes
  let frontmatter ← raise ((parseFrontmatter source.yaml raw).mapError Failure.error)
  let tagBytes := (frontmatter.map (frontmatterTagBytes source.displayJson)).getD 0
  p.reserve .tags tagBytes
  let tags := (frontmatter.map fun frontmatter =>
    source.collected (extractFrontmatterTags source.displayJson frontmatter)).getD ⟨[], 0⟩
  release .yaml
  p.reserve .inlineTags inlineBytes
  let inlineTags := source.collected (extractInlineTags source.toNoteSource raw)
  let required := saturatingAdd tags.value.length inlineTags.value.length
  let extraHeaders := saturatingMul (required - tags.capacity) vecBytes
  p.reserve .merge extraHeaders
  let tags := mergeTags p tags inlineTags
  let retained := stringVecBytes tags
  let reserved := saturatingAdd (saturatingAdd tagBytes inlineBytes) extraHeaders
  raise (checkLimit budgetResource retained reserved)
  release .merge
  release .inlineTags
  release .tags
  p.retain retained
  return tags

end

/-! ## Notes -/

/-- The name of a file without its last extension. -/
def fileStem (path : OsString) : Option OsString :=
  match (Unix.components 0x2F 0x2E path).getLast? with
  | some (.normal name) =>
      let stem := (name.rdropWhile fun byte => byte ≠ 0x2E).dropLast
      some (if 0x2E ∈ name ∧ stem ≠ [] then stem else name)
  | _ => none

/-- A check that only a validation makes. -/
def checked (check : Except VaultError Unit) : Preparing Unit :=
  raise (check.mapError Failure.error)

variable (source : PreparationSource) (p : Preparation) (path : OsString) (raw : Text)

/-- The chunks of a note: the whole note as one, if it fits, and else those of its sections. -/
def prepareChunks (title : Text) (body : SourceRange) : Preparing ChunkList := do
  let contextBytes := contextPrefixBytes title 0 0
  raise (checkLimit "embedding context bytes".toList contextBytes maxContextBytes)
  p.reserve .context contextBytes
  let lead := title ++ ['\n']
  let fullInput ← reading fun used => p.compose used lead raw none body
  let tokens ← raise (p.counted fullInput.value)
  if tokens ≤ p.maxTokens then
    let chunks ← p.appendChunk source.textHash ⟨[], 0⟩ fullInput .note body none [] none none
    release .context
    return chunks
  else
    release .context
    p.reserve .workspace (source.structureBytes raw)
    let markdown ← raise ((source.markdownStructure raw).mapError Failure.error)
    let chunks ← p.prepareSections source.textHash raw title body markdown ⟨[], 0⟩
    release .workspace
    return chunks

/-- The note before the last check. -/
def draftNote : Preparing PreparedNote := do
  raise (checkLimit "semantic source bytes".toList (byteLen raw) maxSourceBytes)
  p.retain (p.layout.preparedNote + 64)
  let title ← raise (match (fileStem path).bind OsString.toStr with
    | some title => .ok title
    | none => .error (.error (.invalidPath
        ("note has no UTF-8 filename: ".toList ++ source.text.toStringLossy path))))
  p.retain (byteLen title)
  let inlineBytes := InlineTags.inlineTagAllocationBound (source.events raw)
    (inlineTagsFrom source.isWord 0 0 true raw)
  let tags ← sourceTags source p path raw inlineBytes
  checked (validateNoteMetadata title (tags.value.map Buffer.value))
  let body : SourceRange :=
    ⟨((extractRawFrontmatter raw).map Prod.snd).getD 0, byteLen raw⟩
  let chunks ← prepareChunks source p raw title body
  raise (validateCoverage raw body chunks.value)
  return {
    sourceRevision := ⟨source.sourceRevision raw, p.capacity 64⟩
    sourceBytes := byteLen raw
    bodyRange := body
    title := p.owned title
    tags := tags
    chunks := chunks }

def prepareBudgeted : Preparing PreparedNote := scope do
  let note ← draftNote source p path raw
  raise (checkLimit budgetResource (note.stagingBytes p.layout p.dimension) p.limit)
  return note

end ObsidianMcp.Chunks
