import ObsidianMcp.Library.BinarySearch
import ObsidianMcp.Library.Boundaries
import ObsidianMcp.Library.Loop
import ObsidianMcp.Model.EmbeddingDraft
import ObsidianMcp.Model.InlineTags

/-! # Chunks for embedding

A note whose whole text does not fit the input of the model is cut into chunks, section by section.
The model counts the tokens of a text, and more text may have fewer tokens. Every allocation is
charged to a budget. -/

namespace ObsidianMcp.Chunks

open Text

def overlapTokens : ℕ := 32
def maxSplitProbes : ℕ := 4096
def budgetResource : Text := "embedding preparation budget".toList

/-- A top-level block of a note. -/
structure MarkdownBlock where
  start : ℕ
  stop : ℕ
  kind : Text
  deriving DecidableEq

structure MarkdownStructure where
  headings : List HeadingPos
  blocks : List MarkdownBlock

structure Section where
  range : SourceRange
  headingPath : List Text
  sectionRange : SourceRange
  headingEnd : ℕ
  deriving DecidableEq

/-- What ends a preparation: an error, a slice or an index out of bounds, a release of more bytes
than are in use, or a loop that goes on for ever. -/
inductive Failure where
  | error (error : VaultError)
  | panic
  | underflow
  | endless
  deriving DecidableEq

/-- The model and the limits of one preparation. An allocation gets a capacity for the one that it
asks for. -/
structure Preparation where
  maxTokens : ℕ
  count : Text → Except VaultError ℕ
  dimension : ℕ
  limit : ℕ
  layout : Layout
  capacity : ℕ → ℕ

def checkLimit (resource : Text) (actual limit : ℕ) : Except Failure Unit :=
  if limit < actual then .error (.error (.semanticResourceLimit resource actual limit)) else .ok ()

def orPanic {α : Type} : Option α → Except Failure α
  | some a => .ok a
  | none => .error .panic

def sliceOf (raw : Text) (start stop : ℕ) : Except Failure Text :=
  orPanic (sliceAt raw start stop)

def nextBoundary (raw : Text) (start : ℕ) : Except Failure ℕ := do
  let rest ← sliceOf raw start (byteLen raw)
  return start + (rest.head?.map Char.utf8Size).getD 0

/-! ## Composed texts -/

namespace Preparation

variable (p : Preparation) (used : ℕ)

def check (bytes : ℕ) : Except Failure Unit :=
  checkLimit budgetResource (saturatingAdd used bytes) p.limit

def counted (text : Text) : Except Failure ℕ :=
  (p.count text).mapError .error

variable (lead raw : Text) (overlap : Option SourceRange)

/-- The text of a range behind its context and its overlap. -/
def compose (range : SourceRange) : Except Failure (Buffer Text) := do
  let overlapBytes := (overlap.map fun overlap => overlap.endByte - overlap.startByte + 1).getD 0
  let bytes := saturatingAdd (saturatingAdd (byteLen lead) overlapBytes)
    (range.endByte - range.startByte)
  p.check used bytes
  let before ← match overlap with
    | some overlap => (sliceOf raw overlap.startByte overlap.endByte).map fun text => text ++ ['\n']
    | none => .ok []
  let text ← sliceOf raw range.startByte range.endByte
  return ⟨lead ++ before ++ text, p.capacity bytes⟩

def tokens (range : SourceRange) : Except Failure ℕ := do
  let text ← p.compose used lead raw overlap range
  p.counted text.value

def fits (range : SourceRange) : Except Failure Bool := do
  let tokens ← p.tokens used lead raw overlap range
  return decide (tokens ≤ p.maxTokens)

/-! ## The end of a chunk -/

variable (start sectionEnd : ℕ)

/-- The search for an end: the last one that fits, and the one to try next. -/
structure Fitting where
  knownFit : Option ℕ
  stop : ℕ

/-- One round of the search; where nothing fits, the ends are probed one by one. -/
def fittingRound (probe : Except Failure ℕ) (firstEnd : ℕ) (fitting : Fitting) :
    Except Failure (Fitting ⊕ ℕ) := do
  let tokens ← p.tokens used lead raw overlap ⟨start, fitting.stop⟩
  if tokens ≤ p.maxTokens then
    if fitting.stop = sectionEnd then return .inr fitting.stop
    let stop := floorCharBoundary raw
      (min (saturatingAdd start (saturatingMul (fitting.stop - start) 2)) sectionEnd)
    let next ← nextBoundary raw fitting.stop
    return .inl ⟨some fitting.stop, max stop next⟩
  match fitting.knownFit with
  | some stop => return .inr stop
  | none =>
      if fitting.stop = firstEnd then return .inr (← probe)
      return .inl ⟨none, max (floorCharBoundary raw (start + (fitting.stop - start) / 2)) firstEnd⟩

/-- The rounds of the search, as many as the fuel allows. -/
def fittingRounds (probe : Except Failure ℕ) (firstEnd : ℕ) : ℕ → Fitting → Except Failure ℕ
  | 0, _ => .error .endless
  | fuel + 1, fitting => do
      match ← p.fittingRound used lead raw overlap start sectionEnd probe firstEnd fitting with
      | .inl fitting => fittingRounds probe firstEnd fuel fitting
      | .inr stop => return stop

/-- The search with any way to probe. Its rounds are bounded by the bytes to choose from. -/
def fittingEndWith (probe : Except Failure ℕ) : Except Failure ℕ := do
  let firstEnd ← nextBoundary raw start
  let initialBytes := max (saturatingMul p.maxTokens 4) 4
  let stop := max (floorCharBoundary raw (min (saturatingAdd start initialBytes) sectionEnd)) firstEnd
  p.fittingRounds used lead raw overlap start sectionEnd probe firstEnd
    (2 * (sectionEnd - start) + 2) ⟨none, stop⟩

/-- The probes of the ends behind the characters that are left. -/
def probeFrom : Text → ℕ → ℕ → ℕ → Except Failure ℕ
  | [], _, _, minimumTokens =>
      .error (.error (.embeddingInputTooLong minimumTokens p.maxTokens))
  | c :: chars, offset, probes, minimumTokens => do
      if probes = maxSplitProbes then
        throw (.error (.semanticResourceLimit "embedding split boundary probes".toList (probes + 1)
          maxSplitProbes))
      let stop := offset + c.utf8Size
      let tokens ← p.tokens used lead raw overlap ⟨start, stop⟩
      if tokens ≤ p.maxTokens then return stop
      probeFrom chars stop (probes + 1) (min minimumTokens tokens)

def probeAdvancingPrefix : Except Failure ℕ := do
  let chars ← sliceOf raw start sectionEnd
  p.probeFrom used lead raw overlap start chars start 0 usizeMax

/-- Find a validated advancing prefix without assuming that token counts are monotone. -/
def fittingEnd : Except Failure ℕ :=
  p.fittingEndWith used lead raw overlap start sectionEnd
    (p.probeAdvancingPrefix used lead raw overlap start sectionEnd)

end Preparation

/-! ## The cut of a chunk -/

/-- The ends of the last sentence, line and word. -/
structure Cuts where
  sentence : ℕ
  line : ℕ
  word : ℕ

def isSentenceEnd (c : Char) : Bool :=
  c = '.' || c = '!' || c = '?' || c = '。' || c = '！' || c = '？'

/-- The cuts in the characters from an offset on; `after` is the text behind them. -/
def scanCuts (after : Text) : Text → ℕ → Cuts → Cuts
  | [], _, cuts => cuts
  | c :: chars, offset, cuts =>
      let stop := offset + c.utf8Size
      scanCuts after chars stop
        { line := if c = '\n' then stop else cuts.line
          word := if isWhitespace c then stop else cuts.word
          sentence :=
            if isSentenceEnd c && ((chars ++ after).head?).all isWhitespace then stop
            else cuts.sentence }

/-- The end of the last block that ends no later than an offset. -/
def lastBlockEnd (blocks : List MarkdownBlock) (start validEnd : ℕ) : ℕ :=
  match BinarySearch.partitionPoint (fun block : MarkdownBlock => block.stop ≤ validEnd) blocks with
  | 0 => start
  | index + 1 => (blocks[index]?.map MarkdownBlock.stop).getD start

def containingBlock (blocks : List MarkdownBlock) (offset : ℕ) : Option MarkdownBlock :=
  blocks[BinarySearch.partitionPoint (fun block : MarkdownBlock => block.stop ≤ offset) blocks]?.filter
    fun block => block.start ≤ offset

/-- The block that a range cuts. -/
def splitBlock (blocks : List MarkdownBlock) (range : SourceRange) : Option MarkdownBlock :=
  ((containingBlock blocks range.startByte).filter fun block =>
      block.start < range.startByte || range.endByte < block.stop).or
    ((containingBlock blocks (range.endByte - 1)).filter fun block => range.endByte < block.stop)

namespace Preparation

variable (p : Preparation) (used : ℕ) (lead raw : Text) (overlap : Option SourceRange) (start : ℕ)

/-- The first cut behind a minimum that fits. -/
def chooseCut (minimumCut validEnd : ℕ) : List ℕ → Except Failure ℕ
  | [] => .ok validEnd
  | stop :: stops => do
      if stop ≤ minimumCut ∨ validEnd < stop then chooseCut minimumCut validEnd stops
      else if stop = validEnd then return stop
      else if ← p.fits used lead raw overlap ⟨start, stop⟩ then return stop
      else chooseCut minimumCut validEnd stops

/-- Where the first chunk of a section must not be cut before. -/
def minimumCut (part : Section) : Except Failure ℕ := do
  if start = part.range.startByte then
    let text ← sliceOf raw part.headingEnd part.range.endByte
    return if text.any fun c => !isWhitespace c then part.headingEnd else start
  else return start

def preferredEnd (part : Section) (blocks : List MarkdownBlock) (validEnd : ℕ) :
    Except Failure ℕ := do
  if validEnd = part.range.endByte then return validEnd
  let blockEnd := lastBlockEnd blocks start validEnd
  let chars ← sliceOf raw start validEnd
  let after ← sliceOf raw validEnd (byteLen raw)
  let cuts := scanCuts after chars start ⟨start, start, start⟩
  let minimum ← minimumCut raw start part
  p.chooseCut used lead raw overlap start minimum validEnd
    [blockEnd, cuts.sentence, cuts.line, cuts.word]

/-! ## The overlap of a chunk -/

/-- The rounds of the search for an overlap that starts at an offset or behind it. -/
def overlapRounds (firstEnd : ℕ) : ℕ → ℕ → Except Failure (Option SourceRange)
  | 0, _ => .error .endless
  | fuel + 1, overlapStart => do
      if start ≤ overlapStart then return none
      let before ← sliceOf raw overlapStart start
      let tokens ← p.counted before
      if tokens ≤ overlapTokens then
        if ← p.fits used lead raw (some ⟨overlapStart, start⟩) ⟨start, firstEnd⟩ then
          return some ⟨overlapStart, start⟩
      overlapRounds firstEnd fuel
        (ceilCharBoundary raw (overlapStart + (start - overlapStart + 1) / 2))

def precedingOverlap (part : Section) (block : Option MarkdownBlock) :
    Except Failure (Option SourceRange) :=
  match block.filter fun block => part.range.startByte < start && block.start < start with
  | none => .ok none
  | some block => do
      let firstEnd ← nextBoundary raw start
      let overlapStart := ceilCharBoundary raw
        (max (max (start - overlapTokens * 8) block.start) part.range.startByte)
      p.overlapRounds used lead raw start firstEnd (start + 1) overlapStart

end Preparation

/-! ## The budget -/

/-- The reservations of workspace, by the variables that hold them. -/
inductive Guard where
  | context
  | yaml
  | tags
  | inlineTags
  | merge
  | workspace
  | ends
  deriving DecidableEq

/-- The bytes in use and the reservations that have not been released, the last one first. The
highest number of bytes that were in use is for the history; nothing computes with it. -/
structure Memory where
  used : ℕ := 0
  reserved : List (Guard × ℕ) := []
  highest : ℕ := 0
  deriving DecidableEq

def Memory.setUsed (used : ℕ) (memory : Memory) : Memory :=
  { memory with used := used, highest := max memory.highest used }

/-- A computation on the budget. -/
abbrev Preparing := EStateM Failure Memory

/-- Look at the bytes in use. -/
def reading {α : Type} (f : ℕ → Except Failure α) : Preparing α := fun memory =>
  raise (f memory.used) memory

namespace Preparation

variable (p : Preparation)

def retain (bytes : ℕ) : Preparing Unit := do
  reading fun used => p.check used bytes
  modify fun memory => memory.setUsed (memory.used + bytes)

def reserve (guard : Guard) (bytes : ℕ) : Preparing Unit := do
  p.retain bytes
  modify fun memory => { memory with reserved := (guard, bytes) :: memory.reserved }

end Preparation

/-- Take the bytes of a reservation back. -/
def giveBack (bytes : ℕ) : Preparing Unit := do
  let memory ← get
  if memory.used < bytes then throw .underflow
  set (memory.setUsed (memory.used - bytes))

/-- Release the reservation that a variable holds. -/
def release (guard : Guard) : Preparing Unit := do
  let memory ← get
  match memory.reserved.find? fun entry => entry.1 = guard with
  | none => return ()
  | some entry =>
      set { memory with reserved := memory.reserved.erase entry }
      giveBack entry.2

/-- Release reservations, the last one first. -/
def releaseLast : ℕ → Preparing Unit
  | 0 => return ()
  | n + 1 => do
      let memory ← get
      match memory.reserved with
      | [] => return ()
      | entry :: reserved =>
          set { memory with reserved := reserved }
          giveBack entry.2
          releaseLast n

/-- The body of a function: at its end, whatever it is, its reservations are released. -/
def scope {α : Type} (body : Preparing α) : Preparing α := fun memory =>
  match body memory with
  | .ok a after =>
      (releaseLast (after.reserved.length - memory.reserved.length) >>= fun _ => pure a) after
  | .error failure after =>
      (releaseLast (after.reserved.length - memory.reserved.length) >>= fun _ => throw failure) after

/-! ## Sections -/

/-- The chunks of a note so far. -/
abbrev ChunkList := Buffer (List PreparedChunk)

namespace Preparation

variable (p : Preparation) (textHash : Text → Hash)

/-- The bytes of a heading path and of the kind of a block. -/
def metadataBytes (headingPath : List Text) (blockKind : Option Text) : ℕ :=
  saturatingAdd (saturatingAdd (saturatingMul headingPath.length vecBytes)
    (headingPath.map byteLen).sum) ((blockKind.map byteLen).getD 0)

/-- An own copy of a text. -/
def owned (text : Text) : Buffer Text :=
  ⟨text, p.capacity (byteLen text)⟩

/-- The record of a chunk. -/
def chunkRecord (text : Buffer Text) (scope : EvidenceScope) (range : SourceRange)
    (overlapRange : Option SourceRange) (headingPath : List Text)
    (sectionRange : Option SourceRange) (blockKind : Option Text) : PreparedChunk where
  text := text
  inputHash := textHash text.value
  scope := scope
  range := range
  overlapRange := overlapRange
  headingPath := ⟨headingPath.map p.owned, p.capacity headingPath.length⟩
  sectionRange := sectionRange
  blockKind := blockKind.map p.owned

/-- The bytes of one more chunk, with the place of its record when there is none left. -/
def chunkBytes (chunks : ChunkList) (text : Buffer Text) (headingPath : List Text)
    (blockKind : Option Text) : ℕ :=
  let headerGrowth := if chunks.value.length = chunks.capacity then p.layout.preparedChunk else 0
  saturatingAdd (saturatingAdd (saturatingAdd text.capacity (metadataBytes headingPath blockKind))
    headerGrowth) (vectorReservation p.layout p.dimension)

/-- One more chunk behind the others, in a vector that grows by one record at a time. -/
def pushChunk (chunks : ChunkList) (chunk : PreparedChunk) : ChunkList :=
  ⟨chunks.value ++ [chunk],
    if chunks.value.length = chunks.capacity then p.capacity (chunks.value.length + 1)
    else chunks.capacity⟩

def appendChunk (chunks : ChunkList) (text : Buffer Text) (scope : EvidenceScope)
    (range : SourceRange) (overlapRange : Option SourceRange) (headingPath : List Text)
    (sectionRange : Option SourceRange) (blockKind : Option Text) : Preparing ChunkList := do
  raise (checkLimit "chunks per note".toList (chunks.value.length + 1) maxNoteChunks)
  reading fun used => p.check used (p.chunkBytes chunks text headingPath blockKind)
  p.retain (p.chunkBytes chunks text headingPath blockKind)
  return p.pushChunk chunks
    (p.chunkRecord textHash text scope range overlapRange headingPath sectionRange blockKind)

variable (raw title : Text) (blocks : List MarkdownBlock)

/-- The context in front of the texts of a section. -/
def contextOf (headingPath : List Text) : Text :=
  title ++ '\n' :: List.intercalate " > ".toList headingPath ++
    if headingPath = [] then [] else ['\n']

/-- Cut one chunk off a section. -/
def splitChunk (part : Section) (lead : Text) (start : ℕ) (chunks : ChunkList) :
    Preparing (ℕ × ChunkList) := do
  let block := containingBlock blocks start
  let overlap ← reading fun used => p.precedingOverlap used lead raw start part block
  let candidateEnd ← reading fun used =>
    p.fittingEnd used lead raw overlap start part.range.endByte
  let stop ← reading fun used =>
    p.preferredEnd used lead raw overlap start part blocks candidateEnd
  let blockKind := (splitBlock blocks ⟨start, stop⟩).map MarkdownBlock.kind
  let text ← reading fun used => p.compose used lead raw overlap ⟨start, stop⟩
  let chunks ← p.appendChunk textHash chunks text .passage ⟨start, stop⟩ overlap
    part.headingPath (some part.sectionRange) blockKind
  return (stop, chunks)

/-- The loop over the chunks of a section, with as many rounds as the fuel allows. -/
def splitFrom (part : Section) (lead : Text) : ℕ → ℕ → ChunkList → Preparing ChunkList
  | 0, _, _ => throw .endless
  | fuel + 1, start, chunks => do
      if start < part.range.endByte then
        let (stop, chunks) ← p.splitChunk textHash raw blocks part lead start chunks
        splitFrom part lead fuel stop chunks
      else return chunks

def prepareSection (part : Section) (chunks : ChunkList) : Preparing ChunkList := scope do
  let contextBytes := contextPrefixBytes title (part.headingPath.map byteLen).sum
    part.headingPath.length
  raise (checkLimit "embedding context bytes".toList contextBytes maxContextBytes)
  p.reserve .context contextBytes
  let lead := contextOf title part.headingPath
  let entire ← reading fun used => p.compose used lead raw none part.range
  let tokens ← raise (p.counted entire.value)
  if tokens ≤ p.maxTokens then
    p.appendChunk textHash chunks entire .passage part.range none part.headingPath
      (some part.sectionRange) none
  else if part.range.startByte = part.range.endByte then do
    let tokens ← raise (p.counted entire.value)
    throw (.error (.embeddingInputTooLong tokens p.maxTokens))
  else
    p.splitFrom textHash raw blocks part lead
      (part.range.endByte - part.range.startByte + 1) part.range.startByte chunks

end Preparation

/-! ## The stack of headings -/

/-- The open headings, in an array of a fixed size. -/
structure HeadingStack where
  slots : Vector ℕ 6
  len : ℕ
  len_le : len ≤ 6
  deriving DecidableEq

def HeadingStack.empty : HeadingStack :=
  ⟨Vector.replicate 6 0, 0, Nat.zero_le 6⟩

/-- The indices on the stack, the outermost heading first. -/
def HeadingStack.indices (stack : HeadingStack) : List ℕ :=
  stack.slots.toList.take stack.len

section

variable (headings : List HeadingPos)

/-- The number of headings that a level leaves open. -/
def closeHeadings (slots : Vector ℕ 6) (level : ℕ) : ℕ → Except Failure ℕ
  | 0 => .ok 0
  | len + 1 => do
      let top ← orPanic slots[len]?
      let previous ← orPanic headings[top]?
      if level ≤ previous.level then closeHeadings slots level len else return len + 1

/-- The same loop, which also ends the sections that are closed. -/
def closeSubtrees (slots : Vector ℕ 6) (heading : HeadingPos) :
    ℕ → List ℕ → Except Failure (ℕ × List ℕ)
  | 0, ends => .ok (0, ends)
  | len + 1, ends => do
      let top ← orPanic slots[len]?
      let previous ← orPanic headings[top]?
      if heading.level ≤ previous.level then do
        let _ ← orPanic ends[top]?
        closeSubtrees slots heading len (ends.set top heading.offset)
      else return (len + 1, ends)

/-- Put a heading on the stack. -/
def pushHeading (slots : Vector ℕ 6) (len index : ℕ) : Except Failure HeadingStack :=
  if h : len < 6 then .ok ⟨slots.set len index h, len + 1, h⟩ else .error .panic

/-- The first loop, over the headings from an index on. -/
def subtreeEndsFrom : ℕ → List HeadingPos → HeadingStack → List ℕ →
    Except Failure (HeadingStack × List ℕ)
  | _, [], stack, ends => .ok (stack, ends)
  | index, heading :: rest, stack, ends => do
      let (len, ends) ← closeSubtrees headings stack.slots heading stack.len ends
      let stack ← pushHeading stack.slots len index
      subtreeEndsFrom (index + 1) rest stack ends

def subtreeEnds (bodyEnd : ℕ) : Except Failure (List ℕ) :=
  (subtreeEndsFrom headings 0 headings .empty (List.replicate headings.length bodyEnd)).map
    Prod.snd

/-- The stack of the second loop behind one more heading. -/
def enterHeading (stack : HeadingStack) (index : ℕ) (heading : HeadingPos) :
    Except Failure HeadingStack := do
  let len ← closeHeadings headings stack.slots heading.level stack.len
  pushHeading stack.slots len index

/-- The section of a heading, with the texts of the headings on the stack. -/
def headingSection (bodyEnd : ℕ) (ends : List ℕ) (stack : HeadingStack) (index : ℕ)
    (heading : HeadingPos) : Except Failure Section := do
  let names ← stack.indices.mapM fun headingIndex =>
    (orPanic headings[headingIndex]?).map HeadingPos.text
  let subtreeEnd ← orPanic ends[index]?
  return {
    range := ⟨heading.offset, (headings[index + 1]?.map HeadingPos.offset).getD bodyEnd⟩
    headingPath := names
    sectionRange := ⟨heading.offset, subtreeEnd⟩
    headingEnd := heading.endOffset }

end

namespace Preparation

variable (p : Preparation) (textHash : Text → Hash) (raw title : Text)

/-- The second loop, over the headings from an index on. -/
def sectionsFrom (blocks : List MarkdownBlock) (headings : List HeadingPos) (bodyEnd : ℕ)
    (ends : List ℕ) : ℕ → List HeadingPos → HeadingStack → ChunkList → Preparing ChunkList
  | _, [], _, chunks => return chunks
  | index, heading :: rest, stack, chunks => do
      let stack ← raise (enterHeading headings stack index heading)
      let part ← raise (headingSection headings bodyEnd ends stack index heading)
      let chunks ← p.prepareSection textHash raw title blocks part chunks
      sectionsFrom blocks headings bodyEnd ends (index + 1) rest stack chunks

/-- The headings from the body on. -/
def bodyHeadings (headings : List HeadingPos) (bodyStart : ℕ) : List HeadingPos :=
  headings.drop
    (BinarySearch.partitionPoint (fun heading : HeadingPos => heading.offset < bodyStart) headings)

/-- The text in front of the first heading. -/
def preamble (body : SourceRange) (headings : List HeadingPos) : Section :=
  let range : SourceRange :=
    ⟨body.startByte, (headings.head?.map HeadingPos.offset).getD body.endByte⟩
  ⟨range, [], range, body.startByte⟩

def prepareSections (body : SourceRange) (markdown : MarkdownStructure) (chunks : ChunkList) :
    Preparing ChunkList := scope do
  let headings := bodyHeadings markdown.headings body.startByte
  p.reserve .ends (saturatingMul headings.length wordBytes)
  let ends ← raise (subtreeEnds headings body.endByte)
  let before := preamble body headings
  let chunks ←
    if body.startByte < before.range.endByte ∨ headings = [] then
      p.prepareSection textHash raw title markdown.blocks before chunks
    else pure chunks
  p.sectionsFrom textHash raw title markdown.blocks headings body.endByte ends 0 headings .empty
    chunks

end Preparation

/-! ## Coverage -/

/-- The walk over the chunks, the next of which has to start at an offset. -/
def validateCoverageFrom (raw : Text) (body : SourceRange) :
    List PreparedChunk → ℕ → Except Failure ℕ
  | [], expectedStart => .ok expectedStart
  | chunk :: chunks, expectedStart =>
      let range := chunk.range
      if range.startByte ≠ expectedStart ∨ body.endByte < range.endByte ∨
          range.endByte < range.startByte ∨
          (range.startByte = range.endByte ∧ body.startByte ≠ body.endByte) ∨
          isCharBoundary raw range.startByte = false ∨ isCharBoundary raw range.endByte = false then
        .error (.error (.embedding
          "prepared note does not cover the complete body with valid source ranges".toList))
      else validateCoverageFrom raw body chunks range.endByte

def validateCoverage (raw : Text) (body : SourceRange) (chunks : List PreparedChunk) :
    Except Failure Unit := do
  let expectedStart ← validateCoverageFrom raw body chunks body.startByte
  if chunks = [] ∨ expectedStart ≠ body.endByte then
    throw (.error (.embedding "prepared note has incomplete body coverage".toList))

end ObsidianMcp.Chunks
