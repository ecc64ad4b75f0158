import ObsidianMcp.Library.Boundaries
import ObsidianMcp.Library.JsonText
import ObsidianMcp.Model.Embeddings
import ObsidianMcp.Model.Markdown

/-! # Revision-bound source observations

A page is `none` when the text would be cut off a character boundary. SHA-256 and the Markdown
parser are parameters. -/

namespace ObsidianMcp

open Text

def defaultPageBytes : ℕ := 64 * 1024
def maxPageBytes : ℕ := 256 * 1024
def defaultHeadingCount : ℕ := 100
def maxHeadingCount : ℕ := 1000
def maxHeadingPreviewChars : ℕ := 256

def hexPair (byte : UInt8) : Text :=
  [JsonText.hexDigit (byte.toNat / 16), JsonText.hexDigit (byte.toNat % 16)]

def sourceRevision (sha256 : List UInt8 → Hash) (content : Text) : Text :=
  (sha256 (utf8Bytes content)).toList.flatMap hexPair

def validateRevision (revision : Text) : Except VaultError Unit :=
  if byteLen revision = 64 ∧ revision.all isRevisionDigit = true then .ok ()
  else
    .error (.invalidSourceRange
      "expected_revision must contain exactly 64 lowercase hexadecimal digits".toList)

/-- One owned source buffer, which fits into memory. -/
structure SourceSnapshot where
  content : Text
  sourceRevision : Text
  content_le : byteLen content ≤ usizeMax
  deriving DecidableEq

def SourceSnapshot.new (sha256 : List UInt8 → Hash) (content : Text)
    (content_le : byteLen content ≤ usizeMax) : SourceSnapshot :=
  ⟨content, ObsidianMcp.sourceRevision sha256 content, content_le⟩

structure SourcePage where
  content : Text
  sourceRevision : Text
  sourceBytes : ℕ
  requestedRange : SourceRange
  returnedRange : SourceRange
  nextRange : Option SourceRange
  deriving DecidableEq

structure SourceHeading where
  ordinal : ℕ
  parentOrdinal : Option ℕ
  level : ℕ
  text : Text
  textTruncated : Bool
  headingRange : SourceRange
  sectionRange : SourceRange
  deriving DecidableEq

structure SourceHeadingsPage where
  sourceRevision : Text
  sourceBytes : ℕ
  totalHeadings : ℕ
  headings : List SourceHeading
  nextHeadingOffset : Option ℕ
  deriving DecidableEq

def validateLimit (value cap : ℕ) (name : Text) : Except VaultError ℕ :=
  if value = 0 ∨ cap < value then
    .error (.invalidSourceRange (name ++ " must be between 1 and ".toList ++ displayNat cap))
  else .ok value

namespace SourceSnapshot

variable (snapshot : SourceSnapshot)

def checkRevision (path : Text) (expected : Option Text) : Except VaultError Unit :=
  match expected with
  | none => .ok ()
  | some expected => do
      validateRevision expected
      if expected ≠ snapshot.sourceRevision then
        .error (.sourceChanged path expected snapshot.sourceRevision)
      else .ok ()

def validateRange (range : SourceRange) : Except VaultError Unit :=
  if range.endByte < range.startByte ∨ byteLen snapshot.content < range.endByte then
    .error (.invalidSourceRange (displayNat range.startByte ++ "..".toList ++
      displayNat range.endByte ++ " is outside a ".toList ++
      displayNat (byteLen snapshot.content) ++ "-byte note".toList))
  else if !isCharBoundary snapshot.content range.startByte ||
      !isCharBoundary snapshot.content range.endByte then
    .error (.invalidSourceRange
      "range endpoints must be UTF-8 character boundaries".toList)
  else .ok ()

/-- The number of bytes that a page may have. -/
def pageBudget (range : Option SourceRange) (maxBytes : Option ℕ) :
    Except VaultError (Option ℕ) :=
  match maxBytes with
  | some value => (validateLimit value maxPageBytes "max_bytes".toList).map some
  | none => .ok (if range.isSome then some defaultPageBytes else none)

/-- The offset at which a page ends. -/
def pageEnd (budget : Option ℕ) (requested : SourceRange) : ℕ :=
  match budget with
  | some budget =>
      floorCharBoundary snapshot.content
        (min (saturatingAdd requested.startByte budget) requested.endByte)
  | none => requested.endByte

def page (path : Text) (expectedRevision : Option Text) (range : Option SourceRange)
    (maxBytes : Option ℕ) : Except VaultError (Option SourcePage) := do
  if range.isSome ∧ expectedRevision.isNone then
    .error (.invalidSourceRange "expected_revision is required with range".toList)
  else do
    snapshot.checkRevision path expectedRevision
    let requestedRange := range.getD ⟨0, byteLen snapshot.content⟩
    snapshot.validateRange requestedRange
    let budget ← pageBudget range maxBytes
    let stop := snapshot.pageEnd budget requestedRange
    if stop = requestedRange.startByte ∧ stop < requestedRange.endByte then
      .error (.invalidSourceRange "max_bytes cannot fit the next UTF-8 character".toList)
    else
      .ok ((sliceAt snapshot.content requestedRange.startByte stop).map fun content =>
        { content := content
          sourceRevision := snapshot.sourceRevision
          sourceBytes := byteLen snapshot.content
          requestedRange := requestedRange
          returnedRange := ⟨requestedRange.startByte, stop⟩
          nextRange := if stop < requestedRange.endByte then
            some ⟨stop, requestedRange.endByte⟩ else none })

end SourceSnapshot

/-! ## Heading pages -/

/-- The level of the heading with an ordinal. -/
def levelAt (headings : List HeadingPos) (ordinal : ℕ) : ℕ :=
  (headings[ordinal]?.map HeadingPos.level).getD 0

/-- End the open sections that a heading closes; the innermost open section comes first. -/
def closeSections (headings : List HeadingPos) (heading : HeadingPos) :
    List ℕ → List ℕ → List ℕ × List ℕ
  | [], sectionEnds => ([], sectionEnds)
  | previous :: stack, sectionEnds =>
      if levelAt headings previous < heading.level then (previous :: stack, sectionEnds)
      else closeSections headings heading stack (sectionEnds.set previous heading.offset)

/-- The loop over the headings from an ordinal on. -/
def outlineFrom (headings : List HeadingPos) : ℕ → List HeadingPos → List ℕ →
    List (Option ℕ) → List ℕ → List (Option ℕ) × List ℕ
  | _, [], _, parents, sectionEnds => (parents, sectionEnds)
  | ordinal, heading :: rest, stack, parents, sectionEnds =>
      let (stack, sectionEnds) := closeSections headings heading stack sectionEnds
      outlineFrom headings (ordinal + 1) rest (ordinal :: stack) (parents.set ordinal stack.head?)
        sectionEnds

/-- The parents and the section ends of all headings. -/
def outline (content : Text) (headings : List HeadingPos) : List (Option ℕ) × List ℕ :=
  outlineFrom headings 0 headings [] (List.replicate headings.length none)
    (List.replicate headings.length (byteLen content))

def SourceRange.json (range : SourceRange) : Text :=
  JsonText.object [("start_byte".toList, JsonText.number range.startByte),
    ("end_byte".toList, JsonText.number range.endByte)]

def SourceHeading.json (heading : SourceHeading) : Text :=
  JsonText.object ([("ordinal".toList, JsonText.number heading.ordinal)] ++
    (heading.parentOrdinal.map fun parent =>
      ("parent_ordinal".toList, JsonText.number parent)).toList ++
    [("level".toList, JsonText.number heading.level),
      ("text".toList, JsonText.string heading.text),
      ("text_truncated".toList, JsonText.bool heading.textTruncated),
      ("heading_range".toList, heading.headingRange.json),
      ("section_range".toList, heading.sectionRange.json)])

def SourceHeadingsPage.json (page : SourceHeadingsPage) : Text :=
  JsonText.object ([("source_revision".toList, JsonText.string page.sourceRevision),
      ("source_bytes".toList, JsonText.number page.sourceBytes),
      ("total_headings".toList, JsonText.number page.totalHeadings),
      ("headings".toList, JsonText.array (page.headings.map SourceHeading.json))] ++
    (page.nextHeadingOffset.map fun offset =>
      ("next_heading_offset".toList, JsonText.number offset)).toList)

/-- The record of the heading with an ordinal. -/
def headingRecord (ordinal : ℕ) (heading : HeadingPos) (parent : Option ℕ) (sectionEnd : ℕ) :
    SourceHeading :=
  let text := heading.text.take maxHeadingPreviewChars
  { ordinal := ordinal
    parentOrdinal := parent
    level := heading.level
    text := text
    textTruncated := byteLen text < byteLen heading.text
    headingRange := ⟨heading.offset, heading.endOffset⟩
    sectionRange := ⟨heading.offset, sectionEnd⟩ }

/-- The loop over the headings of a page; an ordinal comes with its record. -/
def fillPage (maxBytes : ℕ) : List (ℕ × SourceHeading) → ℕ → SourceHeadingsPage →
    Except VaultError SourceHeadingsPage
  | [], _, page => .ok page
  | (ordinal, record) :: rest, recordsBytes, page =>
      let page := { page with
        nextHeadingOffset := if ordinal + 1 < page.totalHeadings then some (ordinal + 1) else none }
      let recordBytes := byteLen record.json
      let envelopeBytes := byteLen { page with headings := [] }.json
      let candidateBytes := envelopeBytes + recordsBytes + recordBytes + page.headings.length
      if maxBytes < candidateBytes then
        if page.headings = [] then
          .error (.invalidSourceRange "max_bytes cannot fit one heading locator".toList)
        else .ok { page with nextHeadingOffset := some ordinal }
      else
        fillPage maxBytes rest (recordsBytes + recordBytes)
          { page with headings := page.headings ++ [record] }

/-- The records of all headings of a note, in order. -/
def headingRecords (content : Text) (headings : List HeadingPos) : List SourceHeading :=
  let (parents, sectionEnds) := outline content headings
  headings.zipIdx.map fun (heading, ordinal) =>
    headingRecord ordinal heading (parents[ordinal]?.getD none) (sectionEnds[ordinal]?.getD 0)

def SourceSnapshot.headingsPage (md : Markdown) (snapshot : SourceSnapshot) (path : Text)
    (expectedRevision : Option Text) (headingOffset : ℕ) (maxHeadings maxBytes : Option ℕ) :
    Except VaultError SourceHeadingsPage :=
  if 0 < headingOffset ∧ expectedRevision.isNone then
    .error (.invalidSourceRange
      "expected_revision is required with a nonzero heading_offset".toList)
  else do
    snapshot.checkRevision path expectedRevision
    let maxHeadings ← validateLimit (maxHeadings.getD defaultHeadingCount) maxHeadingCount
      "max_headings".toList
    let maxBytes ← validateLimit (maxBytes.getD defaultPageBytes) maxPageBytes "max_bytes".toList
    let headings := md.extractHeadingsWithOffsets snapshot.content
    if headings.length < headingOffset then
      .error (.invalidSourceRange ("heading_offset ".toList ++ displayNat headingOffset ++
        " exceeds ".toList ++ displayNat headings.length ++ " headings".toList))
    else do
      let page : SourceHeadingsPage := ⟨snapshot.sourceRevision, byteLen snapshot.content,
        headings.length, [], none⟩
      let last := min headings.length (saturatingAdd headingOffset maxHeadings)
      let records := ((headingRecords snapshot.content headings).zipIdx.map fun entry =>
        (entry.2, entry.1))
      let page ← fillPage maxBytes ((records.take last).drop headingOffset) 0 page
      if page.headings = [] ∧ maxBytes < byteLen page.json then
        .error (.invalidSourceRange "max_bytes cannot fit the heading page envelope".toList)
      else .ok page

end ObsidianMcp
