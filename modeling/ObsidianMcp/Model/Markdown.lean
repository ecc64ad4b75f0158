import ObsidianMcp.Library.Split
import ObsidianMcp.Model.Frontmatter

/-! # Headings, block references and the document map

The Markdown parser is a parameter. -/

namespace ObsidianMcp

open Text

structure HeadingPos where
  level : ℕ
  text : Text
  line : ℕ
  offset : ℕ
  endOffset : ℕ
  deriving DecidableEq

/-- What the Markdown parser finds in a text. -/
structure Markdown where
  extractHeadingsWithOffsets : Text → List HeadingPos
  codeBlockRanges : Text → List (ℕ × ℕ)

def isInCodeBlock (offset : ℕ) (ranges : List (ℕ × ℕ)) : Bool :=
  ranges.any fun range => range.1 ≤ offset && offset < range.2

/-! ## Sections -/

/-- Narrow a search window to the section of the first heading named by a segment. -/
def findHeadingStep (headings : List HeadingPos) (search : ℕ × ℕ) (segment : Text) :
    Option (ℕ × ℕ) :=
  let isNamed : HeadingPos → Bool := fun h =>
    search.1 ≤ h.offset && h.offset < search.2 && eqIgnoreAsciiCase h.text segment
  match headings.dropWhile fun h => !isNamed h with
  | [] => none
  | heading :: rest =>
      some (heading.offset,
        ((rest.find? fun h => h.offset < search.2 && h.level ≤ heading.level).map
          HeadingPos.offset).getD search.2)

def findHeadingSegments (content : Text) (headings : List HeadingPos) (segments : List Text) :
    Option (ℕ × ℕ) :=
  (segments.map trim).foldlM (findHeadingStep headings) (0, byteLen content)

/-- The byte range of a heading section. -/
def findHeadingRange (md : Markdown) (content headingPath delimiter : Text) : Option (ℕ × ℕ) :=
  findHeadingSegments content (md.extractHeadingsWithOffsets content)
    (splitText delimiter headingPath)

/-! ## Block references -/

def isBlockIdChar (c : Char) : Bool :=
  c.isAlphanum || c = '-'

/-- The block id at the end of a line and the text before its caret. -/
def lineBlockRef (line : Text) : Option (Text × Text) :=
  let body := line.rdropWhile isWhitespace
  let id := body.rtakeWhile isBlockIdChar
  let front := body.rdropWhile isBlockIdChar
  if id ≠ [] ∧ front.getLast? = some '^' then some (front.dropLast, id) else none

structure BlockId where
  start : ℕ
  id : Text
  deriving DecidableEq

/-- The ids at the ends of lines, the first line starting at `pos`. -/
def blockIdsFrom (pos : ℕ) : List Text → List BlockId
  | [] => []
  | line :: lines =>
      ((lineBlockRef line).map fun (front, id) => ⟨pos + byteLen front + 1, id⟩).toList ++
        blockIdsFrom (pos + byteLen line + 1) lines

/-- Block IDs at the end of a physical line, outside code and frontmatter. -/
def blockRefIds (md : Markdown) (content : Text) : List BlockId :=
  (blockIdsFrom 0 (content.splitOn '\n')).filter fun id =>
    !isInCodeBlock id.start (md.codeBlockRanges content)

def extractBlockRefs (md : Markdown) (content : Text) : List Text :=
  (blockRefIds md content).map BlockId.id

structure BlockRef where
  line : ℕ × ℕ
  markerStart : ℕ
  endWithNewline : ℕ
  deriving DecidableEq

/-- The text behind the last line feed. -/
def afterLastLf (t : Text) : Text :=
  t.rtakeWhile fun c => c ≠ '\n'

def findBlockRef (md : Markdown) (content blockId : Text) : Option BlockRef :=
  ((blockRefIds md content).find? fun id => id.id = blockId).map fun id =>
    let markerStart := id.start - 1
    let start := markerStart - byteLen (afterLastLf (takeBytes markerStart content))
    let idEnd := id.start + byteLen id.id
    match find '\n' (dropBytes idEnd content) with
    | some offset =>
        let lf := idEnd + offset
        let endOffset := if (takeBytes lf content).getLast? = some '\r' then lf - 1 else lf
        ⟨(start, endOffset), markerStart, lf + 1⟩
    | none => ⟨(start, byteLen content), markerStart, byteLen content⟩

/-! ## The document map -/

/-- Top-level frontmatter keys. -/
def extractFrontmatterKeys (yaml : SerdeYaml) (content : Text) : List Text :=
  match extractRawFrontmatter content with
  | none => []
  | some (yamlStr, _) =>
      if trim yamlStr = [] then []
      else
        match yaml.fromStrValue yamlStr with
        | .ok (.mapping entries) => entries.map Prod.fst
        | _ => []

structure DocumentMap where
  headings : List Text
  blockRefs : List Text
  frontmatterFields : List Text

/-- A heading as the document map lists it. -/
def HeadingPos.listed (heading : HeadingPos) : Text :=
  List.replicate heading.level '#' ++ ' ' :: heading.text

def buildDocumentMap (md : Markdown) (yaml : SerdeYaml) (content : Text) : DocumentMap where
  headings := (md.extractHeadingsWithOffsets content).map HeadingPos.listed
  blockRefs := extractBlockRefs md content
  frontmatterFields := extractFrontmatterKeys yaml content

end ObsidianMcp
