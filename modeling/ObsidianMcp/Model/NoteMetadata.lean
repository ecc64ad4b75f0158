import Mathlib.Data.Char
import Mathlib.Data.List.Lex
import ObsidianMcp.Model.LinkResolver
import ObsidianMcp.Model.Markdown

/-! # The metadata of a note -/

namespace ObsidianMcp

open Text

structure FileStat where
  size : ℕ
  created : Option ℕ
  modified : Option ℕ
  deriving DecidableEq

structure Heading where
  level : ℕ
  text : Text
  line : ℕ
  deriving DecidableEq

structure WikiLink where
  raw : Text
  target : Text
  heading : Option Text
  blockRef : Option Text
  displayAlias : Option Text
  line : ℕ
  deriving DecidableEq

structure NoteMetadata where
  path : OsString
  title : Text
  tags : List Text
  frontmatter : Option Json
  headings : List Heading
  links : List WikiLink
  blockRefs : List Text
  stat : FileStat

/-- What reading a note takes from other libraries: Unicode and Markdown tables, YAML, the
spelling of JSON values, the word characters of patterns and the digest of a source. -/
structure NoteSource where
  text : PathText
  upper : Char → Text
  upper_slash : upper '/' = ['/']
  md : Markdown
  yaml : SerdeYaml
  displayJson : Json → Text
  isWord : Char → Bool
  sourceRevision : Text → Text

/-! ## File names -/

/-- The parts around the last occurrence of a character. -/
def rsplitOnce (c : Char) (t : Text) : Option (Text × Text) :=
  if c ∈ t then some ((t.rdropWhile fun d => d ≠ c).dropLast, t.rtakeWhile fun d => d ≠ c) else none

/-- The parts around the first occurrence of a character. -/
def splitOnce (c : Char) (t : Text) : Option (Text × Text) :=
  if c ∈ t then some (t.takeWhile fun d => d ≠ c, (t.dropWhile fun d => d ≠ c).tail) else none

def logicalFileStem (path : OsString) : Option Text :=
  (logicalFileName path).map fun name =>
    match rsplitOnce '.' name with
    | some (stem, _) => if stem ≠ [] then stem else name
    | none => name

def isMarkdown (path : OsString) : Bool :=
  ((logicalFileName path).bind (rsplitOnce '.')).any fun (stem, ext) =>
    !stem.isEmpty && eqIgnoreAsciiCase ext "md".toList

/-! ## Links -/

/-- Parse the inner text of a wikilink. -/
def parseWikilinkInner (raw inner : Text) (line : ℕ) : WikiLink :=
  let (linkPart, displayAlias) :=
    match splitOnce '|' inner with
    | some (l, a) => if a ≠ [] then (l, some a) else (l, none)
    | none => (inner, none)
  let (target, fragment) :=
    match splitOnce '#' linkPart with
    | some (t, f) => (t, some f)
    | none => (linkPart, none)
  let (heading, blockRef) :=
    match fragment with
    | some ('^' :: f) => (none, some f)
    | some f => (some f, none)
    | none => (none, none)
  ⟨raw, target, heading, blockRef, displayAlias, line⟩

/-- The inner text of a wikilink that starts here. -/
def wikilinkAt (t : Text) : Option Text :=
  (stripPrefix "[[".toList t).bind fun rest =>
    let inner := rest.takeWhile fun c => c ≠ '[' && c ≠ ']'
    if inner ≠ [] ∧ "]]".toList.isPrefixOf (rest.drop inner.length) then some inner else none

/-- The wikilinks of a text that starts at `pos`, when `skip` characters belong to the last. -/
def wikilinksFrom : ℕ → ℕ → Text → List (ℕ × Text)
  | _, _, [] => []
  | pos, skip + 1, c :: t => wikilinksFrom (pos + c.utf8Size) skip t
  | pos, 0, c :: t =>
      match wikilinkAt (c :: t) with
      | some inner => (pos, inner) :: wikilinksFrom (pos + c.utf8Size) (inner.length + 3) t
      | none => wikilinksFrom (pos + c.utf8Size) 0 t

def byteOffsetToLine (content : Text) (offset : ℕ) : ℕ :=
  (takeBytes offset content).count '\n'

/-- Extract all wikilinks, outside code blocks. -/
def extractWikilinks (md : Markdown) (content : Text) : List WikiLink :=
  let exclusions := md.codeBlockRanges content
  ((wikilinksFrom 0 0 content).filter fun (start, _) => !isInCodeBlock start exclusions).map
    fun (start, inner) =>
      parseWikilinkInner ("[[".toList ++ inner ++ "]]".toList) inner
        (byteOffsetToLine content start)

/-! ## Tags -/

/-- The length of the mark of an inline tag that starts here, and the tag. -/
def inlineTagAt (isWord : Char → Bool) (lineStart : Bool) (t : Text) : Option (ℕ × Text) :=
  let named : ℕ → Text → Option (ℕ × Text) := fun mark rest =>
    if rest.head?.any Char.isAlpha then
      some (mark, rest.takeWhile fun c => isWord c || c = '/' || c = '-')
    else none
  match t with
  | '#' :: rest => if lineStart then named 1 rest else none
  | ' ' :: '#' :: rest => named 2 rest
  | '\t' :: '#' :: rest => named 2 rest
  | _ => none

def inlineTagsFrom (isWord : Char → Bool) : ℕ → ℕ → Bool → Text → List (ℕ × Text)
  | _, _, _, [] => []
  | pos, skip + 1, _, c :: t => inlineTagsFrom isWord (pos + c.utf8Size) skip (c = '\n') t
  | pos, 0, lineStart, c :: t =>
      match inlineTagAt isWord lineStart (c :: t) with
      | some (mark, tag) =>
          (pos + mark, tag) ::
            inlineTagsFrom isWord (pos + c.utf8Size) (mark + tag.length - 1) (c = '\n') t
      | none => inlineTagsFrom isWord (pos + c.utf8Size) 0 (c = '\n') t

/-- The texts in order, each once. -/
def sortedDedup (texts : List Text) : List Text :=
  (texts.mergeSort fun a b => a ≤ b).destutter (· ≠ ·)

/-- Extract all inline tags, outside code, in order and each once. -/
def extractInlineTags (source : NoteSource) (content : Text) : List Text :=
  let exclusions := source.md.codeBlockRanges content
  sortedDedup (((inlineTagsFrom source.isWord 0 0 true content).filter fun (start, _) =>
    !isInCodeBlock start exclusions).map Prod.snd)

def extractStringList (displayJson : Json → Text) (frontmatter : Json) (key : Text) : List Text :=
  match frontmatter with
  | .object fields =>
      match Fields.get key fields with
      | some (.array items) => items.filterMap fun item =>
          match item with
          | .string s => some s
          | .null => none
          | other => some (displayJson other)
      | some (.string s) => ((s.splitOn ',').map trim).filter fun part => !part.isEmpty
      | _ => []
  | _ => []

def extractFrontmatterTags (displayJson : Json → Text) (frontmatter : Json) : List Text :=
  extractStringList displayJson frontmatter "tags".toList

/-! ## Notes -/

def extractHeadings (md : Markdown) (content : Text) : List Heading :=
  (md.extractHeadingsWithOffsets content).map fun h => ⟨h.level, h.text, h.line⟩

def parseNoteMetadata (source : NoteSource) (path : OsString) (content : Text) (stat : FileStat) :
    Except VaultError NoteMetadata :=
  match parseFrontmatter source.yaml content with
  | .error error =>
      .error (.storage "parse frontmatter".toList (source.text.toStringLossy path) .invalidSource
        error.display .notDispatched)
  | .ok frontmatter =>
      .ok {
        path := path
        title := (logicalFileStem path).getD []
        tags := sortedDedup ((frontmatter.map (extractFrontmatterTags source.displayJson)).getD [] ++
          extractInlineTags source content)
        frontmatter := frontmatter
        headings := extractHeadings source.md content
        links := extractWikilinks source.md content
        blockRefs := extractBlockRefs source.md content
        stat := stat }

end ObsidianMcp
