import ObsidianMcp.Model.Markdown

/-! # Patches of headings, blocks and frontmatter -/

namespace ObsidianMcp

open Text

inductive PatchOperation where
  | append
  | prepend
  | replace
  deriving DecidableEq

inductive PatchTargetType where
  | heading
  | block
  | frontmatter
  deriving DecidableEq

structure PatchRequest where
  operation : PatchOperation
  targetType : PatchTargetType
  target : Text
  content : Text
  deriving DecidableEq

/-! ## Headings -/

/-- Parse an ATX heading line into its level and its text. -/
def parseHeading (line : Text) : Option (ℕ × Text) :=
  let t := trimStart line
  let level := (t.takeWhile (· = '#')).length
  let rest := t.drop level
  if t.head? ≠ some '#' then none
  else if level > 6 then none
  else if rest ≠ [] ∧ rest.head? ≠ some ' ' then none
  else some (level, trim rest)

/-- A target segment without the markers of a heading line. -/
def normalizeHeadingTargetSegment (segment : Text) : Text :=
  let trimmed := trim segment
  let level := (trimmed.takeWhile (· = '#')).length
  let rest := trimmed.drop level
  if (1 ≤ level ∧ level ≤ 6) ∧ rest.head?.any isWhitespace then trim rest else trimmed

def ensureTrailingNewline (s : Text) : Text :=
  if s ≠ [] ∧ s.getLast? ≠ some '\n' then s ++ ['\n'] else s

/-- The text of a heading as its line spells it. -/
def HeadingPos.rawText (content : Text) (heading : HeadingPos) : Option Text :=
  ((firstLine (slice content heading.offset heading.endOffset)).bind parseHeading).map Prod.snd

/-- The heading has a name as its text or on its line. -/
def HeadingPos.isNamed (content candidate : Text) (heading : HeadingPos) : Bool :=
  eqIgnoreAsciiCase heading.text candidate ||
    (heading.rawText content).any fun text => eqIgnoreAsciiCase text candidate

/-- The window in which the next segment of a target is searched. -/
structure HeadingSearch where
  searchStart : ℕ
  searchEnd : ℕ
  afterHeading : ℕ

def findHeading (content : Text) (headings : List HeadingPos) (search : HeadingSearch)
    (candidate : Text) : Option HeadingPos :=
  headings.find? fun heading =>
    search.searchStart ≤ heading.offset && heading.offset < search.searchEnd &&
      heading.isNamed content candidate

/-- The heading a segment selects: by its own spelling, else without markers. -/
def selectHeading (content : Text) (headings : List HeadingPos) (search : HeadingSearch)
    (segment : Text) : Option HeadingPos :=
  (findHeading content headings search (trim segment)).or
    (findHeading content headings search (normalizeHeadingTargetSegment segment))

/-- The search window behind a selected heading. -/
def HeadingSearch.enter (content : Text) (headings : List HeadingPos) (heading : HeadingPos)
    (search : HeadingSearch) : HeadingSearch where
  afterHeading := heading.endOffset
  searchStart := heading.endOffset
  searchEnd := min
    (((headings.find? fun next => heading.offset < next.offset && next.level ≤ heading.level).map
      HeadingPos.offset).getD (byteLen content))
    search.searchEnd

def resolveHeadingStep (content : Text) (headings : List HeadingPos) (target path : Text)
    (search : HeadingSearch) (segment : Text) : Except VaultError HeadingSearch :=
  match selectHeading content headings search segment with
  | none => .error (.patchTargetNotFound path "heading".toList target)
  | some heading => .ok (search.enter content headings heading)

/-- Resolve the body and section boundary from the headings that inspection uses. -/
def resolveHeadingRange (content : Text) (headings : List HeadingPos) (target path : Text) :
    Except VaultError (ℕ × ℕ) :=
  ((splitText "::".toList target).foldlM (resolveHeadingStep content headings target path)
    ⟨0, byteLen content, 0⟩).map fun search => (search.afterHeading, search.searchEnd)

def patchHeading (md : Markdown) (content : Text) (request : PatchRequest) (path : Text) :
    Except VaultError Text :=
  (resolveHeadingRange content (md.extractHeadingsWithOffsets content) request.target path).map
    fun (afterHeading, sectionEnd) =>
      match request.operation with
      | .prepend =>
          ensureTrailingNewline
            (ensureTrailingNewline (takeBytes afterHeading content) ++ request.content) ++
            dropBytes afterHeading content
      | .append =>
          ensureTrailingNewline
            (ensureTrailingNewline (takeBytes sectionEnd content) ++ request.content) ++
            dropBytes sectionEnd content
      | .replace =>
          let result := ensureTrailingNewline (takeBytes afterHeading content) ++ request.content
          (if sectionEnd < byteLen content then ensureTrailingNewline result else result) ++
            dropBytes sectionEnd content

/-! ## Blocks -/

/-- The content with the request carried out at a block. -/
def spliceBlock (content : Text) (request : PatchRequest) (block : BlockRef) : Text :=
  let splice : ℕ → Text := fun insertion =>
    let newline :=
      if slice content block.line.2 block.endWithNewline = [] then
        if "\r\n".toList.isSuffixOf (takeBytes block.line.1 content) then "\r\n".toList
        else "\n".toList
      else slice content block.line.2 block.endWithNewline
    let terminate : Text → Text := fun result =>
      if result ≠ [] ∧ result.getLast? ≠ some '\n' then result ++ newline else result
    terminate (terminate (takeBytes insertion content) ++ request.content) ++
      dropBytes insertion content
  match request.operation with
  | .replace =>
      takeBytes block.line.1 content ++
        (if request.content = [] then [] else request.content ++ [' ']) ++
        dropBytes block.markerStart content
  | .prepend => splice block.line.1
  | .append => splice block.endWithNewline

def patchBlock (md : Markdown) (content : Text) (request : PatchRequest) (path : Text) :
    Except VaultError Text :=
  let blockId := (stripPrefix ['^'] request.target).getD request.target
  match findBlockRef md content blockId with
  | none => .error (.patchTargetNotFound path "block".toList request.target)
  | some block => .ok (spliceBlock content request block)

/-! ## Frontmatter -/

structure FrontmatterRange where
  yamlStart : ℕ
  yamlEnd : ℕ
  bodyStart : ℕ
  deriving DecidableEq

/-- The loop of `frontmatterBoundaries`: the offsets of the closing line and of the body. -/
def closingBoundary (content : Text) (pos : ℕ) : Option (ℕ × ℕ) :=
  if _h : byteLen content ≤ pos then none
  else
    let nextNl := find '\n' (dropBytes pos content)
    let lineEnd := (nextNl.map (pos + ·)).getD (byteLen content)
    let line := trimEndMatches '\r' (takeBytes (lineEnd - pos) (dropBytes pos content))
    if trim line = "---".toList then
      some (pos, if lineEnd < byteLen content then lineEnd + 1 else byteLen content)
    else
      match nextNl with
      | some nextNl => closingBoundary content (pos + nextNl + 1)
      | none => none
termination_by byteLen content - pos

/-- Detect delimited frontmatter at the start of a file. -/
def frontmatterBoundaries (content : Text) : Option FrontmatterRange :=
  if !"---".toList.isPrefixOf content then none
  else
    match find '\n' content with
    | none => none
    | some firstNl =>
        if trim (trimEndMatches '\r' (takeBytes firstNl content)) ≠ "---".toList then none
        else
          let yamlStart := firstNl + 1
          (closingBoundary content yamlStart).map fun r => ⟨yamlStart, r.1, r.2⟩

def parseYamlValue (yaml : SerdeYaml) (s : Text) : Yaml :=
  match yaml.fromStrValue s with
  | .ok value => value
  | .error _ => .string s

def yamlScalarToString (yaml : SerdeYaml) : Yaml → Text
  | .string s => s
  | .bool b => if b then "true".toList else "false".toList
  | .number n => yaml.displayNumber n
  | .null => []
  | other =>
      match yaml.toStringValue other with
      | .ok s => trim s
      | .error _ => []

/-- The value an append leaves under the target key. -/
def appendedValue (yaml : SerdeYaml) (content : Text) : Option Yaml → Yaml
  | some (.sequence seq) => .sequence (seq ++ [parseYamlValue yaml content])
  | some (.string s) => .string (s ++ content)
  | some other => .string (yamlScalarToString yaml other ++ content)
  | none => .string content

/-- The value a prepend leaves under the target key. -/
def prependedValue (yaml : SerdeYaml) (content : Text) : Option Yaml → Yaml
  | some (.sequence seq) => .sequence (parseYamlValue yaml content :: seq)
  | some (.string s) => .string (content ++ s)
  | some other => .string (content ++ yamlScalarToString yaml other)
  | none => .string content

/-- The mapping with the target key changed as the request says. -/
def patchMapping (yaml : SerdeYaml) (request : PatchRequest) (mapping : Mapping) : Mapping :=
  let key := request.target
  match request.operation with
  | .replace => mapping.insert key (parseYamlValue yaml request.content)
  | .append =>
      let current := mapping.get key
      (mapping.swapRemove key).insert key (appendedValue yaml request.content current)
  | .prepend =>
      let current := mapping.get key
      (mapping.swapRemove key).insert key (prependedValue yaml request.content current)

def patchFrontmatter (yaml : SerdeYaml) (content : Text) (request : PatchRequest)
    (path : Text) : Except VaultError Text :=
  match frontmatterBoundaries content with
  | none => .error (.patchTargetNotFound path "frontmatter".toList request.target)
  | some range =>
      let yamlStr := takeBytes (range.yamlEnd - range.yamlStart)
        (dropBytes range.yamlStart content)
      let mapping? : Except VaultError Mapping :=
        if trim yamlStr = [] then .ok Mapping.empty
        else
          match yaml.fromStrMapping yamlStr with
          | .ok mapping => .ok mapping
          | .error e => .error (.frontmatterParse path e)
      match mapping? with
      | .error e => .error e
      | .ok mapping =>
          match yaml.toStringMapping (patchMapping yaml request mapping) with
          | .error e => .error (.other e)
          | .ok newYaml =>
              let newYaml :=
                ((stripPrefix "---\n".toList newYaml).or
                  (stripPrefix "---\r\n".toList newYaml)).getD newYaml
              let body := dropBytes range.bodyStart content
              let newline : Text :=
                if !newYaml.isEmpty && newYaml.getLast? != some '\n' then ['\n'] else []
              .ok ("---\n".toList ++ newYaml ++ newline ++ "---\n".toList ++ body)

/-- Apply a patch operation to note content. -/
def applyPatch (md : Markdown) (yaml : SerdeYaml) (content : Text) (request : PatchRequest)
    (path : Text) : Except VaultError Text :=
  match request.targetType with
  | .heading => patchHeading md content request path
  | .block => patchBlock md content request path
  | .frontmatter => patchFrontmatter yaml content request path

end ObsidianMcp
