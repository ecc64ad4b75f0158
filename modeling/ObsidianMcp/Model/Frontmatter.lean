import ObsidianMcp.Model.Error
import ObsidianMcp.Model.Serde

/-! # Frontmatter parsing and field edits -/

namespace ObsidianMcp

open Text

/-- The loop of `extractRawFrontmatter`: the offset of the closing line and of its line
feed, if it has one. -/
def closingDelimiter (remaining : Text) (pos : ℕ) : Option (ℕ × Option ℕ) :=
  match h : find '\n' remaining with
  | none =>
      if trimEndMatches '\r' remaining = "---".toList then some (pos, none) else none
  | some lineEnd =>
      if trimEndMatches '\r' (takeBytes lineEnd remaining) = "---".toList then
        some (pos, some lineEnd)
      else closingDelimiter (dropBytes (lineEnd + 1) remaining) (pos + (lineEnd + 1))
termination_by remaining.length
decreasing_by exact length_dropBytes_find h

/-- The raw YAML of a frontmatter block and the byte offset of the body. -/
def extractRawFrontmatter (content : Text) : Option (Text × ℕ) :=
  let afterOpen? :=
    if "---\n".toList.isPrefixOf content then some 4
    else if "---\r\n".toList.isPrefixOf content then some 5
    else none
  match afterOpen? with
  | none => none
  | some afterOpen =>
      let rest := dropBytes afterOpen content
      match closingDelimiter rest 0 with
      | none => none
      | some (pos, lineEnd) =>
          let bodyStart :=
            match lineEnd with
            | some lineEnd => afterOpen + pos + lineEnd + 1
            | none => byteLen content
          some (takeBytes pos rest, bodyStart)

/-- The content after the frontmatter block. -/
def getBody (content : Text) : Text :=
  match extractRawFrontmatter content with
  | some (_, bodyStart) => dropBytes bodyStart content
  | none => content

def jsonTypeName : Json → Text
  | .array _ => "array".toList
  | .string _ => "string".toList
  | .number _ => "number".toList
  | .bool _ => "boolean".toList
  | .null => "null".toList
  | .object _ => "object".toList

/-- The frontmatter as a JSON object, `none` when there is no block. -/
def parseFrontmatter (yaml : SerdeYaml) (content : Text) : Except VaultError (Option Json) :=
  match extractRawFrontmatter content with
  | none => .ok none
  | some (yamlStr, _) =>
      if trim yamlStr = [] then .ok (some (.object []))
      else
        match yaml.fromStrJson yamlStr with
        | .error e => .error (.other ("Frontmatter YAML parse error: ".toList ++ e))
        | .ok (.object fields) => .ok (some (.object fields))
        | .ok value =>
            .error (.other ("Frontmatter must be a YAML mapping, got ".toList ++
              jsonTypeName value))

/-- Full file content from a frontmatter value and a body. A value that cannot be
serialized is dropped. -/
def rebuildContent (yaml : SerdeYaml) (frontmatter : Option Json) (body : Text) : Text :=
  match frontmatter with
  | some (.object (field :: fields)) =>
      match yaml.toStringJson (.object (field :: fields)) with
      | .ok text => "---\n".toList ++ text ++ "---\n".toList ++ body
      | .error _ => body
  | _ => body

/-- The fields of an object, as `as_object_mut` grants access to them. -/
def asObject : Json → Except VaultError Fields
  | .object fields => .ok fields
  | _ => .error (.other "Frontmatter is not a YAML mapping".toList)

/-- Set one field, creating the block if there is none. -/
def setFrontmatterField (yaml : SerdeYaml) (content key : Text) (value : Json) :
    Except VaultError Text :=
  let body := getBody content
  match parseFrontmatter yaml content with
  | .error e => .error e
  | .ok fm =>
      match asObject (fm.getD (.object [])) with
      | .error e => .error e
      | .ok fields =>
          .ok (rebuildContent yaml (some (.object (Fields.insert key value fields))) body)

/-- Remove one field. The content is unchanged when there is no block or no such field. -/
def removeFrontmatterField (yaml : SerdeYaml) (content key : Text) : Except VaultError Text :=
  match parseFrontmatter yaml content with
  | .error e => .error e
  | .ok none => .ok content
  | .ok (some fm) =>
      match asObject fm with
      | .error e => .error e
      | .ok fields =>
          if !Fields.containsKey key fields then .ok content
          else
            let rest := Fields.remove key fields
            let body := getBody content
            if rest.isEmpty then .ok body
            else .ok (rebuildContent yaml (some (.object rest)) body)

/-! ## Body edits -/

/-- What `prepend_note_inner` computes from the content it read: the new content and the
revision the write expects. -/
def prependNoteInner (yaml : SerdeYaml) (sourceRevision : Text → Text)
    (existing content : Text) : Except VaultError (Text × Text) :=
  let expected := sourceRevision existing
  let newContent :=
    match extractRawFrontmatter existing with
    | some (_, bodyStart) => takeBytes bodyStart existing ++ content ++ dropBytes bodyStart existing
    | none => content ++ existing
  match parseFrontmatter yaml newContent with
  | .error e => .error e
  | .ok _ => .ok (newContent, expected)

/-- What `append_note_inner` computes from the result of its read. A missing note is
created. -/
def appendNoteInner (yaml : SerdeYaml) (sourceRevision : Text → Text)
    (read : Except VaultError Text) (content : Text) :
    Except VaultError (Text × Option Text) :=
  let combine (existing : Option Text) :=
    let expected := existing.map sourceRevision
    let combined := existing.getD [] ++ content
    match parseFrontmatter yaml combined with
    | .error e => .error e
    | .ok _ => .ok (combined, expected)
  match read with
  | .ok existing => combine (some existing)
  | .error (.noteNotFound _) => combine none
  | .error e => .error e

end ObsidianMcp
