import ObsidianMcp.Library.Components
import ObsidianMcp.Library.Split
import ObsidianMcp.Model.Frontmatter
import ObsidianMcp.Model.Path

/-! # Audience policies of private memory readers -/

namespace ObsidianMcp

open Text

/-- A 64-bit floating-point number by its value. -/
inductive F64 where
  | finite (value : ℚ)
  | infinite (negative : Bool)
  | nan
  deriving DecidableEq

/-- The largest finite number. -/
def F64.max : F64 :=
  .finite ((2 ^ 53 - 1) * 2 ^ 971)

structure ReadScope where
  version : ℕ
  tenantId : Text
  starLabel : Text
  workspaceId : Text
  audienceKind : Text
  audienceId : Text
  purpose : Text
  scopeId : Text
  allowedPrefixes : List Text
  expiresAt : F64

def validId (value : Text) : Bool :=
  !value.isEmpty && byteLen value ≤ 256 &&
    value.all fun c => c.isAlphanum || c = '-' || c = '_'

/-- A text that spells its names one after the other, none of them hidden. -/
def normalizedText (raw : Text) : Bool :=
  !raw.isEmpty && '\\' ∉ raw && '\x00' ∉ raw && !decide ("//".toList <:+: raw) &&
    !((raw.splitOn '/').any fun part => part.isEmpty || part.head? = some '.') &&
    (Unix.components '/' '.' raw).all Unix.Component.isNormal

def normalized (path : OsString) : Bool :=
  path.toStr.any normalizedText

namespace ReadScope

/-- The check of one prefix that `validate` makes. -/
def refusesPrefix (scope : ReadScope) (allowed : Text) : Bool :=
  let path := trimEndMatches '/' allowed
  let parts := (Unix.components '/' '.' path).map (Unix.Component.asOsStr '/' '.')
  !normalizedText path ||
    (allowed.getLast? ≠ some '/' && !".md".toList.isSuffixOf allowed) ||
    scope.scopeId ∉ parts ||
    !(parts.head?.any fun first =>
      first ∈ ["Capture".toList, "Organize".toList, "Distill".toList, "Express".toList]) ||
    ("Capture/".toList.isPrefixOf allowed && scope.purpose = "conversation".toList)

def validate (now : ℚ) (scope : ReadScope) : Except VaultError Unit :=
  let expired : Bool :=
    match scope.expiresAt with
    | .finite value => value ≤ now
    | _ => true
  if scope.version ≠ 1 || scope.audienceKind ∉ ["channel".toList, "dm".toList] ||
      scope.purpose ∉ ["conversation".toList, "reflection".toList, "operator".toList] ||
      [scope.tenantId, scope.starLabel, scope.workspaceId, scope.audienceId, scope.scopeId].any
        (fun s => !validId s) ||
      expired || scope.allowedPrefixes.isEmpty || scope.allowedPrefixes.length > 64 then
    .error (.other "invalid private memory read scope".toList)
  else if scope.allowedPrefixes.any scope.refusesPrefix then
    .error (.other "invalid private memory path scope".toList)
  else .ok ()

def allowsPath (scope : ReadScope) (path : OsString) : Bool :=
  normalized path && path.toStr.any fun path =>
    scope.allowedPrefixes.any fun allowed =>
      if allowed.getLast? = some '/' then allowed.isPrefixOf path else path = allowed

/-- A text field of a frontmatter. -/
def field (key : Text) : Json → Option Text
  | .object fields =>
      match Fields.get key fields with
      | some (.string value) => some value
      | _ => none
  | _ => none

def allowsFrontmatter (scope : ReadScope) : Option Json → Bool
  | none => false
  | some fm =>
      if field "memory_schema".toList fm ≠ some "slack-code/1".toList ||
          field "sensitivity".toList fm ≠ some "normal".toList then false
      else
        [("tenant_id".toList, scope.tenantId), ("star_label".toList, scope.starLabel),
          ("workspace_id".toList, scope.workspaceId), ("audience_kind".toList, scope.audienceKind),
          ("audience_id".toList, scope.audienceId)].all fun entry =>
            field entry.1 fm = some entry.2

end ReadScope

/-! ## Provider inputs -/

/-- The lines of a text, without their terminators. -/
def textLines (t : Text) : List Text :=
  (t.splitOn '\n').dropLast.map (fun line =>
    if line.getLast? = some '\r' then line.dropLast else line) ++
      (t.splitOn '\n').getLast?.toList.filter fun line => !line.isEmpty

def startsWithWhitespace (t : Text) : Bool :=
  t.head?.any isWhitespace

/-- A list item with one of some markers whose text is marked as inferred. -/
def isInferredItem (markers : List Char) (line : Text) : Bool :=
  match trimStart line with
  | [] => false
  | marker :: rest =>
      marker ∈ markers && startsWithWhitespace rest &&
        (stripPrefix "[inferred".toList (trimStart rest)).any startsWithWhitespace

/-- The directory name of an audience. -/
def audienceScope (workspace kind audience : Text) : Text :=
  "slack-".toList ++ workspace.map Char.toLower ++ '-' :: kind ++ '-' :: audience.map Char.toLower

/-- The policy that a note's own origin stands for. -/
def sourcePolicy (tenant star workspace kind audience : Text) : ReadScope :=
  let scope := audienceScope workspace kind audience
  { version := 1
    tenantId := tenant
    starLabel := star
    workspaceId := workspace
    audienceKind := kind
    audienceId := audience
    purpose := "conversation".toList
    scopeId := scope
    expiresAt := F64.max
    allowedPrefixes :=
      (["Self".toList, "People".toList, "Work".toList, "Topics".toList].map fun part =>
        "Organize/".toList ++ part ++ '/' :: scope ++ ['/']) ++
      ["Express/Skills/".toList ++ scope ++ ['/'],
        "Distill/".toList ++ scope ++ "/brief.md".toList,
        "Distill/".toList ++ scope ++ "/index.md".toList] }

/-- Keep private provider inputs within the trusted, confirmed curated namespace. -/
def privateSourceEligible (yaml : SerdeYaml) (path : OsString) (content : Text) : Bool :=
  match parseFrontmatter yaml content with
  | .ok (some fm) =>
      match ReadScope.field "tenant_id".toList fm, ReadScope.field "star_label".toList fm,
        ReadScope.field "workspace_id".toList fm, ReadScope.field "audience_kind".toList fm,
        ReadScope.field "audience_id".toList fm with
      | some tenant, some star, some workspace, some kind, some audience =>
          if !([tenant, star, workspace, audience].all validId) ||
              kind ∉ ["channel".toList, "dm".toList] ||
              (textLines content).any (isInferredItem ['-', '*']) then false
          else
            let policy := sourcePolicy tenant star workspace kind audience
            -- only a UTF-8 path passes the policy
            path.toStr.any (fun text => Unix.extension '/' '.' text = some "md".toList) &&
              policy.allowsPath path && policy.allowsFrontmatter (some fm)
      | _, _, _, _, _ => false
  | _ => false

end ObsidianMcp
