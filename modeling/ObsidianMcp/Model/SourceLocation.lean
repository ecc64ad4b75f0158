import ObsidianMcp.Library.Percent
import ObsidianMcp.Library.Split
import ObsidianMcp.Model.NoteMetadata

/-! # Locations of remote sources -/

namespace ObsidianMcp.SourceLocation

open Text

/-- A parsed URL, as far as a location depends on it. -/
structure Url where
  username : Text
  password : Option Text
  hostStr : Option Text
  port : Option UInt16
  deriving DecidableEq

/-- The URL parser. -/
structure UrlCrate where
  parse : Text → Option Url

structure SftpLocation where
  host : Text
  user : Option Text
  port : Option UInt16
  root : Text
  deriving DecidableEq

/-! ## Components -/

def encodingError : VaultError :=
  .invalidPath "invalid encoded SFTP path or username component".toList

/-- The bytes that a component may contain, however they are spelled. -/
def componentByte (byte : UInt8) : Bool :=
  !(byte = 0x2F || byte = 0x5C || byte < 0x20 || byte = 0x7F)

def decodeComponent (text : Text) : Except VaultError Text :=
  match Percent.decode componentByte (utf8Bytes text) with
  | none => .error encodingError
  | some bytes =>
      match fromUtf8 bytes with
      | none => .error encodingError
      | some value => if value.any isControl then .error encodingError else .ok value

/-- The bytes that are written as themselves. -/
def unreserved (byte : UInt8) : Bool :=
  let n := byte.toNat
  ('0'.toNat ≤ n && n ≤ '9'.toNat) || ('A'.toNat ≤ n && n ≤ 'Z'.toNat) ||
    ('a'.toNat ≤ n && n ≤ 'z'.toNat) ||
    byte = 0x2D || byte = 0x2E || byte = 0x5F || byte = 0x7E

def encodeComponent (text : Text) : Text :=
  Percent.encode unreserved (utf8Bytes text)

/-! ## Parsing -/

def scheme : Text :=
  "sftp://".toList

/-- Whether a text begins with the scheme, in either case. -/
def hasScheme (text : Text) : Bool :=
  eqIgnoreAsciiCase (takeBytes 7 text) scheme

def invalidLocation : VaultError :=
  .invalidPath
    "expected sftp://[user@]host[:port]/absolute/root without credentials, query or fragment".toList

def trimBrackets (host : Text) : Text :=
  (host.dropWhile fun c => c = '[' || c = ']').rdropWhile fun c => c = '[' || c = ']'

/-- The user of a URL; an empty name is no user. -/
def parseUser (username : Text) : Except VaultError (Option Text) :=
  if username = [] then .ok none
  else do
    let user ← decodeComponent username
    if ':' ∈ user ∨ '/' ∈ user ∨ '\\' ∈ user then throw invalidLocation else return some user

/-- The decoded names of a path, without the empty ones. -/
def parseParts : List Text → Except VaultError (List Text)
  | [] => .ok []
  | part :: parts =>
      if part = [] then parseParts parts
      else do
        let decoded ← decodeComponent part
        if decoded = ['.'] ∨ decoded = ['.', '.'] then throw invalidLocation
        else return decoded :: (← parseParts parts)

def SftpLocation.parse (crate : UrlCrate) (text : Text) : Except VaultError SftpLocation :=
  if !hasScheme text || text.any (fun c => isControl c || isWhitespace c) || '?' ∈ text ||
      '#' ∈ text || '\\' ∈ text then .error invalidLocation
  else
    match splitOnce '/' (dropBytes 7 text) with
    | none => .error invalidLocation
    | some (authority, path) =>
        match crate.parse text with
        | none => .error invalidLocation
        | some url =>
            if url.password.isSome || url.port = some 0 || authority.isEmpty ||
                1 < authority.count '@' then .error invalidLocation
            else
              match url.hostStr with
              | none => .error invalidLocation
              | some hostStr =>
                  let host := trimBrackets hostStr
                  if host = [] ∨ host.head? = some '-' ∨ '%' ∈ host then .error invalidLocation
                  else do
                    let user ← parseUser url.username
                    let parts ← parseParts (path.splitOn '/')
                    return ⟨host, user, url.port, '/' :: List.intercalate ['/'] parts⟩

/-! ## Printing -/

def SftpLocation.displayUri (location : SftpLocation) : Text :=
  scheme ++
    (location.user.map fun user => encodeComponent user ++ ['@']).getD [] ++
    (if ':' ∈ location.host then '[' :: location.host ++ [']'] else location.host) ++
    (location.port.map fun port => ':' :: displayNat port.toNat).getD [] ++
    '/' :: List.intercalate ['/']
      (((location.root.dropWhile fun c => c = '/').splitOn '/').map encodeComponent)

end ObsidianMcp.SourceLocation
