import ObsidianMcp.Library.Results
import ObsidianMcp.Model.SourceLocation

/-! # Locations of remote sources

A location is read back from its display form, and its root consists of plain names, however they
were spelled. -/

namespace ObsidianMcp.SourceLocation

open Text

/-! ## Components -/

/-- A text that a component can be decoded to. -/
structure Component (text : Text) : Prop where
  bytes : ∀ byte ∈ utf8Bytes text, componentByte byte = true
  plain : text.any isControl = false

theorem unreserved_ascii (byte : UInt8) (h : unreserved byte = true) : byte.toNat < 128 := by
  simp only [unreserved, Bool.or_eq_true, Bool.and_eq_true, decide_eq_true_eq] at h
  have hdigit : '9'.toNat = 57 := rfl
  have hupper : 'Z'.toNat = 90 := rfl
  have hlower : 'z'.toNat = 122 := rfl
  obtain (((((h | h) | h) | rfl) | rfl) | rfl) | rfl := h
  · omega
  · omega
  · omega
  all_goals decide

theorem utf8Bytes_ne_nil {text : Text} (h : text ≠ []) : utf8Bytes text ≠ [] := by
  intro hnil
  have hlength := congrArg List.length hnil
  rw [length_utf8Bytes, List.length_nil] at hlength
  exact h (byteLen_eq_zero.mp hlength)

theorem component_of_decode {text value : Text} (h : decodeComponent text = .ok value) :
    Component value ∧ (text ≠ [] → value ≠ []) := by
  unfold decodeComponent at h
  cases hdecode : Percent.decode componentByte (utf8Bytes text) with
  | none => simp [hdecode] at h
  | some bytes =>
      cases hvalue : fromUtf8 bytes with
      | none => simp [hdecode, hvalue] at h
      | some decoded =>
          simp only [hdecode, hvalue] at h
          split_ifs at h with hcontrol
          obtain rfl := Except.ok.inj h
          obtain rfl := fromUtf8_eq_some.mp hvalue
          refine ⟨⟨Percent.allowed_of_decode hdecode, by simpa using hcontrol⟩, fun hne hnil => ?_⟩
          subst hnil
          exact Percent.decode_ne_nil hdecode (utf8Bytes_ne_nil hne) rfl

/-- Decoding undoes encoding. -/
theorem decodeComponent_encodeComponent {value : Text} (h : Component value) :
    decodeComponent (encodeComponent value) = .ok value := by
  rw [decodeComponent, encodeComponent, Percent.decode_encode unreserved_ascii rfl h.bytes]
  simp only [fromUtf8_utf8Bytes, h.plain]
  rfl

/-- A component does not contain a character whose byte is refused. -/
theorem Component.notMem {text : Text} (h : Component text) {c : Char} (hascii : c.toNat < 128)
    (hbyte : componentByte (UInt8.ofNat c.toNat) = false) : c ∉ text := by
  intro hmem
  have hchar : UInt8.ofNat c.toNat ∈ utf8Bytes [c] := by
    simp [Percent.utf8Bytes_ascii hascii]
  have hbytes : UInt8.ofNat c.toNat ∈ utf8Bytes text := by
    rw [utf8Bytes, List.flatMap_singleton] at hchar
    exact List.mem_flatMap.mpr ⟨c, hmem, hchar⟩
  rw [h.bytes _ hbytes] at hbyte
  contradiction

/-- The characters of encoded components. -/
def isSpelled (c : Char) : Bool :=
  c = '%' || c.isAlphanum || c = '-' || c = '.' || c = '_' || c = '~'

theorem isSpelled_of_mem {text : Text} {c : Char} (h : c ∈ encodeComponent text) :
    isSpelled c = true := by
  obtain rfl | ⟨n, hn, rfl⟩ | ⟨byte, hkeep, rfl⟩ := Percent.mem_encode h
  · rfl
  · have hall : ∀ n < 16, isSpelled (Percent.hexDigit n) = true := by decide
    exact hall n hn
  · have hall : ∀ n < 128, unreserved (UInt8.ofNat n) = true → isSpelled (Char.ofNat n) = true := by
      decide
    refine hall byte.toNat (unreserved_ascii byte hkeep) ?_
    rwa [UInt8.ofNat_toNat]

theorem encodeComponent_ne_nil {text : Text} (h : text ≠ []) : encodeComponent text ≠ [] := by
  exact fun hnil => utf8Bytes_ne_nil h (Percent.encode_eq_nil.mp hnil)

/-! ## Users and names -/

/-- The user of a location, as it is shown. -/
structure UserName (user : Text) : Prop extends Component user where
  ne_nil : user ≠ []
  plainName : ¬(':' ∈ user ∨ '/' ∈ user ∨ '\\' ∈ user)

/-- A name in the root of a location. -/
structure RootName (name : Text) : Prop extends Component name where
  ne_nil : name ≠ []
  undotted : ¬(name = ['.'] ∨ name = ['.', '.'])

theorem parseUser_spec {username : Text} {user : Option Text} (h : parseUser username = .ok user) :
    ∀ name, user = some name → UserName name := by
  rintro name rfl
  unfold parseUser at h
  split_ifs at h with hempty
  · have hnone := Except.ok.inj h
    contradiction
  · obtain ⟨decoded, hdecode, h⟩ := bind_ok_iff.mp h
    obtain ⟨hcomponent, hne⟩ := component_of_decode hdecode
    split_ifs at h with hplain
    obtain rfl := Option.some.inj (Except.ok.inj h)
    exact ⟨hcomponent, hne hempty, hplain⟩

theorem parseUser_encode {user : Option Text} (h : ∀ name, user = some name → UserName name) :
    parseUser ((user.map encodeComponent).getD []) = .ok user := by
  cases user with
  | none => rfl
  | some name =>
      have hname := h name rfl
      change parseUser (encodeComponent name) = _
      rw [parseUser, if_neg (encodeComponent_ne_nil hname.ne_nil),
        decodeComponent_encodeComponent hname.toComponent]
      change (if _ then _ else _) = _
      rw [if_neg hname.plainName]
      rfl

theorem parseParts_spec {texts parts : List Text} (h : parseParts texts = .ok parts) :
    ∀ part ∈ parts, RootName part := by
  induction texts generalizing parts with
  | nil =>
      obtain rfl := Except.ok.inj h
      simp
  | cons text texts ih =>
      rw [parseParts] at h
      split_ifs at h with hempty
      · exact ih h
      · obtain ⟨decoded, hdecode, h⟩ := bind_ok_iff.mp h
        obtain ⟨hcomponent, hne⟩ := component_of_decode hdecode
        split_ifs at h with hdots
        obtain ⟨rest, hrest, h⟩ := bind_ok_iff.mp h
        obtain rfl := Except.ok.inj h
        exact List.forall_mem_cons.mpr ⟨⟨hcomponent, hne hempty, hdots⟩, ih hrest⟩

theorem parseParts_encode {parts : List Text} (h : ∀ part ∈ parts, RootName part) :
    parseParts (parts.map encodeComponent) = .ok parts := by
  induction parts with
  | nil => rfl
  | cons part parts ih =>
      obtain ⟨hpart, hparts⟩ := List.forall_mem_cons.mp h
      rw [List.map_cons, parseParts, if_neg (encodeComponent_ne_nil hpart.ne_nil),
        decodeComponent_encodeComponent hpart.toComponent, ih hparts]
      change (if _ then _ else _) = _
      rw [if_neg hpart.undotted]
      rfl

/-! ## Parsing -/

/-- What the parser looks at on its way to a location. -/
structure Reading (crate : UrlCrate) (text : Text) (location : SftpLocation)
    (authority path : Text) (url : Url) (host : Text) (parts : List Text) : Prop where
  begins : hasScheme text = true
  plain : ∀ c ∈ text, isControl c = false ∧ isWhitespace c = false ∧ c ≠ '?' ∧ c ≠ '#' ∧ c ≠ '\\'
  split : splitOnce '/' (dropBytes 7 text) = some (authority, path)
  parsed : crate.parse text = some url
  password : url.password = none
  port : url.port ≠ some 0
  authority_ne : authority ≠ []
  ats : authority.count '@' ≤ 1
  hostStr : url.hostStr = some host
  usable : ¬(trimBrackets host = [] ∨ (trimBrackets host).head? = some '-' ∨
    '%' ∈ trimBrackets host)
  user : parseUser url.username = .ok location.user
  names : parseParts (path.splitOn '/') = .ok parts
  eq : location = ⟨trimBrackets host, location.user, url.port, '/' :: List.intercalate ['/'] parts⟩

/-- The first check of the parser. -/
theorem first_check_iff {text : Text} :
    (!hasScheme text || text.any (fun c => isControl c || isWhitespace c) || decide ('?' ∈ text) ||
      decide ('#' ∈ text) || decide ('\\' ∈ text)) = false ↔
    hasScheme text = true ∧ ∀ c ∈ text,
      isControl c = false ∧ isWhitespace c = false ∧ c ≠ '?' ∧ c ≠ '#' ∧ c ≠ '\\' := by
  simp only [Bool.or_eq_false_iff, List.any_eq_false, decide_eq_false_iff_not, Bool.not_eq_true,
    Bool.not_eq_false']
  constructor
  · rintro ⟨⟨⟨⟨hscheme, hplain⟩, hquestion⟩, hhash⟩, hback⟩
    refine ⟨hscheme, fun c hmem => ?_⟩
    obtain ⟨hcontrol, hspace⟩ := hplain c hmem
    refine ⟨hcontrol, hspace, ?_, ?_, ?_⟩
    all_goals
      rintro rfl
      contradiction
  · rintro ⟨hscheme, h⟩
    refine ⟨⟨⟨⟨hscheme, fun c hmem => ⟨(h c hmem).1, (h c hmem).2.1⟩⟩, ?_⟩, ?_⟩, ?_⟩
    · exact fun hmem => (h _ hmem).2.2.1 rfl
    · exact fun hmem => (h _ hmem).2.2.2.1 rfl
    · exact fun hmem => (h _ hmem).2.2.2.2 rfl

/-- The check of a parsed URL and of its authority. -/
theorem url_check_iff {url : Url} {authority : Text} :
    (url.password.isSome || decide (url.port = some 0) || authority.isEmpty ||
      decide (1 < authority.count '@')) = false ↔
    url.password = none ∧ url.port ≠ some 0 ∧ authority ≠ [] ∧ authority.count '@' ≤ 1 := by
  simp only [Bool.or_eq_false_iff, Option.isSome_eq_false_iff, Option.isNone_iff_eq_none,
    decide_eq_false_iff_not, List.isEmpty_eq_false_iff, not_lt, and_assoc]

theorem parse_eq_ok {crate : UrlCrate} {text : Text} {location : SftpLocation} :
    SftpLocation.parse crate text = .ok location ↔
      ∃ authority path url host parts,
        Reading crate text location authority path url host parts := by
  constructor
  · intro h
    unfold SftpLocation.parse at h
    split_ifs at h with hrefused
    cases hsplit : splitOnce '/' (dropBytes 7 text) with
    | none =>
        rw [hsplit] at h
        contradiction
    | some pair =>
        obtain ⟨authority, path⟩ := pair
        cases hparsed : crate.parse text with
        | none =>
            rw [hsplit, hparsed] at h
            contradiction
        | some url =>
            rw [hsplit, hparsed] at h
            dsimp only at h
            split_ifs at h with hurl
            cases hhost : url.hostStr with
            | none =>
                rw [hhost] at h
                contradiction
            | some host =>
                rw [hhost] at h
                dsimp only at h
                split_ifs at h with husable
                obtain ⟨user, huser, h⟩ := bind_ok_iff.mp h
                obtain ⟨parts, hparts, h⟩ := bind_ok_iff.mp h
                obtain rfl := Except.ok.inj h
                obtain ⟨hscheme, hplain⟩ := first_check_iff.mp (Bool.eq_false_iff.mpr hrefused)
                obtain ⟨hpassword, hport, hne, hats⟩ := url_check_iff.mp (Bool.eq_false_iff.mpr hurl)
                exact ⟨authority, path, url, host, parts, hscheme, hplain, hsplit, hparsed, hpassword,
                  hport, hne, hats, hhost, husable, huser, hparts, rfl⟩
  · rintro ⟨authority, path, url, host, parts, h⟩
    have hfirst := first_check_iff.mpr ⟨h.begins, h.plain⟩
    have hurl := url_check_iff.mpr ⟨h.password, h.port, h.authority_ne, h.ats⟩
    rw [SftpLocation.parse, if_neg (Bool.eq_false_iff.mp hfirst), h.split, h.parsed]
    dsimp only
    rw [if_neg (Bool.eq_false_iff.mp hurl), h.hostStr]
    dsimp only
    rw [if_neg h.usable, h.user, h.names, h.eq]
    rfl

/-! ## Hosts -/

/-- The characters of a host that are not encoded: printable ones that delimit nothing. -/
def hostChar (c : Char) : Bool :=
  0x20 < c.toNat && c.toNat < 0x7F && !("#/:<>?@[\\]^|".toList.elem c)

/-- How a host is written: an address in brackets or a name. -/
inductive HostSpelling : Text → Prop where
  | address {address : Text} (colon : ':' ∈ address)
      (plain : ∀ c ∈ address, hostChar c = true ∨ c = ':') : HostSpelling ('[' :: (address ++ [']']))
  | name {name : Text} (plain : ∀ c ∈ name, hostChar c = true) : HostSpelling name

def userText (user : Option Text) : Text :=
  (user.map fun user => user ++ ['@']).getD []

def portText (port : Option UInt16) : Text :=
  (port.map fun port => ':' :: displayNat port.toNat).getD []

/-- What the URL parser does with an authority. It writes an accepted host in a way that it reads
back, and it takes the user and the port as they are written. -/
structure StandardUrls (crate : UrlCrate) : Prop where
  host : ∀ text url host, hasScheme text = true → crate.parse text = some url →
    url.hostStr = some host → HostSpelling host
  again : ∀ text url host, hasScheme text = true → crate.parse text = some url →
    url.hostStr = some host → host ≠ [] →
    ∀ user port path, (∀ name, user = some name → name ≠ [] ∧ ∀ c ∈ name, isSpelled c = true) →
      (∀ c ∈ path, isSpelled c = true ∨ c = '/') →
      crate.parse (scheme ++ (userText user ++ host ++ portText port) ++ '/' :: path) =
        some ⟨user.getD [], none, some host, port⟩

theorem dropWhile_eq_self {p : Char → Bool} {text rest : Text} (hne : text ≠ [])
    (h : ∀ c ∈ text, p c = false) : (text ++ rest).dropWhile p = text ++ rest := by
  cases text with
  | nil => contradiction
  | cons c text =>
      rw [List.cons_append, List.dropWhile_cons_of_neg]
      simp [h c List.mem_cons_self]

theorem rdropWhile_eq_self {p : Char → Bool} {text : Text} (h : ∀ c ∈ text, p c = false) :
    text.rdropWhile p = text := by
  refine List.rdropWhile_eq_self_iff.mpr fun hne => ?_
  simp [h _ (List.getLast_mem hne)]

/-- The brackets are put back around an address. -/
theorem HostSpelling.brackets {host : Text} (h : HostSpelling host) (hne : trimBrackets host ≠ []) :
    (if ':' ∈ trimBrackets host then '[' :: trimBrackets host ++ [']'] else trimBrackets host) =
      host := by
  have hunbracketed : ∀ c, hostChar c = true ∨ c = ':' →
      (decide (c = '[') || decide (c = ']')) = false := by
    rintro c (hc | rfl)
    · simp only [hostChar, Bool.and_eq_true, Bool.not_eq_true'] at hc
      by_contra hbracket
      simp only [Bool.not_eq_false, Bool.or_eq_true, decide_eq_true_eq] at hbracket
      obtain rfl | rfl := hbracket
      · exact absurd hc.2 (by decide)
      · exact absurd hc.2 (by decide)
    · rfl
  cases h with
  | @address address hcolon hplain =>
      have hall : ∀ c ∈ address, (decide (c = '[') || decide (c = ']')) = false :=
        fun c hmem => hunbracketed c (hplain c hmem)
      have htrim : trimBrackets ('[' :: (address ++ [']'])) = address := by
        rw [trimBrackets, List.dropWhile_cons_of_pos (by rfl),
          dropWhile_eq_self (List.ne_nil_of_mem hcolon) hall, List.rdropWhile_concat_pos _ _ _ (by rfl),
          rdropWhile_eq_self hall]
      rw [htrim, if_pos hcolon]
      rfl
  | name hplain =>
      have hall : ∀ c ∈ host, (decide (c = '[') || decide (c = ']')) = false :=
        fun c hmem => hunbracketed c (.inl (hplain c hmem))
      have htrim : trimBrackets host = host := by
        cases host with
        | nil => rfl
        | cons c rest =>
            have hdrop := @dropWhile_eq_self _ _ [] (List.cons_ne_nil c rest) hall
            rw [List.append_nil] at hdrop
            rw [trimBrackets, hdrop, rdropWhile_eq_self hall]
      have hcolon : ':' ∉ host := by
        intro hmem
        exact absurd (hplain _ hmem) (by decide +kernel)
      rw [htrim, if_neg hcolon]

/-! ## Display -/

theorem RootName.slash {name : Text} (h : RootName name) : '/' ∉ name :=
  h.toComponent.notMem (by decide) (by decide)

/-- The root of a location without the first separator. -/
theorem dropWhile_root {parts : List Text} (h : ∀ part ∈ parts, RootName part) :
    ('/' :: List.intercalate ['/'] parts).dropWhile (fun c => c = '/') =
      List.intercalate ['/'] parts := by
  rw [List.dropWhile_cons_of_pos (by rfl)]
  cases parts with
  | nil => rfl
  | cons part parts =>
      have hpart := h part List.mem_cons_self
      have hall : ∀ c ∈ part, decide (c = '/') = false := by
        intro c hmem
        refine decide_eq_false fun hc => hpart.slash ?_
        exact hc ▸ hmem
      obtain ⟨rest, hrest⟩ : ∃ rest, List.intercalate ['/'] (part :: parts) = part ++ rest := by
        cases parts with
        | nil => exact ⟨[], by simp⟩
        | cons next parts => exact ⟨_, by rw [List.intercalate_cons_cons, List.append_assoc]⟩
      rw [hrest, dropWhile_eq_self hpart.ne_nil hall]

/-- The path that shows some names. -/
theorem shownPath_eq {parts : List Text} (h : ∀ part ∈ parts, RootName part) :
    List.intercalate ['/'] (((List.intercalate ['/'] parts).splitOn '/').map encodeComponent) =
      List.intercalate ['/'] (parts.map encodeComponent) := by
  cases parts with
  | nil => rfl
  | cons part parts =>
      rw [List.splitOn_intercalate '/' (fun name hname => (h name hname).slash)
        (List.cons_ne_nil part parts)]

/-- The names that a path shows are read back. -/
theorem parseParts_shownPath {parts : List Text} (h : ∀ part ∈ parts, RootName part) :
    parseParts ((List.intercalate ['/'] (parts.map encodeComponent)).splitOn '/') = .ok parts := by
  cases parts with
  | nil => rfl
  | cons part parts =>
      rw [List.splitOn_intercalate '/']
      · exact parseParts_encode h
      · intro name hname hslash
        obtain ⟨part, -, rfl⟩ := List.mem_map.mp hname
        exact absurd (isSpelled_of_mem hslash) (by decide)
      · simp

variable {crate : UrlCrate} {text authority path host : Text} {location : SftpLocation} {url : Url}
  {parts : List Text}

theorem Reading.displayUri_eq (hcrate : StandardUrls crate)
    (h : Reading crate text location authority path url host parts) :
    location.displayUri =
      scheme ++ (userText (location.user.map encodeComponent) ++ host ++ portText url.port) ++
        '/' :: List.intercalate ['/'] (parts.map encodeComponent) := by
  have hnames := parseParts_spec h.names
  have hbrackets := (hcrate.host text url host h.begins h.parsed h.hostStr).brackets
    fun hnil => h.usable (.inl hnil)
  have huser : (location.user.map fun user => encodeComponent user ++ ['@']).getD [] =
      userText (location.user.map encodeComponent) := by
    rw [userText, Option.map_map]
    rfl
  rw [SftpLocation.displayUri, huser]
  rw [h.eq]
  dsimp only
  rw [hbrackets, dropWhile_root hnames, shownPath_eq hnames]
  simp only [portText, List.append_assoc]

/-- The characters that a display form is made of. -/
def isShown (c : Char) : Bool :=
  0x20 < c.toNat && c.toNat < 0x7F && c ≠ '?' && c ≠ '#' && c ≠ '\\'

theorem isShown_plain {c : Char} (h : isShown c = true) :
    isControl c = false ∧ isWhitespace c = false ∧ c ≠ '?' ∧ c ≠ '#' ∧ c ≠ '\\' := by
  simp only [isShown, Bool.and_eq_true, decide_eq_true_eq] at h
  obtain ⟨⟨⟨⟨hlow, hhigh⟩, hquestion⟩, hhash⟩, hback⟩ := h
  refine ⟨?_, isWhitespace_of_printable ⟨hlow, hhigh⟩, hquestion, hhash, hback⟩
  simp only [isControl, Bool.or_eq_false_iff, Bool.and_eq_false_iff, decide_eq_false_iff_not]
  omega

theorem toNat_lt_of_isAlphanum {c : Char} (h : c.isAlphanum = true) : c.toNat < 128 := by
  change ((decide (c.val ≥ 'A'.val ∧ c.val ≤ 'Z'.val) ||
    (decide (c.val ≥ 'a'.val) && decide (c.val ≤ 'z'.val))) ||
      (decide (c.val ≥ '0'.val) && decide (c.val ≤ '9'.val))) = true at h
  simp only [ge_iff_le, UInt32.le_iff_toNat_le, Bool.or_eq_true, Bool.and_eq_true,
    decide_eq_true_eq] at h
  have hupper : 'Z'.val.toNat = 90 := rfl
  have hlower : 'z'.val.toNat = 122 := rfl
  have hdigit : '9'.val.toNat = 57 := rfl
  change c.val.toNat < 128
  omega

theorem isShown_of_isSpelled {c : Char} (h : isSpelled c = true) :
    isShown c = true ∧ c ≠ '/' ∧ c ≠ '@' := by
  have hascii : c.toNat < 128 := by
    simp only [isSpelled, Bool.or_eq_true, decide_eq_true_eq] at h
    obtain ((((rfl | h) | rfl) | rfl) | rfl) | rfl := h
    · decide
    · exact toNat_lt_of_isAlphanum h
    all_goals decide
  have hall : ∀ n < 128, isSpelled (Char.ofNat n) = true →
      isShown (Char.ofNat n) = true ∧ Char.ofNat n ≠ '/' ∧ Char.ofNat n ≠ '@' := by decide
  have hc := hall c.toNat hascii
  rw [Char.ofNat_toNat] at hc
  exact hc h

theorem isShown_of_hostChar {c : Char} (h : hostChar c = true) :
    isShown c = true ∧ c ≠ '/' ∧ c ≠ '@' := by
  have hascii : c.toNat < 128 := by
    simp only [hostChar, Bool.and_eq_true, decide_eq_true_eq] at h
    omega
  have hall : ∀ n < 128, hostChar (Char.ofNat n) = true →
      isShown (Char.ofNat n) = true ∧ Char.ofNat n ≠ '/' ∧ Char.ofNat n ≠ '@' := by decide
  have hc := hall c.toNat hascii
  rw [Char.ofNat_toNat] at hc
  exact hc h

theorem isShown_of_portText {port : Option UInt16} {c : Char} (h : c ∈ portText port) :
    isShown c = true ∧ c ≠ '/' ∧ c ≠ '@' := by
  cases port with
  | none => contradiction
  | some port =>
      obtain rfl | hmem := List.mem_cons.mp h
      · decide
      · have hdigit : c.isDigit = true := Nat.isDigit_of_mem_toDigits (by decide) (by decide) hmem
        refine isShown_of_isSpelled ?_
        simp [isSpelled, Char.isAlphanum, hdigit]

theorem isShown_of_host (h : HostSpelling host) {c : Char} (hmem : c ∈ host) :
    isShown c = true ∧ c ≠ '/' ∧ c ≠ '@' := by
  cases h with
  | address _ hplain =>
      simp only [List.mem_cons, List.mem_append, List.not_mem_nil, or_false] at hmem
      obtain rfl | hmem | rfl := hmem
      · decide
      · obtain hc | rfl := hplain c hmem
        · exact isShown_of_hostChar hc
        · decide
      · decide
  | name hplain => exact isShown_of_hostChar (hplain c hmem)

/-- The characters of a user that is shown. -/
theorem mem_userText {user : Option Text} {c : Char}
    (h : c ∈ userText (user.map encodeComponent)) : isSpelled c = true ∨ c = '@' := by
  cases user with
  | none => contradiction
  | some name =>
      obtain hmem | hmem := List.mem_append.mp h
      · exact .inl (isSpelled_of_mem hmem)
      · exact .inr (List.mem_singleton.mp hmem)

/-- The characters of a path that is shown. -/
theorem mem_shownPath {parts : List Text} {c : Char}
    (h : c ∈ List.intercalate ['/'] (parts.map encodeComponent)) : isSpelled c = true ∨ c = '/' := by
  induction parts with
  | nil => contradiction
  | cons part parts ih =>
      cases parts with
      | nil =>
          simp only [List.map_cons, List.map_nil, List.intercalate_singleton] at h
          exact .inl (isSpelled_of_mem h)
      | cons next parts =>
          rw [List.map_cons, List.map_cons, List.intercalate_cons_cons, List.append_assoc,
            List.mem_append, List.mem_append, List.mem_singleton] at h
          obtain h | h | h := h
          · exact .inl (isSpelled_of_mem h)
          · exact .inr h
          · exact ih h

/-- A user is shown with one sign behind it. -/
theorem count_userText (user : Option Text) :
    (userText (user.map encodeComponent)).count '@' ≤ 1 := by
  cases user with
  | none => exact Nat.zero_le _
  | some name =>
      have hzero : (encodeComponent name).count '@' = 0 := by
        refine List.count_eq_zero.mpr fun hmem => ?_
        exact (isShown_of_isSpelled (isSpelled_of_mem hmem)).2.2 rfl
      change (encodeComponent name ++ ['@']).count '@' ≤ 1
      rw [List.count_append, hzero]
      decide

theorem splitOnce_append {c : Char} {s t : Text} (h : c ∉ s) :
    splitOnce c (s ++ c :: t) = some (s, t) := by
  have hall : ∀ d ∈ s, decide (d ≠ c) = true := by
    intro d hmem
    refine decide_eq_true fun hd => h ?_
    exact hd ▸ hmem
  rw [splitOnce, if_pos (by simp), List.takeWhile_append_of_pos hall, List.dropWhile_append_of_pos hall,
    List.takeWhile_cons_of_neg (by simp), List.dropWhile_cons_of_neg (by simp), List.append_nil]
  rfl

/-- The display form of a location is read as the location. -/
theorem Reading.again (hcrate : StandardUrls crate)
    (h : Reading crate text location authority path url host parts) :
    Reading crate location.displayUri location
      (userText (location.user.map encodeComponent) ++ host ++ portText url.port)
      (List.intercalate ['/'] (parts.map encodeComponent))
      ⟨(location.user.map encodeComponent).getD [], none, some host, url.port⟩ host parts := by
  have hspelling := hcrate.host text url host h.begins h.parsed h.hostStr
  have hne : host ≠ [] := by
    rintro rfl
    exact h.usable (.inl rfl)
  have hnames := parseParts_spec h.names
  have husers := parseUser_spec h.user
  have hauthority : ∀ c ∈ userText (location.user.map encodeComponent) ++ host ++ portText url.port,
      isShown c = true ∧ c ≠ '/' := by
    intro c hmem
    simp only [List.mem_append] at hmem
    obtain (hmem | hmem) | hmem := hmem
    · obtain hc | rfl := mem_userText hmem
      · exact ⟨(isShown_of_isSpelled hc).1, (isShown_of_isSpelled hc).2.1⟩
      · decide
    · exact ⟨(isShown_of_host hspelling hmem).1, (isShown_of_host hspelling hmem).2.1⟩
    · exact ⟨(isShown_of_portText hmem).1, (isShown_of_portText hmem).2.1⟩
  have hseven : 7 = byteLen scheme := rfl
  rw [h.displayUri_eq hcrate]
  refine
    { begins := ?_
      plain := fun c hmem => isShown_plain ?_
      split := ?_
      parsed := ?_
      password := rfl
      port := h.port
      authority_ne := by simp [hne]
      ats := ?_
      hostStr := rfl
      usable := h.usable
      user := parseUser_encode husers
      names := parseParts_shownPath hnames
      eq := h.eq }
  · rw [hasScheme, List.append_assoc, hseven, takeBytes_append]
    exact decide_eq_true rfl
  · simp only [List.mem_append, List.mem_cons] at hmem
    obtain (hmem | hmem) | rfl | hmem := hmem
    · have hscheme : scheme.all isShown = true := by rfl
      exact List.all_eq_true.mp hscheme c hmem
    · exact (hauthority c (by simpa only [List.mem_append] using hmem)).1
    · decide
    · obtain hc | rfl := mem_shownPath hmem
      · exact (isShown_of_isSpelled hc).1
      · decide
  · rw [List.append_assoc, hseven, dropBytes_append]
    exact splitOnce_append fun hmem => (hauthority _ hmem).2 rfl
  · refine hcrate.again text url host h.begins h.parsed h.hostStr hne _ _ _ ?_
      fun c hmem => mem_shownPath hmem
    intro name hname
    obtain ⟨user, huser, rfl⟩ := Option.map_eq_some_iff.mp hname
    exact ⟨encodeComponent_ne_nil (husers user huser).ne_nil, fun c hmem => isSpelled_of_mem hmem⟩
  · have hhost : host.count '@' = 0 :=
      List.count_eq_zero.mpr fun hmem => (isShown_of_host hspelling hmem).2.2 rfl
    have hport : (portText url.port).count '@' = 0 :=
      List.count_eq_zero.mpr fun hmem => (isShown_of_portText hmem).2.2 rfl
    rw [List.count_append, List.count_append, hhost, hport]
    exact count_userText location.user

/-! ## Locations -/

/-- The display form of a location says everything about it, its root consists of plain names, and
what is decoded once can be encoded and decoded again. -/
theorem location_round_trip (hcrate : StandardUrls crate) :
    (∀ text location, SftpLocation.parse crate text = .ok location →
      SftpLocation.parse crate location.displayUri = .ok location ∧
      ∃ names, location.root = '/' :: List.intercalate ['/'] names ∧
        ∀ name ∈ names, name ≠ [] ∧ name ≠ ['.'] ∧ name ≠ ['.', '.'] ∧ '/' ∉ name ∧
          '\\' ∉ name ∧ ∀ c ∈ name, isControl c = false) ∧
    (∀ text text' location location', SftpLocation.parse crate text = .ok location →
      SftpLocation.parse crate text' = .ok location' →
      location.displayUri = location'.displayUri → location = location') ∧
    ∀ text value, decodeComponent text = .ok value →
      decodeComponent (encodeComponent value) = .ok value := by
  have hagain : ∀ text location, SftpLocation.parse crate text = .ok location →
      SftpLocation.parse crate location.displayUri = .ok location := by
    intro text location h
    obtain ⟨authority, path, url, host, parts, h⟩ := parse_eq_ok.mp h
    exact parse_eq_ok.mpr ⟨_, _, _, _, _, h.again hcrate⟩
  refine ⟨fun text location h => ⟨hagain text location h, ?_⟩, fun text text' location location' h h'
    hdisplay => ?_, fun text value h => decodeComponent_encodeComponent (component_of_decode h).1⟩
  · obtain ⟨authority, path, url, host, parts, h⟩ := parse_eq_ok.mp h
    refine ⟨parts, by rw [h.eq], fun name hname => ?_⟩
    have hroot := parseParts_spec h.names name hname
    obtain ⟨hdot, hdots⟩ := not_or.mp hroot.undotted
    exact ⟨hroot.ne_nil, hdot, hdots, hroot.slash, hroot.toComponent.notMem (by decide) (by decide),
      by simpa using hroot.plain⟩
  · have hread := hagain text location h
    rw [hdisplay, hagain text' location' h'] at hread
    exact (Except.ok.inj hread).symm

/-- The port behind a host. -/
def splitPort (text : Text) : Text × Option UInt16 :=
  match splitOnce ':' text with
  | none => (text, none)
  | some (host, digits) => (host, some (UInt16.ofNat (Nat.ofDigitChars 10 digits 0)))

/-- A parser for hosts that have names. -/
def nameCrate : UrlCrate where
  parse text :=
    (splitOnce '/' (dropBytes 7 text)).bind fun (authority, _) =>
      let (user, rest) := (splitOnce '@' authority).getD ([], authority)
      let (host, port) := splitPort rest
      if host.all hostChar then some ⟨user, none, some host, port⟩ else none

theorem splitOnce_eq_none {c : Char} {text : Text} (h : c ∉ text) : splitOnce c text = none := by
  rw [splitOnce, if_neg h]

theorem splitPort_append {host : Text} (h : ':' ∉ host) (port : Option UInt16) :
    splitPort (host ++ portText port) = (host, port) := by
  cases port with
  | none =>
      change splitPort (host ++ []) = _
      rw [List.append_nil, splitPort, splitOnce_eq_none h]
  | some port =>
      change splitPort (host ++ ':' :: displayNat port.toNat) = _
      rw [splitPort, splitOnce_append h]
      dsimp only
      rw [displayNat, Nat.ofDigitChars_ten_toDigits, UInt16.ofNat_toNat]

theorem nameCrate_standard : StandardUrls nameCrate := by
  have hplain : ∀ {text : Text} {url : Url} {host : Text}, nameCrate.parse text = some url →
      url.hostStr = some host → host.all hostChar = true := by
    intro text url host hparse hhost
    obtain ⟨pair, -, hparse⟩ := Option.bind_eq_some_iff.mp hparse
    dsimp only at hparse
    split_ifs at hparse with hall
    obtain rfl := Option.some.inj hparse
    obtain rfl := Option.some.inj hhost
    exact hall
  refine ⟨fun text url host _ hparse hhost => .name ?_, fun text url host _ hparse hhost _ user port
    path huser hpath => ?_⟩
  · exact List.all_eq_true.mp (hplain hparse hhost)
  · have hall := hplain hparse hhost
    have hchars : ∀ c ∈ host ++ portText port, isShown c = true ∧ c ≠ '/' ∧ c ≠ '@' := by
      intro c hmem
      obtain hmem | hmem := List.mem_append.mp hmem
      · exact isShown_of_hostChar (List.all_eq_true.mp hall c hmem)
      · exact isShown_of_portText hmem
    have hcolon : ':' ∉ host := by
      intro hmem
      exact absurd (List.all_eq_true.mp hall _ hmem) (by decide +kernel)
    have husers : (splitOnce '@' (userText user ++ (host ++ portText port))).getD
        ([], userText user ++ (host ++ portText port)) = (user.getD [], host ++ portText port) := by
      cases user with
      | none =>
          change (splitOnce '@' (host ++ portText port)).getD _ = _
          rw [splitOnce_eq_none fun hmem => (hchars _ hmem).2.2 rfl]
          rfl
      | some name =>
          have hname := (huser name rfl).2
          have hat : '@' ∉ name := fun hmem => (isShown_of_isSpelled (hname _ hmem)).2.2 rfl
          change (splitOnce '@' ((name ++ ['@']) ++ (host ++ portText port))).getD _ = _
          rw [List.append_assoc, List.singleton_append, splitOnce_append hat]
          rfl
    have hslash : '/' ∉ userText user ++ (host ++ portText port) := by
      intro hmem
      obtain hmem | hmem := List.mem_append.mp hmem
      · cases user with
        | none => contradiction
        | some name =>
            obtain hmem | hmem := List.mem_append.mp hmem
            · exact (isShown_of_isSpelled ((huser name rfl).2 _ hmem)).2.1 rfl
            · exact absurd (List.mem_singleton.mp hmem) (by decide)
      · exact (hchars _ hmem).2.1 rfl
    have hseven : 7 = byteLen scheme := rfl
    change Option.bind (splitOnce '/' (dropBytes 7 _)) _ = _
    rw [List.append_assoc scheme, hseven, dropBytes_append, List.append_assoc (userText user),
      splitOnce_append hslash, Option.bind_some]
    dsimp only
    rw [husers]
    dsimp only
    rw [splitPort_append hcolon]
    exact if_pos hall

/-- A location with a user, a port and a name that has to be encoded. -/
theorem location_round_trip_cafe :
    SftpLocation.parse nameCrate "SFTP://alice@storage:2222/Notes//caf%c3%a9%20files".toList =
      .ok ⟨"storage".toList, some "alice".toList, some 2222, "/Notes/café files".toList⟩ ∧
    (⟨"storage".toList, some "alice".toList, some 2222, "/Notes/café files".toList⟩ :
      SftpLocation).displayUri = "sftp://alice@storage:2222/Notes/caf%C3%A9%20files".toList ∧
    SftpLocation.parse nameCrate "sftp://alice@storage:2222/Notes/caf%C3%A9%20files".toList =
      .ok ⟨"storage".toList, some "alice".toList, some 2222, "/Notes/café files".toList⟩ := by
  have hread : SftpLocation.parse nameCrate
      "SFTP://alice@storage:2222/Notes//caf%c3%a9%20files".toList =
        .ok ⟨"storage".toList, some "alice".toList, some 2222, "/Notes/café files".toList⟩ := by
    decide +kernel
  have hshown : (⟨"storage".toList, some "alice".toList, some 2222, "/Notes/café files".toList⟩ :
      SftpLocation).displayUri = "sftp://alice@storage:2222/Notes/caf%C3%A9%20files".toList := by
    decide +kernel
  have hagain := ((location_round_trip nameCrate_standard).1 _ _ hread).1
  rw [hshown] at hagain
  exact ⟨hread, hshown, hagain⟩

end ObsidianMcp.SourceLocation
