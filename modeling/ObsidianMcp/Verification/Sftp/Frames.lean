import ObsidianMcp.Model.SftpFrames

/-! # Guarded SFTP responses

What the guard accepts is a sequence of whole containers, and what it passes on is accepted again. -/

namespace ObsidianMcp.Sftp

open Text

/-! ## Statements -/

def stringBytes (s : Bytes) : Bytes :=
  beBytes 4 s.length ++ s

def IsString (piece : Bytes) : Prop :=
  ∃ s, s.length < 2 ^ 32 ∧ piece = stringBytes s

/-- The optional field of a flag, with a known file type if it is a mode. -/
def IsField (flags : ℕ) (field : ℕ × ℕ) (piece : Bytes) : Prop :=
  if flags &&& field.1 ≠ 0 then
    piece.length = field.2 ∧ (field.1 = 4 → beValue (piece.take 4) &&& 0o170000 ∈ knownTypes)
  else piece = []

def IsExtension (piece : Bytes) : Prop :=
  ∃ x y, piece = x ++ y ∧ IsString x ∧ IsString y

def IsExtended (piece : Bytes) : Prop :=
  ∃ pieces : List Bytes, pieces.length < 2 ^ 32 ∧
    piece = beBytes 4 pieces.length ++ pieces.flatten ∧ ∀ p ∈ pieces, IsExtension p

def IsAttrs (piece : Bytes) : Prop :=
  ∃ flags fields tail, flags < 2 ^ 32 ∧ flags &&& (usizeMax - 0x8000000f) = 0 ∧
    piece = beBytes 4 flags ++ (fields.flatten ++ tail) ∧
    List.Forall₂ (IsField flags) attrFields fields ∧
    if flags &&& 0x80000000 ≠ 0 then IsExtended tail else tail = []

/-- An entry of a directory listing. -/
structure NameRecord where
  filename : Bytes
  longname : Bytes
  attributes : Bytes
  filename_lt : filename.length < 2 ^ 32
  longname_lt : longname.length < 2 ^ 32
  attributes_ok : IsAttrs attributes

def NameRecord.bytes (record : NameRecord) : Bytes :=
  stringBytes record.filename ++ (stringBytes record.longname ++ record.attributes)

def NameRecord.isUtf8 (record : NameRecord) : Bool :=
  (fromUtf8 record.filename).isSome

/-- A name that a directory may list. -/
def NameRecord.Admissible (record : NameRecord) : Prop :=
  ¬(record.filename = [] ∨ 0 ∈ record.filename ∨ 0x2F ∈ record.filename)

def listing (records : List NameRecord) : Bytes :=
  beBytes 4 records.length ++ records.flatMap NameRecord.bytes

/-- The containers of a response fill its payload. -/
def IsPayload (kind : ℕ) (payload : Bytes) : Prop :=
  match kind with
  | 2 => ∃ pieces : List Bytes, payload = pieces.flatten ∧ ∀ p ∈ pieces, IsExtension p
  | 101 => ∃ code x y, payload = code ++ (x ++ y) ∧ code.length = 4 ∧ IsString x ∧ IsString y
  | 102 => ∃ s, s.length ≤ 256 ∧ payload = stringBytes s
  | 103 => IsString payload
  | 104 => ∃ records : List NameRecord, records.length < 2 ^ 32 ∧ payload = listing records ∧
      records.length ≤ (records.flatMap NameRecord.bytes).length / 12
  | 105 => IsAttrs payload
  | _ => False

/-- A response that is made of whole containers; the payload of an extended reply is not looked
at. -/
def IsPacket (packet : Bytes) : Prop :=
  (∃ rest, packet = 201 :: rest) ∨
    ∃ kind id payload, packet = kind :: id ++ payload ∧ id.length = 4 ∧
      IsPayload kind.toNat payload

/-- A frame that was read: its length, then a packet that was accepted. -/
structure Framed (packet : Bytes) : Prop where
  header : packet = beBytes 4 (packet.drop 4).length ++ packet.drop 4
  bounds : 5 ≤ (packet.drop 4).length ∧ (packet.drop 4).length ≤ maxPacket
  accepted : validatePacket (packet.drop 4) = some (.ok ())

/-! ## Fields -/

theorem u32At_scans :
    Scans usizeMax (fun piece value => piece.length = 4 ∧ value = beValue piece) u32At where
  safe bytes offset _ := by
    rw [u32At]
    split <;> exact Option.some_ne_none _
  sound {start tail value stop} hwalk := by
    rw [u32At] at hwalk
    by_cases h : start.length + 4 ≤ usizeMax ∧ start.length + 4 ≤ (start ++ tail).length
    · rw [if_pos h, Option.some.injEq, Except.ok.injEq, Prod.mk.injEq, List.drop_left] at hwalk
      have hlength : (tail.take 4).length = 4 := by
        have hroom := h.2
        rw [List.length_append] at hroom
        exact List.length_take_of_le (by omega)
      refine ⟨tail.take 4, tail.drop 4, (List.take_append_drop 4 tail).symm,
        ⟨hlength, hwalk.1.symm⟩, ?_⟩
      rw [hlength]
      exact hwalk.2.symm
    · rw [if_neg h] at hwalk
      exact absurd (Option.some.inj hwalk) (by intro h; contradiction)
  complete {start piece rest value} hpiece hlimit := by
    have hroom : start.length + 4 ≤ (start ++ piece ++ rest).length := by
      rw [List.length_append, List.length_append, hpiece.1]
      omega
    have hvalue : ((start ++ piece ++ rest).drop start.length).take 4 = piece := by
      rw [List.append_assoc, List.drop_left, ← hpiece.1, List.take_left]
    rw [u32At, if_pos ⟨hroom.trans hlimit, hroom⟩, hvalue, hpiece.2, hpiece.1]

theorem advance_scans (length : ℕ) :
    Scans usizeMax (fun piece _ => piece.length = length) fun bytes => advance bytes length where
  safe bytes offset _ := by
    rw [advance]
    split <;> exact Option.some_ne_none _
  sound {start tail value stop} hwalk := by
    rw [advance] at hwalk
    by_cases h : start.length + length ≤ usizeMax ∧ start.length + length ≤ (start ++ tail).length
    · rw [if_pos h, Option.some.injEq, Except.ok.injEq, Prod.mk.injEq] at hwalk
      have hlength : (tail.take length).length = length := by
        have hroom := h.2
        rw [List.length_append] at hroom
        exact List.length_take_of_le (by omega)
      refine ⟨tail.take length, tail.drop length, (List.take_append_drop length tail).symm,
        hlength, ?_⟩
      rw [hlength]
      exact hwalk.2.symm
    · rw [if_neg h] at hwalk
      exact absurd (Option.some.inj hwalk) (by intro h; contradiction)
  complete {start piece rest value} hpiece hlimit := by
    have hroom : start.length + length ≤ (start ++ piece ++ rest).length := by
      rw [List.length_append, List.length_append, hpiece]
      omega
    rw [advance, if_pos ⟨hroom.trans hlimit, hroom⟩, hpiece]

theorem string_scans : Scans usizeMax (fun piece _ => IsString piece) string := by
  apply (u32At_scans.bind fun length => advance_scans length).congr
  intro piece _
  constructor
  · intro h
    rcases h with ⟨x, y, length, rfl, ⟨hx, rfl⟩, hy⟩
    refine ⟨y, ?_, ?_⟩
    · rw [hy]
      have hlt := beValue_lt x
      rw [hx] at hlt
      exact hlt
    · rw [stringBytes, hy, ← hx, ← eq_beBytes]
  · intro h
    rcases h with ⟨s, hs, rfl⟩
    exact ⟨_, s, _, rfl, ⟨length_beBytes _ _, (beValue_beBytes hs).symm⟩, rfl⟩

theorem four_le_isString {piece : Bytes} (h : IsString piece) : 4 ≤ piece.length := by
  rcases h with ⟨s, -, rfl⟩
  rw [stringBytes, List.length_append, length_beBytes]
  exact Nat.le_add_right _ _

theorem attrField_scans (flags : ℕ) {field : ℕ × ℕ} (hfield : field.1 = 4 → 4 ≤ field.2) :
    Scans usizeMax (fun piece _ => IsField flags field piece) (attrField flags field) := by
  have hmode : field.1 = 4 → Scans usizeMax
      (fun piece (_ : Unit) => piece.length = field.2 ∧
        beValue (piece.take 4) &&& 0o170000 ∈ knownTypes)
      fun bytes => (u32At bytes).peek >>= fun mode =>
        if mode &&& 0o170000 ∈ knownTypes then advance bytes field.2
        else Cursor.fail invalid := by
    intro hfour
    apply Scans.peek (c := fun mode => mode &&& 0o170000 ∈ knownTypes) u32At_scans
      (advance_scans field.2)
    intro piece _ hpiece
    rw [hpiece]
    exact hfield hfour
  by_cases hset : flags &&& field.1 ≠ 0
  · by_cases hfour : field.1 = 4
    · have hwalk : attrField flags field = fun bytes => (u32At bytes).peek >>= fun mode =>
          if mode &&& 0o170000 ∈ knownTypes then advance bytes field.2
          else Cursor.fail invalid := by
        funext bytes
        rw [attrField, if_pos hset, if_pos hfour]
      rw [hwalk]
      apply (hmode hfour).congr
      intro piece _
      rw [IsField, if_pos hset, forall_prop_of_true hfour]
    · have hwalk : attrField flags field = fun bytes => advance bytes field.2 := by
        funext bytes
        rw [attrField, if_pos hset, if_neg hfour]
      rw [hwalk]
      apply (advance_scans field.2).congr
      intro piece _
      rw [IsField, if_pos hset]
      exact ⟨fun h => ⟨h, fun heq => absurd heq hfour⟩, fun h => h.1⟩
  · have hwalk : attrField flags field = fun _ => Cursor.ret () := by
      funext bytes
      rw [attrField, if_neg hset]
    rw [hwalk]
    apply (Scans.ret ()).congr
    intro piece _
    rw [IsField, if_neg hset]
    exact and_iff_left rfl

theorem extension_scans : Scans usizeMax (fun piece _ => IsExtension piece) extension := by
  apply (string_scans.bind fun _ => string_scans).congr
  intro piece u
  constructor
  · intro h
    rcases h with ⟨x, y, u, rfl, hx, hy⟩
    exact ⟨x, y, rfl, hx, hy⟩
  · intro h
    rcases h with ⟨x, y, rfl, hx, hy⟩
    exact ⟨x, y, (), rfl, hx, hy⟩

theorem eight_le_isExtension {piece : Bytes} (h : IsExtension piece) : 8 ≤ piece.length := by
  rcases h with ⟨x, y, rfl, hx, hy⟩
  have hfour := four_le_isString hx
  have hfour' := four_le_isString hy
  rw [List.length_append]
  omega

theorem mul_length_le_flatten {pieces : List Bytes} {size : ℕ} (h : ∀ p ∈ pieces, size ≤ p.length) :
    pieces.length * size ≤ pieces.flatten.length := by
  induction pieces with
  | nil => simp
  | cons p pieces ih =>
      have hp := h p List.mem_cons_self
      have hrest := ih fun q hq => h q (List.mem_cons_of_mem _ hq)
      rw [List.length_cons, List.flatten_cons, List.length_append, Nat.succ_mul]
      omega

theorem extended_scans : Scans usizeMax (fun piece _ => IsExtended piece) extended := by
  have hitems : ∀ count, Scans usizeMax
      (fun piece (_ : Unit) => ∃ pieces : List Bytes, pieces.length = count ∧
        piece = pieces.flatten ∧ ∀ p ∈ pieces, IsExtension p)
      fun bytes => Cursor.remaining bytes >>= fun left =>
        if left / 8 < count then Cursor.fail invalid else (extension bytes).times count := by
    intro count
    apply (extension_scans.times count).within (by decide)
    intro piece _ h
    rcases h with ⟨pieces, rfl, rfl, hall⟩
    exact mul_length_le_flatten fun p hp => eight_le_isExtension (hall p hp)
  apply (u32At_scans.bind hitems).congr
  intro piece _
  constructor
  · intro h
    rcases h with ⟨x, y, count, rfl, ⟨hx, rfl⟩, pieces, hlength, rfl, hall⟩
    have hlt := beValue_lt x
    rw [hx] at hlt
    refine ⟨pieces, hlength ▸ hlt, ?_, hall⟩
    rw [hlength, ← hx, ← eq_beBytes]
  · intro h
    rcases h with ⟨pieces, hlt, rfl, hall⟩
    exact ⟨_, _, _, rfl, ⟨length_beBytes _ _, (beValue_beBytes hlt).symm⟩, pieces, rfl, rfl, hall⟩

theorem attrs_scans : Scans usizeMax (fun piece _ => IsAttrs piece) attrs := by
  have hfields : ∀ flags, Scans usizeMax
      (fun piece (_ : Unit) => ∃ pieces : List Bytes, piece = pieces.flatten ∧
        List.Forall₂ (IsField flags) attrFields pieces)
      fun bytes => Cursor.each attrFields fun field => attrField flags field bytes := by
    intro flags
    apply Scans.each
    intro field hfield
    apply attrField_scans
    have hfour : ∀ field ∈ attrFields, field.1 = 4 → 4 ≤ field.2 := by decide
    exact hfour field hfield
  have hblock : ∀ flags, Scans usizeMax
      (fun piece (_ : Unit) => if flags &&& (usizeMax - 0x8000000f) ≠ 0 then False
        else ∃ x y, ∃ _ : Unit, piece = x ++ y ∧
          (∃ pieces : List Bytes, x = pieces.flatten ∧
            List.Forall₂ (IsField flags) attrFields pieces) ∧
          if flags &&& 0x80000000 ≠ 0 then IsExtended y else y = [] ∧ () = ())
      fun bytes => if flags &&& (usizeMax - 0x8000000f) ≠ 0 then Cursor.fail invalid
        else (Cursor.each attrFields fun field => attrField flags field bytes) >>= fun _ =>
          if flags &&& 0x80000000 ≠ 0 then extended bytes else Cursor.ret () := by
    intro flags
    refine Scans.ite (flags &&& (usizeMax - 0x8000000f) ≠ 0) (Scans.fail invalid) ?_
    apply (hfields flags).bind
    intro _
    exact Scans.ite (flags &&& 0x80000000 ≠ 0) extended_scans (Scans.ret ())
  apply (u32At_scans.bind hblock).congr
  intro piece _
  constructor
  · intro h
    rcases h with ⟨x, y, flags, rfl, ⟨hx, rfl⟩, hrest⟩
    by_cases hunknown : beValue x &&& (usizeMax - 0x8000000f) ≠ 0
    · rw [if_pos hunknown] at hrest
      exact hrest.elim
    · rw [if_neg hunknown] at hrest
      rcases hrest with ⟨front, tail, _, rfl, ⟨fields, rfl, hfields⟩, htail⟩
      have hlt := beValue_lt x
      rw [hx] at hlt
      refine ⟨beValue x, fields, tail, hlt, not_not.mp hunknown, ?_, hfields, ?_⟩
      · rw [← hx, ← eq_beBytes]
      · rwa [and_iff_left rfl] at htail
  · intro h
    rcases h with ⟨flags, fields, tail, hlt, hunknown, rfl, hfields, htail⟩
    refine ⟨_, _, flags, rfl, ⟨length_beBytes _ _, (beValue_beBytes hlt).symm⟩, ?_⟩
    rw [if_neg (not_not.mpr hunknown)]
    refine ⟨_, _, (), rfl, ⟨fields, rfl, hfields⟩, ?_⟩
    rwa [and_iff_left rfl]

/-! ## Packets -/

theorem nameEntry_scans :
    Scans usizeMax (fun piece _ => ∃ record : NameRecord, piece = record.bytes) nameEntry := by
  apply (string_scans.bind fun _ => string_scans.bind fun _ => attrs_scans).congr
  intro piece _
  constructor
  · intro h
    rcases h with ⟨x, y, _, rfl, ⟨filename, hfilename, rfl⟩, z, attributes, _, rfl,
      ⟨longname, hlongname, rfl⟩, hattributes⟩
    exact ⟨⟨filename, longname, attributes, hfilename, hlongname, hattributes⟩, rfl⟩
  · intro h
    rcases h with ⟨record, rfl⟩
    exact ⟨_, _, (), rfl, ⟨record.filename, record.filename_lt, rfl⟩, _, _, (), rfl,
      ⟨record.longname, record.longname_lt, rfl⟩, record.attributes_ok⟩

theorem NameRecord.twelve_le (record : NameRecord) : 12 ≤ record.bytes.length := by
  have hattrs : 4 ≤ record.attributes.length := by
    rcases record.attributes_ok with ⟨flags, fields, tail, -, -, heq, -⟩
    rw [heq, List.length_append, length_beBytes]
    exact Nat.le_add_right _ _
  simp only [bytes, stringBytes, List.length_append, length_beBytes]
  omega

/-- Pieces that are records are those of a list of records. -/
theorem exists_records {pieces : List Bytes}
    (h : ∀ p ∈ pieces, ∃ record : NameRecord, p = record.bytes) :
    ∃ records : List NameRecord, records.length = pieces.length ∧
      records.flatMap NameRecord.bytes = pieces.flatten := by
  induction pieces with
  | nil => exact ⟨[], rfl, rfl⟩
  | cons p pieces ih =>
      rcases h p List.mem_cons_self with ⟨record, rfl⟩
      rcases ih fun q hq => h q (List.mem_cons_of_mem _ hq) with ⟨records, hlength, hbytes⟩
      refine ⟨record :: records, by rw [List.length_cons, List.length_cons, hlength], ?_⟩
      rw [List.flatMap_cons, List.flatten_cons, hbytes]

theorem length_le_listing (records : List NameRecord) :
    records.length * 12 ≤ (records.flatMap NameRecord.bytes).length := by
  induction records with
  | nil => simp
  | cons record records ih =>
      have hrecord := record.twelve_le
      rw [List.length_cons, List.flatMap_cons, List.length_append, Nat.succ_mul]
      omega

theorem names_scans : Scans usizeMax
    (fun piece _ => ∃ records : List NameRecord, records.length < 2 ^ 32 ∧
      piece = listing records) names := by
  have hitems : ∀ count, Scans usizeMax
      (fun piece (_ : Unit) => ∃ records : List NameRecord, records.length = count ∧
        piece = records.flatMap NameRecord.bytes)
      fun bytes => Cursor.remaining bytes >>= fun left =>
        if left / 12 < count then Cursor.fail invalid else (nameEntry bytes).times count := by
    intro count
    refine Scans.within (by decide) ((nameEntry_scans.times count).congr ?_) ?_
    · intro piece _
      constructor
      · intro h
        rcases h with ⟨pieces, hlength, rfl, hall⟩
        rcases exists_records hall with ⟨records, hcount, hbytes⟩
        exact ⟨records, hcount.trans hlength, hbytes.symm⟩
      · intro h
        rcases h with ⟨records, hlength, rfl⟩
        refine ⟨records.map NameRecord.bytes, by rw [List.length_map, hlength], rfl, ?_⟩
        intro p hp
        rcases List.mem_map.mp hp with ⟨record, -, rfl⟩
        exact ⟨record, rfl⟩
    · intro piece _ h
      rcases h with ⟨records, rfl, rfl⟩
      exact length_le_listing records
  apply (u32At_scans.bind hitems).congr
  intro piece _
  constructor
  · intro h
    rcases h with ⟨x, y, count, rfl, ⟨hx, rfl⟩, records, hlength, rfl⟩
    have hlt := beValue_lt x
    rw [hx] at hlt
    refine ⟨records, hlength ▸ hlt, ?_⟩
    rw [listing, hlength, ← hx, ← eq_beBytes]
  · intro h
    rcases h with ⟨records, hlt, rfl⟩
    exact ⟨_, _, _, rfl, ⟨length_beBytes _ _, (beValue_beBytes hlt).symm⟩, records, rfl, rfl⟩

theorem status_scans : Scans usizeMax
    (fun piece _ => ∃ code x y, piece = code ++ (x ++ y) ∧ code.length = 4 ∧ IsString x ∧
      IsString y) status := by
  apply (u32At_scans.bind fun _ => string_scans.bind fun _ => string_scans).congr
  intro piece _
  constructor
  · intro h
    rcases h with ⟨code, z, value, rfl, hcode, x, y, _, rfl, hx, hy⟩
    exact ⟨code, x, y, rfl, hcode.1, hx, hy⟩
  · intro h
    rcases h with ⟨code, x, y, rfl, hcode, hx, hy⟩
    exact ⟨code, _, beValue code, rfl, ⟨hcode, rfl⟩, x, y, (), rfl, hx, hy⟩

theorem handle_scans : Scans usizeMax
    (fun piece _ => ∃ s, s.length ≤ 256 ∧ piece = stringBytes s) handle := by
  apply (Scans.peek (c := fun length => length ≤ 256) u32At_scans string_scans
    fun _ _ => four_le_isString).congr
  intro piece _
  have htake : ∀ s : Bytes, (stringBytes s).take 4 = beBytes 4 s.length := by
    intro s
    rw [stringBytes]
    nth_rewrite 1 [← length_beBytes 4 s.length]
    exact List.take_left
  constructor
  · intro h
    rcases h with ⟨⟨s, hs, rfl⟩, hle⟩
    rw [htake, beValue_beBytes hs] at hle
    exact ⟨s, hle, rfl⟩
  · intro h
    rcases h with ⟨s, hle, rfl⟩
    have hs : s.length < 256 ^ 4 := lt_of_le_of_lt hle (by decide)
    refine ⟨⟨s, hs, rfl⟩, ?_⟩
    rwa [htake, beValue_beBytes hs]

/-- The extensions of a version response fill the rest of the packet. -/
theorem versionExtensions_sound {rounds stop : ℕ} {start tail : Bytes}
    (h : versionExtensions (start ++ tail) rounds start.length = some (.ok ((), stop))) :
    ∃ pieces : List Bytes, tail = pieces.flatten ∧ ∀ p ∈ pieces, IsExtension p := by
  induction rounds generalizing start tail with
  | zero => contradiction
  | succ rounds ih =>
      rw [versionExtensions, Cursor.position_bind] at h
      by_cases hend : start.length < (start ++ tail).length
      · rw [if_pos hend] at h
        rcases Cursor.bind_eq_ok h with ⟨_, mid, hfirst, hrest⟩
        rcases extension_scans.sound hfirst with ⟨piece, rest, rfl, hpiece, rfl⟩
        rw [← List.append_assoc, ← List.length_append] at hrest
        rcases ih hrest with ⟨pieces, rfl, hall⟩
        exact ⟨piece :: pieces, rfl, List.forall_mem_cons.mpr ⟨hpiece, hall⟩⟩
      · rw [List.length_append, Nat.not_lt] at hend
        have hnil : tail = [] := List.length_eq_zero_iff.mp (by omega)
        exact ⟨[], hnil, by simp⟩

theorem versionExtensions_safe {packet : Bytes} {rounds offset : ℕ}
    (h : packet.length < offset + 8 * rounds) (hrounds : 0 < rounds) :
    versionExtensions packet rounds offset ≠ none := by
  induction rounds generalizing offset with
  | zero => contradiction
  | succ rounds ih =>
      rw [versionExtensions, Cursor.position_bind]
      by_cases hend : offset < packet.length
      · rw [if_pos hend]
        apply Cursor.bind_ne_none (extension_scans.safe packet offset (Nat.le_of_lt hend))
        intro _ mid hfirst
        rcases extension_scans.exists_piece (Nat.le_of_lt hend) hfirst with
          ⟨piece, hpiece, hmid, hinside⟩
        have hsize := eight_le_isExtension hpiece
        cases rounds with
        | zero => omega
        | succ rounds => exact ih (by omega) (Nat.succ_pos _)
      · rw [if_neg hend]
        exact Option.some_ne_none _

theorem u32At_short {packet : Bytes} (h : packet.length < 5) :
    u32At packet 5 = some (.error invalid) :=
  if_neg fun hroom => absurd hroom.2 (by omega)

theorem containers_short {packet : Bytes} (h : packet.length < 5) (kind : ℕ) :
    containers kind packet 5 ≠ some (.ok ((), packet.length)) ∧ containers kind packet 5 ≠ none := by
  have hshort := u32At_short h
  have hstring : string packet 5 = some (.error invalid) := Cursor.bind_error hshort
  have herror : ∀ {walk : Walk Unit}, walk 5 = some (.error invalid) →
      walk 5 ≠ some (.ok ((), packet.length)) ∧ walk 5 ≠ none := by
    intro walk hwalk
    rw [hwalk]
    exact ⟨by intro h; exact absurd (Option.some.inj h) (by intro h; contradiction),
      Option.some_ne_none _⟩
  unfold containers
  split
  · have hend : versionExtensions packet (packet.length + 1) 5 = some (.ok ((), 5)) := by
      rw [versionExtensions, Cursor.position_bind, if_neg (by omega)]
      rfl
    rw [hend]
    constructor
    · intro heq
      have hstop := (Prod.mk.inj (Except.ok.inj (Option.some.inj heq))).2
      omega
    · exact Option.some_ne_none _
  · exact herror (Cursor.bind_error hshort)
  · apply herror
    apply Cursor.bind_error
    rw [Cursor.peek, hshort]
  · exact herror hstring
  · exact herror (Cursor.bind_error hshort)
  · exact herror (Cursor.bind_error hshort)
  · exact herror rfl

theorem containers_safe (kind : ℕ) (packet : Bytes) : containers kind packet 5 ≠ none := by
  by_cases h : packet.length < 5
  · exact (containers_short h kind).2
  · rw [Nat.not_lt] at h
    unfold containers
    split
    · exact versionExtensions_safe (by omega) (Nat.succ_pos _)
    · exact status_scans.safe packet 5 h
    · exact handle_scans.safe packet 5 h
    · exact string_scans.safe packet 5 h
    · exact names_scans.safe packet 5 h
    · exact attrs_scans.safe packet 5 h
    · exact Option.some_ne_none _

theorem containers_sound {kind : ℕ} {start payload : Bytes} (hstart : start.length = 5)
    (h : containers kind (start ++ payload) 5 =
      some (.ok ((), (start ++ payload).length))) : IsPayload kind payload := by
  have hfill : ∀ {P : Bytes → Unit → Prop} {walk : Bytes → Walk Unit}, Scans usizeMax P walk →
      walk (start ++ payload) 5 = some (.ok ((), (start ++ payload).length)) → P payload () := by
    intro P walk hscans hwalk
    rw [← hstart] at hwalk
    rcases hscans.sound hwalk with ⟨piece, rest, rfl, hpiece, hstop⟩
    simp only [List.length_append] at hstop
    have hrest : rest = [] := List.length_eq_zero_iff.mp (by omega)
    rwa [hrest, List.append_nil]
  unfold containers at h
  split at h
  · rw [← hstart] at h
    exact versionExtensions_sound h
  · exact hfill status_scans h
  · exact hfill handle_scans h
  · exact hfill string_scans h
  · rcases hfill names_scans h with ⟨records, hlt, heq⟩
    refine ⟨records, hlt, heq, ?_⟩
    rw [Nat.le_div_iff_mul_le (by decide)]
    exact length_le_listing records
  · exact hfill attrs_scans h
  · exact absurd (Option.some.inj h) (by intro h; contradiction)

/-- The guard never goes out of range on a packet that is not empty. -/
theorem validatePacket_safe {packet : Bytes} (h : packet ≠ []) : validatePacket packet ≠ none := by
  cases packet with
  | nil => contradiction
  | cons kind rest =>
      rw [validatePacket]
      by_cases hextended : kind.toNat = 201
      · rw [if_pos hextended]
        exact Option.some_ne_none _
      · rw [if_neg hextended]
        cases hwalk : containers kind.toNat (kind :: rest) 5 with
        | none => exact absurd hwalk (containers_safe kind.toNat (kind :: rest))
        | some result =>
            cases result with
            | error error => exact Option.some_ne_none _
            | ok result =>
                dsimp only
                split <;> exact Option.some_ne_none _

theorem validatePacket_ok {kind : UInt8} {rest : Bytes} (hkind : kind.toNat ≠ 201) :
    validatePacket (kind :: rest) = some (.ok ()) ↔
      containers kind.toNat (kind :: rest) 5 = some (.ok ((), (kind :: rest).length)) := by
  rw [validatePacket, if_neg hkind]
  cases hwalk : containers kind.toNat (kind :: rest) 5 with
  | none => simp
  | some result =>
      cases result with
      | error error => simp
      | ok result =>
          dsimp only
          by_cases hend : result.2 ≠ (kind :: rest).length
          · rw [if_pos hend]
            constructor
            · intro h
              exact absurd (Option.some.inj h) (by intro h; contradiction)
            · intro h
              exact absurd (Prod.mk.inj (Except.ok.inj (Option.some.inj h))).2 hend
          · rw [if_neg hend]
            exact iff_of_true rfl (by rw [← not_not.mp hend])

/-- Whatever the guard accepts is made of whole containers. -/
theorem validatePacket_sound {packet : Bytes} (h : validatePacket packet = some (.ok ())) :
    IsPacket packet := by
  cases packet with
  | nil => contradiction
  | cons kind rest =>
      by_cases hextended : kind.toNat = 201
      · left
        have hkind : kind = 201 := UInt8.toNat_inj.mp hextended
        exact ⟨rest, by rw [hkind]⟩
      · right
        rw [validatePacket_ok hextended] at h
        have hlong : 4 ≤ rest.length := by
          by_contra hshort
          rw [Nat.not_le] at hshort
          exact (containers_short (by rw [List.length_cons]; omega) kind.toNat).1 h
        refine ⟨kind, rest.take 4, rest.drop 4, ?_, List.length_take_of_le hlong, ?_⟩
        · rw [List.cons_append, List.take_append_drop]
        · have hstart : (kind :: rest.take 4).length = 5 := by
            rw [List.length_cons, List.length_take_of_le hlong]
          apply containers_sound hstart
          rwa [List.cons_append, List.take_append_drop]

/-- A directory listing is accepted. -/
theorem validatePacket_listing {kind : UInt8} {id : Bytes} {records : List NameRecord}
    (hkind : kind.toNat = 104) (hid : id.length = 4) (hcount : records.length < 2 ^ 32)
    (hlimit : (kind :: id ++ listing records).length ≤ usizeMax) :
    validatePacket (kind :: id ++ listing records) = some (.ok ()) := by
  have hother : kind.toNat ≠ 201 := by rw [hkind]; decide
  have hstart : (kind :: id).length = 5 := by rw [List.length_cons, hid]
  rw [List.cons_append, validatePacket_ok hother, hkind, ← List.cons_append]
  have hwalk := @names_scans.complete (kind :: id) (listing records) [] ()
    ⟨records, hcount, rfl⟩ (by rwa [List.append_nil])
  rw [List.append_nil, hstart] at hwalk
  rw [containers, hwalk, List.length_append, hstart]

def frame (body : Bytes) : Bytes :=
  beBytes 4 body.length ++ body

/-- A frame that is read is the front of the stream; the guard never goes out of range on it. -/
theorem readFrame_cases (stream : Bytes) :
    (∃ error, readFrame stream = some (.error error)) ∨
      ∃ packet rest, readFrame stream = some (.ok (packet, rest)) ∧ stream = packet ++ rest ∧
        Framed packet := by
  rw [readFrame]
  by_cases hshort : stream.length < 4
  · rw [if_pos hshort]
    exact .inl ⟨_, rfl⟩
  · rw [if_neg hshort]
    have hheader : (stream.take 4).length = 4 := List.length_take_of_le (Nat.not_lt.mp hshort)
    have hspelled := eq_beBytes (stream.take 4)
    rw [hheader] at hspelled
    generalize beValue (stream.take 4) = size at hspelled
    dsimp only
    by_cases hbounds : size < 5 ∨ maxPacket < size
    · rw [if_pos hbounds]
      exact .inl ⟨_, rfl⟩
    · rw [if_neg hbounds]
      by_cases hbody : (stream.drop 4).length < size
      · rw [if_pos hbody]
        exact .inl ⟨_, rfl⟩
      · rw [if_neg hbody]
        rw [not_or, Nat.not_lt, Nat.not_lt] at hbounds
        have hlength : ((stream.drop 4).take size).length = size :=
          List.length_take_of_le (Nat.not_lt.mp hbody)
        have hne : (stream.drop 4).take size ≠ [] := by
          intro hnil
          rw [hnil, List.length_nil] at hlength
          omega
        cases hvalid : validatePacket ((stream.drop 4).take size) with
        | none => exact absurd hvalid (validatePacket_safe hne)
        | some result =>
            cases result with
            | error error => exact .inl ⟨_, rfl⟩
            | ok u =>
                have hdrop : (beBytes 4 size ++ (stream.drop 4).take size).drop 4 =
                    (stream.drop 4).take size :=
                  List.drop_left' (length_beBytes 4 size)
                refine .inr ⟨_, _, rfl, ?_, ?_⟩
                · rw [← hspelled, List.append_assoc, List.take_append_drop,
                    List.take_append_drop]
                · constructor
                  · rw [hdrop, hlength]
                  · rw [hdrop, hlength]
                    exact hbounds
                  · rw [hdrop, hvalid]

end ObsidianMcp.Sftp
