import ObsidianMcp.Library.Utf8

/-! # Percent encoding

Bytes are written as themselves or as a percent sign and two hexadecimal digits. The writer keeps
some bytes and the reader refuses some, however they are spelled. -/

namespace ObsidianMcp.Percent

open Text

/-- A hexadecimal digit in upper case. -/
def hexDigit (n : ℕ) : Char :=
  if n < 10 then Char.ofNat ('0'.toNat + n) else Char.ofNat ('A'.toNat + (n - 10))

/-- The value of a hexadecimal digit in either case. -/
def digitValue (byte : UInt8) : Option ℕ :=
  let n := byte.toNat
  if '0'.toNat ≤ n ∧ n ≤ '9'.toNat then some (n - '0'.toNat)
  else if 'a'.toNat ≤ n ∧ n ≤ 'f'.toNat then some (n - 'a'.toNat + 10)
  else if 'A'.toNat ≤ n ∧ n ≤ 'F'.toNat then some (n - 'A'.toNat + 10)
  else none

def encodeByte (keep : UInt8 → Bool) (byte : UInt8) : Text :=
  if keep byte then [Char.ofNat byte.toNat]
  else ['%', hexDigit (byte.toNat / 16), hexDigit (byte.toNat % 16)]

def encode (keep : UInt8 → Bool) (bytes : List UInt8) : Text :=
  bytes.flatMap (encodeByte keep)

/-- A decoded byte in front of what the rest is decoded to. -/
def accept (allowed : UInt8 → Bool) (byte : UInt8) (rest : Option (List UInt8)) :
    Option (List UInt8) :=
  if allowed byte then rest.map (byte :: ·) else none

def decode (allowed : UInt8 → Bool) : List UInt8 → Option (List UInt8)
  | [] => some []
  | byte :: rest =>
      if byte = 0x25 then
        match rest with
        | high :: low :: rest =>
            match digitValue high, digitValue low with
            | some high, some low =>
                accept allowed (UInt8.ofNat (high * 16 + low)) (decode allowed rest)
            | _, _ => none
        | _ => none
      else accept allowed byte (decode allowed rest)

variable {keep allowed : UInt8 → Bool} {byte : UInt8} {bytes decoded : List UInt8} {c : Char}

/-! ## ASCII -/

theorem utf8Bytes_ascii (h : c.toNat < 128) : utf8Bytes [c] = [UInt8.ofNat c.toNat] := by
  have hle : c.val.toNat ≤ 0x7F := Nat.le_of_lt_succ h
  rw [utf8Bytes, List.flatMap_singleton]
  unfold String.utf8EncodeChar
  dsimp only
  rw [if_pos hle]
  rfl

theorem utf8Bytes_append (s t : Text) : utf8Bytes (s ++ t) = utf8Bytes s ++ utf8Bytes t :=
  List.flatMap_append

theorem hexDigit_lt (n : ℕ) (h : n < 16) : (hexDigit n).toNat < 128 := by
  revert n
  decide

theorem digitValue_hexDigit (n : ℕ) (h : n < 16) :
    digitValue (UInt8.ofNat (hexDigit n).toNat) = some n := by
  revert n
  decide

theorem toNat_ofNat_byte (byte : UInt8) : (Char.ofNat byte.toNat).toNat = byte.toNat := by
  have hlt : byte.toNat < 256 := byte.toNat_lt
  have hvalid : byte.toNat.isValidChar := .inl (by omega)
  rw [Char.ofNat, dif_pos hvalid]
  rfl

/-! ## Round trip -/

theorem decode_cons (h : byte ≠ 0x25) (rest : List UInt8) :
    decode allowed (byte :: rest) = accept allowed byte (decode allowed rest) := by
  cases rest with
  | nil => simp [decode, h]
  | cons next rest => cases rest <;> simp [decode, h]

theorem decode_triplet (high low : UInt8) (rest : List UInt8) :
    decode allowed (0x25 :: high :: low :: rest) =
      match digitValue high, digitValue low with
      | some high, some low =>
          accept allowed (UInt8.ofNat (high * 16 + low)) (decode allowed rest)
      | _, _ => none := by
  rw [decode, if_pos rfl]

/-- The bytes that stand for an encoded byte. -/
theorem utf8Bytes_encodeByte (hkeep : ∀ b, keep b = true → b.toNat < 128) (byte : UInt8) :
    utf8Bytes (encodeByte keep byte) =
      if keep byte then [byte]
      else [0x25, UInt8.ofNat (hexDigit (byte.toNat / 16)).toNat,
        UInt8.ofNat (hexDigit (byte.toNat % 16)).toNat] := by
  have hlt : byte.toNat < 256 := byte.toNat_lt
  by_cases h : keep byte
  · have hascii : (Char.ofNat byte.toNat).toNat < 128 := by
      rw [toNat_ofNat_byte]
      exact hkeep byte h
    rw [encodeByte, if_pos h, if_pos h, utf8Bytes_ascii hascii, toNat_ofNat_byte,
      UInt8.ofNat_toNat]
  · have hhigh := utf8Bytes_ascii (hexDigit_lt (byte.toNat / 16) (by omega))
    have hlow := utf8Bytes_ascii (hexDigit_lt (byte.toNat % 16) (by omega))
    have hsplit : encodeByte keep byte =
        ['%'] ++ [hexDigit (byte.toNat / 16)] ++ [hexDigit (byte.toNat % 16)] := by
      simp [encodeByte, h]
    rw [hsplit, utf8Bytes_append, utf8Bytes_append, hhigh, hlow, if_neg h]
    rfl

theorem decode_encodeByte (hkeep : ∀ b, keep b = true → b.toNat < 128)
    (hpercent : keep 0x25 = false) (byte : UInt8) (rest : List UInt8) :
    decode allowed (utf8Bytes (encodeByte keep byte) ++ rest) =
      accept allowed byte (decode allowed rest) := by
  rw [utf8Bytes_encodeByte hkeep]
  by_cases h : keep byte
  · have hne : byte ≠ 0x25 := by
      rintro rfl
      simp [h] at hpercent
    rw [if_pos h, List.singleton_append, decode_cons hne]
  · have hlt : byte.toNat < 256 := byte.toNat_lt
    have hvalue : UInt8.ofNat (byte.toNat / 16 * 16 + byte.toNat % 16) = byte := by
      rw [Nat.div_add_mod', UInt8.ofNat_toNat]
    rw [if_neg h, List.cons_append, List.cons_append, List.cons_append, List.nil_append,
      decode_triplet]
    simp only [digitValue_hexDigit (byte.toNat / 16) (by omega),
      digitValue_hexDigit (byte.toNat % 16) (by omega), hvalue]

/-- Encoded bytes are read back, if the reader allows them. -/
theorem decode_encode (hkeep : ∀ b, keep b = true → b.toNat < 128) (hpercent : keep 0x25 = false)
    (hall : ∀ b ∈ bytes, allowed b = true) :
    decode allowed (utf8Bytes (encode keep bytes)) = some bytes := by
  induction bytes with
  | nil => rfl
  | cons byte bytes ih =>
      obtain ⟨hbyte, hall⟩ := List.forall_mem_cons.mp hall
      rw [encode, List.flatMap_cons, utf8Bytes_append, decode_encodeByte hkeep hpercent, accept,
        if_pos hbyte]
      exact congrArg (Option.map (byte :: ·)) (ih hall)

theorem accept_eq_some {rest : Option (List UInt8)} :
    accept allowed byte rest = some decoded ↔
      allowed byte = true ∧ ∃ tail, rest = some tail ∧ byte :: tail = decoded := by
  by_cases h : allowed byte <;> simp [accept, h]

/-- Only allowed bytes are decoded, however they are spelled. -/
theorem allowed_of_decode (h : decode allowed bytes = some decoded) :
    ∀ b ∈ decoded, allowed b = true := by
  fun_induction decode allowed bytes generalizing decoded with
  | case1 =>
      obtain rfl : [] = decoded := by simpa using h
      simp
  | case2 high low rest first second hsecond hfirst ih =>
      obtain ⟨hbyte, tail, htail, rfl⟩ := accept_eq_some.mp h
      exact List.forall_mem_cons.mpr ⟨hbyte, ih htail⟩
  | case3 => simp at h
  | case4 => simp at h
  | case5 byte rest hne ih =>
      obtain ⟨hbyte, tail, htail, rfl⟩ := accept_eq_some.mp h
      exact List.forall_mem_cons.mpr ⟨hbyte, ih htail⟩

/-- Something is decoded from something. -/
theorem decode_ne_nil (h : decode allowed bytes = some decoded) (hne : bytes ≠ []) :
    decoded ≠ [] := by
  fun_induction decode allowed bytes generalizing decoded with
  | case1 => exact absurd rfl hne
  | case2 high low rest first second hsecond hfirst ih =>
      obtain ⟨-, tail, -, rfl⟩ := accept_eq_some.mp h
      simp
  | case3 => simp at h
  | case4 => simp at h
  | case5 byte rest hbyte ih =>
      obtain ⟨-, tail, -, rfl⟩ := accept_eq_some.mp h
      simp

/-- An encoding consists of percent signs, digits and kept bytes. -/
theorem mem_encode {c : Char} (h : c ∈ encode keep bytes) :
    c = '%' ∨ (∃ n < 16, c = hexDigit n) ∨ ∃ b, keep b = true ∧ c = Char.ofNat b.toNat := by
  obtain ⟨byte, -, hc⟩ := List.mem_flatMap.mp h
  have hlt : byte.toNat < 256 := byte.toNat_lt
  by_cases hkeep : keep byte
  · rw [encodeByte, if_pos hkeep] at hc
    exact .inr (.inr ⟨byte, hkeep, List.mem_singleton.mp hc⟩)
  · simp only [encodeByte, hkeep, Bool.false_eq_true, if_false, List.mem_cons, List.not_mem_nil,
      or_false] at hc
    obtain rfl | rfl | rfl := hc
    · exact .inl rfl
    · exact .inr (.inl ⟨_, by omega, rfl⟩)
    · exact .inr (.inl ⟨_, by omega, rfl⟩)

theorem encode_eq_nil : encode keep bytes = [] ↔ bytes = [] := by
  cases bytes with
  | nil => simp [encode]
  | cons byte bytes => by_cases h : keep byte <;> simp [encode, encodeByte, h]

end ObsidianMcp.Percent
