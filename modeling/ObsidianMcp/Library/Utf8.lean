import ObsidianMcp.Library.Text

/-! # UTF-8 encoding of texts -/

namespace ObsidianMcp

open Text

def utf8Bytes (t : Text) : List UInt8 :=
  t.flatMap String.utf8EncodeChar

/-- The text with this encoding, if there is one. -/
def fromUtf8 (bytes : List UInt8) : Option Text :=
  bytes.toByteArray.utf8Decode?.map Array.toList

@[simp] theorem length_utf8Bytes (t : Text) : (utf8Bytes t).length = byteLen t := by
  induction t with
  | nil => rfl
  | cons c t ih =>
      rw [utf8Bytes, List.flatMap_cons, List.length_append, String.length_utf8EncodeChar]
      exact congrArg (c.utf8Size + ·) ih

@[simp] theorem fromUtf8_utf8Bytes (t : Text) : fromUtf8 (utf8Bytes t) = some t := by
  have h : (utf8Bytes t).toByteArray = t.utf8Encode := rfl
  rw [fromUtf8, h, List.utf8Decode?_utf8Encode]
  rfl

/-- Only the encoding of a text is read as that text. -/
theorem fromUtf8_eq_some {bytes : List UInt8} {t : Text} :
    fromUtf8 bytes = some t ↔ bytes = utf8Bytes t := by
  constructor
  · intro h
    obtain ⟨a, ha, rfl⟩ := Option.map_eq_some_iff.mp h
    have hsome : bytes.toByteArray.utf8Decode?.isSome = true := Option.isSome_of_eq_some ha
    have hget := ByteArray.utf8Encode_get_utf8Decode? (b := bytes.toByteArray) (h := hsome)
    rw [Option.get_of_eq_some hsome ha] at hget
    exact (List.toByteArray_inj.mp hget).symm
  · rintro rfl
    exact fromUtf8_utf8Bytes t

end ObsidianMcp
