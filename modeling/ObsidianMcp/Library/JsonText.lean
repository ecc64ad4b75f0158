import ObsidianMcp.Library.Text

/-! # Compact JSON text

The text that a compact JSON writer prints for strings, numbers, arrays and objects. -/

namespace ObsidianMcp.JsonText

open Text

def hexDigit (n : ℕ) : Char :=
  if n < 10 then Char.ofNat ('0'.toNat + n) else Char.ofNat ('a'.toNat + (n - 10))

/-- What stands for a character inside a string. -/
def escape (c : Char) : Text :=
  if c = '"' then ['\\', '"']
  else if c = '\\' then ['\\', '\\']
  else if c = '\x08' then ['\\', 'b']
  else if c = '\x09' then ['\\', 't']
  else if c = '\x0A' then ['\\', 'n']
  else if c = '\x0C' then ['\\', 'f']
  else if c = '\x0D' then ['\\', 'r']
  else if c.toNat < 0x20 then
    "\\u00".toList ++ [hexDigit (c.toNat / 16), hexDigit (c.toNat % 16)]
  else [c]

def string (text : Text) : Text :=
  '"' :: text.flatMap escape ++ ['"']

def number (n : ℕ) : Text :=
  Nat.toDigits 10 n

def bool (b : Bool) : Text :=
  if b then "true".toList else "false".toList

/-- The parts with a comma between each two. -/
def commas : List Text → Text
  | [] => []
  | [part] => part
  | part :: next :: parts => part ++ ',' :: commas (next :: parts)

def array (items : List Text) : Text :=
  '[' :: commas items ++ [']']

/-- An object; the fields are in the order in which they are printed. -/
def object (fields : List (Text × Text)) : Text :=
  '{' :: commas (fields.map fun field => string field.1 ++ ':' :: field.2) ++ ['}']

/-! ## Lengths -/

theorem two_le_byteLen_string (text : Text) : 2 ≤ byteLen (string text) := by
  have hquote : '"'.utf8Size = 1 := by decide
  rw [string, List.cons_append, byteLen_cons, byteLen_append, byteLen_cons, byteLen_nil, hquote]
  omega

/-- Each part after the first costs one comma. -/
theorem byteLen_commas (parts : List Text) :
    byteLen (commas parts) = (parts.map byteLen).sum + (parts.length - 1) := by
  have hcomma : ','.utf8Size = 1 := by decide
  induction parts with
  | nil => rfl
  | cons part parts ih =>
      cases parts with
      | nil => simp [commas]
      | cons next parts =>
          rw [commas, byteLen_append, byteLen_cons, hcomma, ih]
          simp only [List.map_cons, List.sum_cons, List.length_cons]
          omega

theorem byteLen_array (items : List Text) :
    byteLen (array items) = (items.map byteLen).sum + (items.length - 1) + 2 := by
  have hopen : '['.utf8Size = 1 := by decide
  have hclose : ']'.utf8Size = 1 := by decide
  rw [array, List.cons_append, byteLen_cons, byteLen_append, byteLen_cons, byteLen_nil, hopen,
    hclose, byteLen_commas]
  omega

/-- Each field costs its name, its value and a colon. -/
theorem byteLen_object (fields : List (Text × Text)) :
    byteLen (object fields) =
      (fields.map fun field => byteLen (string field.1) + 1 + byteLen field.2).sum +
        (fields.length - 1) + 2 := by
  have hopen : '{'.utf8Size = 1 := by decide
  have hclose : '}'.utf8Size = 1 := by decide
  have hcolon : ':'.utf8Size = 1 := by decide
  have hfields : ∀ field : Text × Text,
      byteLen (string field.1 ++ ':' :: field.2) =
        byteLen (string field.1) + 1 + byteLen field.2 := by
    intro field
    rw [byteLen_append, byteLen_cons, hcolon]
    omega
  rw [object, List.cons_append, byteLen_cons, byteLen_append, byteLen_cons, byteLen_nil,
    hopen, hclose, byteLen_commas, List.map_map, List.length_map]
  simp only [Function.comp_def, hfields]
  omega

end ObsidianMcp.JsonText
