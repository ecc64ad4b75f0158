import ObsidianMcp.Library.Replace
import ObsidianMcp.Model.Error

/-! # Date formats of periodic notes -/

namespace ObsidianMcp

open Text

def quarterPlaceholder : Text := "\x01Q\x01".toList

/-- Token mapping table, sorted by token length descending. -/
def tokenMap : List (Text × Text) := [
  -- 4-char
  ("GGGG".toList, "%G".toList),
  ("MMMM".toList, "%B".toList),
  ("YYYY".toList, "%Y".toList),
  ("dddd".toList, "%A".toList),
  ("gggg".toList, "%G".toList),
  -- 3-char
  ("MMM".toList, "%b".toList),
  ("ddd".toList, "%a".toList),
  -- 2-char
  ("DD".toList, "%d".toList),
  ("Do".toList, "%-d".toList),
  ("GG".toList, "%G".toList),
  ("HH".toList, "%H".toList),
  ("MM".toList, "%m".toList),
  ("WW".toList, "%V".toList),
  ("YY".toList, "%y".toList),
  ("ZZ".toList, "%z".toList),
  ("dd".toList, "%a".toList),
  ("gg".toList, "%G".toList),
  ("hh".toList, "%I".toList),
  ("mm".toList, "%M".toList),
  ("ss".toList, "%S".toList),
  ("ww".toList, "%V".toList),
  -- 1-char
  ("A".toList, "%p".toList),
  ("D".toList, "%-d".toList),
  ("E".toList, "%u".toList),
  ("H".toList, "%-H".toList),
  ("M".toList, "%-m".toList),
  ("Q".toList, quarterPlaceholder),
  ("S".toList, "".toList),
  ("W".toList, "%V".toList),
  ("X".toList, "%s".toList),
  ("Z".toList, "%:z".toList),
  ("a".toList, "%p".toList),
  ("d".toList, "%w".toList),
  ("e".toList, "%w".toList),
  ("h".toList, "%-I".toList),
  ("m".toList, "%-M".toList),
  ("s".toList, "%-S".toList),
  ("w".toList, "%V".toList)]

/-- The mark of a literal, between two null characters. -/
def placeholder (idx : ℕ) : Text :=
  '\x00' :: displayNat idx ++ ['\x00']

/-- The loop that takes the literals out; a literal that has begun comes first. -/
def preprocess : Option Text → List Text → Text → Text → Text × List Text
  | none, literals, preprocessed, [] => (preprocessed, literals)
  | some literal, literals, preprocessed, [] =>
      (preprocessed ++ placeholder literals.length, literals ++ [literal])
  | none, literals, preprocessed, ch :: chars =>
      if ch = '[' then preprocess (some []) literals preprocessed chars
      else preprocess none literals (preprocessed ++ [ch]) chars
  | some literal, literals, preprocessed, inner :: chars =>
      if inner = ']' then
        preprocess none (literals ++ [literal]) (preprocessed ++ placeholder literals.length) chars
      else preprocess (some (literal ++ [inner])) literals preprocessed chars

/-- The first token of the table that a text starts with. -/
def tokenAt (slice : Text) : Option (Text × Text) :=
  tokenMap.find? fun entry => entry.1.isPrefixOf slice

def escapePercent (ch : Char) : Text :=
  if ch = '%' then "%%".toList else [ch]

/-- The loop over the tokens, when `skip` characters belong to the last. -/
def translateFrom : ℕ → Text → Text
  | _, [] => []
  | skip + 1, _ :: chars => translateFrom skip chars
  | 0, ch :: chars =>
      match tokenAt (ch :: chars) with
      | some (token, replacement) => replacement ++ translateFrom (token.length - 1) chars
      | none => escapePercent ch ++ translateFrom 0 chars

/-- Convert a Moment.js date format string to a chrono format string. -/
def momentjsToChrono (momentFormat : Text) : Text :=
  let (preprocessed, literals) := preprocess none [] [] momentFormat
  literals.zipIdx.foldl
    (fun result entry => replace (placeholder entry.2) (entry.1.flatMap escapePercent) result)
    (translateFrom 0 preprocessed)

end ObsidianMcp
