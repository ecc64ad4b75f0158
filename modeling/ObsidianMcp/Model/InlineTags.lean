import ObsidianMcp.Library.BinarySearch
import ObsidianMcp.Model.Embeddings
import ObsidianMcp.Model.NoteMetadata

/-! # The memory for inline tags

Before the inline tags of a note are extracted, their number and their bytes are counted in one pass
over the tag matches and the events of the Markdown parser. A match is the start of a tag and its
text. -/

namespace ObsidianMcp.InlineTags

open Text

/-- The events of the Markdown parser that bound regions without prose. -/
inductive Event where
  | startBlock
  | endBlock
  | code
  | other
  deriving DecidableEq

/-- Events with their byte ranges. -/
abbrev Events := List (Event × ℕ × ℕ)

/-- The start of the open block after an event, and the range that the event excludes. -/
def exclusion (blockStart : Option ℕ) : Event × ℕ × ℕ → Option ℕ × Option (ℕ × ℕ)
  | (.startBlock, start, _) => (some start, none)
  | (.endBlock, _, stop) => (none, blockStart.map fun start => (start, stop))
  | (.code, range) => (blockStart, some range)
  | (.other, _) => (blockStart, none)

/-- The ranges of code blocks, code spans and metadata blocks; the start of an open block comes
first. -/
def codeBlockRanges : Option ℕ → Events → List (ℕ × ℕ)
  | _, [] => []
  | blockStart, event :: events =>
      let (blockStart, range) := exclusion blockStart event
      range.toList ++ codeBlockRanges blockStart events

/-- Where a range is, seen from an offset. -/
def compareRange (offset : ℕ) (range : ℕ × ℕ) : Ordering :=
  if offset < range.1 then .gt else if range.2 ≤ offset then .lt else .eq

def isInCodeBlock (offset : ℕ) (ranges : List (ℕ × ℕ)) : Bool :=
  match BinarySearch.binarySearchBy (compareRange offset) ranges with
  | .ok _ => true
  | .error _ => false

/-- The matches that are no part of an excluded range. -/
def keptTags (ranges : List (ℕ × ℕ)) (tags : List (ℕ × Text)) : List (ℕ × Text) :=
  tags.filter fun tag => !isInCodeBlock tag.1 ranges

def extractInlineTags (events : Events) (tags : List (ℕ × Text)) : List Text :=
  if tags = [] then [] else sortedDedup ((keptTags (codeBlockRanges none events) tags).map Prod.snd)

/-! ## The bound -/

/-- The least power of two that is not below a number. -/
def nextPowerOfTwo (n : ℕ) : ℕ :=
  2 ^ Nat.clog 2 n

def allocationCapacityBound (length : ℕ) : ℕ :=
  if length = 0 then 0
  else max (if nextPowerOfTwo length ≤ usizeMax then nextPowerOfTwo length else usizeMax) 4

def tagBytes (tags : List (ℕ × Text)) : ℕ :=
  (tags.map fun tag => byteLen tag.2).sum

/-- What the pass has counted; the matches that it has not come to are left. -/
structure Counted where
  tags : List (ℕ × Text)
  exclusions : ℕ := 0
  tagCount : ℕ := 0
  tagBytes : ℕ := 0

/-- Count the matches in front of a range and leave out those in it. -/
def Counted.exclude (counted : Counted) (range : ℕ × ℕ) : Counted :=
  let before := counted.tags.takeWhile fun tag => tag.1 < range.1
  let rest := counted.tags.dropWhile fun tag => tag.1 < range.1
  { tags := rest.dropWhile fun tag => tag.1 < range.2
    exclusions := counted.exclusions + 1
    tagCount := counted.tagCount + before.length
    tagBytes := counted.tagBytes + InlineTags.tagBytes before }

/-- The pass over the events. -/
def countEvents : Option ℕ → Counted → Events → Counted
  | _, counted, [] => counted
  | blockStart, counted, event :: events =>
      match exclusion blockStart event with
      | (blockStart, some range) => countEvents blockStart (counted.exclude range) events
      | (blockStart, none) => countEvents blockStart counted events

/-- The pass, and behind it the matches that are left. -/
def countTags (events : Events) (tags : List (ℕ × Text)) : Counted :=
  let counted := countEvents none ⟨tags, 0, 0, 0⟩ events
  { counted with
    tags := []
    tagCount := counted.tagCount + counted.tags.length
    tagBytes := counted.tagBytes + tagBytes counted.tags }

/-- The sizes of a range and of the header of a string. -/
def rangeSize : ℕ := 16

def stringSize : ℕ := 24

def inlineTagAllocationBound (events : Events) (tags : List (ℕ × Text)) : ℕ :=
  if tags = [] then 0
  else
    let counted := countTags events tags
    saturatingAdd
      (saturatingAdd (saturatingMul (allocationCapacityBound counted.exclusions) rangeSize)
        (saturatingMul (allocationCapacityBound counted.tagCount) stringSize))
      counted.tagBytes

/-! ## What extraction allocates -/

/-- The capacity of a vector that has room for one more element than it holds. -/
def grow (capacity length : ℕ) : ℕ :=
  if length < capacity then capacity else max (max (2 * capacity) (length + 1)) 4

/-- The capacity of a vector of elements that were pushed one at a time. -/
def pushedCapacity : ℕ → ℕ
  | 0 => 0
  | length + 1 => grow (pushedCapacity length) length

/-- The bytes of the excluded ranges, of the headers of the kept tags and of their texts. -/
def extractionBytes (events : Events) (tags : List (ℕ × Text)) : ℕ :=
  if tags = [] then 0
  else
    let ranges := codeBlockRanges none events
    let kept := keptTags ranges tags
    pushedCapacity ranges.length * rangeSize + pushedCapacity kept.length * stringSize +
      tagBytes kept

end ObsidianMcp.InlineTags
