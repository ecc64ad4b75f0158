import ObsidianMcp.Model.Source
import ObsidianMcp.Verification.Chunks.Preparation

/-! # Prepared notes

The chunks of a prepared note cut its body without gaps, each inside a section unless the note is one
chunk, and the bytes in use at the end are those of the note. -/

namespace ObsidianMcp.Chunks

open Text

/-! ## Where a chunk stands -/

/-- A chunk of a note is the whole note, or else it stands in a section. -/
inductive Placed (source : PreparationSource) (p : Preparation) (raw : Text) (note : PreparedNote)
    (chunk : PreparedChunk) : Prop where
  | whole (h : WholeNote p raw note.title.value note.bodyRange chunk)
      (hall : note.chunks.value = [chunk]) : Placed source p raw note chunk
  | passage {markdown : MarkdownStructure} {part : Section}
      (hmarkdown : source.markdownStructure raw = .ok markdown)
      (hpart : SectionOf raw note.bodyRange
        (Preparation.bodyHeadings markdown.headings note.bodyRange.startByte) part)
      (h : PassageOf p raw note.title.value markdown.blocks part chunk) :
      Placed source p raw note chunk

/-- What is asked of a chunk besides its place. -/
structure Cut (p : Preparation) (raw : Text) (body : SourceRange) (chunk : PreparedChunk) :
    Prop where
  valid : Valid raw chunk.range
  advancing : body.startByte < body.endByte → chunk.range.startByte < chunk.range.endByte
  fits : ∃ n, p.count chunk.text.value = .ok n ∧ n ≤ p.maxTokens

variable {source : PreparationSource} {p : Preparation} {path : OsString} {raw title : Text}
  {body : SourceRange} {note : PreparedNote} {t : Memory}

theorem NoteChunks.ne_nil {chunks : List PreparedChunk}
    (h : NoteChunks source p raw title body chunks) : chunks ≠ [] := by
  cases h with
  | whole h => exact List.cons_ne_nil _ _
  | sections _ h _ => exact h.ne_nil

theorem NoteChunks.covers {chunks : List PreparedChunk}
    (h : NoteChunks source p raw title body chunks) :
    Covers body.startByte body.endByte chunks := by
  cases h with
  | whole h => exact ⟨congrArg _ h.range, congrArg SourceRange.endByte h.range⟩
  | sections _ h _ => exact h.covers

theorem NoteChunks.cut {chunks : List PreparedChunk} (hbody : Valid raw body)
    (h : NoteChunks source p raw title body chunks) {chunk : PreparedChunk} (hmem : chunk ∈ chunks) :
    Cut p raw body chunk := by
  cases h with
  | whole h =>
      obtain rfl := List.mem_singleton.mp hmem
      exact ⟨h.range ▸ hbody, fun hlt => h.range ▸ hlt, h.fits⟩
  | sections _ h _ =>
      obtain ⟨part, -, hpassage, -⟩ := h.each chunk hmem
      exact ⟨hpassage.valid, fun hlt => h.advancing hlt chunk hmem, hpassage.fits⟩

theorem PreparedOf.placed (h : PreparedOf source p path raw note) {chunk : PreparedChunk}
    (hmem : chunk ∈ note.chunks.value) : Placed source p raw note chunk := by
  have hchunks := h.chunks
  generalize hlist : note.chunks.value = chunks at hchunks hmem
  cases hchunks with
  | whole hwhole =>
      obtain rfl := List.mem_singleton.mp hmem
      exact .whole hwhole hlist
  | sections hmarkdown hsections _ =>
      obtain ⟨part, hpart, hpassage, -⟩ := hsections.each chunk hmem
      exact .passage hmarkdown hpart hpassage

theorem balanced_empty (limit : ℕ) : Memory.Balanced limit {} :=
  ⟨le_rfl, Nat.zero_le _, Nat.zero_le _⟩

/-- What a preparation that succeeds returns. -/
theorem preparedOf_of_ok (hlimit : p.limit < usizeMax)
    (hmarkdown : ∀ markdown, source.markdownStructure raw = .ok markdown →
      MarkdownSound raw markdown)
    (h : prepareBudgeted source p path raw {} = .ok note t) : PreparedOf source p path raw note := by
  obtain ⟨-, -, hnote, -⟩ :=
    (prepareBudgeted_runs hlimit hmarkdown (balanced_empty p.limit)).result h
  exact hnote

/-- A note with a heading in the section of another. -/
def nestedNote : Text := "# a\n## d\nbc ef\n".toList

def nestedStructure : MarkdownStructure :=
  ⟨[⟨1, ['a'], 0, 0, 4⟩, ⟨2, ['d'], 1, 4, 9⟩],
    [⟨0, 4, "heading".toList⟩, ⟨4, 9, "heading".toList⟩, ⟨9, 15, "paragraph".toList⟩]⟩

/-- The digest of the note. -/
def nestedDigest : Hash := #v[
  0x38, 0x36, 0xDB, 0x08, 0x88, 0xFC, 0x22, 0xC0, 0x8A, 0x12, 0x1D, 0x82, 0xEA, 0xAE, 0xA8, 0x43,
  0xD0, 0x81, 0x36, 0xDF, 0xFF, 0x4D, 0x40, 0x90, 0x3A, 0x20, 0x62, 0x31, 0x2C, 0x84, 0x19, 0xB0]

/-- The note has neither frontmatter nor tags, so nothing is asked about them. -/
def nestedSource : PreparationSource where
  text := { Unicode.basic with lossy := fun _ => [] }
  upper c := [c]
  upper_slash := rfl
  md := ⟨fun _ => nestedStructure.headings, fun _ => []⟩
  yaml :=
    { fromStrJson := fun _ => .error []
      fromStrMapping := fun _ => .error []
      fromStrValue := fun _ => .error []
      toStringJson := fun _ => .error []
      toStringMapping := fun _ => .error []
      toStringValue := fun _ => .error []
      displayNumber := fun _ => [] }
  displayJson _ := []
  isWord c := c.isAlphanum
  sourceRevision := ObsidianMcp.sourceRevision fun _ => nestedDigest
  events _ := []
  structureBytes _ := 358
  markdownStructure _ := .ok nestedStructure
  yamlNode _ := .scalar
  jsonValue := 32
  collected tags := ⟨tags.map fun tag => ⟨tag, byteLen tag⟩, tags.length⟩
  textHash _ := nestedDigest

/-- A model that counts characters. -/
def characterPreparation (maxTokens : ℕ) : Preparation where
  maxTokens := maxTokens
  count text := .ok text.length
  dimension := 1
  limit := 65536
  layout := ⟨400, 200, 200, 160⟩
  capacity bytes := bytes

theorem nestedBlocks_valid : BlocksValid nestedNote nestedStructure.blocks := by
  intro block hmem
  simp only [nestedStructure, List.mem_cons, List.not_mem_nil, or_false] at hmem
  obtain rfl | rfl | rfl := hmem
  all_goals exact ⟨by decide, by decide, by decide⟩

theorem nestedStructure_sound : MarkdownSound nestedNote nestedStructure :=
  ⟨⟨by simp [nestedStructure], by decide, by decide⟩, by decide, nestedBlocks_valid, by decide⟩

theorem nestedSource_sound (markdown : MarkdownStructure)
    (h : nestedSource.markdownStructure nestedNote = .ok markdown) :
    MarkdownSound nestedNote markdown := by
  obtain rfl := Except.ok.inj h
  exact nestedStructure_sound

/-- The ranges of the chunks of a note. -/
def rangesOf (outcome : EStateM.Result Failure Memory PreparedNote) : Option (List SourceRange) :=
  match outcome with
  | .ok note _ => some (note.chunks.value.map PreparedChunk.range)
  | .error _ _ => none

theorem ok_of_rangesOf {outcome : EStateM.Result Failure Memory PreparedNote}
    {ranges : List SourceRange} (h : rangesOf outcome = some ranges) :
    ∃ note t, outcome = .ok note t ∧ note.chunks.value.map PreparedChunk.range = ranges := by
  cases outcome with
  | ok note t => exact ⟨note, t, rfl, Option.some.inj h⟩
  | error failure t => contradiction

theorem nestedNote_cut :
    rangesOf (prepareBudgeted nestedSource (characterPreparation 13) (utf8Bytes "n.md".toList)
      nestedNote {}) = some [⟨0, 4⟩, ⟨4, 9⟩, ⟨9, 12⟩, ⟨12, 13⟩, ⟨13, 15⟩] := by
  decide +kernel

end ObsidianMcp.Chunks
