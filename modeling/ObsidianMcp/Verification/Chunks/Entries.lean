import ObsidianMcp.Verification.Chunks.Notes
import ObsidianMcp.Verification.Embeddings.Codec
import ObsidianMcp.Verification.Source.Pages

/-! # Entries of prepared notes

The store accepts the entry of every prepared note whose chunks have got their vectors. -/

namespace ObsidianMcp.Chunks

open Text

variable {source : PreparationSource} {p : Preparation} {path : OsString} {raw title : Text}
  {body : SourceRange} {note : PreparedNote} {t : Memory}

/-! ## Sections -/

/-- A section is not closed in front of the headings that could close it. -/
theorem startOf_le_closedBy {later : List HeadingPos} (hordered : Ordered raw later) (level : ℕ) :
    startOf raw later ≤ closedBy raw level later := by
  obtain ⟨hbound, hsorted⟩ := hordered.offsets
  cases later with
  | nil => exact le_rfl
  | cons heading later =>
      obtain ⟨hhead, -⟩ := List.pairwise_cons.mp hsorted
      change heading.offset ≤ _
      obtain hend | ⟨other, hmem, hother⟩ := closedBy_mem raw level (heading :: later)
      · rw [hend]
        exact hbound heading List.mem_cons_self
      · rw [hother]
        obtain rfl | hmem := List.mem_cons.mp hmem
        · exact le_rfl
        · exact hhead other hmem

/-- A section lies in the section that it is reported with, and at most six headings are open. -/
theorem SectionOf.bounds {headings : List HeadingPos} {part : Section}
    (hheadings : HeadingsSound raw headings) (hend : body.endByte = byteLen raw)
    (hafter : ∀ heading ∈ headings, body.startByte ≤ heading.offset)
    (h : SectionOf raw body headings part) :
    body.startByte ≤ part.range.startByte ∧
      part.sectionRange.startByte ≤ part.range.startByte ∧
      part.range.endByte ≤ part.sectionRange.endByte ∧
      part.sectionRange.endByte ≤ byteLen raw ∧ part.headingPath.length ≤ 6 := by
  obtain rfl | ⟨index, heading, hsection⟩ := h
  · refine ⟨le_rfl, le_rfl, le_rfl, ?_, Nat.zero_le _⟩
    rw [Preparation.preamble, hend]
    cases headings with
    | nil => exact le_rfl
    | cons heading headings => exact hheadings.ordered.offsets.1 heading List.mem_cons_self
  · have hlater : HeadingsSound raw (headings.drop (index + 1)) := hheadings.drop _
    have hhead : (headings.drop (index + 1)).head? = headings[index + 1]? := List.head?_drop
    obtain ⟨stack, -, hpath⟩ := hsection.path
    rw [hsection.sectionRange, hsection.range, hpath]
    refine ⟨hafter heading (List.mem_of_getElem? hsection.get), le_rfl, ?_,
      closedBy_le _ hlater.ordered.offsets.1, ?_⟩
    · have hle := startOf_le_closedBy hlater.ordered heading.level
      rw [startOf, hhead] at hle
      exact hle
    · rw [List.length_map, HeadingStack.indices, List.length_take]
      exact (min_le_left _ _).trans stack.len_le

/-! ## Checks of the store -/

/-- What the store asks of a chunk of an entry. -/
structure Acceptable (entry : NoteEmbeddingEntry) (dim : ℕ) (chunk : ChunkEmbedding) : Prop where
  vector : chunk.vector.length = dim ∧ ∀ value ∈ chunk.vector, value.isFinite = true
  range : chunk.range.startByte ≤ chunk.range.endByte ∧ chunk.range.endByte ≤ entry.sourceBytes
  advancing : entry.bodyRange.startByte ≠ entry.bodyRange.endByte →
    chunk.range.startByte ≠ chunk.range.endByte
  overlap : ∀ overlap, chunk.overlapRange = some overlap →
    entry.bodyRange.startByte ≤ overlap.startByte ∧ overlap.startByte ≤ overlap.endByte ∧
      overlap.endByte ≤ chunk.range.startByte
  inside : ∀ range, chunk.sectionRange = some range →
    range.startByte ≤ chunk.range.startByte ∧ chunk.range.endByte ≤ range.endByte ∧
      range.endByte ≤ entry.sourceBytes
  depth : chunk.headingPath.length ≤ 6
  context : contextPrefixBytes entry.title (chunk.headingPath.map byteLen).sum
    chunk.headingPath.length ≤ maxContextBytes
  kind : ∀ kind, chunk.blockKind = some kind → byteLen kind ≤ maxContextBytes
  whole : chunk.scope = .note → entry.chunks.length = 1 ∧ chunk.range = entry.bodyRange ∧
    chunk.headingPath = [] ∧ chunk.sectionRange = none

theorem validateVector_eq_ok {vector : List F32} {dim : ℕ} :
    validateVector vector dim = .ok () ↔
      vector.length = dim ∧ ∀ value ∈ vector, value.isFinite = true := by
  simp only [validateVector, except_bind_eq_ok, Unique.exists_iff, PUnit.default_eq_unit, ensure_eq_ok,
    decide_eq_true_eq]
  simp

/-- The check of a chunk passes, and the next chunk has to start at its end. -/
theorem Acceptable.validateChunk_eq {entry : NoteEmbeddingEntry} {dim : ℕ} {chunk : ChunkEmbedding}
    (h : Acceptable entry dim chunk) :
    validateChunk entry dim chunk.range.startByte chunk = .ok chunk.range.endByte := by
  have hoverlap : validateOverlap entry chunk = .ok () := by
    rw [validateOverlap]
    cases hrange : chunk.overlapRange with
    | none => rfl
    | some overlap =>
        obtain ⟨hbody, hle, hstart⟩ := h.overlap overlap hrange
        refine except_bind_eq_ok.mpr ⟨(), validateRange_eq_ok.mpr ⟨hle, ?_⟩, ensure_eq_ok.mpr ?_⟩
        · exact hstart.trans (h.range.1.trans h.range.2)
        · simp only [Bool.not_eq_true', Bool.or_eq_false_iff, decide_eq_false_iff_not]
          omega
  have hsection : validateSection entry chunk = .ok () := by
    rw [validateSection]
    cases hrange : chunk.sectionRange with
    | none => rfl
    | some range =>
        obtain ⟨hstart, hend, hsource⟩ := h.inside range hrange
        have hle := h.range.1
        refine except_bind_eq_ok.mpr ⟨(), validateRange_eq_ok.mpr ⟨by omega, hsource⟩,
          ensure_eq_ok.mpr ?_⟩
        simp only [Bool.not_eq_true', Bool.or_eq_false_iff, decide_eq_false_iff_not]
        omega
  refine except_bind_eq_ok.mpr ⟨(), validateVector_eq_ok.mpr h.vector, ?_⟩
  refine except_bind_eq_ok.mpr ⟨(), validateRange_eq_ok.mpr h.range, ?_⟩
  refine except_bind_eq_ok.mpr ⟨(), ensure_eq_ok.mpr ?_, ?_⟩
  · have hle := h.range.1
    have hadvancing := h.advancing
    simp only [Bool.not_eq_true', Bool.or_eq_false_iff, Bool.and_eq_false_iff,
      decide_eq_false_iff_not, not_true_eq_false, not_false_eq_true, true_and, not_lt,
      ne_eq, not_not]
    refine ⟨hle, ?_⟩
    by_cases hempty : entry.bodyRange.startByte = entry.bodyRange.endByte
    · exact .inr hempty
    · exact .inl (hadvancing hempty)
  refine except_bind_eq_ok.mpr ⟨(), hoverlap, ?_⟩
  refine except_bind_eq_ok.mpr ⟨(), hsection, ?_⟩
  refine except_bind_eq_ok.mpr ⟨(), ensure_eq_ok.mpr ?_, ?_⟩
  · simpa using ⟨h.depth, h.context⟩
  refine except_bind_eq_ok.mpr ⟨(), ensure_eq_ok.mpr ?_, ?_⟩
  · cases hkind : chunk.blockKind with
    | none => rfl
    | some kind => simpa using h.kind kind hkind
  refine except_bind_eq_ok.mpr ⟨(), ensure_eq_ok.mpr ?_, rfl⟩
  cases hscope : chunk.scope with
  | passage => simp
  | note =>
      obtain ⟨hcount, hrange, hpath, hsection⟩ := h.whole hscope
      simp [hcount, hrange, hpath, hsection]

/-! ## The entry -/

/-- A chunk of a draft with its vector. -/
def embeddingOf (chunk : PreparedChunk) (vector : Option (List F32)) : ChunkEmbedding where
  inputHash := chunk.inputHash
  vector := vector.getD []
  scope := chunk.scope
  range := chunk.range
  overlapRange := chunk.overlapRange
  headingPath := chunk.headingPath.value.map Buffer.value
  sectionRange := chunk.sectionRange
  blockKind := chunk.blockKind.map Buffer.value

/-- The entry of a draft whose vectors are all there. -/
def entryOf (draft : StagedNote) : NoteEmbeddingEntry where
  sourceRevision := draft.prepared.sourceRevision.value
  sourceBytes := draft.prepared.sourceBytes
  bodyRange := draft.prepared.bodyRange
  title := draft.prepared.title.value
  tags := draft.prepared.tags.value.map Buffer.value
  chunks := List.zipWith embeddingOf draft.prepared.chunks.value draft.vectors

theorem intoEntry_eq {draft : StagedNote} (h : draft.complete = true) :
    draft.intoEntry = .ok (entryOf draft) := by
  have hzip : (draft.prepared.chunks.value.zip draft.vectors).map
      (fun pair => embeddingOf pair.1 pair.2) =
        List.zipWith embeddingOf draft.prepared.chunks.value draft.vectors := by
    rw [List.zip_eq_zipWith, List.map_zipWith]
  rw [StagedNote.intoEntry, h, entryOf, ← hzip]
  rfl

/-- The checks of the chunks of an entry pass from one end to the other. -/
theorem foldlM_validateChunk {entry : NoteEmbeddingEntry} {dim start stop : ℕ}
    {chunks : List PreparedChunk} {vectors : List (Option (List F32))}
    (hlength : vectors.length = chunks.length) (hcovers : Covers start stop chunks)
    (heach : ∀ chunk ∈ chunks, ∀ vector ∈ vectors, Acceptable entry dim (embeddingOf chunk vector)) :
    (List.zipWith embeddingOf chunks vectors).foldlM (validateChunk entry dim) start = .ok stop := by
  induction chunks generalizing start vectors with
  | nil =>
      obtain rfl : start = stop := hcovers
      rfl
  | cons chunk chunks ih =>
      cases vectors with
      | nil => contradiction
      | cons vector vectors =>
          obtain ⟨hstart, hrest⟩ := hcovers
          have hfirst := heach chunk List.mem_cons_self vector List.mem_cons_self
          have hchunk := hfirst.validateChunk_eq
          rw [List.zipWith_cons_cons, List.foldlM_cons]
          refine except_bind_eq_ok.mpr ⟨chunk.range.endByte, hstart ▸ hchunk, ?_⟩
          refine ih (Nat.succ.inj hlength) hrest fun other hmem vector hvector => ?_
          exact heach other (List.mem_cons_of_mem _ hmem) vector (List.mem_cons_of_mem _ hvector)

/-- The headings of a body that is empty. -/
theorem bodyHeadings_eq_nil {markdown : MarkdownStructure} (hmarkdown : MarkdownSound raw markdown) :
    Preparation.bodyHeadings markdown.headings (byteLen raw) = [] := by
  refine List.eq_nil_iff_forall_not_mem.mpr fun heading hmem => ?_
  have hafter := Preparation.le_offset_of_mem hmarkdown.headings hmem
  have hrange := hmarkdown.headings.ranges heading (List.mem_of_mem_drop hmem)
  omega

/-- An empty body is never cut: its only section has the text of the whole note, which fits. -/
theorem whole_of_empty (hmarkdown : ∀ markdown, source.markdownStructure raw = .ok markdown →
      MarkdownSound raw markdown) (hbody : body = ⟨byteLen raw, byteLen raw⟩)
    {chunks : List PreparedChunk} (h : NoteChunks source p raw title body chunks) :
    ∃ chunk, chunks = [chunk] ∧ WholeNote p raw title body chunk := by
  subst hbody
  cases h with
  | whole h => exact ⟨_, rfl, h⟩
  | @sections markdown _ hsource h hlong =>
      obtain ⟨chunk, hmem⟩ := List.exists_mem_of_ne_nil chunks h.ne_nil
      obtain ⟨part, hpart, hpassage, -⟩ := h.each chunk hmem
      have hheadings := bodyHeadings_eq_nil (hmarkdown markdown hsource)
      change SectionOf raw _ (Preparation.bodyHeadings markdown.headings (byteLen raw)) part at hpart
      rw [hheadings] at hpart
      obtain rfl | ⟨index, heading, hsection⟩ := hpart
      · have hvalid := hpassage.valid.le
        have hstart : byteLen raw ≤ chunk.range.startByte := hpassage.section_start
        have hend : chunk.range.endByte ≤ byteLen raw := hpassage.section_end
        have hrange : chunk.range = ⟨byteLen raw, byteLen raw⟩ := by
          cases hchunk : chunk.range
          simp only [hchunk, SourceRange.mk.injEq] at hvalid hstart hend ⊢
          omega
        have hoverlap : chunk.overlapRange = none := by
          cases hchunk : chunk.overlapRange with
          | none => rfl
          | some overlap =>
              have hin := hpassage.overlap overlap hchunk
              have hbefore := hin.start_lt
              have hinside : byteLen raw ≤ overlap.startByte := hin.section_le
              rw [hrange] at hbefore
              exact absurd hinside (not_le.mpr hbefore)
        obtain ⟨n, hn, hfits⟩ := hpassage.fits
        have hcontext : Preparation.contextOf title [] = title ++ ['\n'] := by
          simp [Preparation.contextOf]
        rw [hpassage.text, hoverlap, hrange, Preparation.preamble, hcontext] at hn
        have hcount := hlong n hn
        exact absurd hfits (not_le.mpr hcount)
      · have hget := hsection.get
        contradiction

/-- Every chunk of a prepared note is acceptable once it has its vector. -/
theorem acceptable_of_prepared (hmarkdown : ∀ markdown, source.markdownStructure raw = .ok markdown →
      MarkdownSound raw markdown)
    (hkinds : ∀ markdown, source.markdownStructure raw = .ok markdown →
      ∀ block ∈ markdown.blocks, block.kind ∈ blockKinds)
    (hnote : PreparedOf source p path raw note) {entry : NoteEmbeddingEntry}
    (hbytes : entry.sourceBytes = byteLen raw) (hbody : entry.bodyRange = note.bodyRange)
    (htitle : entry.title = note.title.value)
    (hcount : entry.chunks.length = note.chunks.value.length) {chunk : PreparedChunk}
    (hmem : chunk ∈ note.chunks.value) {values : List F32} (hlength : values.length = p.dimension)
    (hfinite : ∀ value ∈ values, value.isFinite = true) :
    Acceptable entry p.dimension (embeddingOf chunk (some values)) := by
  have hcut := hnote.chunks.cut (hnote.body ▸ body_valid raw) hmem
  have hsourceEnd := le_byteLen_of_isCharBoundary hcut.valid.end_boundary
  have hend : note.bodyRange.endByte = byteLen raw := by rw [hnote.body]
  have hbodyLe : note.bodyRange.startByte ≤ note.bodyRange.endByte := by
    rw [hnote.body]
    exact (body_valid raw).le
  have hadvancing : entry.bodyRange.startByte ≠ entry.bodyRange.endByte →
      chunk.range.startByte ≠ chunk.range.endByte := by
    intro hne
    rw [hbody] at hne
    exact (hcut.advancing (lt_of_le_of_ne hbodyLe hne)).ne
  have hchunks := hnote.chunks
  generalize hlist : note.chunks.value = chunks at hchunks hmem hcount
  cases hchunks with
  | whole h =>
      obtain rfl := List.mem_singleton.mp hmem
      exact
        { vector := ⟨hlength, hfinite⟩
          range := ⟨hcut.valid.le, hbytes ▸ hsourceEnd⟩
          advancing := hadvancing
          overlap := by simp [embeddingOf, h.overlap]
          inside := by simp [embeddingOf, h.sectionRange]
          depth := by simp [embeddingOf, h.headingPath]
          context := by simpa [embeddingOf, h.headingPath, htitle] using hnote.context
          kind := by simp [embeddingOf, h.blockKind]
          whole := fun _ => ⟨hcount, hbody ▸ h.range, by simp [embeddingOf, h.headingPath],
            h.sectionRange⟩ }
  | @sections markdown _ hsource h _ =>
      obtain ⟨part, hpart, hpassage, hcontext⟩ := h.each chunk hmem
      have hsound := hmarkdown markdown hsource
      have hall : HeadingsSound raw markdown.headings := ⟨hsound.headings, hsound.boundaries⟩
      obtain ⟨hfrom, hstart, hstop, hsectionEnd, hdepth⟩ := hpart.bounds (hall.drop _) hend
        fun heading hmem => Preparation.le_offset_of_mem hsound.headings hmem
      refine
        { vector := ⟨hlength, hfinite⟩
          range := ⟨hcut.valid.le, hbytes ▸ hsourceEnd⟩
          advancing := hadvancing
          overlap := fun overlap hoverlap => ?_
          inside := fun range hrange => ?_
          depth := ?_
          context := ?_
          kind := fun kind hkind => ?_
          whole := fun hscope => ?_ }
      · have hin := hpassage.overlap overlap hoverlap
        exact ⟨hbody ▸ hfrom.trans hin.section_le, hin.valid.le, hin.end_eq.le⟩
      · obtain rfl := Option.some.inj (hpassage.sectionRange.symm.trans hrange)
        exact ⟨hstart.trans hpassage.section_start, hpassage.section_end.trans hstop,
          hbytes ▸ hsectionEnd⟩
      · change (chunk.headingPath.value.map Buffer.value).length ≤ 6
        rw [hpassage.headingPath]
        exact hdepth
      · change contextPrefixBytes entry.title ((chunk.headingPath.value.map Buffer.value).map
          byteLen).sum (chunk.headingPath.value.map Buffer.value).length ≤ maxContextBytes
        rw [hpassage.headingPath, htitle]
        exact hcontext
      · obtain ⟨buffer, hbuffer, rfl⟩ := Option.map_eq_some_iff.mp hkind
        obtain ⟨block, hblock, heq⟩ := hpassage.blockKind buffer hbuffer
        have hshort : ∀ kind ∈ blockKinds, byteLen kind ≤ maxContextBytes := by decide
        rw [heq]
        exact hshort _ (hkinds markdown hsource block hblock)
      · have hpassageScope : chunk.scope = .passage := hpassage.scope
        exact absurd (hpassageScope.symm.trans hscope) (by decide)

/-- The checks of an entry that do not look into its chunks, and a fold over them that passes. -/
theorem validateNoteEntry_eq {entry : NoteEmbeddingEntry} {dim : ℕ}
    (hrevision : validateRevision entry.sourceRevision = .ok ())
    (hsource : entry.sourceBytes ≤ maxNoteSourceBytes)
    (hbody : entry.bodyRange.startByte ≤ entry.sourceBytes)
    (hend : entry.bodyRange.endByte = entry.sourceBytes)
    (hmetadata : validateNoteMetadata entry.title entry.tags = .ok ())
    (hne : entry.chunks ≠ []) (hcount : entry.chunks.length ≤ maxNoteChunks)
    (hempty : entry.bodyRange.startByte = entry.bodyRange.endByte →
      ∃ chunk, entry.chunks = [chunk] ∧ chunk.scope = .note)
    (hfold : entry.chunks.foldlM (validateChunk entry dim) entry.bodyRange.startByte =
      .ok entry.bodyRange.endByte) :
    validateNoteEntry entry dim = .ok () := by
  have hdigits : byteLen entry.sourceRevision = 64 ∧
      entry.sourceRevision.all isRevisionDigit = true := by
    rw [validateRevision] at hrevision
    by_contra hnot
    rw [if_neg hnot] at hrevision
    contradiction
  refine except_bind_eq_ok.mpr ⟨(), ensure_eq_ok.mpr (by simp [hdigits]), ?_⟩
  refine except_bind_eq_ok.mpr ⟨(), ensure_eq_ok.mpr (by simpa using hsource), ?_⟩
  refine except_bind_eq_ok.mpr ⟨(), validateRange_eq_ok.mpr ⟨hend ▸ hbody, hend.le⟩, ?_⟩
  refine except_bind_eq_ok.mpr ⟨(), ensure_eq_ok.mpr (by simpa using hend), ?_⟩
  refine except_bind_eq_ok.mpr ⟨(), hmetadata, ?_⟩
  refine except_bind_eq_ok.mpr ⟨(), ensure_eq_ok.mpr (by simpa using ⟨hne, hcount⟩), ?_⟩
  refine except_bind_eq_ok.mpr ⟨(), ensure_eq_ok.mpr ?_, ?_⟩
  · by_cases h : entry.bodyRange.startByte = entry.bodyRange.endByte
    · obtain ⟨chunk, hchunks, hscope⟩ := hempty h
      simp [hchunks, hscope]
    · simp [h]
  · exact except_bind_eq_ok.mpr ⟨_, hfold, ensure_eq_ok.mpr (by simp)⟩

/-- A draft whose chunks all have a finite vector of the model's dimension becomes an entry that the
store accepts. The parser of Markdown names the kinds of blocks, and the revision is a digest. -/
theorem prepared_entry_accepted (hlimit : p.limit < usizeMax)
    (hmarkdown : ∀ markdown, source.markdownStructure raw = .ok markdown →
      MarkdownSound raw markdown)
    (hkinds : ∀ markdown, source.markdownStructure raw = .ok markdown →
      ∀ block ∈ markdown.blocks, block.kind ∈ blockKinds)
    {sha256 : List UInt8 → Hash} (hrevision : source.sourceRevision = sourceRevision sha256)
    (h : prepareBudgeted source p path raw {} = .ok note t) {draft : StagedNote}
    (hdraft : draft.prepared = note)
    (hcount : draft.vectors.length = note.chunks.value.length)
    (hvectors : ∀ vector ∈ draft.vectors, ∃ values, vector = some values ∧
      values.length = p.dimension ∧ ∀ value ∈ values, value.isFinite = true) :
    ∃ entry, draft.intoEntry = .ok entry ∧ validateNoteEntry entry p.dimension = .ok () := by
  have hnote := preparedOf_of_ok hlimit hmarkdown h
  subst hdraft
  have hcomplete : draft.complete = true := by
    rw [StagedNote.complete, Bool.and_eq_true, decide_eq_true_eq, List.all_eq_true]
    refine ⟨hcount, fun vector hmem => ?_⟩
    obtain ⟨values, rfl, -⟩ := hvectors vector hmem
    rfl
  have hlength : (entryOf draft).chunks.length = draft.prepared.chunks.value.length := by
    rw [entryOf, List.length_zipWith, hcount, min_self]
  have hbody := body_valid raw
  have hend : draft.prepared.bodyRange.endByte = byteLen raw := by rw [hnote.body]
  have hrevised : validateRevision (entryOf draft).sourceRevision = .ok () := by
    rw [entryOf, hnote.sourceRevision, hrevision]
    exact validateRevision_sourceRevision sha256 raw
  refine ⟨entryOf draft, intoEntry_eq hcomplete, validateNoteEntry_eq hrevised ?_ ?_ ?_
    hnote.metadata ?_ (hlength ▸ hnote.count) ?_ ?_⟩
  · exact hnote.sourceBytes.le.trans hnote.source_le
  · change draft.prepared.bodyRange.startByte ≤ draft.prepared.sourceBytes
    rw [hnote.body, hnote.sourceBytes]
    exact hbody.le
  · exact hend.trans hnote.sourceBytes.symm
  · rw [← List.length_pos_iff, hlength]
    exact List.length_pos_iff.mpr hnote.chunks.ne_nil
  · intro hempty
    have hrange : draft.prepared.bodyRange = ⟨byteLen raw, byteLen raw⟩ := by
      have hstart : draft.prepared.bodyRange.startByte = byteLen raw := Eq.trans hempty hend
      rw [hnote.body] at hstart ⊢
      exact congrArg (SourceRange.mk · _) hstart
    obtain ⟨chunk, hchunks, hwhole⟩ := whole_of_empty hmarkdown hrange hnote.chunks
    have hone : draft.vectors.length = 1 := by rw [hcount, hchunks, List.length_singleton]
    obtain ⟨vector, hvector⟩ := List.length_eq_one_iff.mp hone
    exact ⟨embeddingOf chunk vector, by rw [entryOf, hchunks, hvector]; rfl, hwhole.scope⟩
  · refine foldlM_validateChunk hcount hnote.chunks.covers fun chunk hmem vector hvector => ?_
    obtain ⟨values, rfl, hdimension, hfinite⟩ := hvectors vector hvector
    exact acceptable_of_prepared hmarkdown hkinds hnote hnote.sourceBytes rfl rfl hlength hmem
      hdimension hfinite

/-- A draft of the note with five chunks, each with the vector of one number. -/
def nestedDraft (note : PreparedNote) : StagedNote where
  work := ⟨utf8Bytes "n.md".toList, 1, .upsert, 0, 0⟩
  prepared := note
  vectors := List.replicate 5 (some [0x3F800000])
  hashOrder := note.hashOrder
  memoryBytes := 0
  lastUsed := 0
  source := ⟨∅, 0⟩

theorem nestedNote_entry_accepted : ∃ note t entry,
    prepareBudgeted nestedSource (characterPreparation 13) (utf8Bytes "n.md".toList) nestedNote {} =
      .ok note t ∧
    (nestedDraft note).intoEntry = .ok entry ∧ validateNoteEntry entry 1 = .ok () := by
  obtain ⟨note, t, hrun, hranges⟩ := ok_of_rangesOf nestedNote_cut
  have hkinds : ∀ markdown, nestedSource.markdownStructure nestedNote = .ok markdown →
      ∀ block ∈ markdown.blocks, block.kind ∈ blockKinds := by
    intro markdown hmarkdown
    obtain rfl := Except.ok.inj hmarkdown
    decide
  have hrevision : nestedSource.sourceRevision = sourceRevision fun _ => nestedDigest := rfl
  have hlength := congrArg List.length hranges
  rw [List.length_map] at hlength
  have hfinite : ∀ value ∈ ([0x3F800000] : List F32), value.isFinite = true := by
    rw [List.forall_mem_singleton]
    decide +kernel
  obtain ⟨entry, hentry, hvalid⟩ := prepared_entry_accepted (p := characterPreparation 13) (by decide)
    nestedSource_sound hkinds hrevision hrun (show (nestedDraft note).prepared = note from rfl)
    hlength.symm (fun vector hvector => ⟨_, List.eq_of_mem_replicate hvector, rfl, hfinite⟩)
  exact ⟨note, t, entry, hrun, hentry, hvalid⟩

end ObsidianMcp.Chunks
