import ObsidianMcp.Verification.Chunks.Budget
import ObsidianMcp.Verification.Chunks.Sections

/-! # The chunks of a section

The chunks cut a section without gaps, each of them fits, and what is kept of the budget is what the
records of the chunks take. -/

namespace ObsidianMcp.Chunks

open Text

namespace Preparation

variable {p : Preparation} {s t u : Memory} {extra : List (Guard × ℕ)} {kept : ℕ}

/-- Every allocation gets the capacity that it asks for. -/
def Exact (p : Preparation) : Prop :=
  ∀ n, p.capacity n = n

/-- The bytes of the records of chunks and of what they own. -/
def listBytes (p : Preparation) (chunks : ChunkList) : ℕ :=
  chunks.capacity * p.layout.preparedChunk +
    (chunks.value.map (PreparedChunk.stagingBytes p.layout p.dimension)).sum

/-! ## One record -/

/-- Some chunks have been appended, and their bytes are kept. -/
structure Appended (p : Preparation) (chunks result : ChunkList) (new : List PreparedChunk)
    (kept : ℕ) : Prop where
  value : result.value = chunks.value ++ new
  count : chunks.value.length ≤ maxNoteChunks → result.value.length ≤ maxNoteChunks
  bytes : p.Exact → chunks.capacity = chunks.value.length →
    result.capacity = result.value.length ∧ kept + p.listBytes chunks = p.listBytes result

theorem Appended.refl (p : Preparation) (chunks : ChunkList) : Appended p chunks chunks [] 0 :=
  ⟨(List.append_nil _).symm, id, fun _ h => ⟨h, Nat.zero_add _⟩⟩

theorem Appended.trans {chunks middle result : ChunkList} {new new' : List PreparedChunk}
    {kept kept' : ℕ} (h : Appended p chunks middle new kept)
    (h' : Appended p middle result new' kept') :
    Appended p chunks result (new ++ new') (kept + kept') := by
  refine ⟨?_, fun hcount => h'.count (h.count hcount), fun hexact hfull => ?_⟩
  · rw [h'.value, h.value, List.append_assoc]
  · obtain ⟨hmiddle, hbytes⟩ := h.bytes hexact hfull
    obtain ⟨hresult, hbytes'⟩ := h'.bytes hexact hmiddle
    exact ⟨hresult, by omega⟩

theorem saturatingSum_eq (sizes : List ℕ) : saturatingSum sizes = min sizes.sum usizeMax := by
  have hfold : ∀ total, total ≤ usizeMax →
      sizes.foldl saturatingAdd total = min (total + sizes.sum) usizeMax := by
    induction sizes with
    | nil =>
        intro total htotal
        simp [htotal]
    | cons size sizes ih =>
        intro total _
        have hle : saturatingAdd total size ≤ usizeMax := min_le_right _ _
        rw [List.foldl_cons, ih _ hle, List.sum_cons]
        unfold saturatingAdd
        omega
  rw [saturatingSum, hfold 0 (Nat.zero_le _), Nat.zero_add]

variable {textHash : Text → Hash} {text : Buffer Text} {evidence : EvidenceScope}
  {range : SourceRange} {overlapRange sectionRange : Option SourceRange} {headingPath : List Text}
  {blockKind : Option Text}

/-- The space of a heading path whose copies are exact. -/
theorem stringVecBytes_owned (hexact : p.Exact) (texts : List Text) :
    stringVecBytes ⟨texts.map p.owned, p.capacity texts.length⟩ =
      saturatingAdd (saturatingMul texts.length vecBytes) (min (texts.map byteLen).sum usizeMax) := by
  have hcapacities : (texts.map p.owned).map Buffer.capacity = texts.map byteLen := by
    rw [List.map_map]
    exact List.map_congr_left fun text _ => hexact _
  rw [stringVecBytes, saturatingSum_eq, hcapacities, hexact]

/-- A sum that has not come to the largest word may be added up in another order. -/
theorem saturatingAdd_regroup {a b c d e f : ℕ}
    (h : saturatingAdd (saturatingAdd (saturatingAdd a (saturatingAdd (saturatingAdd b c) d)) e) f <
      usizeMax) :
    saturatingAdd (saturatingAdd (saturatingAdd a (saturatingAdd (saturatingAdd b c) d)) e) f =
      e + saturatingAdd (saturatingAdd (saturatingAdd a (saturatingAdd b (min c usizeMax))) d) f := by
  unfold saturatingAdd at h ⊢
  omega

/-- The bytes that are charged for a chunk are those of its record and its copies. -/
theorem chunkBytes_eq (hexact : p.Exact) {chunks : ChunkList}
    (hfull : chunks.capacity = chunks.value.length)
    (hbytes : p.chunkBytes chunks text headingPath blockKind < usizeMax) :
    p.chunkBytes chunks text headingPath blockKind = p.layout.preparedChunk +
      (p.chunkRecord textHash text evidence range overlapRange headingPath sectionRange
        blockKind).stagingBytes p.layout p.dimension := by
  have hkind : ((blockKind.map p.owned).map Buffer.capacity).getD 0 =
      (blockKind.map byteLen).getD 0 := by
    cases blockKind with
    | none => rfl
    | some kind => exact hexact _
  rw [PreparedChunk.stagingBytes, chunkRecord, stringVecBytes_owned hexact, hkind]
  unfold chunkBytes metadataBytes at hbytes ⊢
  rw [if_pos hfull.symm] at hbytes ⊢
  exact saturatingAdd_regroup hbytes

/-- A chunk is appended when its bytes fit into the budget. -/
theorem appendChunk_runs (hlimit : p.limit < usizeMax) (h : Since p.limit s extra kept t)
    (chunks : ChunkList) :
    Runs (p.appendChunk textHash chunks text evidence range overlapRange headingPath sectionRange
        blockKind) t
      (fun result u => ∃ bytes, Since p.limit s extra (kept + bytes) u ∧
        Appended p chunks result [p.chunkRecord textHash text evidence range overlapRange
          headingPath sectionRange blockKind] bytes)
      (Failed p.limit s) := by
  unfold appendChunk
  refine (runs_raise h (checkLimit_ends "chunks per note".toList (chunks.value.length + 1)
    maxNoteChunks)).bind fun _ u _ hu => ?_
  obtain ⟨rfl, hcount⟩ := hu
  refine (check_runs h).bind fun _ v _ hv => ?_
  obtain ⟨rfl, hle⟩ := hv
  have hbytes : p.chunkBytes chunks text headingPath blockKind < usizeMax := by
    unfold saturatingAdd at hle
    omega
  refine (retain_runs hlimit h).bind fun _ w _ hw => ?_
  obtain ⟨-, hsince⟩ := hw
  refine (runs_pure _).mpr ⟨_, hsince, rfl, fun _ => ?_, fun hexact hfull => ⟨?_, ?_⟩⟩
  · rw [pushChunk, List.length_append]
    exact hcount
  · rw [pushChunk, if_pos hfull.symm, hexact, List.length_append, List.length_singleton]
  · rw [chunkBytes_eq hexact hfull hbytes, pushChunk, listBytes, listBytes, if_pos hfull.symm, hexact,
      hfull, List.map_append, List.sum_append, List.map_singleton, List.sum_singleton]
    ring

end Preparation

/-! ## Blocks -/

/-- The blocks of a text are in order and disjoint. -/
structure BlocksSound (raw : Text) (blocks : List MarkdownBlock) : Prop where
  valid : BlocksValid raw blocks
  ordered : blocks.Pairwise fun a b => a.stop ≤ b.start

/-- The block that contains an offset reaches behind it. -/
theorem containingBlock_spec {raw : Text} {blocks : List MarkdownBlock} {block : MarkdownBlock}
    {offset : ℕ} (hblocks : BlocksSound raw blocks)
    (h : containingBlock blocks offset = some block) :
    block ∈ blocks ∧ block.start ≤ offset ∧ offset < block.stop := by
  have hpartition : blocks.Pairwise fun a b =>
      decide (b.stop ≤ offset) = true → decide (a.stop ≤ offset) = true := by
    refine hblocks.ordered.imp_of_mem fun {a b} _ hb hab => ?_
    have hle := (hblocks.valid b hb).le
    simp only [decide_eq_true_eq] at hle ⊢
    omega
  obtain ⟨hget, hstart⟩ := Option.filter_eq_some_iff.mp h
  have hpass := BinarySearch.pass_iff_lt hpartition hget
  rw [BinarySearch.partitionPoint_eq hpartition] at hpass
  simp only [decide_eq_true_eq, lt_irrefl, iff_false, not_le] at hpass hstart
  exact ⟨List.mem_of_getElem? hget, hstart, hpass⟩

/-- The kind of a split block is the kind of some block. -/
theorem mem_of_splitBlock {blocks : List MarkdownBlock} {range : SourceRange} {block : MarkdownBlock}
    (h : splitBlock blocks range = some block) : block ∈ blocks := by
  have hmem : ∀ {offset : ℕ}, containingBlock blocks offset = some block → block ∈ blocks := by
    intro offset hcontaining
    exact List.mem_of_getElem? (Option.filter_eq_some_iff.mp hcontaining).1
  rw [splitBlock, Option.or_eq_some_iff] at h
  obtain h | ⟨-, h⟩ := h
  · exact hmem (Option.filter_eq_some_iff.mp h).1
  · exact hmem (Option.filter_eq_some_iff.mp h).1

/-! ## The chunks of a section -/

/-- An overlap lies in the section and in the block of the chunk, right in front of it, and is
short. -/
structure OverlapIn (p : Preparation) (raw : Text) (blocks : List MarkdownBlock) (part : Section)
    (start : ℕ) (overlap : SourceRange) : Prop where
  valid : Valid raw overlap
  start_lt : overlap.startByte < start
  end_eq : overlap.endByte = start
  section_le : part.range.startByte ≤ overlap.startByte
  block : ∃ block ∈ blocks, block.start ≤ overlap.startByte ∧ start < block.stop
  short : ∃ n, p.count (slice raw overlap.startByte overlap.endByte) = .ok n ∧ n ≤ overlapTokens

/-- What a chunk of a section is. -/
structure PassageOf (p : Preparation) (raw title : Text) (blocks : List MarkdownBlock)
    (part : Section) (chunk : PreparedChunk) : Prop where
  scope : chunk.scope = .passage
  valid : Valid raw chunk.range
  text : chunk.text.value = Preparation.composed (Preparation.contextOf title part.headingPath) raw
    chunk.overlapRange chunk.range
  fits : ∃ n, p.count chunk.text.value = .ok n ∧ n ≤ p.maxTokens
  section_start : part.range.startByte ≤ chunk.range.startByte
  section_end : chunk.range.endByte ≤ part.range.endByte
  overlap : ∀ o, chunk.overlapRange = some o → OverlapIn p raw blocks part chunk.range.startByte o
  headingPath : chunk.headingPath.value.map Buffer.value = part.headingPath
  sectionRange : chunk.sectionRange = some part.sectionRange
  blockKind : ∀ kind, chunk.blockKind = some kind → ∃ block ∈ blocks, kind.value = block.kind

/-- The chunks follow each other from one offset to another. -/
def Covers : ℕ → ℕ → List PreparedChunk → Prop
  | start, stop, [] => start = stop
  | start, stop, chunk :: chunks =>
      chunk.range.startByte = start ∧ Covers chunk.range.endByte stop chunks

theorem Covers.append {start middle stop : ℕ} {chunks chunks' : List PreparedChunk}
    (h : Covers start middle chunks) (h' : Covers middle stop chunks') :
    Covers start stop (chunks ++ chunks') := by
  induction chunks generalizing start with
  | nil =>
      obtain rfl : start = middle := h
      exact h'
  | cons chunk chunks ih => exact ⟨h.1, ih h.2⟩

theorem map_value_owned (p : Preparation) (texts : List Text) :
    (texts.map p.owned).map Buffer.value = texts := by
  rw [List.map_map]
  exact List.map_id texts

namespace Preparation

variable {p : Preparation} {s t u : Memory} {extra : List (Guard × ℕ)} {kept : ℕ}
  {textHash : Text → Hash} {raw title : Text} {blocks : List MarkdownBlock} {part : Section}

/-- One chunk is cut off, and the rest of the section gets shorter. -/
theorem splitChunk_runs (hlimit : p.limit < usizeMax) (hblocks : BlocksSound raw blocks)
    (hpart : part.Valid raw) (h : Since p.limit s extra kept t) {start : ℕ}
    (hstart : isCharBoundary raw start = true) (hfrom : part.range.startByte ≤ start)
    (hlt : start < part.range.endByte) (chunks : ChunkList) :
    Runs (p.splitChunk textHash raw blocks part (contextOf title part.headingPath) start chunks) t
      (fun result u => ∃ chunk bytes, Since p.limit s extra (kept + bytes) u ∧
        Appended p chunks result.2 [chunk] bytes ∧ PassageOf p raw title blocks part chunk ∧
        chunk.range = ⟨start, result.1⟩ ∧ start < result.1)
      (Failed p.limit s) := by
  have hrange : Valid raw ⟨start, part.range.endByte⟩ := ⟨hlt.le, hstart, hpart.range.end_boundary⟩
  unfold splitChunk
  refine (runs_reading
    (f := fun used => p.precedingOverlap used (contextOf title part.headingPath) raw start part
      (containingBlock blocks start)) h (precedingOverlap_ends hrange hlt)).bind
    fun overlap v _ hv => ?_
  obtain ⟨rfl, hfound⟩ := hv
  have hoverlap : ∀ o, overlap = some o → Valid raw o := by
    intro o ho
    obtain ⟨b, first, -, -, hof⟩ := hfound o ho
    exact hof.valid
  refine (runs_reading (f := fun used => p.fittingEnd used (contextOf title part.headingPath) raw
    overlap start part.range.endByte) h (fittingEnd_ends hoverlap hrange hlt)).bind
    fun candidate w _ hw => ?_
  obtain ⟨rfl, hcandidate⟩ := hw
  refine (runs_reading (f := fun used => p.preferredEnd used (contextOf title part.headingPath) raw
    overlap start part blocks candidate) h
    (preferredEnd_ends hoverlap hpart hblocks.valid hstart hcandidate)).bind fun stop x _ hx => ?_
  obtain ⟨rfl, hstop⟩ := hx
  have hvalid : Valid raw ⟨start, stop⟩ := ⟨hstop.start_lt.le, hstart, hstop.boundary⟩
  have htokens := fun n => (@tokens_ends p x.used
    (contextOf title part.headingPath) _ _ _ hoverlap hvalid).result (a := n)
  refine (runs_reading (f := fun used => p.compose used (contextOf title part.headingPath) raw
    overlap ⟨start, stop⟩) h (compose_ends hoverlap hvalid)).bind fun text y _ hy => ?_
  obtain ⟨rfl, htext⟩ := hy
  refine (appendChunk_runs hlimit h chunks).bind fun result z _ hz => ?_
  obtain ⟨bytes, hsince, happended⟩ := hz
  refine (runs_pure _).mpr ⟨_, bytes, hsince, happended, ?_, rfl, hstop.start_lt⟩
  obtain ⟨n, hn, hfits⟩ := hstop.fits
  refine ⟨rfl, hvalid, htext, ⟨n, ?_, hfits⟩, hfrom, hstop.le_end, ?_, map_value_owned p _, rfl, ?_⟩
  · change p.count text.value = .ok n
    rw [htext]
    exact htokens n hn
  · intro o ho
    obtain ⟨b, first, hblock, -, hof⟩ := hfound o ho
    obtain ⟨hmem, -, hbehind⟩ := containingBlock_spec hblocks hblock
    have hearliest := max_le_iff.mp hof.earliest_le
    refine ⟨hof.valid, hof.start_lt, hof.end_eq, hearliest.2, ⟨b, hmem, hearliest.1, hbehind⟩, ?_⟩
    rw [hof.end_eq]
    exact hof.short
  · intro kind hkind
    obtain ⟨text, htext, rfl⟩ := Option.map_eq_some_iff.mp hkind
    obtain ⟨block, hblock, rfl⟩ := Option.map_eq_some_iff.mp htext
    exact ⟨block, mem_of_splitBlock hblock, rfl⟩

/-- Every round advances, so the loop ends at the end of the section. -/
theorem splitFrom_runs (hlimit : p.limit < usizeMax) (hblocks : BlocksSound raw blocks)
    (hpart : part.Valid raw) {fuel start : ℕ} (h : Since p.limit s extra kept t)
    (hstart : isCharBoundary raw start = true) (hfrom : part.range.startByte ≤ start)
    (hle : start ≤ part.range.endByte) (hfuel : part.range.endByte - start < fuel)
    (chunks : ChunkList) :
    Runs (p.splitFrom textHash raw blocks part (contextOf title part.headingPath) fuel start chunks) t
      (fun result u => ∃ new bytes, Since p.limit s extra (kept + bytes) u ∧
        Appended p chunks result new bytes ∧ Covers start part.range.endByte new ∧
        (∀ chunk ∈ new, PassageOf p raw title blocks part chunk ∧
          chunk.range.startByte < chunk.range.endByte) ∧
        (start < part.range.endByte → new ≠ []))
      (Failed p.limit s) := by
  induction fuel generalizing start kept t chunks with
  | zero => omega
  | succ fuel ih =>
      rw [splitFrom]
      by_cases hlt : start < part.range.endByte
      · rw [if_pos hlt]
        refine (splitChunk_runs hlimit hblocks hpart h hstart hfrom hlt chunks).bind
          fun result v _ hv => ?_
        obtain ⟨stop, middle⟩ := result
        obtain ⟨chunk, bytes, hsince, happended, hpassage, hchunk, hadvance⟩ := hv
        dsimp only at happended hchunk hadvance
        have hboundary := hpassage.valid.end_boundary
        have hend := hpassage.section_end
        rw [hchunk] at hboundary hend
        dsimp only at hboundary hend
        refine (ih hsince hboundary (by omega) hend (by omega) middle).imp ?_ (fun _ _ h => h)
        intro result w hw
        obtain ⟨new, bytes', hsince', happended', hcovers, heach, -⟩ := hw
        refine ⟨chunk :: new, bytes + bytes', ?_, happended.trans happended', ⟨?_, ?_⟩, ?_, ?_⟩
        · rw [← Nat.add_assoc]
          exact hsince'
        · rw [hchunk]
        · rw [hchunk]
          exact hcovers
        · refine List.forall_mem_cons.mpr ⟨⟨hpassage, ?_⟩, heach⟩
          rw [hchunk]
          exact hadvance
        · exact fun _ => List.cons_ne_nil _ _
      · rw [if_neg hlt]
        refine (runs_pure _).mpr ⟨[], 0, h, .refl p chunks, ?_, by simp, fun h => absurd h hlt⟩
        exact le_antisymm hle (not_lt.mp hlt)

/-- The chunks that a section is cut into. -/
structure SectionChunks (p : Preparation) (raw title : Text) (blocks : List MarkdownBlock)
    (part : Section) (new : List PreparedChunk) : Prop where
  covers : Covers part.range.startByte part.range.endByte new
  ne_nil : new ≠ []
  each : ∀ chunk ∈ new, PassageOf p raw title blocks part chunk
  advancing : part.range.startByte < part.range.endByte →
    ∀ chunk ∈ new, chunk.range.startByte < chunk.range.endByte
  context : contextPrefixBytes title (part.headingPath.map byteLen).sum part.headingPath.length ≤
    maxContextBytes

/-- A section is prepared as a whole or cut into chunks, and its context is released. -/
theorem prepareSection_runs (hlimit : p.limit < usizeMax) (hblocks : BlocksSound raw blocks)
    (hpart : part.Valid raw) (h : s.Balanced p.limit) (chunks : ChunkList) :
    Runs (p.prepareSection textHash raw title blocks part chunks) s
      (fun result u => ∃ bytes, Since p.limit s [] bytes u ∧
        ∃ new, Appended p chunks result new bytes ∧ SectionChunks p raw title blocks part new)
      (fun failure u => failure.Reported ∧ ∃ bytes, Since p.limit s [] bytes u) := by
  unfold prepareSection
  refine scope_runs (Q := fun result bytes => ∃ new, Appended p chunks result new bytes ∧
    SectionChunks p raw title blocks part new) ?_
  dsimp only
  refine (runs_raise h.since (checkLimit_ends "embedding context bytes".toList
    (contextPrefixBytes title (part.headingPath.map byteLen).sum part.headingPath.length)
      maxContextBytes)).bind fun _ t _ ht => ?_
  obtain ⟨rfl, hcontext⟩ := ht
  refine (reserve_runs hlimit .context h.since).bind fun _ u _ hu => ?_
  have hnone : ∀ o, (none : Option SourceRange) = some o → Valid raw o := by
    intro o ho
    contradiction
  refine (runs_reading (f := fun used => p.compose used (contextOf title part.headingPath) raw none
    part.range) hu (compose_ends hnone hpart.range)).bind fun entire v _ hv => ?_
  obtain ⟨rfl, hentire⟩ := hv
  refine (runs_raise hu (counted_ends entire.value)).bind fun n w _ hw => ?_
  obtain ⟨rfl, hn⟩ := hw
  by_cases hfits : n ≤ p.maxTokens
  · rw [if_pos hfits]
    refine (appendChunk_runs hlimit hu chunks).imp ?_ (fun _ _ h => h)
    intro result x hx
    obtain ⟨bytes, hsince, happended⟩ := hx
    rw [Nat.zero_add] at hsince
    refine ⟨_, bytes, hsince, _, happended, ⟨rfl, rfl⟩, List.cons_ne_nil _ _, ?_, ?_, hcontext⟩
    · intro chunk hmem
      obtain rfl := List.mem_singleton.mp hmem
      refine ⟨rfl, hpart.range, hentire, ⟨n, hn, hfits⟩, le_rfl, le_rfl, ?_, map_value_owned p _, rfl,
        ?_⟩
      · intro o ho
        contradiction
      · intro kind hkind
        contradiction
    · intro hlt chunk hmem
      obtain rfl := List.mem_singleton.mp hmem
      exact hlt
  · rw [if_neg hfits]
    by_cases hempty : part.range.startByte = part.range.endByte
    · rw [if_pos hempty]
      refine (runs_raise hu (counted_ends entire.value)).bind fun n x _ hx => ?_
      obtain ⟨rfl, -⟩ := hx
      exact (runs_throw _).mpr (hu.failed ⟨_, rfl⟩)
    · have hlt : part.range.startByte < part.range.endByte :=
        lt_of_le_of_ne hpart.range.le hempty
      rw [if_neg hempty]
      refine (splitFrom_runs hlimit hblocks hpart hu hpart.range.start_boundary le_rfl
        hpart.range.le (Nat.lt_succ_self _) chunks).imp ?_ (fun _ _ h => h)
      intro result x hx
      obtain ⟨new, bytes, hsince, happended, hcovers, heach, hne⟩ := hx
      rw [Nat.zero_add] at hsince
      exact ⟨_, bytes, hsince, new, happended, hcovers, hne hlt,
        fun chunk hmem => (heach chunk hmem).1, fun _ chunk hmem => (heach chunk hmem).2, hcontext⟩

end Preparation

/-! ## The sections of a body -/

/-- What the chunks rely on: the headings and the blocks of a text are in order and disjoint, and
all of them start and end at its boundaries. -/
structure MarkdownSound (raw : Text) (markdown : MarkdownStructure) : Prop where
  headings : Ordered raw markdown.headings
  boundaries : ∀ heading ∈ markdown.headings, isCharBoundary raw heading.offset = true ∧
    isCharBoundary raw heading.endOffset = true
  blocks : BlocksSound raw markdown.blocks

/-- The section of a heading, with the texts of the heading and of its ancestors as its path. -/
structure HeadingSectionOf (raw : Text) (headings : List HeadingPos) (index : ℕ)
    (heading : HeadingPos) (part : Section) : Prop where
  get : headings[index]? = some heading
  range : part.range =
    ⟨heading.offset, (headings[index + 1]?.map HeadingPos.offset).getD (byteLen raw)⟩
  path : ∃ stack : HeadingStack, stack.Lists headings index ∧
    part.headingPath = stack.indices.map fun i => (headings[i]?.map HeadingPos.text).getD []
  sectionRange : part.sectionRange =
    ⟨heading.offset, sectionStop raw headings index heading.level⟩
  headingEnd : part.headingEnd = heading.endOffset

/-- The text in front of the first heading, or the section of a heading. -/
def SectionOf (raw : Text) (body : SourceRange) (headings : List HeadingPos) (part : Section) :
    Prop :=
  part = Preparation.preamble body headings ∨
    ∃ index heading, HeadingSectionOf raw headings index heading part

namespace Preparation

variable {p : Preparation} {s t u : Memory} {extra : List (Guard × ℕ)} {kept : ℕ}
  {textHash : Text → Hash} {raw title : Text} {blocks : List MarkdownBlock} {part : Section}
  {headings : List HeadingPos} {index : ℕ} {heading : HeadingPos}

/-- Every name on the stack is there. -/
theorem names_eq {indices : List ℕ} (hmem : ∀ i ∈ indices, i < headings.length) :
    (indices.mapM fun i => (orPanic headings[i]?).map HeadingPos.text) =
      .ok (indices.map fun i => (headings[i]?.map HeadingPos.text).getD []) := by
  induction indices with
  | nil => rfl
  | cons i indices ih =>
      obtain ⟨hi, hrest⟩ := List.forall_mem_cons.mp hmem
      rw [List.mapM_cons, List.getElem?_eq_getElem hi, ih hrest, List.map_cons,
        List.getElem?_eq_getElem hi]
      rfl

theorem headingSection_eq (hheading : headings[index]? = some heading) {stack : HeadingStack}
    (hopen : Open headings (index + 1) stack.indices.reverse) :
    ∃ part, headingSection headings (byteLen raw) (outline raw headings).2 stack index heading =
      .ok part ∧ HeadingSectionOf raw headings index heading part := by
  have hlength : index < headings.length := (List.getElem?_eq_some_iff.mp hheading).1
  have hmem : ∀ i ∈ stack.indices, i < headings.length := by
    intro i hi
    exact Open.lt_length hopen hlength i (List.mem_reverse.mpr hi)
  have hstop := (outline_spec raw headings hheading).2
  rw [headingSection, names_eq hmem]
  change ∃ part, (orPanic (outline raw headings).2[index]? >>= _) = _ ∧ _
  rw [hstop]
  exact ⟨_, rfl, hheading, rfl, ⟨stack, stackLists_of_open hopen, rfl⟩, rfl, rfl⟩

end Preparation

/-- Headings in order, between boundaries. -/
structure HeadingsSound (raw : Text) (headings : List HeadingPos) : Prop where
  ordered : Ordered raw headings
  boundaries : ∀ heading ∈ headings, isCharBoundary raw heading.offset = true ∧
    isCharBoundary raw heading.endOffset = true

theorem HeadingsSound.drop {raw : Text} {headings : List HeadingPos} (h : HeadingsSound raw headings)
    (count : ℕ) : HeadingsSound raw (headings.drop count) :=
  ⟨⟨fun heading hmem => h.ordered.levels heading (List.mem_of_mem_drop hmem),
    fun heading hmem => h.ordered.ranges heading (List.mem_of_mem_drop hmem),
    h.ordered.disjoint.sublist (List.drop_sublist _ _)⟩,
    fun heading hmem => h.boundaries heading (List.mem_of_mem_drop hmem)⟩

/-- A heading ends before the next one starts, or before the end of the text. -/
theorem HeadingsSound.next {raw : Text} {headings : List HeadingPos} {index : ℕ}
    {heading : HeadingPos} (h : HeadingsSound raw headings)
    (hheading : headings[index]? = some heading) :
    heading.endOffset ≤ (headings[index + 1]?.map HeadingPos.offset).getD (byteLen raw) ∧
      isCharBoundary raw ((headings[index + 1]?.map HeadingPos.offset).getD (byteLen raw)) = true := by
  cases hnext : headings[index + 1]? with
  | none =>
      exact ⟨(h.ordered.ranges heading (List.mem_of_getElem? hheading)).2, isCharBoundary_byteLen raw⟩
  | some next =>
      obtain ⟨hlength, rfl⟩ := List.getElem?_eq_some_iff.mp hheading
      obtain ⟨hlength', rfl⟩ := List.getElem?_eq_some_iff.mp hnext
      exact ⟨List.pairwise_iff_getElem.mp h.ordered.disjoint index (index + 1) hlength hlength'
        (Nat.lt_succ_self index), (h.boundaries _ (List.getElem_mem hlength')).1⟩

/-- The section of a heading can be cut, and is not empty. -/
theorem HeadingSectionOf.valid {raw : Text} {headings : List HeadingPos} {index : ℕ}
    {heading : HeadingPos} {part : Section} (hheadings : HeadingsSound raw headings)
    (h : HeadingSectionOf raw headings index heading part) :
    part.Valid raw ∧ part.range.startByte < part.range.endByte := by
  have hmem := List.mem_of_getElem? h.get
  obtain ⟨hlt, -⟩ := hheadings.ordered.ranges heading hmem
  obtain ⟨hstart, hend⟩ := hheadings.boundaries heading hmem
  obtain ⟨hnext, hboundary⟩ := hheadings.next h.get
  have hrange := h.range
  have hheadingEnd := h.headingEnd
  refine ⟨⟨⟨?_, ?_, ?_⟩, ⟨?_, ?_, ?_⟩, ?_⟩, ?_⟩ <;> rw [hrange] <;> try rw [hheadingEnd]
  · exact hlt.le.trans hnext
  · exact hstart
  · exact hboundary
  · exact hnext
  · exact hend
  · exact hboundary
  · exact hlt.le
  · exact hlt.trans_le hnext

/-- What a chunk of a body is: a chunk of one of its sections, whose context is bounded. -/
def ChunkIn (p : Preparation) (raw title : Text) (body : SourceRange) (headings : List HeadingPos)
    (blocks : List MarkdownBlock) (chunk : PreparedChunk) : Prop :=
  ∃ part, SectionOf raw body headings part ∧ PassageOf p raw title blocks part chunk ∧
    contextPrefixBytes title (part.headingPath.map byteLen).sum part.headingPath.length ≤
      maxContextBytes

/-- Where the headings that are left start. -/
def startOf (raw : Text) (rest : List HeadingPos) : ℕ :=
  (rest.head?.map HeadingPos.offset).getD (byteLen raw)

namespace Preparation

variable {p : Preparation} {s t u : Memory} {extra : List (Guard × ℕ)} {kept : ℕ}
  {textHash : Text → Hash} {raw title : Text} {blocks : List MarkdownBlock} {part : Section}
  {headings : List HeadingPos}

/-- The sections of the headings that are left cover the text from the first of them on. -/
theorem sectionsFrom_runs (body : SourceRange) (hlimit : p.limit < usizeMax) (hblocks : BlocksSound raw blocks)
    (hheadings : HeadingsSound raw headings) {before rest : List HeadingPos}
    (hsplit : headings = before ++ rest) {stack : HeadingStack}
    (hopen : Open headings before.length stack.indices.reverse) (h : Since p.limit s extra kept t)
    (chunks : ChunkList) :
    Runs (p.sectionsFrom textHash raw title blocks headings (byteLen raw) (outline raw headings).2
        before.length rest stack chunks) t
      (fun result u => ∃ new bytes, Since p.limit s extra (kept + bytes) u ∧
        Appended p chunks result new bytes ∧ Covers (startOf raw rest) (byteLen raw) new ∧
        (rest ≠ [] → new ≠ []) ∧ ∀ chunk ∈ new, ChunkIn p raw title body headings blocks chunk ∧
          chunk.range.startByte < chunk.range.endByte)
      (Failed p.limit s) := by
  induction rest generalizing before stack kept t chunks with
  | nil =>
      rw [sectionsFrom]
      exact (runs_pure _).mpr ⟨[], 0, h, .refl p chunks, rfl, fun hne => absurd rfl hne, by simp⟩
  | cons heading rest ih =>
      have hheading : headings[before.length]? = some heading := by simp [hsplit]
      obtain ⟨-, next, -, -, henter, hindices⟩ :=
        enterHeading_eq hheadings.ordered.levels hopen hheading
      have hopen' : Open headings (before.length + 1) next.indices.reverse := by
        rw [hindices]
        exact hopen.step hheading
      obtain ⟨part, hpart, hsection⟩ := @headingSection_eq raw _ _ _ hheading _ hopen'
      obtain ⟨hvalid, hlt⟩ := hsection.valid hheadings
      have hnext : headings[before.length + 1]? = rest.head? := by
        rw [hsplit, List.getElem?_append_right (by omega)]
        simp [List.head?_eq_getElem?]
      have hlong : (before ++ [heading]).length = before.length + 1 := by simp
      have hsplit' : headings = (before ++ [heading]) ++ rest := by simp [hsplit]
      rw [sectionsFrom, henter, raise_ok, pure_bind, hpart, raise_ok, pure_bind]
      refine ((prepareSection_runs hlimit hblocks hvalid h.balanced chunks).imp (fun _ _ h => h)
        fun failure u hfailed => h.failed_trans ?_).bind fun middle v _ hv => ?_
      · obtain ⟨hreported, bytes, hsince⟩ := hfailed
        exact ⟨hreported, [], bytes, hsince⟩
      · obtain ⟨bytes, hsince, new, happended, hchunks⟩ := hv
        rw [← hlong] at hopen' ⊢
        refine (ih hsplit' hopen' (h.trans_kept hsince) middle).imp ?_ (fun _ _ h => h)
        intro result w hw
        obtain ⟨new', bytes', hsince', happended', hcovers, -, heach⟩ := hw
        have hrest := hchunks.covers
        rw [hsection.range, hnext] at hrest
        refine ⟨new ++ new', bytes + bytes', ?_, happended.trans happended', hrest.append hcovers, ?_,
          ?_⟩
        · rw [← Nat.add_assoc]
          exact hsince'
        · intro _ hnil
          exact hchunks.ne_nil (List.append_eq_nil_iff.mp hnil).1
        · intro chunk hmem
          obtain hmem | hmem := List.mem_append.mp hmem
          · exact ⟨⟨part, .inr ⟨_, heading, hsection⟩, hchunks.each chunk hmem, hchunks.context⟩,
              hchunks.advancing hlt chunk hmem⟩
          · exact heach chunk hmem

variable {body : SourceRange}

/-- The chunks that a body is cut into. -/
structure BodyChunks (p : Preparation) (raw title : Text) (body : SourceRange)
    (markdown : MarkdownStructure) (new : List PreparedChunk) : Prop where
  covers : Covers body.startByte body.endByte new
  ne_nil : new ≠ []
  each : ∀ chunk ∈ new, ChunkIn p raw title body
    (bodyHeadings markdown.headings body.startByte) markdown.blocks chunk
  advancing : body.startByte < body.endByte →
    ∀ chunk ∈ new, chunk.range.startByte < chunk.range.endByte

/-- The text in front of the first heading can be cut. -/
theorem preamble_valid (hheadings : HeadingsSound raw headings)
    (hbody : Valid raw ⟨body.startByte, byteLen raw⟩) (hend : body.endByte = byteLen raw)
    (hafter : ∀ heading ∈ headings, body.startByte ≤ heading.offset) :
    (preamble body headings).Valid raw ∧
      (preamble body headings).range = ⟨body.startByte, startOf raw headings⟩ := by
  have hrange : (preamble body headings).range = ⟨body.startByte, startOf raw headings⟩ := by
    rw [preamble, startOf, hend]
  have hvalid : Valid raw ⟨body.startByte, startOf raw headings⟩ := by
    cases headings with
    | nil => exact hbody
    | cons heading headings =>
        exact ⟨hafter heading List.mem_cons_self, hbody.start_boundary,
          (hheadings.boundaries heading List.mem_cons_self).1⟩
  refine ⟨⟨hrange ▸ hvalid, ?_, le_rfl⟩, hrange⟩
  rw [hrange]
  exact hvalid

/-- The headings of a body start in it. -/
theorem le_offset_of_mem (hordered : Ordered raw headings) {bodyStart : ℕ} {heading : HeadingPos}
    (hmem : heading ∈ bodyHeadings headings bodyStart) : bodyStart ≤ heading.offset := by
  have hsorted : headings.Pairwise fun a b => a.offset < b.offset := by
    refine hordered.disjoint.imp_of_mem fun {a b} ha _ hab => ?_
    have := (hordered.ranges a ha).1
    omega
  have hpartition : headings.Pairwise fun a b =>
      decide (b.offset < bodyStart) = true → decide (a.offset < bodyStart) = true := by
    refine hsorted.imp fun {a b} hab => ?_
    simp only [decide_eq_true_eq]
    omega
  rw [bodyHeadings_eq hsorted] at hmem
  simpa using BinarySearch.fail_of_mem_dropWhile hpartition hmem

/-- The chunks of a body cover it. -/
theorem prepareSections_runs (hlimit : p.limit < usizeMax) {markdown : MarkdownStructure}
    (hmarkdown : MarkdownSound raw markdown) (hbody : Valid raw ⟨body.startByte, byteLen raw⟩)
    (hend : body.endByte = byteLen raw) (h : s.Balanced p.limit) (chunks : ChunkList) :
    Runs (p.prepareSections textHash raw title body markdown chunks) s
      (fun result u => ∃ bytes, Since p.limit s [] bytes u ∧
        ∃ new, Appended p chunks result new bytes ∧ BodyChunks p raw title body markdown new)
      (fun failure u => failure.Reported ∧ ∃ bytes, Since p.limit s [] bytes u) := by
  have hall : HeadingsSound raw markdown.headings := ⟨hmarkdown.headings, hmarkdown.boundaries⟩
  have hheadings : HeadingsSound raw (bodyHeadings markdown.headings body.startByte) := hall.drop _
  have hafter : ∀ heading ∈ bodyHeadings markdown.headings body.startByte,
      body.startByte ≤ heading.offset := fun heading hmem => le_offset_of_mem hmarkdown.headings hmem
  obtain ⟨hvalid, hrange⟩ := preamble_valid hheadings hbody hend hafter
  have hopen : Open (bodyHeadings markdown.headings body.startByte) ([] : List HeadingPos).length
      HeadingStack.empty.indices.reverse :=
    ⟨List.Pairwise.nil, by simp [HeadingStack.indices, HeadingStack.empty]⟩
  unfold prepareSections
  refine scope_runs (Q := fun result bytes => ∃ new, Appended p chunks result new bytes ∧
    BodyChunks p raw title body markdown new) ?_
  dsimp only
  refine (reserve_runs hlimit .ends h.since).bind fun _ t _ ht => ?_
  rw [hend, subtreeEnds_eq hheadings.ordered.levels raw, raise_ok, pure_bind]
  by_cases hpreamble : body.startByte <
      (preamble body (bodyHeadings markdown.headings body.startByte)).range.endByte ∨
        bodyHeadings markdown.headings body.startByte = []
  · rw [if_pos hpreamble]
    refine ((prepareSection_runs hlimit hmarkdown.blocks hvalid ht.balanced chunks).imp
      (fun _ _ h => h) fun failure u hfailed => ht.failed_trans ?_).bind fun middle v _ hv => ?_
    · obtain ⟨hreported, bytes, hsince⟩ := hfailed
      exact ⟨hreported, [], bytes, hsince⟩
    · obtain ⟨bytes, hsince, new, happended, hchunks⟩ := hv
      refine (sectionsFrom_runs body hlimit hmarkdown.blocks hheadings (List.nil_append _).symm hopen
        (ht.trans_kept hsince) middle).imp ?_ (fun _ _ h => h)
      intro result w hw
      obtain ⟨new', bytes', hsince', happended', hcovers, -, heach⟩ := hw
      have hfront := hchunks.covers
      rw [hrange] at hfront
      rw [Nat.zero_add] at hsince'
      refine ⟨_, _, hsince', new ++ new', happended.trans happended', ?_, ?_, ?_, ?_⟩
      · rw [hend]
        exact hfront.append hcovers
      · intro hnil
        exact hchunks.ne_nil (List.append_eq_nil_iff.mp hnil).1
      · intro chunk hmem
        obtain hmem | hmem := List.mem_append.mp hmem
        · exact ⟨_, .inl rfl, hchunks.each chunk hmem, hchunks.context⟩
        · exact (heach chunk hmem).1
      · intro hlt chunk hmem
        obtain hmem | hmem := List.mem_append.mp hmem
        · refine hchunks.advancing ?_ chunk hmem
          rw [hrange] at hpreamble ⊢
          obtain hpreamble | hnil := hpreamble
          · exact hpreamble
          · rw [hnil, startOf]
            exact hend ▸ hlt
        · exact (heach chunk hmem).2
  · rw [if_neg hpreamble, pure_bind]
    rw [not_or, hrange] at hpreamble
    have hstart : body.startByte = startOf raw (bodyHeadings markdown.headings body.startByte) := by
      have hle := hvalid.range.le
      rw [hrange] at hle
      exact le_antisymm hle (not_lt.mp hpreamble.1)
    refine (sectionsFrom_runs body hlimit hmarkdown.blocks hheadings (List.nil_append _).symm hopen ht
      chunks).imp ?_ (fun _ _ h => h)
    intro result w hw
    obtain ⟨new, bytes, hsince, happended, hcovers, hne, heach⟩ := hw
    rw [Nat.zero_add] at hsince
    rw [← hstart] at hcovers
    exact ⟨_, _, hsince, new, happended, hend ▸ hcovers, hne hpreamble.2,
      fun chunk hmem => (heach chunk hmem).1, fun _ chunk hmem => (heach chunk hmem).2⟩

end Preparation

end ObsidianMcp.Chunks
