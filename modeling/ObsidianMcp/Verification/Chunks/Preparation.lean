import ObsidianMcp.Model.EmbeddingPreparation
import ObsidianMcp.Verification.Chunks.Coverage
import ObsidianMcp.Verification.Frontmatter.Block

/-! # The preparation of a note

A preparation keeps within its budget and gives all of its workspace back, and the chunks it ends
with pass its own check of the coverage. -/

namespace ObsidianMcp.Chunks

open Text

variable {source : PreparationSource} {p : Preparation} {path : OsString} {raw title : Text}
  {body : SourceRange} {s t u : Memory} {extra : List (Guard × ℕ)} {kept : ℕ}

theorem mapError_ends {α : Type} (x : Except VaultError α) :
    Ends (x.mapError Failure.error) (fun a => x = .ok a) Failure.Reported := by
  cases x with
  | ok a => rfl
  | error error => exact ⟨error, rfl⟩

/-! ## Tags -/

theorem yamlBytes_ends (used : ℕ) :
    Ends (yamlBytes source p path raw used) (fun _ => True) Failure.Reported := by
  unfold yamlBytes
  split
  · trivial
  · split_ifs
    · trivial
    · split
      · trivial
      · exact ⟨_, rfl⟩
      · exact ⟨_, rfl⟩

/-- What is left of the budget of the tags are the bytes of their vector. -/
theorem sourceTags_runs (hlimit : p.limit < usizeMax) (inlineBytes : ℕ) (h : s.Balanced p.limit) :
    Runs (sourceTags source p path raw inlineBytes) s
      (fun tags u => ∃ bytes, Since p.limit s [] bytes u ∧ bytes = stringVecBytes tags)
      (fun failure u => failure.Reported ∧ ∃ bytes, Since p.limit s [] bytes u) := by
  unfold sourceTags
  refine scope_runs (Q := fun tags bytes => bytes = stringVecBytes tags) ?_
  dsimp only
  refine (runs_reading (f := yamlBytes source p path raw) h.since (yamlBytes_ends s.used)).bind
    fun yaml t _ ht => ?_
  obtain ⟨rfl, -⟩ := ht
  refine (Preparation.reserve_runs hlimit .yaml h.since).bind fun _ u _ hyaml => ?_
  refine (runs_raise hyaml (mapError_ends _)).bind fun frontmatter v _ hv => ?_
  obtain ⟨rfl, -⟩ := hv
  refine (Preparation.reserve_runs hlimit .tags hyaml).bind fun _ w _ htags => ?_
  refine (release_runs [(.tags, _)] [] htags (by simp)).bind fun _ x _ htags => ?_
  refine (Preparation.reserve_runs hlimit .inlineTags htags).bind fun _ y _ hinline => ?_
  refine (Preparation.reserve_runs hlimit .merge hinline).bind fun _ z _ hmerge => ?_
  refine (runs_raise hmerge (Preparation.checkLimit_ends _ _ _)).bind fun _ z' _ hz => ?_
  obtain ⟨rfl, -⟩ := hz
  refine (release_runs [] _ hmerge (by simp)).bind fun _ a _ hmerge => ?_
  refine (release_runs [] _ hmerge (by simp)).bind fun _ b _ hinline => ?_
  refine (release_runs [] _ hinline (by simp)).bind fun _ c _ htags => ?_
  refine (Preparation.retain_runs hlimit htags).bind fun _ d _ hretained => ?_
  obtain ⟨-, hretained⟩ := hretained
  rw [Nat.zero_add] at hretained
  exact (runs_pure _).mpr ⟨_, _, hretained, rfl⟩

/-! ## Chunks -/

/-- The body of a note starts at a boundary. -/
theorem body_valid (raw : Text) :
    Valid raw ⟨((extractRawFrontmatter raw).map Prod.snd).getD 0, byteLen raw⟩ := by
  cases hextract : extractRawFrontmatter raw with
  | none => exact ⟨Nat.zero_le _, isCharBoundary_zero raw, isCharBoundary_byteLen raw⟩
  | some r =>
      obtain ⟨o, b, hraw, rfl⟩ := extractRawFrontmatter_eq_some.mp hextract
      have hboundary := isCharBoundary_append (noteHead o b) b.body
      rw [← renderNote_eq, ← hraw] at hboundary
      exact ⟨le_byteLen_of_isCharBoundary hboundary, hboundary, isCharBoundary_byteLen raw⟩

/-- A chunk that is the whole note. -/
structure WholeNote (p : Preparation) (raw title : Text) (body : SourceRange)
    (chunk : PreparedChunk) : Prop where
  scope : chunk.scope = .note
  range : chunk.range = body
  text : chunk.text.value = Preparation.composed (title ++ ['\n']) raw none body
  fits : ∃ n, p.count chunk.text.value = .ok n ∧ n ≤ p.maxTokens
  overlap : chunk.overlapRange = none
  headingPath : chunk.headingPath.value = []
  sectionRange : chunk.sectionRange = none
  blockKind : chunk.blockKind = none

/-- The chunks of a note: the whole note, or else the chunks of its sections. -/
inductive NoteChunks (source : PreparationSource) (p : Preparation) (raw title : Text)
    (body : SourceRange) : List PreparedChunk → Prop where
  | whole {chunk : PreparedChunk} (h : WholeNote p raw title body chunk) :
      NoteChunks source p raw title body [chunk]
  | sections {markdown : MarkdownStructure} {new : List PreparedChunk}
      (hmarkdown : source.markdownStructure raw = .ok markdown)
      (h : Preparation.BodyChunks p raw title body markdown new)
      (hlong : ∀ n, p.count (Preparation.composed (title ++ ['\n']) raw none body) = .ok n →
        p.maxTokens < n) : NoteChunks source p raw title body new

/-- The chunks of a note are within the budget, and its context and its structure are released. -/
theorem prepareChunks_runs (hlimit : p.limit < usizeMax)
    (hmarkdown : ∀ markdown, source.markdownStructure raw = .ok markdown →
      MarkdownSound raw markdown)
    (hbody : Valid raw body) (hend : body.endByte = byteLen raw) (h : Since p.limit s extra kept t) :
    Runs (prepareChunks source p raw title body) t
      (fun chunks u => ∃ bytes, Since p.limit s extra (kept + bytes) u ∧
        Preparation.Appended p ⟨[], 0⟩ chunks chunks.value bytes ∧
        contextPrefixBytes title 0 0 ≤ maxContextBytes ∧
        NoteChunks source p raw title body chunks.value)
      (Failed p.limit s) := by
  have hnone : ∀ o, (none : Option SourceRange) = some o → Valid raw o := by
    intro o ho
    contradiction
  unfold prepareChunks
  dsimp only
  refine (runs_raise h (Preparation.checkLimit_ends "embedding context bytes".toList
    (contextPrefixBytes title 0 0) maxContextBytes)).bind fun _ t' _ ht => ?_
  obtain ⟨rfl, hcontext⟩ := ht
  refine (Preparation.reserve_runs hlimit .context h).bind fun _ u _ hu => ?_
  refine (runs_reading (f := fun used => p.compose used (title ++ ['\n']) raw none body) hu
    (Preparation.compose_ends hnone hbody)).bind fun full v _ hv => ?_
  obtain ⟨rfl, hfull⟩ := hv
  refine (runs_raise hu (Preparation.counted_ends full.value)).bind fun n w _ hw => ?_
  obtain ⟨rfl, hn⟩ := hw
  by_cases hfits : n ≤ p.maxTokens
  · rw [if_pos hfits]
    refine (Preparation.appendChunk_runs hlimit hu ⟨[], 0⟩).bind fun chunks x _ hx => ?_
    obtain ⟨bytes, hsince, happended⟩ := hx
    refine (release_runs [] extra hsince (by simp)).bind fun _ y _ hy => ?_
    have hvalue := happended.value
    rw [List.nil_append] at hvalue
    refine (runs_pure _).mpr ⟨bytes, hy, hvalue ▸ happended, hcontext, ?_⟩
    rw [hvalue]
    exact .whole ⟨rfl, rfl, hfull, ⟨n, hn, hfits⟩, rfl, rfl, rfl, rfl⟩
  · rw [if_neg hfits]
    refine (release_runs [] extra hu (by simp)).bind fun _ x _ hx => ?_
    refine (Preparation.reserve_runs hlimit .workspace hx).bind fun _ y _ hy => ?_
    refine (runs_raise hy (mapError_ends _)).bind fun markdown z _ hz => ?_
    obtain ⟨rfl, hsource⟩ := hz
    have hstart : Valid raw ⟨body.startByte, byteLen raw⟩ := hend ▸ hbody
    refine ((Preparation.prepareSections_runs hlimit (hmarkdown markdown hsource) hstart hend
      hy.balanced ⟨[], 0⟩).imp (fun _ _ h => h) fun failure u hfailed => hy.failed_trans ?_).bind
        fun chunks x' _ hx' => ?_
    · obtain ⟨hreported, bytes, hsince⟩ := hfailed
      exact ⟨hreported, [], bytes, hsince⟩
    · obtain ⟨bytes, hsince, new, happended, hchunks⟩ := hx'
      refine (release_runs [] extra (hy.trans_kept hsince) (by simp)).bind fun _ y' _ hy' => ?_
      have hvalue := happended.value
      rw [List.nil_append] at hvalue
      refine (runs_pure _).mpr ⟨bytes, hy', hvalue ▸ happended, hcontext, ?_⟩
      rw [hvalue]
      refine .sections hsource hchunks fun m hm => ?_
      rw [hfull, hm] at hn
      obtain rfl := Except.ok.inj hn
      exact not_le.mp hfits

/-! ## Coverage -/

/-- The walk goes through chunks that cover a body without empty ones. -/
theorem validateCoverageFrom_eq (hend : body.endByte = byteLen raw) {start stop : ℕ}
    {chunks : List PreparedChunk} (hcovers : Covers start stop chunks)
    (hvalid : ∀ chunk ∈ chunks, Valid raw chunk.range)
    (hadvancing : body.startByte < body.endByte →
      ∀ chunk ∈ chunks, chunk.range.startByte < chunk.range.endByte)
    (hbody : body.startByte ≤ body.endByte) :
    validateCoverageFrom raw body chunks start = .ok stop := by
  induction chunks generalizing start with
  | nil =>
      obtain rfl : start = stop := hcovers
      rfl
  | cons chunk chunks ih =>
      obtain ⟨hstart, hrest⟩ := hcovers
      obtain ⟨hchunk, hvalid⟩ := List.forall_mem_cons.mp hvalid
      have hle := le_byteLen_of_isCharBoundary hchunk.end_boundary
      have hlt : body.startByte < body.endByte → chunk.range.startByte < chunk.range.endByte :=
        fun h => hadvancing h chunk List.mem_cons_self
      have hrange := hchunk.le
      rw [validateCoverageFrom, if_neg]
      · exact ih hrest hvalid fun h chunk hmem => hadvancing h chunk (List.mem_cons_of_mem _ hmem)
      · rw [hchunk.start_boundary, hchunk.end_boundary]
        simp only [Bool.true_eq_false, or_false]
        omega

/-- The check of the coverage never fails. -/
theorem validateCoverage_eq (hend : body.endByte = byteLen raw) (hbody : Valid raw body)
    {chunks : List PreparedChunk} (h : NoteChunks source p raw title body chunks) :
    validateCoverage raw body chunks = .ok () := by
  cases h with
  | @whole chunk h =>
      have hcovers : Covers body.startByte body.endByte [chunk] := by
        refine ⟨congrArg _ h.range, ?_⟩
        exact congrArg SourceRange.endByte h.range
      have hwalk := validateCoverageFrom_eq hend hcovers
        (by simpa [h.range] using hbody) (by simp [h.range]) hbody.le
      rw [validateCoverage, hwalk]
      change (if _ then _ else _) = _
      rw [if_neg (by simp)]
      rfl
  | sections hmarkdown h _ =>
      have hwalk := validateCoverageFrom_eq hend h.covers (fun chunk hmem => by
        obtain ⟨part, -, hpassage, -⟩ := h.each chunk hmem
        exact hpassage.valid) h.advancing hbody.le
      rw [validateCoverage, hwalk]
      change (if _ then _ else _) = _
      rw [if_neg (by simp [h.ne_nil])]
      rfl

/-! ## Notes -/

/-- The bytes of a prepared note, without a bound. -/
def noteBytes (p : Preparation) (note : PreparedNote) : ℕ :=
  p.layout.preparedNote + note.sourceRevision.capacity + note.title.capacity +
    stringVecBytes note.tags + p.listBytes note.chunks

/-- What a preparation promises of its note. -/
structure PreparedOf (source : PreparationSource) (p : Preparation) (path : OsString) (raw : Text)
    (note : PreparedNote) : Prop where
  title : (fileStem path).bind OsString.toStr = some note.title.value
  sourceRevision : note.sourceRevision.value = source.sourceRevision raw
  sourceBytes : note.sourceBytes = byteLen raw
  source_le : byteLen raw ≤ maxSourceBytes
  body : note.bodyRange = ⟨((extractRawFrontmatter raw).map Prod.snd).getD 0, byteLen raw⟩
  metadata : validateNoteMetadata note.title.value (note.tags.value.map Buffer.value) = .ok ()
  context : contextPrefixBytes note.title.value 0 0 ≤ maxContextBytes
  chunks : NoteChunks source p raw note.title.value note.bodyRange note.chunks.value
  count : note.chunks.value.length ≤ maxNoteChunks

/-- A draft keeps the bytes of the note that it ends with. -/
theorem draftNote_runs (hlimit : p.limit < usizeMax)
    (hmarkdown : ∀ markdown, source.markdownStructure raw = .ok markdown →
      MarkdownSound raw markdown) (h : s.Balanced p.limit) :
    Runs (draftNote source p path raw) s
      (fun note t => ∃ bytes, Since p.limit s [] bytes t ∧ PreparedOf source p path raw note ∧
        (p.Exact → bytes = noteBytes p note))
      (Failed p.limit s) := by
  unfold draftNote
  dsimp only
  refine (runs_raise h.since (Preparation.checkLimit_ends "semantic source bytes".toList
    (byteLen raw) maxSourceBytes)).bind fun _ s' _ hs => ?_
  obtain ⟨rfl, hsource⟩ := hs
  refine (Preparation.retain_runs hlimit h.since).bind fun _ t _ ht => ?_
  obtain ⟨-, ht⟩ := ht
  refine (runs_raise (Q := fun title => (fileStem path).bind OsString.toStr = some title) ht
    ?_).bind fun title t' _ ht' => ?_
  · split
    · assumption
    · exact ⟨_, rfl⟩
  obtain ⟨rfl, hstem⟩ := ht'
  refine (Preparation.retain_runs hlimit ht).bind fun _ u _ hu => ?_
  obtain ⟨-, hu⟩ := hu
  refine ((sourceTags_runs hlimit _ hu.balanced).imp (fun _ _ h => h) fun failure v hfailed =>
    hu.failed_trans ?_).bind fun tags v _ hv => ?_
  · obtain ⟨hreported, bytes, hsince⟩ := hfailed
    exact ⟨hreported, [], bytes, hsince⟩
  obtain ⟨tagBytes, hv, htags⟩ := hv
  have hv := hu.trans_kept hv
  refine (runs_raise hv (mapError_ends _)).bind fun _ v' _ hv' => ?_
  obtain ⟨rfl, hmetadata⟩ := hv'
  refine (prepareChunks_runs hlimit hmarkdown (body_valid raw) rfl hv).bind fun chunks w _ hw => ?_
  obtain ⟨bytes, hw, happended, hcontext, hchunks⟩ := hw
  have hcovered : Ends (validateCoverage raw
      ⟨((extractRawFrontmatter raw).map Prod.snd).getD 0, byteLen raw⟩ chunks.value)
      (fun _ => True) Failure.Reported := by
    rw [validateCoverage_eq rfl (body_valid raw) hchunks]
    trivial
  refine (runs_raise hw hcovered).bind fun _ w' _ hw' => ?_
  obtain ⟨rfl, -⟩ := hw'
  refine (runs_pure _).mpr ⟨_, hw, ⟨hstem, rfl, rfl, hsource, rfl, hmetadata, hcontext, hchunks,
    happended.count (Nat.zero_le _)⟩, fun hexact => ?_⟩
  obtain ⟨-, hbytes⟩ := happended.bytes hexact rfl
  have hempty : p.listBytes ⟨[], 0⟩ = 0 := by simp [Preparation.listBytes]
  rw [noteBytes, ← hbytes, hempty, htags]
  simp only [Preparation.owned, hexact 64, hexact (byteLen title)]
  omega

/-- The last check adds nothing when allocations are exact. -/
theorem prepareBudgeted_runs (hlimit : p.limit < usizeMax)
    (hmarkdown : ∀ markdown, source.markdownStructure raw = .ok markdown →
      MarkdownSound raw markdown) (h : s.Balanced p.limit) :
    Runs (prepareBudgeted source p path raw) s
      (fun note t => ∃ bytes, Since p.limit s [] bytes t ∧ PreparedOf source p path raw note ∧
        (p.Exact → bytes = noteBytes p note))
      (fun failure t => failure.Reported ∧ ∃ bytes, Since p.limit s [] bytes t) := by
  unfold prepareBudgeted
  refine scope_runs (Q := fun note bytes => PreparedOf source p path raw note ∧
    (p.Exact → bytes = noteBytes p note)) ?_
  refine (draftNote_runs hlimit hmarkdown h).bind fun note t _ ht => ?_
  obtain ⟨bytes, ht, hnote⟩ := ht
  refine (runs_raise ht (Preparation.checkLimit_ends budgetResource
    (note.stagingBytes p.layout p.dimension) p.limit)).bind fun _ t' _ ht' => ?_
  obtain ⟨rfl, -⟩ := ht'
  exact (runs_pure _).mpr ⟨[], bytes, ht, hnote⟩

end ObsidianMcp.Chunks
