import ObsidianMcp.Model.EmbeddingCache

/-! # The format of the cache file

Every field has one encoding; writing produces it and reading consumes it. The counting
writer measures it. -/

namespace ObsidianMcp

open Text

/-! ## Checks -/

@[simp] theorem ensure_eq_ok {check : Bool} {error : VaultError} :
    ensure check error = .ok () ↔ check = true := by
  cases check <;> simp [ensure]

@[simp] theorem except_bind_eq_ok {ε α β : Type} {x : Except ε α} {f : α → Except ε β} {b : β} :
    (x >>= f) = .ok b ↔ ∃ a, x = .ok a ∧ f a = .ok b := by
  cases x with
  | error e => simp [bind, Except.bind]
  | ok a => simp [bind, Except.bind]

/-- A fold that succeeds took every element through a step that succeeded. -/
theorem exists_step_of_foldlM_eq_ok {ε α β : Type} {f : β → α → Except ε β} {items : List α}
    {init out : β} (h : items.foldlM f init = .ok out) :
    ∀ a ∈ items, ∃ before after, f before a = .ok after := by
  induction items generalizing init with
  | nil => simp
  | cons a items ih =>
      rw [List.foldlM_cons, except_bind_eq_ok] at h
      obtain ⟨next, hstep, hrest⟩ := h
      intro b hb
      rcases List.mem_cons.mp hb with rfl | hb
      · exact ⟨init, next, hstep⟩
      · exact ih hrest b hb

/-- The bounds that validation puts on a chunk. -/
structure ChunkFits (entry : NoteEmbeddingEntry) (dim : ℕ) (chunk : ChunkEmbedding) : Prop where
  vector_length : chunk.vector.length = dim
  range_bounded : chunk.range.startByte ≤ entry.sourceBytes ∧ chunk.range.endByte ≤ entry.sourceBytes
  overlap_bounded : ∀ r ∈ chunk.overlapRange,
    r.startByte ≤ entry.sourceBytes ∧ r.endByte ≤ entry.sourceBytes
  section_bounded : ∀ r ∈ chunk.sectionRange,
    r.startByte ≤ entry.sourceBytes ∧ r.endByte ≤ entry.sourceBytes
  headings_le : chunk.headingPath.length ≤ 6
  context_le : contextPrefixBytes entry.title (chunk.headingPath.map byteLen).sum
    chunk.headingPath.length ≤ maxContextBytes
  kind_le : ∀ kind ∈ chunk.blockKind, byteLen kind ≤ maxContextBytes

/-- The bounds that validation puts on an entry. -/
structure EntryFits (entry : NoteEmbeddingEntry) (dim : ℕ) : Prop where
  revision_length : byteLen entry.sourceRevision = 64
  source_le : entry.sourceBytes ≤ maxNoteSourceBytes
  body_bounded : entry.bodyRange.startByte ≤ entry.sourceBytes ∧
    entry.bodyRange.endByte ≤ entry.sourceBytes
  tags_length : entry.tags.length ≤ maxNoteTags
  metadata_le : byteLen entry.title + (entry.tags.map byteLen).sum ≤ maxNoteMetadataBytes
  chunks_length : entry.chunks.length ≤ maxNoteChunks
  chunks_fit : ∀ chunk ∈ entry.chunks, ChunkFits entry dim chunk

theorem validateRange_eq_ok {range : SourceRange} {sourceBytes : ℕ} :
    validateRange range sourceBytes = .ok () ↔
      range.startByte ≤ range.endByte ∧ range.endByte ≤ sourceBytes := by
  simp [validateRange]

theorem validateOverlap_bounded {entry : NoteEmbeddingEntry} {chunk : ChunkEmbedding}
    (h : validateOverlap entry chunk = .ok ()) : ∀ r ∈ chunk.overlapRange,
      r.startByte ≤ entry.sourceBytes ∧ r.endByte ≤ entry.sourceBytes := by
  intro r hr
  rw [validateOverlap, hr] at h
  obtain ⟨⟨⟩, hrange, -⟩ := except_bind_eq_ok.mp h
  rw [validateRange_eq_ok] at hrange
  omega

theorem validateSection_bounded {entry : NoteEmbeddingEntry} {chunk : ChunkEmbedding}
    (h : validateSection entry chunk = .ok ()) : ∀ r ∈ chunk.sectionRange,
      r.startByte ≤ entry.sourceBytes ∧ r.endByte ≤ entry.sourceBytes := by
  intro r hr
  rw [validateSection, hr] at h
  obtain ⟨⟨⟩, hrange, -⟩ := except_bind_eq_ok.mp h
  rw [validateRange_eq_ok] at hrange
  omega

theorem chunkFits_of_validateChunk {entry : NoteEmbeddingEntry} {dim nextByte endByte : ℕ}
    {chunk : ChunkEmbedding} (h : validateChunk entry dim nextByte chunk = .ok endByte) :
    ChunkFits entry dim chunk := by
  simp only [validateChunk, except_bind_eq_ok, Unique.exists_iff, PUnit.default_eq_unit] at h
  obtain ⟨hvector, hrange, -, hoverlap, hsection, hcontext, hkind, -⟩ := h
  rw [validateRange_eq_ok] at hrange
  simp only [validateVector, except_bind_eq_ok, Unique.exists_iff, PUnit.default_eq_unit, ensure_eq_ok,
    decide_eq_true_eq] at hvector
  simp only [ensure_eq_ok, Bool.not_eq_true', Bool.or_eq_false_iff, decide_eq_false_iff_not,
    Nat.not_lt, gt_iff_lt] at hcontext
  simp only [ensure_eq_ok, Bool.not_eq_true', Option.any_eq_false, decide_eq_false_iff_not,
    Nat.not_lt, gt_iff_lt] at hkind
  exact
    { vector_length := hvector.1
      range_bounded := by omega
      overlap_bounded := validateOverlap_bounded hoverlap
      section_bounded := validateSection_bounded hsection
      headings_le := hcontext.1
      context_le := hcontext.2
      kind_le := fun kind hkind' => by simpa using hkind kind hkind' }

/-- A saturating sum below the largest word is the plain sum. -/
theorem sum_le_of_foldl_saturatingAdd {texts : List Text} {total bound : ℕ}
    (hbound : bound < usizeMax)
    (h : texts.foldl (fun total text => saturatingAdd total (byteLen text)) total ≤ bound) :
    total + (texts.map byteLen).sum ≤ bound := by
  induction texts generalizing total with
  | nil => simpa using h
  | cons text texts ih =>
      have hrest := ih h
      simp only [saturatingAdd] at hrest
      rw [List.map_cons, List.sum_cons]
      omega

/-- What validation accepts is within the bounds of the format. -/
theorem entryFits_of_validateNoteEntry {entry : NoteEmbeddingEntry} {dim : ℕ}
    (h : validateNoteEntry entry dim = .ok ()) : EntryFits entry dim := by
  simp only [validateNoteEntry, except_bind_eq_ok, Unique.exists_iff, PUnit.default_eq_unit] at h
  obtain ⟨hrevision, hsource, hbody, -, hmetadata, hchunks, -, endByte, hfold, -⟩ := h
  rw [validateRange_eq_ok] at hbody
  simp only [ensure_eq_ok, Bool.not_eq_true', Bool.or_eq_false_iff, decide_eq_false_iff_not,
    Nat.not_lt, gt_iff_lt, ne_eq, not_not] at hrevision hsource hchunks
  simp only [validateNoteMetadata, except_bind_eq_ok, Unique.exists_iff, PUnit.default_eq_unit, ensure_eq_ok,
    Bool.not_eq_true', decide_eq_false_iff_not, Nat.not_lt, gt_iff_lt] at hmetadata
  refine
    { revision_length := hrevision.1
      source_le := hsource
      body_bounded := by omega
      tags_length := hmetadata.1
      metadata_le := sum_le_of_foldl_saturatingAdd (by decide) hmetadata.2
      chunks_length := hchunks.2
      chunks_fit := fun chunk hchunk => ?_ }
  obtain ⟨before, after, hstep⟩ := exists_step_of_foldlM_eq_ok hfold chunk hchunk
  exact chunkFits_of_validateChunk hstep

/-! ## Encodings -/

def numberBytes (n : ℕ) : List UInt8 := leBytes 4 n

def stringBytes (t : Text) : List UInt8 := numberBytes (byteLen t) ++ utf8Bytes t

def rangeBytes (r : SourceRange) : List UInt8 := numberBytes r.startByte ++ numberBytes r.endByte

def flagBytes (b : Bool) : List UInt8 := [if b then 1 else 0]

def optionBytes {α : Type} (encode : α → List UInt8) (a : Option α) : List UInt8 :=
  flagBytes a.isSome ++ (a.map encode).getD []

def vectorBytes (vector : List F32) : List UInt8 :=
  vector.flatMap fun value => leBytes 4 value.toNat

def chunkBytes (chunk : ChunkEmbedding) : List UInt8 :=
  chunk.inputHash.toList ++ (flagBytes (chunk.scope = .passage) ++ (rangeBytes chunk.range ++
    (optionBytes rangeBytes chunk.overlapRange ++ (numberBytes chunk.headingPath.length ++
      (chunk.headingPath.flatMap stringBytes ++ (optionBytes rangeBytes chunk.sectionRange ++
        (optionBytes stringBytes chunk.blockKind ++ (numberBytes chunk.vector.length ++
          vectorBytes chunk.vector))))))))

def noteBytes (entry : NoteEmbeddingEntry) : List UInt8 :=
  stringBytes entry.sourceRevision ++ (numberBytes entry.sourceBytes ++
    (rangeBytes entry.bodyRange ++ (stringBytes entry.title ++
      (numberBytes entry.tags.length ++ (entry.tags.flatMap stringBytes ++
        (numberBytes entry.chunks.length ++ entry.chunks.flatMap chunkBytes))))))

def entryBytes (path : Text) (entry : NoteEmbeddingEntry) : List UInt8 :=
  stringBytes path ++ noteBytes entry

def headerBytes (identity : List UInt8) (complete : Bool) (count : ℕ) : List UInt8 :=
  cacheMagic ++ (leBytes 2 cacheSchemaVersion ++ (numberBytes identity.length ++
    (identity ++ (flagBytes complete ++ numberBytes count))))

@[simp] theorem length_numberBytes (n : ℕ) : (numberBytes n).length = 4 := length_leBytes 4 n

@[simp] theorem length_flagBytes (b : Bool) : (flagBytes b).length = 1 := rfl

/-- The header of a store has the same length whatever its flag and its count. -/
theorem length_headerBytes (identity : List UInt8) (complete : Bool) (count : ℕ) :
    (headerBytes identity complete count).length = 19 + identity.length := by
  simp [headerBytes, cacheMagic]
  omega

/-! ## Writing -/

/-- A cache writer as a sink; the counting writer keeps no bytes. -/
def cacheSink : BoundedSink CacheWriter where
  append out bytes :=
    { out with
      bytes := if out.counting then out.bytes else out.bytes ++ bytes
      length := out.length + bytes.length }
  used out := out.length
  limit := maxCacheBytes
  append_nil out := by
    cases out with
    | mk bytes counting length => simp
  append_append out x y := by
    cases out with
    | mk bytes counting length =>
        cases counting <;> simp [Nat.add_assoc]
  used_append out x := rfl

theorem writes_put (bytes : List UInt8) : Writes cacheSink (·.put bytes) bytes := by
  intro out hout
  have hlimit : cacheSink.limit ≤ usizeMax := by decide
  constructor
  · intro hfits
    have hword : out.length + bytes.length ≤ usizeMax := hfits.trans hlimit
    have hroom : ¬ maxCacheBytes < out.length + bytes.length := Nat.not_lt.mpr hfits
    simp [CacheWriter.put, ensure, hword, hroom, cacheSink, bind, Except.bind, pure, Except.pure]
  · intro hover
    have hroom : maxCacheBytes < out.length + bytes.length := hover
    by_cases hword : out.length + bytes.length ≤ usizeMax
    · simp [CacheWriter.put, ensure, hword, hroom, bind, Except.bind]
    · simp [CacheWriter.put, ensure, hword, bind, Except.bind]

theorem writes_number {n : ℕ} (h : n < 2 ^ 32) :
    Writes cacheSink (·.number n) (numberBytes n) := by
  have hnumber : (fun out : CacheWriter => out.number n) =
      fun out => out.put (numberBytes n) := by
    funext out
    rw [CacheWriter.number, ensure_eq_ok.mpr (decide_eq_true h)]
    rfl
  rw [hnumber]
  exact writes_put (numberBytes n)

theorem writes_string {t : Text} (h : byteLen t < 2 ^ 32) :
    Writes cacheSink (·.string t) (stringBytes t) :=
  (writes_number h).bind (writes_put (utf8Bytes t))

theorem writes_range {r : SourceRange} (hs : r.startByte < 2 ^ 32) (he : r.endByte < 2 ^ 32) :
    Writes cacheSink (·.range r) (rangeBytes r) :=
  (writes_number hs).bind (writes_number he)

theorem writes_flag (b : Bool) : Writes cacheSink (·.flag b) (flagBytes b) :=
  writes_put [if b then 1 else 0]

theorem writes_optionalRange {r : Option SourceRange}
    (h : ∀ range ∈ r, range.startByte < 2 ^ 32 ∧ range.endByte < 2 ^ 32) :
    Writes cacheSink (·.optionalRange r) (optionBytes rangeBytes r) := by
  cases r with
  | none => exact (writes_flag false).bind Writes.pure
  | some range =>
      obtain ⟨hs, he⟩ := h range rfl
      exact (writes_flag true).bind (writes_range hs he)

theorem writes_optionalString {t : Option Text} (h : ∀ text ∈ t, byteLen text < 2 ^ 32) :
    Writes cacheSink (·.optionalString t) (optionBytes stringBytes t) := by
  cases t with
  | none => exact (writes_flag false).bind Writes.pure
  | some text => exact (writes_flag true).bind (writes_string (h text rfl))

theorem length_le_sum_of_mem {texts : List Text} {t : Text} (h : t ∈ texts) :
    byteLen t ≤ (texts.map byteLen).sum :=
  List.single_le_sum (by simp) _ (List.mem_map_of_mem h)

/-- The context prefix counts every heading byte. -/
theorem contextPrefixBytes_zero_add_le {title : Text} {headings : List Text}
    (h : contextPrefixBytes title (headings.map byteLen).sum headings.length ≤
      maxContextBytes) :
    contextPrefixBytes title 0 headings.length + (headings.map byteLen).sum ≤
      maxContextBytes := by
  have hword : maxContextBytes < usizeMax := by decide
  cases headings with
  | nil => simpa using h
  | cons heading rest =>
      simp only [contextPrefixBytes, saturatingAdd, saturatingMul, List.length_cons,
        Nat.succ_ne_zero, if_false] at h ⊢
      generalize usizeMax = word at h hword ⊢
      generalize maxContextBytes = limit at h hword ⊢
      omega

section WriteEntry

variable {entry : NoteEmbeddingEntry} {dim : ℕ}

theorem writes_chunk {chunk : ChunkEmbedding} (hentry : entry.sourceBytes ≤ maxNoteSourceBytes)
    (hdim : dim ≤ maxCacheDimension) (h : ChunkFits entry dim chunk) :
    Writes cacheSink (writeChunk · chunk) (chunkBytes chunk) := by
  have hsource : maxNoteSourceBytes < 2 ^ 32 := by decide
  have hcontext : maxContextBytes < 2 ^ 32 := by decide
  have hdimension : maxCacheDimension < 2 ^ 32 := by decide
  have hheadings := contextPrefixBytes_zero_add_le h.context_le
  have hlength := h.vector_length
  refine (writes_put _).bind <| (writes_flag _).bind <| (writes_range ?_ ?_).bind <|
    (writes_optionalRange ?_).bind <| (writes_number ?_).bind <|
    (Writes.foldlM fun heading hheading => writes_string ?_).bind <|
    (writes_optionalRange ?_).bind <| (writes_optionalString ?_).bind <|
    (writes_number ?_).bind <| Writes.foldlM fun value _ => writes_put _
  · have := h.range_bounded
    omega
  · have := h.range_bounded
    omega
  · intro r hr
    have := h.overlap_bounded r hr
    omega
  · have := h.headings_le
    omega
  · have := length_le_sum_of_mem hheading
    omega
  · intro r hr
    have := h.section_bounded r hr
    omega
  · intro kind hkind
    have := h.kind_le kind hkind
    omega
  · omega

theorem writes_entry {path : Text} (hpath : byteLen path ≤ maxCachePathBytes)
    (hdim : dim ≤ maxCacheDimension) (h : EntryFits entry dim) :
    Writes cacheSink (writeEntry · path entry) (entryBytes path entry) := by
  have hsource : maxNoteSourceBytes < 2 ^ 32 := by decide
  have hmetadata : maxNoteMetadataBytes < 2 ^ 32 := by decide
  have hword : maxCachePathBytes < 2 ^ 32 := by decide
  have htags : maxNoteTags < 2 ^ 32 := by decide
  have hchunks : maxNoteChunks < 2 ^ 32 := by decide
  have hbounds := h.metadata_le
  have hbody := h.body_bounded
  have hlimit := h.source_le
  refine (writes_string ?_).bind <| (writes_string ?_).bind <| (writes_number ?_).bind <|
    (writes_range ?_ ?_).bind <| (writes_string ?_).bind <| (writes_number ?_).bind <|
    (Writes.foldlM fun tag htag => writes_string ?_).bind <| (writes_number ?_).bind <|
    Writes.foldlM fun chunk hchunk => writes_chunk h.source_le hdim (h.chunks_fit chunk hchunk)
  · omega
  · rw [h.revision_length]
    decide
  · omega
  · omega
  · omega
  · omega
  · have := h.tags_length
    omega
  · have := length_le_sum_of_mem htag
    omega
  · have := h.chunks_length
    omega

end WriteEntry

/-- The counting writer measures the encoding. -/
theorem encodedEntryLen_eq_ok {path : Text} {entry : NoteEmbeddingEntry} {dim n : ℕ}
    (hpath : byteLen path ≤ maxCachePathBytes) (hdim : dim ≤ maxCacheDimension)
    (h : EntryFits entry dim) :
    encodedEntryLen path entry = .ok n ↔
      n = (entryBytes path entry).length ∧ n ≤ maxCacheBytes := by
  have hwrites := writes_entry hpath hdim h
  have hused : cacheSink.used (CacheWriter.new true) + (entryBytes path entry).length =
      (entryBytes path entry).length := Nat.zero_add _
  rw [encodedEntryLen]
  by_cases hfits : (entryBytes path entry).length ≤ maxCacheBytes
  · have hok : writeEntry (CacheWriter.new true) path entry =
        .ok (cacheSink.append (CacheWriter.new true) (entryBytes path entry)) :=
      hwrites.eq_ok (hused.trans_le hfits)
    have hlength : (cacheSink.append (CacheWriter.new true) (entryBytes path entry)).length =
        (entryBytes path entry).length := hused
    rw [hok]
    change (Except.ok (cacheSink.append _ _).length : Except VaultError ℕ) = .ok n ↔ _
    rw [hlength, Except.ok.injEq]
    constructor
    · rintro rfl
      exact ⟨rfl, hfits⟩
    · rintro ⟨rfl, -⟩
      rfl
  · obtain ⟨error, herror⟩ : ∃ error, writeEntry (CacheWriter.new true) path entry =
        .error error :=
      hwrites.exists_error (Nat.zero_le _) (hused.symm ▸ Nat.lt_of_not_le hfits)
    rw [herror]
    refine iff_of_false (fun heq => by cases heq) ?_
    rintro ⟨rfl, hle⟩
    exact hfits hle

theorem writes_header {json : IdentityJson} {identity : EmbeddingSpaceIdentity}
    {bytes : List UInt8} (hjson : json.toVec identity = .ok bytes)
    (hlength : bytes.length ≤ maxNoteMetadataBytes) (complete : Bool) {count : ℕ}
    (hcount : count < 2 ^ 32) :
    Writes cacheSink (writeHeader json · cacheMagic cacheSchemaVersion identity complete count)
      (headerBytes bytes complete count) := by
  have hword : maxNoteMetadataBytes < 2 ^ 32 := by decide
  have hheader : (writeHeader json · cacheMagic cacheSchemaVersion identity complete count) =
      fun out : CacheWriter => (do
        let out ← out.put cacheMagic
        let out ← out.put (leBytes 2 cacheSchemaVersion)
        let out ← out.number bytes.length
        let out ← out.put bytes
        let out ← out.flag complete
        out.number count) := by
    have hcheck : ensure (!(bytes.length > maxNoteMetadataBytes))
        (.embedding "embedding identity exceeds supported metadata limit".toList) = .ok () :=
      ensure_eq_ok.mpr (by simpa using hlength)
    funext out
    simp only [writeHeader, hjson, hcheck]
    rfl
  rw [hheader]
  exact (writes_put _).bind <| (writes_put _).bind <| (writes_number (by omega)).bind <|
    (writes_put _).bind <| (writes_flag _).bind <| writes_number hcount

/-- The length of a header is that of the identity and the fixed fields. -/
theorem cacheHeaderLen_eq_ok {json : IdentityJson} {identity : EmbeddingSpaceIdentity}
    {bytes : List UInt8} (hjson : json.toVec identity = .ok bytes)
    (hlength : bytes.length ≤ maxNoteMetadataBytes) :
    cacheHeaderLen json identity = .ok (19 + bytes.length) := by
  have hused : cacheSink.used (CacheWriter.new true) + (headerBytes bytes false 0).length =
      19 + bytes.length := by
    rw [length_headerBytes]
    exact Nat.zero_add _
  have hfits : 19 + bytes.length ≤ cacheSink.limit := by
    have hroom : 19 + maxNoteMetadataBytes ≤ cacheSink.limit := by decide
    omega
  have hok : writeHeader json (CacheWriter.new true) cacheMagic cacheSchemaVersion identity
      false 0 = .ok (cacheSink.append (CacheWriter.new true) (headerBytes bytes false 0)) :=
    (writes_header hjson hlength false (by decide)).eq_ok (hused.trans_le hfits)
  rw [cacheHeaderLen, hok]
  exact congrArg Except.ok hused

/-! ## Reading -/

/-- The reader of a file with these bytes left. -/
def CacheReader.holding (bytes : List UInt8) : CacheReader := ⟨bytes, bytes.length⟩

open CacheReader

theorem reads_take (bytes : List UInt8) : Reads holding (take bytes.length) bytes bytes := by
  intro rest
  simp [take, holding]

theorem reads_array {n : ℕ} (v : Vector UInt8 n) : Reads holding (array n) v.toList v := by
  intro rest
  have hlength : v.toList.length = n := by simp
  have hvector : v.toList.toArray = v.toArray := by simp [Vector.toList]
  simp [array, holding, hlength, hvector]

/-- A fixed-width number as it is read. -/
def leVector (width n : ℕ) : Vector UInt8 width := ⟨(leBytes width n).toArray, by simp⟩

@[simp] theorem toList_leVector (width n : ℕ) : (leVector width n).toList = leBytes width n := rfl

theorem reads_number {n : ℕ} (h : n < 2 ^ 32) : Reads holding number (numberBytes n) n := by
  refine (reads_array (leVector 4 n)).bind_end ?_
  rw [toList_leVector, leValue_leBytes h]
  exact Reads.pure n

theorem reads_count {n maximum : ℕ} (kind : Text) (h : n < 2 ^ 32) (hmax : n ≤ maximum) :
    Reads holding (count maximum kind) (numberBytes n) n := by
  refine Reads.bind_end (reads_number h) ?_
  rw [if_neg (Nat.not_lt.mpr hmax)]
  exact Reads.pure n

theorem reads_flag (b : Bool) : Reads holding flag (flagBytes b) b := by
  refine Reads.bind_end (reads_array ⟨#[if b then 1 else 0], rfl⟩) ?_
  cases b with
  | false => exact Reads.pure false
  | true => exact Reads.pure true

theorem reads_bytes {bytes : List UInt8} {maximum : ℕ} (h : bytes.length < 2 ^ 32)
    (hmax : bytes.length ≤ maximum) :
    Reads holding (CacheReader.bytes maximum) (numberBytes bytes.length ++ bytes) bytes :=
  (reads_count _ h hmax).bind (reads_take bytes)

theorem reads_string {t : Text} {maximum : ℕ} (h : byteLen t < 2 ^ 32)
    (hmax : byteLen t ≤ maximum) : Reads holding (string maximum) (stringBytes t) t := by
  have hbytes : Reads holding (CacheReader.bytes maximum) (stringBytes t) (utf8Bytes t) := by
    rw [stringBytes, ← length_utf8Bytes]
    exact reads_bytes (by simpa using h) (by simpa using hmax)
  refine hbytes.bind_end ?_
  rw [fromUtf8_utf8Bytes]
  exact Reads.pure t

theorem reads_range {r : SourceRange} (hs : r.startByte < 2 ^ 32) (he : r.endByte < 2 ^ 32) :
    Reads holding range (rangeBytes r) r :=
  (reads_number hs).bind ((reads_number he).bind_end (Reads.pure r))

theorem reads_optionalRange {r : Option SourceRange}
    (h : ∀ range ∈ r, range.startByte < 2 ^ 32 ∧ range.endByte < 2 ^ 32) :
    Reads holding optionalRange (optionBytes rangeBytes r) r := by
  cases r with
  | none => exact (reads_flag false).bind (Reads.pure none)
  | some range =>
      obtain ⟨hs, he⟩ := h range rfl
      exact (reads_flag true).bind ((reads_range hs he).bind_end (Reads.pure (some range)))

theorem reads_optionalString {t : Option Text} {maximum : ℕ}
    (h : ∀ text ∈ t, byteLen text < 2 ^ 32 ∧ byteLen text ≤ maximum) :
    Reads holding (optionalString maximum) (optionBytes stringBytes t) t := by
  cases t with
  | none => exact (reads_flag false).bind (Reads.pure none)
  | some text =>
      obtain ⟨hword, hmax⟩ := h text rfl
      exact (reads_flag true).bind ((reads_string hword hmax).bind_end (Reads.pure (some text)))

/-- Strings within a shared budget are read within it. -/
theorem reads_strings {texts : List Text} {maximum used : ℕ} (hword : maximum < 2 ^ 32)
    (h : used + (texts.map byteLen).sum ≤ maximum) :
    Reads holding (readStrings maximum texts.length used) (texts.flatMap stringBytes) texts := by
  induction texts generalizing used with
  | nil => exact Reads.pure []
  | cons text texts ih =>
      rw [List.map_cons, List.sum_cons] at h
      have hbudget : used + byteLen text + (texts.map byteLen).sum ≤ maximum := by omega
      exact (reads_string (by omega) (by omega)).bind ((ih hbudget).bind_end (Reads.pure _))

theorem reads_vector (vector : List F32) :
    Reads holding (readVector vector.length) (vectorBytes vector) vector := by
  induction vector with
  | nil => exact Reads.pure []
  | cons value vector ih =>
      refine (reads_array (leVector 4 value.toNat)).bind (ih.bind_end ?_)
      rw [toList_leVector, leValue_leBytes value.toNat_lt, UInt32.ofNat_toNat]
      exact Reads.pure (value :: vector)

@[simp] theorem length_vectorBytes (vector : List F32) :
    (vectorBytes vector).length = vector.length * 4 := by
  simp [vectorBytes, List.length_flatMap]

/-- A check that the bytes to be read are there. -/
theorem reads_if_remaining {α : Type} {m : Input α} {bytes : List UInt8} {a : α} {needed : ℕ}
    (message : Text) (hneeded : needed ≤ bytes.length) (h : Reads holding m bytes a) :
    Reads holding (do
      let input ← get
      if needed > input.remaining then fail message else m) bytes a := by
  intro rest
  have hroom : ¬ needed > (bytes ++ rest).length := by
    rw [List.length_append]
    omega
  change (if needed > (bytes ++ rest).length then fail message else m)
    (holding (bytes ++ rest)) = _
  rw [if_neg hroom]
  exact h rest

section ReadEntry

variable {entry : NoteEmbeddingEntry} {dim : ℕ}

theorem reads_chunk {chunk : ChunkEmbedding} (hentry : entry.sourceBytes ≤ maxNoteSourceBytes)
    (hdim : dim ≤ maxCacheDimension) (h : ChunkFits entry dim chunk) :
    Reads holding (readChunk dim entry.title) (chunkBytes chunk) chunk := by
  have hsource : maxNoteSourceBytes < 2 ^ 32 := by decide
  have hcontext : maxContextBytes < 2 ^ 32 := by decide
  have hdimension : maxCacheDimension < 2 ^ 32 := by decide
  have hheadings := contextPrefixBytes_zero_add_le h.context_le
  have hlength := h.vector_length
  refine (reads_array _).bind <| (reads_flag _).bind <| (reads_range ?_ ?_).bind <|
    (reads_optionalRange ?_).bind <| (reads_count _ ?_ h.headings_le).bind ?_
  · have := h.range_bounded
    omega
  · have := h.range_bounded
    omega
  · intro r hr
    have := h.overlap_bounded r hr
    omega
  · have := h.headings_le
    omega
  rw [if_neg (by omega)]
  refine (reads_strings hcontext hheadings).bind <| (reads_optionalRange ?_).bind <|
    (reads_optionalString ?_).bind <| (reads_number ?_).bind ?_
  · intro r hr
    have := h.section_bounded r hr
    omega
  · intro kind hkind
    have := h.kind_le kind hkind
    omega
  · omega
  rw [if_neg (not_not.mpr hlength)]
  refine reads_if_remaining _ ?_ ((reads_vector _).bind_end ?_)
  · rw [length_vectorBytes, saturatingMul]
    exact Nat.min_le_left _ _
  have hscope : (if decide (chunk.scope = .passage) = true then EvidenceScope.passage
      else EvidenceScope.note) = chunk.scope := by
    cases chunk.scope <;> rfl
  rw [hscope]
  exact Reads.pure chunk

theorem reads_chunks {chunks : List ChunkEmbedding}
    (hentry : entry.sourceBytes ≤ maxNoteSourceBytes) (hdim : dim ≤ maxCacheDimension)
    (h : ∀ chunk ∈ chunks, ChunkFits entry dim chunk) :
    Reads holding (readChunks dim entry.title chunks.length) (chunks.flatMap chunkBytes)
      chunks := by
  induction chunks with
  | nil => exact Reads.pure []
  | cons chunk chunks ih =>
      have hrest := ih fun c hc => h c (by simp [hc])
      exact (reads_chunk hentry hdim (h chunk (by simp))).bind (hrest.bind_end (Reads.pure _))

/-- Reading takes back an entry that fits, while the chunk limit leaves room for it. -/
theorem reads_entry {storedChunks : ℕ} (hdim : dim ≤ maxCacheDimension)
    (h : EntryFits entry dim) (hroom : storedChunks + entry.chunks.length ≤ maxCacheEntries) :
    Reads holding (readEntry dim storedChunks) (noteBytes entry) entry := by
  have hsource : maxNoteSourceBytes < 2 ^ 32 := by decide
  have hmetadata : maxNoteMetadataBytes < 2 ^ 32 := by decide
  have htags : maxNoteTags < 2 ^ 32 := by decide
  have hchunks : maxNoteChunks < 2 ^ 32 := by decide
  have hbounds := h.metadata_le
  have hbody := h.body_bounded
  have hlimit := h.source_le
  have htagsLength := h.tags_length
  have hchunksLength := h.chunks_length
  refine (reads_string ?_ (h.revision_length.trans_le le_rfl)).bind <|
    (reads_count _ ?_ hlimit).bind <| (reads_range ?_ ?_).bind <| (reads_string ?_ ?_).bind <|
    (reads_count _ ?_ htagsLength).bind <| (reads_strings hmetadata hbounds).bind <|
    (reads_count _ ?_ ?_).bind <|
    (reads_chunks h.source_le hdim h.chunks_fit).bind_end (Reads.pure entry)
  · rw [h.revision_length]
    decide
  all_goals omega

end ReadEntry

end ObsidianMcp
