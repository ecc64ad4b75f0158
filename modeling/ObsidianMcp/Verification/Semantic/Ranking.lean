import ObsidianMcp.Library.Results
import ObsidianMcp.Model.SemanticResults
import ObsidianMcp.Verification.Embeddings.Store

/-! # Ranking is a deterministic top-k

Every hit carries the best chunk of its note, and the hits are the first ones of all notes in
order. -/

namespace ObsidianMcp

open Text

/-- Captured entries: one for each path, and each one complete. -/
structure CapturedEntries where
  entries : List (OsString × NoteEmbeddingEntry)
  nodup : (entries.map Prod.fst).Nodup
  valid : ∀ entry ∈ entries, ∃ dim, validateNoteEntry entry.2 dim = .ok ()

/-! ## Start bytes -/

/-- The chunks of a body with content lie one behind the other. -/
theorem starts_of_foldlM {entry : NoteEmbeddingEntry} {dim first last : ℕ}
    {chunks : List ChunkEmbedding} (hbody : entry.bodyRange.startByte ≠ entry.bodyRange.endByte)
    (h : chunks.foldlM (validateChunk entry dim) first = .ok last) :
    (∀ chunk ∈ chunks, first ≤ chunk.range.startByte) ∧
      chunks.Pairwise fun a b => a.range.startByte < b.range.startByte := by
  induction chunks generalizing first with
  | nil => exact ⟨by simp, List.Pairwise.nil⟩
  | cons chunk chunks ih =>
      rw [List.foldlM_cons, bind_ok_iff] at h
      obtain ⟨next, hchunk, h⟩ := h
      obtain ⟨hall, hsorted⟩ := ih h
      simp only [validateChunk, except_bind_eq_ok, Unique.exists_iff, PUnit.default_eq_unit,
        ensure_eq_ok] at hchunk
      obtain ⟨-, -, hcover, -, -, -, -, -, hnext⟩ := hchunk
      simp only [Bool.not_eq_true', Bool.or_eq_false_iff, decide_eq_false_iff_not, not_not, ne_eq,
        Bool.and_eq_false_iff, Nat.not_lt, hbody, not_false_eq_true, or_false, decide_true,
        Bool.true_eq_false] at hcover
      obtain ⟨⟨hstart, hle⟩, hne⟩ := hcover
      obtain rfl : chunk.range.endByte = next := Except.ok.inj hnext
      refine ⟨List.forall_mem_cons.mpr ⟨hstart.ge, ?_⟩, List.pairwise_cons.mpr ⟨?_, hsorted⟩⟩
      · intro other hmem
        have := hall other hmem
        omega
      · intro other hmem
        have := hall other hmem
        omega

/-- A complete entry has chunks, and they start at different bytes. -/
theorem starts_of_valid {entry : NoteEmbeddingEntry} {dim : ℕ}
    (h : validateNoteEntry entry dim = .ok ()) :
    entry.chunks ≠ [] ∧
      entry.chunks.Pairwise fun a b => a.range.startByte < b.range.startByte := by
  simp only [validateNoteEntry, except_bind_eq_ok, Unique.exists_iff, PUnit.default_eq_unit,
    ensure_eq_ok] at h
  obtain ⟨-, -, -, -, -, hchunks, hempty, last, hfold, -⟩ := h
  have hne : entry.chunks ≠ [] := by
    intro hnil
    simp [hnil] at hchunks
  refine ⟨hne, ?_⟩
  by_cases hbody : entry.bodyRange.startByte = entry.bodyRange.endByte
  · -- an empty body has one chunk
    have hone : entry.chunks.length = 1 := by
      by_contra hlength
      simp [hbody, hlength] at hempty
    obtain ⟨chunk, hchunk⟩ := List.length_eq_one_iff.mp hone
    rw [hchunk]
    exact List.pairwise_singleton _ _
  · exact (starts_of_foldlM hbody hfold).2

/-- What a query captures from a store is complete. -/
def EmbeddingStore.Accounted.captured {identity : EmbeddingSpaceIdentity} {header : List UInt8}
    {store : EmbeddingStore} (h : Accounted identity header store) (allowed : OsString → Bool) :
    CapturedEntries where
  entries := store.captureEntries allowed
  nodup := by
    have hkeys : store.embeddings.toPairs.map Prod.fst = store.embeddings.keys := by
      simp [Table.toPairs, AList.keys, List.keys]
    exact (hkeys ▸ store.embeddings.keys_nodup).sublist (List.filter_sublist.map Prod.fst)
  valid := by
    intro entry hmem
    have hlookup := Table.mem_toPairs.mp (List.mem_filter.mp hmem).1
    exact ⟨store.dim, (h.records_valid entry.1 entry.2 hlookup).entry_valid⟩

/-! ## The best chunk -/

section

variable {Score : Type} [LinearOrder Score] {u : PathText} {query : CosineQuery Score}
  {path : OsString} {entry : NoteEmbeddingEntry}

/-- A chunk with a smaller score, or with the same score and no earlier start. -/
def Below (query : CosineQuery Score) (chunk other : ChunkEmbedding) : Prop :=
  query.similarity other.vector < query.similarity chunk.vector ∨
    query.similarity other.vector = query.similarity chunk.vector ∧
      chunk.range.startByte ≤ other.range.startByte

/-- The winner of the chunks seen so far. -/
def Winner (query : CosineQuery Score) (seen : List ChunkEmbedding) : Option (Score × ℕ) → Prop
  | none => seen = []
  | some winner => ∃ chunk ∈ seen, winner = (query.similarity chunk.vector, chunk.range.startByte) ∧
      ∀ other ∈ seen, Below query chunk other

theorem Below.trans {first second third : ChunkEmbedding} (h : Below query first second)
    (h' : Below query second third) : Below query first third := by
  rcases h with hlt | ⟨heq, hle⟩
  · rcases h' with hlt' | ⟨heq', -⟩
    · exact .inl (hlt'.trans hlt)
    · exact .inl (heq' ▸ hlt)
  · rcases h' with hlt' | ⟨heq', hle'⟩
    · exact .inl (heq ▸ hlt')
    · exact .inr ⟨heq'.trans heq, hle.trans hle'⟩

/-- One chunk more. -/
theorem Winner.step {seen : List ChunkEmbedding} {winner next : Option (Score × ℕ)}
    {chunk : ChunkEmbedding} (h : Winner query seen winner)
    (hstep : bestStep u query path winner chunk = .ok next) :
    Winner query (seen ++ [chunk]) next := by
  rw [bestStep] at hstep
  split_ifs at hstep with hfinite hbetter
  · -- the chunk wins
    rw [Except.ok.injEq] at hstep
    subst hstep
    refine ⟨chunk, by simp, rfl, ?_⟩
    intro other hmem
    rcases List.mem_append.mp hmem with hmem | hmem
    · cases winner with
      | none =>
          rw [show seen = [] from h] at hmem
          simp at hmem
      | some winner =>
          obtain ⟨best, -, rfl, hall⟩ := h
          have hbest : Below query chunk best := by
            simp only [Option.all_some, Bool.or_eq_true, Bool.and_eq_true, decide_eq_true_eq]
              at hbetter
            rcases hbetter with hlt | ⟨heq, hlt⟩
            · exact .inl hlt
            · exact .inr ⟨heq.symm, hlt.le⟩
          exact hbest.trans (hall other hmem)
    · rw [List.mem_singleton.mp hmem]
      exact .inr ⟨rfl, le_rfl⟩
  · -- the winner stays
    rw [Except.ok.injEq] at hstep
    subst hstep
    cases winner with
    | none => simp at hbetter
    | some winner =>
        obtain ⟨best, hin, rfl, hall⟩ := h
        refine ⟨best, by simp [hin], rfl, ?_⟩
        intro other hmem
        rcases List.mem_append.mp hmem with hmem | hmem
        · exact hall other hmem
        · rw [List.mem_singleton.mp hmem]
          simp only [Option.all_some, Bool.or_eq_true, Bool.and_eq_true, decide_eq_true_eq, not_or,
            not_and, not_lt] at hbetter
          rcases hbetter.1.lt_or_eq with hlt | heq
          · exact .inl hlt
          · exact .inr ⟨heq, hbetter.2 heq⟩

/-- All chunks of a note. -/
theorem Winner.run {seen chunks : List ChunkEmbedding} {winner final : Option (Score × ℕ)}
    (h : Winner query seen winner)
    (hrun : chunks.foldlM (bestStep u query path) winner = .ok final) :
    Winner query (seen ++ chunks) final := by
  induction chunks generalizing seen winner with
  | nil =>
      rw [List.foldlM_nil] at hrun
      rw [List.append_nil, ← Except.ok.inj hrun]
      exact h
  | cons chunk chunks ih =>
      rw [List.foldlM_cons, bind_ok_iff] at hrun
      obtain ⟨next, hstep, hrun⟩ := hrun
      have hrest := ih (h.step hstep) hrun
      rwa [List.append_assoc] at hrest

/-- With finite scores the scan does not fail. -/
theorem exists_winner {chunks : List ChunkEmbedding}
    (hfinite : ∀ chunk ∈ chunks, query.isFinite (query.similarity chunk.vector) = true)
    (winner : Option (Score × ℕ)) :
    ∃ final, chunks.foldlM (bestStep u query path) winner = .ok final := by
  induction chunks generalizing winner with
  | nil => exact ⟨winner, rfl⟩
  | cons chunk chunks ih =>
      obtain ⟨hchunk, hchunks⟩ := List.forall_mem_cons.mp hfinite
      have hstep : ∃ next, bestStep u query path winner chunk = .ok next := by
        rw [bestStep, if_neg (by simp [hchunk])]
        split_ifs
        · exact ⟨_, rfl⟩
        · exact ⟨_, rfl⟩
      obtain ⟨next, hnext⟩ := hstep
      obtain ⟨final, hfinal⟩ := ih hchunks next
      exact ⟨final, by rw [List.foldlM_cons, hnext]; exact hfinal⟩

/-- The hit of an entry whose evidence is one chunk. -/
def chunkHit (query : CosineQuery Score) (source : OsString × NoteEmbeddingEntry)
    (chunk : ChunkEmbedding) : RankedNote Score where
  path := source.1
  score := query.similarity chunk.vector
  evidence := ⟨chunk.scope, query.similarity chunk.vector, chunk.range, chunk.headingPath,
    chunk.sectionRange⟩
  entry := source.2

/-- The evidence is the chunk with the greatest score, the earliest one among equals. -/
def BestHit (query : CosineQuery Score) (source : OsString × NoteEmbeddingEntry)
    (hit : RankedNote Score) : Prop :=
  ∃ chunk ∈ source.2.chunks, hit = chunkHit query source chunk ∧
    ∀ other ∈ source.2.chunks, Below query chunk other

/-- A start byte finds its chunk. -/
theorem find?_start {chunks : List ChunkEmbedding} {chunk : ChunkEmbedding}
    (hstarts : chunks.Pairwise fun a b => a.range.startByte < b.range.startByte)
    (hmem : chunk ∈ chunks) :
    (chunks.find? fun other => other.range.startByte = chunk.range.startByte) = some chunk := by
  induction chunks with
  | nil => simp at hmem
  | cons first chunks ih =>
      obtain ⟨hfirst, hstarts⟩ := List.pairwise_cons.mp hstarts
      rcases List.mem_cons.mp hmem with rfl | hmem
      · simp
      · have hlt := hfirst chunk hmem
        rw [List.find?_cons_of_neg (by simpa using hlt.ne), ih hstarts hmem]

theorem bestNote_ok {dim : ℕ} (hvalid : validateNoteEntry entry dim = .ok ())
    {hit : RankedNote Score} (h : bestNote u query path entry = .ok hit) :
    BestHit query (path, entry) hit := by
  rw [bestNote, bind_ok_iff] at h
  obtain ⟨winner, hrun, h⟩ := h
  have hwinner := Winner.run (show Winner query [] none from rfl) hrun
  cases winner with
  | none => contradiction
  | some winner =>
      obtain ⟨chunk, hmem, rfl, hall⟩ := hwinner
      rw [List.nil_append] at hmem hall
      simp only [find?_start (starts_of_valid hvalid).2 hmem, Except.ok.injEq] at h
      subst h
      exact ⟨chunk, hmem, rfl, hall⟩

theorem exists_bestNote {dim : ℕ} (hvalid : validateNoteEntry entry dim = .ok ())
    (hfinite : ∀ chunk ∈ entry.chunks, query.isFinite (query.similarity chunk.vector) = true) :
    ∃ hit, bestNote u query path entry = .ok hit := by
  obtain ⟨winner, hrun⟩ := @exists_winner _ _ u query path _ hfinite none
  have hwinner := Winner.run (show Winner query [] none from rfl) hrun
  cases winner with
  | none => exact absurd hwinner (starts_of_valid hvalid).1
  | some winner =>
      obtain ⟨chunk, hmem, rfl, -⟩ := hwinner
      rw [List.nil_append] at hmem
      refine ⟨chunkHit query (path, entry) chunk, bind_ok_iff.mpr ⟨_, hrun, ?_⟩⟩
      simp only [find?_start (starts_of_valid hvalid).2 hmem]
      rfl

/-! ## The order -/

theorem rankedBefore_iff {left right : RankedNote Score} :
    rankedBefore left right = true ↔
      right.score < left.score ∨ left.score = right.score ∧ left.path ≤ right.path := by
  simp [rankedBefore]

/-- Scores and paths order the hits. -/
theorem sortOrder_rankedBefore : SortOrder (@rankedBefore Score _) := by
  constructor
  · intro a b c hab hbc
    rw [rankedBefore_iff] at hab hbc ⊢
    rcases hab with hlt | ⟨heq, hle⟩
    · rcases hbc with hlt' | ⟨heq', -⟩
      · exact .inl (hlt'.trans hlt)
      · exact .inl (heq' ▸ hlt)
    · rcases hbc with hlt' | ⟨heq', hle'⟩
      · exact .inl (heq ▸ hlt')
      · exact .inr ⟨heq.trans heq', List.le_trans hle hle'⟩
  · intro a b
    rw [Bool.or_eq_true, rankedBefore_iff, rankedBefore_iff]
    rcases lt_trichotomy a.score b.score with hlt | heq | hlt
    · exact .inr (.inl hlt)
    · rcases List.le_total a.path b.path with hle | hle
      · exact .inl (.inr ⟨heq, hle⟩)
      · exact .inr (.inr ⟨heq.symm, hle⟩)
    · exact .inl (.inl hlt)

/-- Hits that neither comes before the other have one path. -/
theorem path_eq_of_rankedBefore {left right : RankedNote Score}
    (h : rankedBefore left right = true) (h' : rankedBefore right left = true) :
    left.path = right.path := by
  rw [rankedBefore_iff] at h h'
  rcases h with hlt | ⟨heq, hle⟩
  · rcases h' with hlt' | ⟨heq', -⟩
    · exact absurd hlt' hlt.asymm
    · exact absurd heq' hlt.ne
  · rcases h' with hlt' | ⟨-, hle'⟩
    · exact absurd heq hlt'.ne
    · exact List.le_antisymm hle hle'

/-- The ranking is the front of the sorted hits. -/
theorem finishRanking_eq (selection : Selection (RankedNote Score) rankedBefore)
    {hits : List (RankedNote Score)} (hnodup : (hits.map RankedNote.path).Nodup) (topK : ℕ) :
    finishRanking selection hits topK = (hits.mergeSort rankedBefore).take topK := by
  rw [finishRanking]
  split_ifs with hlt
  · apply selection.mergeSort_take sortOrder_rankedBefore ?_ hlt.le
    intro a ha b hb hab hba
    exact List.inj_on_of_nodup_map hnodup ha hb (path_eq_of_rankedBefore hab hba)
  · rw [List.take_of_length_le]
    rw [(List.mergeSort_perm _ _).length_eq]
    omega

/-! ## The ranking -/

variable {selection : Selection (RankedNote Score) rankedBefore}

theorem rankSemantic_ok {entries : List (OsString × NoteEmbeddingEntry)} {topK : ℕ}
    {hits : List (RankedNote Score)} :
    rankSemantic u query selection entries topK = .ok hits ↔
      ∃ all, List.Forall₂ (fun source hit => bestNote u query source.1 source.2 = .ok hit) entries
        all ∧ hits = finishRanking selection all topK := by
  rw [rankSemantic, bind_ok_iff]
  constructor
  · rintro ⟨all, hall, h⟩
    exact ⟨all, mapM_ok_iff.mp hall, (Except.ok.inj h).symm⟩
  · rintro ⟨all, hall, rfl⟩
    exact ⟨all, mapM_ok_iff.mpr hall, rfl⟩

/-- The hits of a result have the paths of the entries. -/
theorem paths_of_forall₂ {entries : List (OsString × NoteEmbeddingEntry)}
    {all : List (RankedNote Score)} (h : List.Forall₂ (BestHit query) entries all) :
    all.map RankedNote.path = entries.map Prod.fst := by
  induction h with
  | nil => rfl
  | cons hbest _ ih =>
      obtain ⟨chunk, -, rfl, -⟩ := hbest
      rw [List.map_cons, List.map_cons, ih]
      rfl

/-- The hits of complete entries are their best ones. -/
theorem bestHits {entries : List (OsString × NoteEmbeddingEntry)}
    (hvalid : ∀ entry ∈ entries, ∃ dim, validateNoteEntry entry.2 dim = .ok ())
    {all : List (RankedNote Score)}
    (h : List.Forall₂ (fun source hit => bestNote u query source.1 source.2 = .ok hit) entries
      all) : List.Forall₂ (BestHit query) entries all := by
  induction h with
  | nil => exact List.Forall₂.nil
  | cons hhit _ ih =>
      obtain ⟨⟨dim, hentry⟩, hentries⟩ := List.forall_mem_cons.mp hvalid
      exact List.Forall₂.cons (bestNote_ok hentry hhit) (ih hentries)

/-- With finite scores all entries have hits. -/
theorem exists_bestHits {entries : List (OsString × NoteEmbeddingEntry)}
    (hvalid : ∀ entry ∈ entries, ∃ dim, validateNoteEntry entry.2 dim = .ok ())
    (hfinite : ∀ entry ∈ entries, ∀ chunk ∈ entry.2.chunks,
      query.isFinite (query.similarity chunk.vector) = true) :
    ∃ all, List.Forall₂ (fun source hit => bestNote u query source.1 source.2 = .ok hit) entries
      all := by
  induction entries with
  | nil => exact ⟨[], List.Forall₂.nil⟩
  | cons entry entries ih =>
      obtain ⟨⟨dim, hentry⟩, hentries⟩ := List.forall_mem_cons.mp hvalid
      obtain ⟨hscore, hscores⟩ := List.forall_mem_cons.mp hfinite
      obtain ⟨hit, hhit⟩ := @exists_bestNote _ _ u query entry.1 _ _ hentry hscore
      obtain ⟨all, hall⟩ := ih hentries hscores
      exact ⟨hit :: all, List.Forall₂.cons hhit hall⟩

end

/-- The result has the best hit of each note and is the front of all of them in the order of
descending scores and of paths, however the map orders its entries and the selection the hits. It
fails only for a score that is not finite. -/
theorem rankSemantic_topK {Score : Type} [LinearOrder Score] (u : PathText)
    (query : CosineQuery Score) (selection : Selection (RankedNote Score) rankedBefore)
    (captured : CapturedEntries) (topK : ℕ) :
    (∀ hits, rankSemantic u query selection captured.entries topK = .ok hits →
      (∃ all, List.Forall₂ (BestHit query) captured.entries all ∧
        hits = (all.mergeSort rankedBefore).take topK) ∧
      (hits.map RankedNote.path).Nodup ∧
      ∀ entries (other : Selection (RankedNote Score) rankedBefore),
        entries.Perm captured.entries → rankSemantic u query other entries topK = .ok hits) ∧
    ((∀ entry ∈ captured.entries, ∀ chunk ∈ entry.2.chunks,
      query.isFinite (query.similarity chunk.vector) = true) →
      ∃ hits, rankSemantic u query selection captured.entries topK = .ok hits) := by
  constructor
  · intro hits h
    obtain ⟨all, hall, rfl⟩ := rankSemantic_ok.mp h
    have hbest := bestHits captured.valid hall
    have hnodup : (all.map RankedNote.path).Nodup := by
      rw [paths_of_forall₂ hbest]
      exact captured.nodup
    rw [finishRanking_eq selection hnodup]
    refine ⟨⟨all, hbest, rfl⟩, ?_, ?_⟩
    · have hsorted : ((all.mergeSort rankedBefore).map RankedNote.path).Nodup :=
        ((List.mergeSort_perm all rankedBefore).map _).nodup_iff.mpr hnodup
      exact hsorted.sublist ((List.take_sublist topK _).map _)
    · intro entries other hperm
      obtain ⟨all', hall', hperm'⟩ := List.perm_comp_forall₂ hperm hall
      have hnodup' : (all'.map RankedNote.path).Nodup :=
        (hperm'.map RankedNote.path).nodup_iff.mpr hnodup
      refine rankSemantic_ok.mpr ⟨all', hall', ?_⟩
      rw [finishRanking_eq other hnodup', mergeSort_eq_of_perm sortOrder_rankedBefore hperm'.symm]
      intro a ha b hb hab hba
      exact List.inj_on_of_nodup_map hnodup ha hb (path_eq_of_rankedBefore hab hba)
  · intro hfinite
    obtain ⟨all, hall⟩ := exists_bestHits captured.valid hfinite
    exact ⟨_, rankSemantic_ok.mpr ⟨all, hall, rfl⟩⟩

/-- A note with two passages of one length. -/
private def twoPassages : CapturedEntries where
  entries := [([0x61], {
    sourceRevision := List.replicate 64 'a'
    sourceBytes := 2
    bodyRange := ⟨0, 2⟩
    title := "a".toList
    tags := []
    chunks := [⟨Vector.replicate 32 0, [0], .passage, ⟨0, 1⟩, none, [], none, none⟩,
      ⟨Vector.replicate 32 0, [0], .passage, ⟨1, 2⟩, none, [], none, none⟩] })]
  nodup := by decide
  valid := by
    intro entry hmem
    rw [List.mem_singleton.mp hmem]
    exact ⟨1, rfl⟩

/-- Equal scores: the earlier passage is the evidence. -/
theorem rankSemantic_twoPassages :
    ∃ hit, rankSemantic { Unicode.basic with lossy := fun _ => [] } ⟨List.length, fun _ => true⟩
        (sortSelection sortOrder_rankedBefore) twoPassages.entries 1 = .ok [hit] ∧
      hit.evidence.range = ⟨0, 1⟩ := by
  have hboth := rankSemantic_topK { Unicode.basic with lossy := fun _ => [] }
    ⟨List.length, fun _ => true⟩ (sortSelection sortOrder_rankedBefore) twoPassages 1
  obtain ⟨hits, hhits⟩ := hboth.2 (fun _ _ _ _ => rfl)
  obtain ⟨⟨all, hall, heq⟩, -⟩ := hboth.1 hits hhits
  obtain ⟨hit, rest, ⟨chunk, hmem, rfl, hbelow⟩, hrest, rfl⟩ := List.forall₂_cons_left_iff.mp hall
  rw [List.forall₂_nil_left_iff.mp hrest, List.mergeSort_singleton] at heq
  refine ⟨_, heq ▸ hhits, ?_⟩
  rcases List.mem_cons.mp hmem with rfl | hmem
  · rfl
  · rw [List.mem_singleton.mp hmem] at hbelow
    rcases hbelow _ List.mem_cons_self with hlt | ⟨-, hle⟩
    · exact absurd hlt (by decide)
    · exact absurd hle (by decide)

end ObsidianMcp
