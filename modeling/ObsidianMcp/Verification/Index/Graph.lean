import ObsidianMcp.Verification.Index.Runs

/-! # The link graph

Incremental updates leave the backlinks that a rebuild computes. -/

namespace ObsidianMcp.VaultIndex

open Text

/-- A note links to a path. -/
def Linked (source : NoteSource) (index : VaultIndex) (path target : OsString) : Prop :=
  ∃ note, index.notes.lookup path = some note ∧
    target ∈ linkTargets source index.linkResolver note.links

/-- Outside a source batch the backlinks are those of the notes. -/
def GraphExact (source : NoteSource) (index : VaultIndex) : Prop :=
  index.sourceBatch = false → Inverse.Exact (Linked source index) index.backlinks

/-- Two indexes have the same graph. -/
structure SameGraph (a b : VaultIndex) : Prop where
  notes : b.notes = a.notes
  linkResolver : b.linkResolver = a.linkResolver
  backlinks : b.backlinks = a.backlinks
  sourceBatch : b.sourceBatch = a.sourceBatch

variable {source : NoteSource} {exclude : ExcludeSet} {index next : VaultIndex} {path : OsString}

theorem SameGraph.refl (index : VaultIndex) : SameGraph index index :=
  ⟨rfl, rfl, rfl, rfl⟩

theorem SameGraph.trans {a b c : VaultIndex} (h : SameGraph a b) (h' : SameGraph b c) :
    SameGraph a c where
  notes := h'.notes.trans h.notes
  linkResolver := h'.linkResolver.trans h.linkResolver
  backlinks := h'.backlinks.trans h.backlinks
  sourceBatch := h'.sourceBatch.trans h.sourceBatch

theorem SameGraph.exact (h : SameGraph index next) (hexact : GraphExact source index) :
    GraphExact source next := by
  intro hbatch
  rw [h.sourceBatch] at hbatch
  rw [h.backlinks]
  apply (hexact hbatch).congr
  intro p target
  rw [Linked, Linked, h.notes, h.linkResolver]

/-! ## Rebuilds and updates -/

theorem rebuildBacklinks_linked (source : NoteSource) (index : VaultIndex) :
    Inverse.Exact (Linked source index) (index.rebuildBacklinks source).backlinks := by
  have hbuild := Inverse.exact_build
    (fun note : NoteMetadata => linkTargets source index.linkResolver note.links)
    index.notes.toPairs
  apply hbuild.congr
  intro p target
  rw [Linked]
  simp only [Table.mem_toPairs]

theorem rebuildBacklinks_exact (source : NoteSource) (index : VaultIndex) :
    GraphExact source (index.rebuildBacklinks source) :=
  fun _ => rebuildBacklinks_linked source index

/-- Replacing the contributions of one note keeps the graph exact. -/
theorem updateBacklinks_exact {old note : NoteMetadata} {changed : VaultIndex}
    (h : Inverse.Exact (Linked source index) index.backlinks)
    (hold : index.notes.lookup path = some old)
    (hnotes : changed.notes = (index.notes.erase path).insert path note)
    (hresolver : changed.linkResolver = index.linkResolver)
    (hbacklinks : changed.backlinks = index.backlinks) :
    Inverse.Exact (Linked source changed)
      (changed.updateBacklinksForFile source path (some old.links)).backlinks := by
  rw [updateBacklinksForFile]
  dsimp only
  rw [hnotes, AList.lookup_insert, Option.map_some, Option.map_some, Option.getD_some,
    Option.getD_some, hresolver, hbacklinks]
  apply ((h.dropAll path (linkTargets source index.linkResolver old.links)).addAll path
    (linkTargets source index.linkResolver note.links)).congr
  intro p target
  rw [Linked, Linked, hnotes, hresolver]
  by_cases hp : p = path
  · rw [hp, hold, AList.lookup_insert]
    simp
  · rw [AList.lookup_insert_ne hp, AList.lookup_erase_ne hp]
    simp [hp]

/-! ## Frames of the operations -/

theorem untrackWatchPath_graph (h : index.untrackWatchPath source path = some next) :
    SameGraph index next := by
  rw [untrackWatchPath] at h
  cases hwatch : index.watchPaths with
  | none =>
      rw [hwatch, Option.some.injEq] at h
      rw [← h]
      exact .refl index
  | some watch =>
      rw [hwatch] at h
      dsimp only at h
      by_cases ht : index.tracks path = true
      · rw [if_pos ht, Option.map_eq_some_iff] at h
        rcases h with ⟨left, -, rfl⟩
        exact ⟨rfl, rfl, rfl, rfl⟩
      · rw [if_neg ht, Option.some.injEq] at h
        rw [← h]
        exact .refl index

theorem dropExcluded_graph (h : index.dropExcluded path = some next) : SameGraph index next := by
  rw [dropExcluded] at h
  by_cases hmem : path ∈ index.excludedNotePaths
  · rw [if_pos hmem, Option.map_eq_some_iff] at h
    rcases h with ⟨excluded, -, rfl⟩
    exact ⟨rfl, rfl, rfl, rfl⟩
  · rw [if_neg hmem, Option.some.injEq] at h
    rw [← h]
    exact .refl index

theorem dropAttachment_graph (h : index.dropAttachment path = some next) :
    SameGraph index next := by
  rw [dropAttachment] at h
  cases hsize : index.attachments.lookup path with
  | none =>
      rw [hsize, Option.some.injEq] at h
      rw [← h]
      exact .refl index
  | some size =>
      rw [hsize] at h
      dsimp only at h
      rcases Option.bind_eq_some_iff.mp h with ⟨attachmentBytes, -, h⟩
      rcases Option.bind_eq_some_iff.mp h with ⟨totalFiles, -, h⟩
      rcases Option.bind_eq_some_iff.mp h with ⟨vaultSizeBytes, -, h⟩
      rw [← Option.some.inj h]
      exact ⟨rfl, rfl, rfl, rfl⟩

theorem takeAttachment_graph (h : index.takeAttachment path = some next) :
    SameGraph index next := by
  rw [takeAttachment] at h
  cases hsize : index.attachments.lookup path with
  | none =>
      rw [hsize, Option.some.injEq] at h
      rw [← h]
      exact .refl index
  | some size =>
      rw [hsize, Option.map_eq_some_iff] at h
      rcases h with ⟨attachmentBytes, -, rfl⟩
      exact ⟨rfl, rfl, rfl, rfl⟩

/-- The note of a path goes; its links are left to the caller. -/
structure Unnoted (path : OsString) (index next : VaultIndex) : Prop where
  notes : next.notes = index.notes.erase path
  linkResolver : next.linkResolver = index.linkResolver
  backlinks : next.backlinks = index.backlinks
  sourceBatch : next.sourceBatch = index.sourceBatch

theorem removeNoteContributions_graph {old : Option NoteMetadata}
    (h : index.removeNoteContributions source path = some (next, old)) :
    old = index.notes.lookup path ∧ Unnoted path index next := by
  rw [removeNoteContributions] at h
  cases hnote : index.notes.lookup path with
  | none =>
      rw [hnote, Option.some.injEq, Prod.mk.injEq] at h
      rw [← h.1, ← h.2]
      exact ⟨rfl, (Table.erase_of_lookup_eq_none hnote).symm, rfl, rfl, rfl⟩
  | some note =>
      rw [hnote, Option.map_eq_some_iff] at h
      rcases h with ⟨removed, hremoved, heq⟩
      rw [Prod.mk.injEq] at heq
      rw [← heq.1, ← heq.2]
      rcases Option.bind_eq_some_iff.mp hremoved with ⟨totalLinks, -, hremoved⟩
      rcases Option.bind_eq_some_iff.mp hremoved with ⟨vaultSizeBytes, -, hremoved⟩
      rw [← Option.some.inj hremoved]
      exact ⟨rfl, rfl, rfl, rfl, rfl⟩

/-! ## Operations -/

theorem unlinkNote_graph (source : NoteSource) (path : OsString) (index : VaultIndex) :
    GraphExact source (index.unlinkNote source path) := by
  rw [unlinkNote]
  dsimp only
  by_cases hbatch : index.sourceBatch = true
  · rw [if_pos hbatch]
    intro hclosed
    exact absurd (hbatch.symm.trans hclosed) (Ne.symm Bool.false_ne_true)
  · rw [if_neg hbatch]
    exact rebuildBacklinks_exact source _

/-- A removal leaves the graph alone up to the note of its path. -/
theorem removeFile_cases (hremove : index.removeFile source path = some next) :
    ∃ detached unnoted, SameGraph index detached ∧
      Unnoted (logicalSeparators path) detached unnoted ∧
      next = if (detached.notes.lookup (logicalSeparators path)).isSome then
        unnoted.unlinkNote source (logicalSeparators path) else unnoted := by
  rw [removeFile] at hremove
  rcases Option.bind_eq_some_iff.mp hremove with ⟨untracked, huntracked, hremove⟩
  rcases Option.bind_eq_some_iff.mp hremove with ⟨included, hincluded, hremove⟩
  rcases Option.bind_eq_some_iff.mp hremove with ⟨detached, hdetached, hremove⟩
  rcases Option.bind_eq_some_iff.mp hremove with ⟨unnoted, hunnoted, hremove⟩
  rcases unnoted with ⟨unnoted, old⟩
  have huntracked := untrackWatchPath_graph huntracked
  have hincluded := dropExcluded_graph hincluded
  have hdetached := dropAttachment_graph hdetached
  have hkept : SameGraph index detached := {
    notes := hdetached.notes.trans (hincluded.notes.trans huntracked.notes)
    linkResolver :=
      hdetached.linkResolver.trans (hincluded.linkResolver.trans huntracked.linkResolver)
    backlinks := hdetached.backlinks.trans (hincluded.backlinks.trans huntracked.backlinks)
    sourceBatch :=
      hdetached.sourceBatch.trans (hincluded.sourceBatch.trans huntracked.sourceBatch) }
  have hunnoted := removeNoteContributions_graph hunnoted
  refine ⟨detached, unnoted, hkept, hunnoted.2, ?_⟩
  rw [← Option.some.inj hremove, hunnoted.1]

theorem removeFile_graph (h : GraphExact source index)
    (hremove : index.removeFile source path = some next) : GraphExact source next := by
  obtain ⟨detached, unnoted, hkept, hunnoted, rfl⟩ := removeFile_cases hremove
  cases hnote : detached.notes.lookup (logicalSeparators path) with
  | none =>
      rw [Option.isSome_none, if_neg Bool.false_ne_true]
      apply SameGraph.exact _ (hkept.exact h)
      exact {
        notes := hunnoted.notes.trans (Table.erase_of_lookup_eq_none hnote)
        linkResolver := hunnoted.linkResolver
        backlinks := hunnoted.backlinks
        sourceBatch := hunnoted.sourceBatch }
  | some note =>
      rw [Option.isSome_some, if_pos rfl]
      exact unlinkNote_graph source _ unnoted

/-- The graph takes up the note that a path has received. -/
theorem linkNote_graph {stored : VaultIndex} {note : NoteMetadata}
    (h : GraphExact source index) (hnotes : stored.notes = (index.notes.erase path).insert path note)
    (hresolver : stored.linkResolver = index.linkResolver)
    (hbacklinks : stored.backlinks = index.backlinks)
    (hbatch : stored.sourceBatch = index.sourceBatch) :
    GraphExact source (stored.linkNote source path (index.notes.lookup path)
      (index.notes.lookup path).isSome) := by
  rw [linkNote]
  cases hold : index.notes.lookup path with
  | none =>
      simp only [Option.isSome_none, Bool.false_eq_true, if_false]
      by_cases hopen : stored.sourceBatch = true
      · rw [if_pos hopen]
        intro hclosed
        rw [hopen] at hclosed
        contradiction
      · rw [if_neg hopen]
        exact rebuildBacklinks_exact source _
  | some old =>
      simp only [Option.isSome_some, if_true, Option.map_some]
      by_cases hopen : stored.sourceBatch = true
      · rw [if_pos hopen]
        intro hclosed
        rw [hopen] at hclosed
        contradiction
      · rw [if_neg hopen]
        intro _
        rw [Bool.not_eq_true, hbatch] at hopen
        exact updateBacklinks_exact (h hopen) hold hnotes hresolver hbacklinks

/-- A replacement leaves the graph alone up to the note of its path. -/
theorem replaceNote_cases {note : NoteMetadata} {total : ℕ}
    (hreplace : index.replaceNote source path note total = some next) :
    ∃ detached unnoted, SameGraph index detached ∧ Unnoted path detached unnoted ∧
      next = (unnoted.storeNote source path note total).linkNote source path
        (index.notes.lookup path) (index.notes.lookup path).isSome := by
  rw [replaceNote] at hreplace
  rcases Option.bind_eq_some_iff.mp hreplace with ⟨detached, hdetached, hreplace⟩
  rcases Option.bind_eq_some_iff.mp hreplace with ⟨unnoted, hunnoted, hreplace⟩
  rcases unnoted with ⟨unnoted, old⟩
  have hdetached := takeAttachment_graph hdetached
  have hkept : SameGraph index detached := by
    by_cases ht : tracks path { index with
        waitingForLexical := index.waitingForLexical.erase path } = true
    · simp only [ht, if_true] at hdetached
      exact ⟨hdetached.notes, hdetached.linkResolver, hdetached.backlinks, hdetached.sourceBatch⟩
    · simp only [ht, Bool.false_eq_true, if_false] at hdetached
      exact ⟨hdetached.notes, hdetached.linkResolver, hdetached.backlinks, hdetached.sourceBatch⟩
  have hunnoted := removeNoteContributions_graph hunnoted
  refine ⟨detached, unnoted, hkept, hunnoted.2, ?_⟩
  rw [← Option.some.inj hreplace]
  dsimp only
  rw [hunnoted.1, hkept.notes]

theorem replaceNote_graph {note : NoteMetadata} {total : ℕ} (h : GraphExact source index)
    (hreplace : index.replaceNote source path note total = some next) :
    GraphExact source next := by
  obtain ⟨detached, unnoted, hkept, hunnoted, rfl⟩ := replaceNote_cases hreplace
  apply linkNote_graph h
  · rw [← hkept.notes, ← hunnoted.notes]
    rfl
  · exact hunnoted.linkResolver.trans hkept.linkResolver
  · exact hunnoted.backlinks.trans hkept.backlinks
  · exact hunnoted.sourceBatch.trans hkept.sourceBatch

theorem addExcludedFile_graph (h : GraphExact source index)
    (hadd : index.addExcludedFile source path = some next) : GraphExact source next := by
  rw [addExcludedFile] at hadd
  by_cases hmem : logicalSeparators path ∈ index.excludedNotePaths
  · rw [if_pos hmem, Option.some.injEq] at hadd
    rwa [← hadd]
  · rw [if_neg hmem, Option.map_eq_some_iff] at hadd
    rcases hadd with ⟨removed, hremoved, heq⟩
    have hexact := removeFile_graph h hremoved
    rw [← heq]
    by_cases hkept : (isVisiblePath (logicalSeparators path) &&
        isMarkdown (logicalSeparators path)) = true
    · rw [if_pos hkept]
      exact SameGraph.exact ⟨rfl, rfl, rfl, rfl⟩ hexact
    · rw [if_neg hkept]
      exact hexact

theorem observeAttachment_graph {stat : FileStat} {result : Except VaultError (Option Text)}
    (h : GraphExact source index)
    (hobserve : index.observeAttachment source path stat = some (next, result)) :
    GraphExact source next := by
  rw [observeAttachment] at hobserve
  by_cases hsame : index.attachments.lookup path = some stat.size
  · rw [if_pos hsame, Option.some.injEq, Prod.mk.injEq] at hobserve
    rwa [← hobserve.1]
  · rw [if_neg hsame] at hobserve
    cases htotals : index.observedByteTotals source path stat.size true with
    | error error =>
        rw [htotals, Option.some.injEq, Prod.mk.injEq] at hobserve
        rwa [← hobserve.1]
    | ok totals =>
        rw [htotals, Option.map_eq_some_iff] at hobserve
        rcases hobserve with ⟨removed, hremoved, heq⟩
        rw [Prod.mk.injEq] at heq
        rw [← heq.1]
        have hexact := removeFile_graph h hremoved
        exact SameGraph.exact ⟨rfl, rfl, rfl, rfl⟩ hexact

theorem observeNote_graph {content : Text} {stat : FileStat}
    {result : Except VaultError (Option Text)} (h : GraphExact source index)
    (hobserve : index.observeNote source path content stat = some (next, result)) :
    GraphExact source next := by
  rw [observeNote] at hobserve
  cases hnote : parseNoteMetadata source path content stat with
  | error error =>
      rw [hnote, Option.some.injEq, Prod.mk.injEq] at hobserve
      rwa [← hobserve.1]
  | ok note =>
      rw [hnote] at hobserve
      dsimp only at hobserve
      cases htotals : index.observedByteTotals source path note.stat.size false with
      | error error =>
          rw [htotals, Option.some.injEq, Prod.mk.injEq] at hobserve
          rwa [← hobserve.1]
      | ok totals =>
          rw [htotals, Option.map_eq_some_iff] at hobserve
          rcases hobserve with ⟨replaced, hreplaced, heq⟩
          rw [Prod.mk.injEq] at heq
          rw [← heq.1]
          have hexact := replaceNote_graph h hreplaced
          exact SameGraph.exact ⟨rfl, rfl, rfl, rfl⟩ hexact

theorem updateObservation_graph {content : Option Text} {stat : FileStat}
    {result : Except VaultError (Option Text)} (h : GraphExact source index)
    (hupdate : index.updateObservation source exclude path content stat = some (next, result)) :
    GraphExact source next := by
  have hexcluded : (index.addExcludedFile source path).map
      (·, Except.ok (ε := VaultError) (none : Option Text)) = some (next, result) →
        GraphExact source next := by
    intro hadd
    rcases Option.map_eq_some_iff.mp hadd with ⟨added, hadded, heq⟩
    rw [← (Prod.mk.inj heq).1]
    exact addExcludedFile_graph h hadded
  unfold updateObservation at hupdate
  by_cases hvisible : isVisiblePath path = true
  · rw [hvisible] at hupdate
    cases hclass : classify path exclude with
    | attachment =>
        rw [hclass] at hupdate
        exact observeAttachment_graph h hupdate
    | excluded =>
        rw [hclass] at hupdate
        exact hexcluded hupdate
    | note =>
        rw [hclass] at hupdate
        cases content with
        | none =>
            rw [← (Prod.mk.inj (Option.some.inj hupdate)).1]
            exact h
        | some content =>
            dsimp only at hupdate
            by_cases hallowed : exclude.allowsSource path content = true
            · rw [hallowed] at hupdate
              exact observeNote_graph h hupdate
            · rw [Bool.eq_false_iff.mpr hallowed] at hupdate
              exact hexcluded hupdate
  · rw [Bool.eq_false_iff.mpr hvisible] at hupdate
    rcases Option.map_eq_some_iff.mp hupdate with ⟨removed, hremoved, heq⟩
    rw [← (Prod.mk.inj heq).1]
    exact removeFile_graph h hremoved

theorem finishLexical_graph {wasNote : Bool} {update : Except VaultError (Option Text)}
    {lexical : Option Lexical} {embeddingsEnabled : Bool} {result : Except VaultError Bool}
    (h : GraphExact source index)
    (hfinish : index.finishLexical source path wasNote update lexical embeddingsEnabled =
      some (next, result)) : GraphExact source next := by
  rw [finishLexical] at hfinish
  cases hstep : index.lexicalStep path wasNote update.toOption.join lexical with
  | unchanged =>
      rw [hstep] at hfinish
      rwa [← (Prod.mk.inj (Option.some.inj hfinish)).1]
  | removed =>
      rw [hstep] at hfinish
      rwa [← (Prod.mk.inj (Option.some.inj hfinish)).1]
  | replaced stamp =>
      rw [hstep] at hfinish
      rw [← (Prod.mk.inj (Option.some.inj hfinish)).1]
      exact SameGraph.exact ⟨rfl, rfl, rfl, rfl⟩ h
  | failed error =>
      rw [hstep] at hfinish
      rcases Option.map_eq_some_iff.mp hfinish with ⟨removed, hremoved, heq⟩
      rw [← (Prod.mk.inj heq).1]
      exact removeFile_graph h hremoved

theorem applyObservation_graph {content : Option Text} {stat : FileStat}
    {lexical : Option Lexical} {embeddingsEnabled : Bool} {result : Except VaultError Bool}
    (h : GraphExact source index)
    (happly : index.applyObservation source exclude path content stat lexical embeddingsEnabled =
      some (next, result)) : GraphExact source next := by
  rw [applyObservation] at happly
  rcases Option.bind_eq_some_iff.mp happly with ⟨update, hupdate, hfinish⟩
  rcases update with ⟨updated, outcome⟩
  have hexact := updateObservation_graph h hupdate
  cases outcome with
  | ok content => exact finishLexical_graph hexact hfinish
  | error error =>
      rw [finishRefresh] at hfinish
      by_cases hlimit : isResourceLimit error = true
      · rw [if_pos hlimit] at hfinish
        rw [← (Prod.mk.inj (Option.some.inj hfinish)).1]
        exact SameGraph.exact ⟨rfl, rfl, rfl, rfl⟩ hexact
      · rw [if_neg hlimit] at hfinish
        rcases Option.bind_eq_some_iff.mp hfinish with ⟨removed, hremoved, hfinish⟩
        exact finishLexical_graph (removeFile_graph hexact hremoved) hfinish

/-- The links of a note do not change with its stat. -/
theorem restat_graph {note : NoteMetadata} {stat : FileStat} (h : GraphExact source index)
    (hnote : index.notes.lookup path = some note)
    (hnotes : next.notes = index.notes.insert path { note with stat := stat })
    (hresolver : next.linkResolver = index.linkResolver)
    (hbacklinks : next.backlinks = index.backlinks)
    (hbatch : next.sourceBatch = index.sourceBatch) : GraphExact source next := by
  intro hclosed
  rw [hbatch] at hclosed
  rw [hbacklinks]
  apply (h hclosed).congr
  intro p target
  rw [Linked, Linked, hnotes, hresolver]
  by_cases hp : p = path
  · rw [hp, hnote, AList.lookup_insert]
    simp
  · rw [AList.lookup_insert_ne hp]

theorem refreshUnchangedNote_graph {revision : Text} {stat : FileStat}
    (h : GraphExact source index) :
    GraphExact source (index.refreshUnchangedNote source path revision stat).1 := by
  rw [refreshUnchangedNote]
  cases hnote : index.notes.lookup path with
  | none => exact h
  | some note =>
      dsimp only
      by_cases hrevision : index.sourceRevisions.lookup path ≠ some revision
      · rw [if_pos hrevision]
        exact h
      · rw [if_neg hrevision]
        cases index.observedByteTotals source path stat.size false with
        | error error => exact SameGraph.exact ⟨rfl, rfl, rfl, rfl⟩ h
        | ok totals => exact restat_graph h hnote rfl rfl rfl rfl

theorem Operation.apply_graph {operation : Operation} (h : GraphExact source index)
    (happly : operation.apply source exclude index = some next) : GraphExact source next := by
  cases operation with
  | observe path content stat lexical embeddingsEnabled =>
      rcases Option.map_eq_some_iff.mp happly with ⟨applied, happlied, heq⟩
      rw [← heq]
      exact applyObservation_graph h happlied
  | refresh path revision stat =>
      rw [← Option.some.inj happly]
      exact refreshUnchangedNote_graph h
  | remove path lexical =>
      rcases Option.map_eq_some_iff.mp happly with ⟨applied, happlied, heq⟩
      rcases Option.map_eq_some_iff.mp happlied with ⟨removed, hremoved, heq'⟩
      rw [← heq, ← heq']
      exact removeFile_graph h hremoved
  | exclude path => exact addExcludedFile_graph h happly
  | beginBatch =>
      rw [← Option.some.inj happly]
      intro hclosed
      contradiction
  | finishBatch =>
      rw [← Option.some.inj happly, finishSourceBatch]
      by_cases hbatch : index.sourceBatch = true
      · rw [if_pos hbatch]
        exact rebuildBacklinks_exact source _
      · rw [if_neg hbatch]
        exact h

theorem run_graph {operations : List Operation} (h : GraphExact source index)
    (hrun : run source exclude operations index = some next) : GraphExact source next := by
  induction operations using List.reverseRecOn generalizing next with
  | nil =>
      rw [← Option.some.inj hrun]
      exact h
  | append_singleton operations operation ih =>
      rw [run_concat] at hrun
      rcases Option.bind_eq_some_iff.mp hrun with ⟨before, hbefore, happly⟩
      exact (Operation.apply_graph (ih hbefore) happly)

/-! ## The incremental graph -/

theorem buildSync_graph {indexContent : NoteMetadata → Text → Except VaultError Unit}
    {files : List VaultFile} (h : buildSync source exclude indexContent files = .ok index) :
    GraphExact source index := by
  rw [buildSync] at h
  cases hfold : files.foldlM (buildFile source exclude indexContent) (0, empty) with
  | error error =>
      rw [hfold] at h
      contradiction
  | ok state =>
      rw [hfold] at h
      have hbuilt := Except.ok.inj h
      rw [← hbuilt]
      have hexact := rebuildBacklinks_exact source { state.2 with
        linkResolver := LinkResolver.build source.text
          (state.2.notes.toPairs.map fun entry => entry.2.path) }
      exact SameGraph.exact ⟨rfl, rfl, rfl, rfl⟩ hexact

/-- The indexes that a session starts from. -/
inductive Started (source : NoteSource) (exclude : ExcludeSet) : VaultIndex → Prop
  | empty : Started source exclude empty
  | built {indexContent : NoteMetadata → Text → Except VaultError Unit} {files : List VaultFile}
      {index : VaultIndex} (h : buildSync source exclude indexContent files = .ok index) :
      Started source exclude index

theorem empty_graph (source : NoteSource) : GraphExact source empty := by
  intro _
  apply Inverse.exact_empty
  intro p target hlinked
  rcases hlinked with ⟨note, hnote, -⟩
  simp [empty] at hnote

theorem Started.graph (h : Started source exclude index) : GraphExact source index := by
  cases h with
  | empty => exact empty_graph source
  | built h => exact buildSync_graph h

/-- After any run the backlinks are those of a rebuild, and so are the backlinks after one note
changes its content. -/
theorem backlinks_eq_rebuild (source : NoteSource) (exclude : ExcludeSet) (start : VaultIndex)
    (operations : List Operation) (index : VaultIndex) (hstart : Started source exclude start)
    (hrun : run source exclude operations start = some index)
    (hclosed : index.sourceBatch = false) :
    (∀ target, index.backlinks.lookup target =
      (index.rebuildBacklinks source).backlinks.lookup target) ∧
    ∀ path old note, index.notes.lookup path = some old → ∀ target,
      (updateBacklinksForFile source path (some old.links)
          { index with notes := index.notes.insert path note }).backlinks.lookup target =
        (rebuildBacklinks source
          { index with notes := index.notes.insert path note }).backlinks.lookup target := by
  have hexact := run_graph hstart.graph hrun hclosed
  refine ⟨hexact.lookup_eq (rebuildBacklinks_linked source index), ?_⟩
  intro path old note hold target
  let changed := { index with notes := index.notes.insert path note }
  have hupdated : Inverse.Exact (Linked source changed)
      (changed.updateBacklinksForFile source path (some old.links)).backlinks :=
    updateBacklinks_exact hexact hold (insert_erase index.notes path note).symm rfl rfl
  exact hupdated.lookup_eq (rebuildBacklinks_linked source _) target

def otherNote : OsString := utf8Bytes "c.md".toList

def linkedRun : List Operation :=
  [.observe soleNote (some "[[c]] [[b]] [[c]]".toList) ⟨17, none, none⟩ none false,
    .observe otherNote (some "[[b]]".toList) ⟨5, none, none⟩ none false,
    .observe soleNote (some "[[c]] [[d]]".toList) ⟨11, none, none⟩ none false,
    .remove otherNote none]

theorem linked_run_eq_rebuild :
    ∃ index, run plainSource noExclusions linkedRun empty = some index ∧
      ∀ target, index.backlinks.lookup target =
        (index.rebuildBacklinks plainSource).backlinks.lookup target := by
  have hclosed : (run plainSource noExclusions linkedRun empty).map sourceBatch = some false := by
    decide +kernel
  rcases Option.map_eq_some_iff.mp hclosed with ⟨index, hrun, hbatch⟩
  exact ⟨index, hrun, (backlinks_eq_rebuild plainSource noExclusions empty linkedRun index
    .empty hrun hbatch).1⟩

end ObsidianMcp.VaultIndex
