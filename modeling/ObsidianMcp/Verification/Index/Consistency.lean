import ObsidianMcp.Verification.Index.Tags

/-! # The consistency of the index

Every collection and every total of the index is determined by its notes, attachments and
excluded paths. The operations keep this and never leave the range of their counters. -/

namespace ObsidianMcp.VaultIndex

open Text

variable (source : NoteSource)

/-- The path of a note carries a tag. -/
def HasTag (notes : Table OsString NoteMetadata) (path : OsString) (tag : Text) : Prop :=
  ∃ note, notes.lookup path = some note ∧ tag ∈ note.tags.map source.text.toLowercase

/-- The collections agree with each other, and the totals with the collections. -/
structure Consistent (index : VaultIndex) : Prop where
  note_not_attachment : ∀ path, (index.notes.lookup path).isSome →
    index.attachments.lookup path = none
  excluded_not_note : ∀ path ∈ index.excludedNotePaths, index.notes.lookup path = none
  excluded_not_attachment : ∀ path ∈ index.excludedNotePaths,
    index.attachments.lookup path = none
  tags : Inverse.Exact (HasTag source index.notes) index.tags
  revisions : ∀ path, (index.sourceRevisions.lookup path).isSome →
    (index.notes.lookup path).isSome
  waiting : ∀ path, (index.waitingForLexical.lookup path).isSome →
    (index.notes.lookup path).isSome
  attachmentBytes_eq : index.attachmentBytes = index.attachments.total fun _ size => size
  stats_eq : index.stats = index.recomputeStats
  size_le : index.stats.vaultSizeBytes ≤ u64Max
  watched : ∀ watch, index.watchPaths = some watch → ∀ key count,
    watch.lookup key = some count → 0 < count

variable {source} {index : VaultIndex} {path : OsString}

/-! ## Arithmetic -/

theorem checkedSub_of_le {a b : ℕ} (h : b ≤ a) : checkedSub a b = some (a - b) :=
  if_pos h

theorem checkedSub_eq_some {a b c : ℕ} : checkedSub a b = some c ↔ b ≤ a ∧ a - b = c := by
  rw [checkedSub]
  by_cases h : b ≤ a
  · simp [h]
  · simp [h]

theorem checkedAdd_eq_some {a b c : ℕ} : checkedAdd a b = some c ↔ a + b ≤ u64Max ∧ a + b = c := by
  rw [checkedAdd]
  by_cases h : a + b ≤ u64Max
  · simp [h]
  · simp [h]

theorem attachment_le_bytes (h : Consistent source index) {size : ℕ}
    (hsize : index.attachments.lookup path = some size) : size ≤ index.attachmentBytes := by
  rw [h.attachmentBytes_eq]
  exact Table.size_le_total (fun _ size => size) hsize

theorem note_le_size (h : Consistent source index) {note : NoteMetadata}
    (hnote : index.notes.lookup path = some note) :
    note.stat.size ≤ index.stats.vaultSizeBytes := by
  rw [h.stats_eq]
  have hle := Table.size_le_total (fun _ (note : NoteMetadata) => note.stat.size) hnote
  exact hle.trans (Nat.le_add_right _ _)

theorem links_le_total (h : Consistent source index) {note : NoteMetadata}
    (hnote : index.notes.lookup path = some note) :
    note.links.length ≤ index.stats.totalLinks := by
  rw [h.stats_eq]
  exact Table.size_le_total (fun _ (note : NoteMetadata) => note.links.length) hnote

/-! ## Removal, step by step -/

theorem lookup_erase_isSome {V : Type*} {t : Table OsString V} {p q : OsString}
    (h : ((t.erase p).lookup q).isSome) : q ≠ p ∧ (t.lookup q).isSome := by
  by_cases heq : q = p
  · rw [heq, AList.lookup_erase] at h
    contradiction
  · rw [AList.lookup_erase_ne heq] at h
    exact ⟨heq, h⟩

theorem Consistent.eraseRevision (h : Consistent source index) (path : OsString) :
    Consistent source { index with sourceRevisions := index.sourceRevisions.erase path } :=
  { h with revisions := fun p hp => h.revisions p (lookup_erase_isSome hp).2 }

theorem Consistent.eraseWaiting (h : Consistent source index) (path : OsString) :
    Consistent source { index with waitingForLexical := index.waitingForLexical.erase path } :=
  { h with waiting := fun p hp => h.waiting p (lookup_erase_isSome hp).2 }

/-- Removing a watched path subtracts from positive counts only. -/
theorem removePrefixes_isSome {prefixes : List OsString} {watch : WatchPaths}
    (h : ∀ key count, watch.lookup key = some count → 0 < count) :
    ∃ watch', prefixes.foldlM (WatchPaths.removePrefix source) watch = some watch' ∧
      ∀ key count, watch'.lookup key = some count → 0 < count := by
  induction prefixes generalizing watch with
  | nil => exact ⟨watch, rfl, h⟩
  | cons p prefixes ih =>
      have hstep : ∃ watch', WatchPaths.removePrefix source watch p = some watch' ∧
          ∀ key count, watch'.lookup key = some count → 0 < count := by
        rw [WatchPaths.removePrefix]
        cases hcount : watch.lookup (foldedPath source p, p) with
        | none => exact ⟨watch, rfl, h⟩
        | some count =>
            dsimp only
            rw [checkedSub_of_le (h _ _ hcount), Option.map_some]
            refine ⟨_, rfl, ?_⟩
            intro key left hleft
            by_cases hzero : count - 1 = 0
            · rw [if_pos hzero] at hleft
              by_cases hkey : key = (foldedPath source p, p)
              · rw [hkey, AList.lookup_erase] at hleft
                contradiction
              · rw [AList.lookup_erase_ne hkey] at hleft
                exact h key left hleft
            · rw [if_neg hzero] at hleft
              by_cases hkey : key = (foldedPath source p, p)
              · rw [hkey, AList.lookup_insert, Option.some.injEq] at hleft
                omega
              · rw [AList.lookup_insert_ne hkey] at hleft
                exact h key left hleft
      rcases hstep with ⟨watch', hwatch', hpos⟩
      rw [List.foldlM_cons, hwatch']
      exact ih hpos

theorem untrackWatchPath_spec (h : Consistent source index) (path : OsString) :
    ∃ watch, index.untrackWatchPath source path = some { index with watchPaths := watch } ∧
      Consistent source { index with watchPaths := watch } := by
  rw [untrackWatchPath]
  cases hwatch : index.watchPaths with
  | none => exact ⟨index.watchPaths, rfl, h⟩
  | some watch =>
      dsimp only
      by_cases htracks : index.tracks path = true
      · rw [if_pos htracks]
        rcases @removePrefixes_isSome source (pathPrefixes path) _
          (h.watched watch hwatch) with ⟨watch', hwatch', hpos⟩
        refine ⟨some watch', by rw [WatchPaths.remove, hwatch', Option.map_some], ?_⟩
        exact { h with watched := fun w hw => by rwa [← Option.some.inj hw] }
      · rw [if_neg htracks]
        exact ⟨index.watchPaths, rfl, h⟩

theorem untrackWatchPath_congr {a b : VaultIndex} (hwatch : a.watchPaths = b.watchPaths)
    (htracks : a.tracks path = b.tracks path) :
    (a.untrackWatchPath source path).map watchPaths =
      (b.untrackWatchPath source path).map watchPaths := by
  rw [untrackWatchPath, untrackWatchPath]
  cases ha : a.watchPaths with
  | none =>
      rw [← hwatch, ha]
      dsimp only
      rw [Option.map_some, Option.map_some, ← hwatch]
  | some watch =>
      rw [← hwatch, ha]
      dsimp only
      rw [← htracks]
      by_cases ht : a.tracks path = true
      · rw [if_pos ht, if_pos ht, Option.map_map, Option.map_map]
        rfl
      · rw [if_neg ht, if_neg ht, Option.map_some, Option.map_some, hwatch]

/-- Excluding one path less. -/
theorem dropExcluded_spec (h : Consistent source index) (path : OsString) :
    ∃ stats, index.dropExcluded path = some { index with
        excludedNotePaths := index.excludedNotePaths.erase path, stats } ∧
      Consistent source { index with
        excludedNotePaths := index.excludedNotePaths.erase path, stats } := by
  rw [dropExcluded]
  by_cases hmem : path ∈ index.excludedNotePaths
  · have hcard := Finset.card_erase_of_mem hmem
    have hpos := Finset.card_pos.mpr ⟨path, hmem⟩
    have hcount : index.stats.excludedNotes = index.excludedNotePaths.card := by
      rw [h.stats_eq, recomputeStats]
    rw [if_pos hmem, checkedSub_of_le (by omega), Option.map_some]
    refine ⟨_, rfl, ?_⟩
    exact { h with
      excluded_not_note := fun p hp => h.excluded_not_note p (Finset.mem_of_mem_erase hp)
      excluded_not_attachment := fun p hp =>
        h.excluded_not_attachment p (Finset.mem_of_mem_erase hp)
      stats_eq := by
        rw [h.stats_eq, recomputeStats, recomputeStats, hcard] }
  · rw [if_neg hmem]
    refine ⟨index.stats, ?_, ?_⟩
    · rw [Finset.erase_eq_of_notMem hmem]
    · rw [Finset.erase_eq_of_notMem hmem]
      exact h

theorem dropAttachment_spec (h : Consistent source index) (path : OsString) :
    ∃ attachmentBytes stats, index.dropAttachment path = some { index with
        attachments := index.attachments.erase path, attachmentBytes, stats } ∧
      Consistent source { index with
        attachments := index.attachments.erase path, attachmentBytes, stats } := by
  rw [dropAttachment]
  cases hsize : index.attachments.lookup path with
  | none =>
      refine ⟨index.attachmentBytes, index.stats, ?_, ?_⟩
      · rw [Table.erase_of_lookup_eq_none hsize]
      · rw [Table.erase_of_lookup_eq_none hsize]
        exact h
  | some size =>
      have hbytes := attachment_le_bytes h hsize
      have hlen := Table.len_erase_add hsize
      have htotal := Table.total_erase_add (fun _ (size : ℕ) => size) hsize
      have hfiles : index.stats.totalFiles = index.notes.len + index.attachments.len := by
        rw [h.stats_eq, recomputeStats]
      have hvault : index.stats.vaultSizeBytes =
          index.notes.total (fun _ note => note.stat.size) + index.attachmentBytes := by
        rw [h.stats_eq, recomputeStats]
      have hfull := h.attachmentBytes_eq
      dsimp only
      rw [checkedSub_of_le hbytes, checkedSub_of_le (by omega : 1 ≤ index.stats.totalFiles),
        checkedSub_of_le (by omega : size ≤ index.stats.vaultSizeBytes)]
      refine ⟨_, _, rfl, ?_⟩
      have hsmall := h.size_le
      exact { h with
        note_not_attachment := fun p hp => by
          by_cases heq : p = path
          · rw [heq, AList.lookup_erase]
          · rw [AList.lookup_erase_ne heq]
            exact h.note_not_attachment p hp
        excluded_not_attachment := fun p hp => by
          by_cases heq : p = path
          · rw [heq, AList.lookup_erase]
          · rw [AList.lookup_erase_ne heq]
            exact h.excluded_not_attachment p hp
        attachmentBytes_eq := by
          dsimp only
          omega
        stats_eq := by
          rw [recomputeStats, VaultStats.mk.injEq]
          have hstats := h.stats_eq
          rw [recomputeStats] at hstats
          refine ⟨by rw [hstats], ?_, by rw [hstats], by rw [hstats], ?_, by rw [hstats]⟩
          · dsimp only
            omega
          · dsimp only
            omega
        size_le := by
          dsimp only
          omega }

theorem hasTag_erase {notes : Table OsString NoteMetadata} {note : NoteMetadata}
    (hnote : notes.lookup path = some note) (p : OsString) (tag : Text) :
    HasTag source notes p tag ∧ ¬(p = path ∧ tag ∈ note.tags.map source.text.toLowercase) ↔
      HasTag source (notes.erase path) p tag := by
  by_cases hp : p = path
  · rw [hp]
    refine iff_of_false ?_ ?_
    · intro h
      rcases h.1 with ⟨other, hother, htag⟩
      rw [hnote, Option.some.injEq] at hother
      rw [← hother] at htag
      exact h.2 ⟨rfl, htag⟩
    · intro h
      rcases h with ⟨other, hother, -⟩
      rw [AList.lookup_erase] at hother
      contradiction
  · rw [HasTag, HasTag, AList.lookup_erase_ne hp]
    tauto

/-- The index without the contributions of a note. -/
def withoutNote (source : NoteSource) (path : OsString) (note : NoteMetadata)
    (index : VaultIndex) : VaultIndex :=
  { index with
    notes := index.notes.erase path
    tags := withoutTags source path note.tags index.tags
    stats := {
      totalNotes := Table.len (index.notes.erase path)
      totalFiles := Table.len (index.notes.erase path) + index.attachments.len
      totalTags := Table.len (withoutTags source path note.tags index.tags)
      totalLinks := index.stats.totalLinks - note.links.length
      vaultSizeBytes := index.stats.vaultSizeBytes - note.stat.size
      excludedNotes := index.stats.excludedNotes } }

theorem removeNote_eq {note : NoteMetadata}
    (hlinks : note.links.length ≤ index.stats.totalLinks)
    (hsize : note.stat.size ≤ index.stats.vaultSizeBytes) :
    index.removeNote source path note = some (index.withoutNote source path note) := by
  rw [removeNote, checkedSub_of_le hlinks, checkedSub_of_le hsize]
  rfl

theorem Consistent.withoutNote (h : Consistent source index) {note : NoteMetadata}
    (hnote : index.notes.lookup path = some note)
    (hrevision : index.sourceRevisions.lookup path = none)
    (hwaiting : index.waitingForLexical.lookup path = none) :
    Consistent source (index.withoutNote source path note) := by
  have hstats := h.stats_eq
  rw [recomputeStats] at hstats
  have hlinks := Table.total_erase_add (fun _ (note : NoteMetadata) => note.links.length) hnote
  have hsizes := Table.total_erase_add (fun _ (note : NoteMetadata) => note.stat.size) hnote
  have hvault : index.stats.vaultSizeBytes =
      index.notes.total (fun _ note => note.stat.size) + index.attachmentBytes := by rw [hstats]
  have htotal : index.stats.totalLinks = index.notes.total fun _ note => note.links.length := by
    rw [hstats]
  have herased : ∀ {p : OsString}, ((index.notes.erase path).lookup p).isSome →
      (index.notes.lookup p).isSome := fun hp => (lookup_erase_isSome hp).2
  have hkept : ∀ {V : Type} {t : Table OsString V} {p : OsString},
      (∀ p, (t.lookup p).isSome → (index.notes.lookup p).isSome) → t.lookup path = none →
        (t.lookup p).isSome → ((index.notes.erase path).lookup p).isSome := by
    intro V t p hsub hnone hp
    by_cases heq : p = path
    · rw [heq, hnone] at hp
      contradiction
    · rw [AList.lookup_erase_ne heq]
      exact hsub p hp
  exact { h with
    note_not_attachment := fun p hp => h.note_not_attachment p (herased hp)
    excluded_not_note := fun p hp => by
      by_cases heq : p = path
      · rw [heq]
        exact AList.lookup_erase _ _
      · exact (AList.lookup_erase_ne heq).trans (h.excluded_not_note p hp)
    tags := (withoutTags_exact h.tags path note.tags).congr (hasTag_erase hnote)
    revisions := fun p hp => hkept h.revisions hrevision hp
    waiting := fun p hp => hkept h.waiting hwaiting hp
    stats_eq := by
      rw [recomputeStats, VaultStats.mk.injEq]
      refine ⟨rfl, rfl, rfl, ?_, ?_, ?_⟩
      · dsimp only [VaultIndex.withoutNote]
        omega
      · dsimp only [VaultIndex.withoutNote]
        omega
      · dsimp only [VaultIndex.withoutNote]
        rw [hstats]
    size_le := by
      have hle := h.size_le
      dsimp only [VaultIndex.withoutNote]
      omega }

/-- The graph is no part of the consistency. -/
theorem Consistent.withGraph (h : Consistent source index) (linkResolver : LinkResolver)
    (backlinks : Inverse OsString OsString) (sourceBatch : Bool) :
    Consistent source { index with linkResolver, backlinks, sourceBatch } :=
  { h with }

/-! ## Removal -/

/-- One path has left every collection. -/
structure Removed (source : NoteSource) (path : OsString) (index removed : VaultIndex) :
    Prop where
  notes : removed.notes = index.notes.erase path
  attachments : removed.attachments = index.attachments.erase path
  excludedNotePaths : removed.excludedNotePaths = index.excludedNotePaths.erase path
  sourceRevisions : removed.sourceRevisions = index.sourceRevisions.erase path
  waitingForLexical : removed.waitingForLexical = index.waitingForLexical.erase path
  sourceBatch : removed.sourceBatch = index.sourceBatch
  linkResolver : removed.linkResolver =
    if (index.notes.lookup path).isSome then index.linkResolver.removePath source.text path
    else index.linkResolver
  watchPaths : (index.untrackWatchPath source path).map watchPaths = some removed.watchPaths

theorem removeFile_spec (h : Consistent source index) (path : OsString) :
    ∃ removed, index.removeFile source path = some removed ∧ Consistent source removed ∧
      Removed source (logicalSeparators path) index removed := by
  rw [removeFile]
  generalize logicalSeparators path = path
  rcases untrackWatchPath_spec (h.eraseRevision path) path with ⟨watch, hwatch, h₁⟩
  rcases dropExcluded_spec (h₁.eraseWaiting path) path with ⟨stats, hexcluded, h₂⟩
  rcases dropAttachment_spec h₂ path with ⟨bytes, stats', hattachment, h₃⟩
  have huntrack : (index.untrackWatchPath source path).map watchPaths = some watch := by
    have hmap := congrArg (Option.map watchPaths) hwatch
    rw [Option.map_some] at hmap
    rw [← hmap]
    exact untrackWatchPath_congr rfl rfl
  simp only [hwatch, hexcluded, hattachment, Option.bind_eq_bind, Option.bind_some,
    removeNoteContributions]
  cases hnote : index.notes.lookup path with
  | none =>
      refine ⟨_, rfl, h₃, ?_⟩
      exact {
        notes := (Table.erase_of_lookup_eq_none hnote).symm
        attachments := rfl
        excludedNotePaths := rfl
        sourceRevisions := rfl
        waitingForLexical := rfl
        sourceBatch := rfl
        linkResolver := by rw [hnote]; rfl
        watchPaths := huntrack }
  | some note =>
      dsimp only
      rw [removeNote_eq (links_le_total h₃ hnote) (note_le_size h₃ hnote), Option.map_some]
      have h₄ := h₃.withoutNote hnote (AList.lookup_erase _ _) (AList.lookup_erase _ _)
      refine ⟨_, rfl, ?_, ?_⟩
      · simp only [Option.isSome_some, if_true]
        rw [unlinkNote]
        split
        · exact h₄.withGraph _ _ _
        · exact (h₄.withGraph _ _ _)
      · simp only [Option.isSome_some, if_true]
        rw [unlinkNote]
        constructor <;> split <;> first | rfl | exact huntrack | (rw [hnote]; rfl)

end ObsidianMcp.VaultIndex
