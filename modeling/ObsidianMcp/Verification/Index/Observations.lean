import ObsidianMcp.Verification.Index.Consistency

/-! # Observations keep the index consistent -/

namespace ObsidianMcp.VaultIndex

open Text

variable {source : NoteSource} {index : VaultIndex} {path : OsString}

/-! ## Admission -/

/-- The size that an observation of a path replaces. -/
def oldSize (path : OsString) (index : VaultIndex) : ℕ :=
  ((index.notes.lookup path).map fun note => note.stat.size).getD
    ((index.attachments.lookup path).getD 0)

/-- The total without what an observation of a path replaces. -/
def sizeWithout (path : OsString) (index : VaultIndex) : ℕ :=
  Table.total (fun _ (note : NoteMetadata) => note.stat.size) (index.notes.erase path) +
    Table.total (fun _ (size : ℕ) => size) (index.attachments.erase path)

theorem vaultSize_eq_without (h : Consistent source index) (path : OsString) :
    index.stats.vaultSizeBytes = sizeWithout path index + oldSize path index := by
  have hvault : index.stats.vaultSizeBytes =
      index.notes.total (fun _ note => note.stat.size) +
        index.attachments.total fun _ size => size := by
    rw [h.stats_eq, recomputeStats, h.attachmentBytes_eq]
  rw [hvault, oldSize, sizeWithout]
  cases hnote : index.notes.lookup path with
  | some note =>
      have hnone := h.note_not_attachment path (by rw [hnote]; rfl)
      have htotal := Table.total_erase_add (fun _ (note : NoteMetadata) => note.stat.size) hnote
      rw [Table.erase_of_lookup_eq_none hnone, Option.map_some, Option.getD_some]
      omega
  | none =>
      rw [Table.erase_of_lookup_eq_none hnote, Option.map_none, Option.getD_none]
      cases hsize : index.attachments.lookup path with
      | some size =>
          have htotal := Table.total_erase_add (fun _ (size : ℕ) => size) hsize
          rw [Option.getD_some]
          omega
      | none =>
          rw [Table.erase_of_lookup_eq_none hsize, Option.getD_none]
          omega

theorem attachmentBytes_eq_without (h : Consistent source index) (path : OsString) :
    index.attachmentBytes = Table.total (fun _ (size : ℕ) => size) (index.attachments.erase path) +
      (index.attachments.lookup path).getD 0 := by
  rw [h.attachmentBytes_eq]
  cases hold : index.attachments.lookup path with
  | none =>
      rw [Table.erase_of_lookup_eq_none hold]
      rfl
  | some size => exact (Table.total_erase_add (fun _ (size : ℕ) => size) hold).symm

/-- An observation is admitted exactly when the new total stays within 64 bits. -/
theorem observedByteTotals_eq (h : Consistent source index) (path : OsString) (size : ℕ)
    (attachment : Bool) :
    index.observedByteTotals source path size attachment =
      if sizeWithout path index + size ≤ u64Max then
        .ok (sizeWithout path index + size,
          Table.total (fun _ (size : ℕ) => size) (index.attachments.erase path) +
            if attachment then size else 0)
      else .error (inventorySizeError source path) := by
  have hvault := vaultSize_eq_without h path
  have hbytes := attachmentBytes_eq_without h path
  have hrest : checkedSub index.stats.vaultSizeBytes (oldSize path index) =
      some (sizeWithout path index) := by
    rw [checkedSub_eq_some]
    omega
  have hrest' : checkedSub index.attachmentBytes ((index.attachments.lookup path).getD 0) =
      some (Table.total (fun _ (size : ℕ) => size) (index.attachments.erase path)) := by
    rw [checkedSub_eq_some]
    omega
  have hpart : Table.total (fun _ (size : ℕ) => size) (index.attachments.erase path) +
      (if attachment then size else 0) ≤ sizeWithout path index + size := by
    rw [sizeWithout]
    cases attachment with
    | true =>
        simp only [if_true]
        omega
    | false =>
        simp only [Bool.false_eq_true, if_false]
        omega
  rw [oldSize] at hrest
  rw [observedByteTotals]
  simp only [hrest, hrest', Option.bind_some, checkedAdd]
  by_cases hfits : sizeWithout path index + size ≤ u64Max
  · simp only [if_pos hfits, if_pos (hpart.trans hfits)]
  · simp only [if_neg hfits]

theorem observedByteTotals_error (h : Consistent source index) {size : ℕ} {attachment : Bool}
    {error : VaultError}
    (herror : index.observedByteTotals source path size attachment = .error error) :
    u64Max < sizeWithout path index + size ∧ error = inventorySizeError source path := by
  rw [observedByteTotals_eq h] at herror
  by_cases hfits : sizeWithout path index + size ≤ u64Max
  · rw [if_pos hfits] at herror
    contradiction
  · rw [if_neg hfits, Except.error.injEq] at herror
    exact ⟨Nat.lt_of_not_le hfits, herror.symm⟩

theorem observedByteTotals_ok (h : Consistent source index) {size total bytes : ℕ}
    {attachment : Bool}
    (hok : index.observedByteTotals source path size attachment = .ok (total, bytes)) :
    sizeWithout path index + size ≤ u64Max ∧ total = sizeWithout path index + size ∧
      bytes = Table.total (fun _ (size : ℕ) => size) (index.attachments.erase path) +
        if attachment then size else 0 := by
  rw [observedByteTotals_eq h] at hok
  by_cases hfits : sizeWithout path index + size ≤ u64Max
  · rw [if_pos hfits, Except.ok.injEq, Prod.mk.injEq] at hok
    exact ⟨hfits, hok.1.symm, hok.2.symm⟩
  · rw [if_neg hfits] at hok
    contradiction

/-! ## Replacement -/

theorem takeAttachment_spec (path : OsString)
    (h : index.attachmentBytes = index.attachments.total fun _ size => size) :
    ∃ attachmentBytes, index.takeAttachment path = some { index with
        attachments := index.attachments.erase path, attachmentBytes } ∧
      attachmentBytes = Table.total (fun _ size => size) (index.attachments.erase path) := by
  rw [takeAttachment]
  cases hsize : index.attachments.lookup path with
  | none =>
      rw [Table.erase_of_lookup_eq_none hsize]
      exact ⟨index.attachmentBytes, rfl, h⟩
  | some size =>
      have htotal := Table.total_erase_add (fun _ (size : ℕ) => size) hsize
      dsimp only
      rw [checkedSub_of_le (by omega), Option.map_some]
      exact ⟨_, rfl, by omega⟩

theorem removeNoteContributions_spec (path : OsString)
    (htags : Inverse.Exact (HasTag source index.notes) index.tags)
    (hlinks : index.stats.totalLinks = index.notes.total fun _ note => note.links.length)
    (hsize : ∀ note, index.notes.lookup path = some note →
      note.stat.size ≤ index.stats.vaultSizeBytes) :
    ∃ tags stats, index.removeNoteContributions source path =
        some ({ index with notes := index.notes.erase path, tags, stats },
          index.notes.lookup path) ∧
      Inverse.Exact (HasTag source (index.notes.erase path)) tags ∧
      stats.totalLinks =
        Table.total (fun _ (note : NoteMetadata) => note.links.length) (index.notes.erase path) := by
  rw [removeNoteContributions]
  cases hnote : index.notes.lookup path with
  | none =>
      rw [Table.erase_of_lookup_eq_none hnote]
      exact ⟨index.tags, index.stats, rfl, htags, hlinks⟩
  | some note =>
      have htotal := Table.total_erase_add (fun _ (note : NoteMetadata) => note.links.length) hnote
      dsimp only
      rw [removeNote_eq (by omega) (hsize note hnote), Option.map_some]
      refine ⟨_, _, rfl, (withoutTags_exact htags path note.tags).congr (hasTag_erase hnote), ?_⟩
      dsimp only
      omega

theorem hasTag_insert {notes : Table OsString NoteMetadata} (note : NoteMetadata) (p : OsString)
    (tag : Text) :
    (HasTag source (notes.erase path) p tag ∨
        (p = path ∧ tag ∈ note.tags.map source.text.toLowercase)) ↔
      HasTag source (notes.insert path note) p tag := by
  by_cases hp : p = path
  · rw [hp]
    constructor
    · intro h
      rcases h with ⟨other, hother, -⟩ | ⟨-, htag⟩
      · rw [AList.lookup_erase] at hother
        contradiction
      · exact ⟨note, AList.lookup_insert _, htag⟩
    · intro h
      rcases h with ⟨other, hother, htag⟩
      rw [AList.lookup_insert, Option.some.injEq] at hother
      rw [← hother] at htag
      exact .inr ⟨rfl, htag⟩
  · rw [HasTag, HasTag, AList.lookup_erase_ne hp, AList.lookup_insert_ne hp]
    exact or_iff_left fun h => hp h.1

theorem lookup_insert_isSome {V : Type*} {t : Table OsString V} {p q : OsString} {v : V}
    (h : q = p ∨ (t.lookup q).isSome) : ((t.insert p v).lookup q).isSome := by
  by_cases heq : q = p
  · rw [heq, AList.lookup_insert]
    rfl
  · rw [AList.lookup_insert_ne heq]
    exact h.resolve_left heq

/-- A note has taken its place at a path. -/
structure Replaced (source : NoteSource) (path : OsString) (note : NoteMetadata)
    (index replaced : VaultIndex) : Prop where
  notes : replaced.notes = index.notes.insert path note
  attachments : replaced.attachments = index.attachments.erase path
  excludedNotePaths : replaced.excludedNotePaths = index.excludedNotePaths.erase path
  sourceRevisions : replaced.sourceRevisions = index.sourceRevisions
  waitingForLexical : replaced.waitingForLexical = index.waitingForLexical.erase path
  sourceBatch : replaced.sourceBatch = index.sourceBatch
  linkResolver : replaced.linkResolver =
    if (index.notes.lookup path).isSome then index.linkResolver
    else index.linkResolver.addPath source.text path
  watchPaths : replaced.watchPaths =
    if index.tracks path then index.watchPaths
    else index.watchPaths.map (WatchPaths.insert source path)

theorem insert_erase {V : Type*} (t : Table OsString V) (p : OsString) (v : V) :
    (t.erase p).insert p v = t.insert p v := by
  apply AList.ext
  rw [AList.entries_insert, AList.entries_insert]
  exact congrArg (List.cons _)
    (congrArg AList.entries (Table.erase_of_lookup_eq_none (AList.lookup_erase p t)))

/-- Watching a path leaves positive counts only. -/
theorem insertPrefixes_pos {watch : WatchPaths}
    (h : ∀ key count, watch.lookup key = some count → 0 < count) (key : Text × OsString)
    (count : ℕ) (hcount : (watch.insert source path).lookup key = some count) : 0 < count := by
  have hfold : ∀ (prefixes : List OsString) (watch : WatchPaths),
      (∀ key count, watch.lookup key = some count → 0 < count) →
        ∀ key count, (prefixes.foldl (fun watch p => AList.insert (foldedPath source p, p)
          ((watch.lookup (foldedPath source p, p)).getD 0 + 1) watch) watch).lookup key =
            some count → 0 < count := by
    intro prefixes
    induction prefixes with
    | nil => exact fun watch h => h
    | cons p prefixes ih =>
        intro watch h
        apply ih
        intro key count hcount
        by_cases hkey : key = (foldedPath source p, p)
        · rw [hkey, AList.lookup_insert, Option.some.injEq] at hcount
          omega
        · rw [AList.lookup_insert_ne hkey] at hcount
          exact h key count hcount
  exact hfold (pathPrefixes path) watch h key count hcount

/-- The graph takes up a note and leaves everything else. -/
theorem linkNote_eq (path : OsString) (old : Option NoteMetadata) (wasExisting : Bool)
    (index : VaultIndex) :
    ∃ backlinks, index.linkNote source path old wasExisting = { index with
      linkResolver := if wasExisting then index.linkResolver
        else index.linkResolver.addPath source.text path
      backlinks } := by
  rw [linkNote]
  cases wasExisting with
  | true =>
      simp only [if_true]
      split
      · exact ⟨_, rfl⟩
      · exact ⟨_, rfl⟩
  | false =>
      simp only [Bool.false_eq_true, if_false]
      split
      · exact ⟨_, rfl⟩
      · exact ⟨_, rfl⟩

theorem replaceNote_spec (h : Consistent source index) {note : NoteMetadata} {total bytes : ℕ}
    (htotal : index.observedByteTotals source path note.stat.size false = .ok (total, bytes)) :
    ∃ replaced, index.replaceNote source path note total = some replaced ∧
      Consistent source replaced ∧ Replaced source path note index replaced := by
  have hadmitted := observedByteTotals_ok h htotal
  rw [replaceNote]
  have hwatched : ∀ watch, (if index.tracks path then index.watchPaths
      else index.watchPaths.map (WatchPaths.insert source path)) = some watch →
        ∀ key count, watch.lookup key = some count → 0 < count := by
    intro watch hwatch
    by_cases ht : index.tracks path = true
    · rw [if_pos ht] at hwatch
      exact h.watched watch hwatch
    · rw [if_neg ht, Option.map_eq_some_iff] at hwatch
      rcases hwatch with ⟨old, hold, rfl⟩
      exact insertPrefixes_pos (h.watched old hold)
  have htracked : (if tracks path { index with
        waitingForLexical := index.waitingForLexical.erase path } then
      { index with waitingForLexical := index.waitingForLexical.erase path }
      else trackWatchPath source path { index with
        waitingForLexical := index.waitingForLexical.erase path }) =
      { index with
        waitingForLexical := index.waitingForLexical.erase path
        watchPaths := if index.tracks path then index.watchPaths
          else index.watchPaths.map (WatchPaths.insert source path) } := by
    have htracks : tracks path { index with
        waitingForLexical := index.waitingForLexical.erase path } = index.tracks path := rfl
    rw [htracks]
    by_cases ht : index.tracks path = true
    · simp only [ht, if_true]
    · simp only [ht, Bool.false_eq_true, if_false]
      rfl
  rw [htracked]
  have htake := @takeAttachment_spec { index with
    waitingForLexical := index.waitingForLexical.erase path
    watchPaths := if index.tracks path then index.watchPaths
      else index.watchPaths.map (WatchPaths.insert source path)
    excludedNotePaths := index.excludedNotePaths.erase path } path h.attachmentBytes_eq
  rcases htake with ⟨attachmentBytes, htake, hbytes⟩
  have hremove := @removeNoteContributions_spec source { index with
    waitingForLexical := index.waitingForLexical.erase path
    watchPaths := if index.tracks path then index.watchPaths
      else index.watchPaths.map (WatchPaths.insert source path)
    excludedNotePaths := index.excludedNotePaths.erase path
    attachments := index.attachments.erase path
    attachmentBytes := attachmentBytes } path h.tags (by rw [h.stats_eq]; rfl)
    (fun note hnote => note_le_size h hnote)
  rcases hremove with ⟨tags, stats, hremove, htags, hlinks⟩
  simp only [htake, hremove, Option.bind_eq_bind, Option.bind_some]
  rcases @linkNote_eq source path (index.notes.lookup path)
    (index.notes.lookup path).isSome (storeNote source path note total { index with
      waitingForLexical := index.waitingForLexical.erase path
      watchPaths := if index.tracks path then index.watchPaths
        else index.watchPaths.map (WatchPaths.insert source path)
      excludedNotePaths := index.excludedNotePaths.erase path
      attachments := index.attachments.erase path
      attachmentBytes := attachmentBytes
      notes := index.notes.erase path
      tags := tags
      stats := stats }) with ⟨backlinks, hlink⟩
  refine ⟨_, congrArg some hlink, ?_, ?_⟩
  · apply Consistent.withGraph
    have hrest : ∀ {p : OsString}, p ≠ path →
        ((index.notes.erase path).insert path note).lookup p = index.notes.lookup p := by
      intro p hp
      rw [AList.lookup_insert_ne hp, AList.lookup_erase_ne hp]
    have hkept : ∀ {p : OsString}, (index.notes.lookup p).isSome →
        (((index.notes.erase path).insert path note).lookup p).isSome := by
      intro p hp
      by_cases heq : p = path
      · exact lookup_insert_isSome (.inl heq)
      · rwa [hrest heq]
    exact {
      note_not_attachment := fun p hp => by
        by_cases heq : p = path
        · rw [heq]
          exact AList.lookup_erase _ _
        · rw [storeNote, hrest heq] at hp
          exact (AList.lookup_erase_ne heq).trans (h.note_not_attachment p hp)
      excluded_not_note := fun p hp => by
        have hmem := Finset.mem_erase.mp hp
        exact (hrest hmem.1).trans (h.excluded_not_note p hmem.2)
      excluded_not_attachment := fun p hp => by
        have hmem := Finset.mem_erase.mp hp
        exact (AList.lookup_erase_ne hmem.1).trans (h.excluded_not_attachment p hmem.2)
      tags := by
        have hadded := (addTags_exact htags path note.tags).congr (hasTag_insert note)
        rw [← insert_erase] at hadded
        exact hadded
      revisions := fun p hp => hkept (h.revisions p hp)
      waiting := fun p hp => hkept (h.waiting p (lookup_erase_isSome hp).2)
      attachmentBytes_eq := hbytes
      stats_eq := by
        rw [storeNote, recomputeStats, VaultStats.mk.injEq]
        refine ⟨rfl, rfl, rfl, ?_, ?_, rfl⟩
        · dsimp only
          rw [hlinks, insert_erase, Table.total_insert]
          exact Nat.add_comm _ _
        · dsimp only
          rw [insert_erase, Table.total_insert, hadmitted.2.1, sizeWithout]
          have hbytes' : attachmentBytes =
              Table.total (fun _ size => size) (index.attachments.erase path) := hbytes
          omega
      size_le := hadmitted.2.1.trans_le hadmitted.1
      watched := hwatched }
  · exact {
      notes := insert_erase index.notes path note
      attachments := rfl
      excludedNotePaths := rfl
      sourceRevisions := rfl
      waitingForLexical := rfl
      sourceBatch := rfl
      linkResolver := rfl
      watchPaths := rfl }

/-! ## One path -/

/-- What the index holds at a path. -/
inductive Entry where
  | note (metadata : NoteMetadata)
  | excluded
  | attachment (size : ℕ)

def Entry.isNote : Entry → Bool
  | note _ => true
  | _ => false

def entryAt (path : OsString) (index : VaultIndex) : Option Entry :=
  match index.notes.lookup path with
  | some note => some (.note note)
  | none =>
      if path ∈ index.excludedNotePaths then some .excluded
      else (index.attachments.lookup path).map .attachment

/-- The paths that operations are called with. -/
def Plain (path : OsString) : Prop :=
  isVisiblePath path = true ∧ ∀ text, path.toStr = some text → '\\' ∉ text

theorem Plain.logicalSeparators_eq (h : Plain path) : logicalSeparators path = path := by
  rw [logicalSeparators]
  cases htext : path.toStr with
  | none => rfl
  | some text => exact if_neg (h.2 text htext)

theorem entryAt_of_note {note : NoteMetadata} (h : index.notes.lookup path = some note) :
    index.entryAt path = some (.note note) := by
  rw [entryAt, h]

theorem entryAt_of_no_note (h : index.notes.lookup path = none) :
    index.entryAt path = if path ∈ index.excludedNotePaths then some .excluded
      else (index.attachments.lookup path).map .attachment := by
  rw [entryAt, h]

theorem entryAt_of_excluded (hnote : index.notes.lookup path = none)
    (hmem : path ∈ index.excludedNotePaths) : index.entryAt path = some .excluded :=
  (entryAt_of_no_note hnote).trans (if_pos hmem)

theorem entryAt_of_attachment {size : ℕ} (hnote : index.notes.lookup path = none)
    (hmem : path ∉ index.excludedNotePaths) (hsize : index.attachments.lookup path = some size) :
    index.entryAt path = some (.attachment size) := by
  rw [entryAt_of_no_note hnote, if_neg hmem, hsize]
  rfl

theorem isNote_entryAt (path : OsString) (index : VaultIndex) :
    (index.entryAt path).any Entry.isNote = (index.notes.lookup path).isSome := by
  cases h : index.notes.lookup path with
  | some note =>
      rw [entryAt_of_note h]
      rfl
  | none =>
      rw [entryAt_of_no_note h]
      by_cases hmem : path ∈ index.excludedNotePaths
      · rw [if_pos hmem]
        rfl
      · rw [if_neg hmem]
        cases index.attachments.lookup path <;> rfl

/-- The entry of a path depends on that path only. -/
theorem entryAt_congr {next : VaultIndex} {p : OsString}
    (hnotes : next.notes.lookup p = index.notes.lookup p)
    (hexcluded : p ∈ next.excludedNotePaths ↔ p ∈ index.excludedNotePaths)
    (hattachments : next.attachments.lookup p = index.attachments.lookup p) :
    next.entryAt p = index.entryAt p := by
  rw [entryAt, entryAt, hnotes]
  simp only [hexcluded, hattachments]

theorem tracks_eq_isSome (h : logicalSeparators path = path) :
    index.tracks path = (index.entryAt path).isSome := by
  rw [tracks, h]
  cases hnote : index.notes.lookup path with
  | some note =>
      rw [entryAt_of_note hnote]
      rfl
  | none =>
      rw [entryAt_of_no_note hnote]
      by_cases hmem : path ∈ index.excludedNotePaths
      · rw [if_pos hmem]
        simp [hmem]
      · rw [if_neg hmem]
        simp [hmem]

/-- The link resolver follows a path that becomes or ceases to be a note. -/
def relink (source : NoteSource) (path : OsString) (was now : Bool) (resolver : LinkResolver) :
    LinkResolver :=
  if was = now then resolver
  else if now then resolver.addPath source.text path
  else resolver.removePath source.text path

/-- The watched paths without one that was tracked. -/
def unwatch (source : NoteSource) (path : OsString) (tracked : Bool) :
    Option WatchPaths → Option (Option WatchPaths)
  | none => some none
  | some watch => if tracked then (watch.remove source path).map some else some (some watch)

/-- The watched paths follow a path that is or was tracked. -/
def Rewatched (source : NoteSource) (path : OsString) (was now : Bool)
    (before after : Option WatchPaths) : Prop :=
  was = now ∧ after = before ∨
    ∃ without, unwatch source path was before = some without ∧
      after = if now then without.map (WatchPaths.insert source path) else without

/-- One path has a new entry; everything else stays and the index is consistent again. -/
structure Stepped (source : NoteSource) (path : OsString) (entry : Option Entry)
    (revision : Option Text) (index next : VaultIndex) : Prop where
  consistent : Consistent source next
  entryAt : ∀ p, next.entryAt p = if p = path then entry else index.entryAt p
  revisions : ∀ p, next.sourceRevisions.lookup p =
    if p = path then revision else index.sourceRevisions.lookup p
  linkResolver : next.linkResolver =
    relink source path (index.notes.lookup path).isSome (entry.any Entry.isNote)
      index.linkResolver
  sourceBatch : next.sourceBatch = index.sourceBatch
  waiting : ∀ p, p ≠ path → next.waitingForLexical.lookup p = index.waitingForLexical.lookup p
  watchPaths : Rewatched source path (index.tracks path) entry.isSome index.watchPaths
    next.watchPaths

theorem unwatch_tracks (path : OsString) (index : VaultIndex) :
    unwatch source path (index.tracks path) index.watchPaths =
      (index.untrackWatchPath source path).map watchPaths := by
  rw [untrackWatchPath]
  cases hwatch : index.watchPaths with
  | none => simp only [unwatch, Option.map_some, hwatch]
  | some watch =>
      dsimp only [unwatch]
      by_cases ht : index.tracks path = true
      · rw [if_pos ht, if_pos ht, Option.map_map]
        rfl
      · rw [if_neg ht, if_neg ht, Option.map_some, hwatch]

/-- A removed path has no entry. -/
theorem Removed.stepped {removed : VaultIndex} (h : Removed source path index removed)
    (hconsistent : Consistent source removed) :
    Stepped source path none none index removed where
  consistent := hconsistent
  entryAt p := by
    by_cases hp : p = path
    · rw [if_pos hp, hp, VaultIndex.entryAt, h.notes, AList.lookup_erase, h.excludedNotePaths,
        h.attachments, AList.lookup_erase]
      simp
    · rw [if_neg hp]
      apply entryAt_congr
      · rw [h.notes, AList.lookup_erase_ne hp]
      · rw [h.excludedNotePaths, Finset.mem_erase]
        exact and_iff_right hp
      · rw [h.attachments, AList.lookup_erase_ne hp]
  revisions p := by
    rw [h.sourceRevisions]
    by_cases hp : p = path
    · rw [if_pos hp, hp, AList.lookup_erase]
    · rw [if_neg hp, AList.lookup_erase_ne hp]
  linkResolver := by
    rw [h.linkResolver, relink]
    cases (index.notes.lookup path).isSome <;> rfl
  sourceBatch := h.sourceBatch
  waiting := fun p hp => by rw [h.waitingForLexical, AList.lookup_erase_ne hp]
  watchPaths := .inr ⟨removed.watchPaths, (unwatch_tracks path index).trans h.watchPaths, rfl⟩

theorem removeFile_stepped (h : Consistent source index) (hpath : logicalSeparators path = path) :
    ∃ removed, index.removeFile source path = some removed ∧
      Removed source path index removed ∧ Stepped source path none none index removed := by
  rcases removeFile_spec h path with ⟨removed, heq, hconsistent, hremoved⟩
  rw [hpath] at hremoved
  exact ⟨removed, heq, hremoved, hremoved.stepped hconsistent⟩

/-! ## Excluded files and attachments -/

/-- Keeping a path that is excluded already. -/
theorem Consistent.stepped_excluded (h : Consistent source index)
    (hmem : path ∈ index.excludedNotePaths) (hpath : logicalSeparators path = path) :
    Stepped source path (some .excluded) none index index where
  consistent := h
  entryAt p := by
    by_cases hp : p = path
    · rw [if_pos hp, hp, entryAt_of_no_note (h.excluded_not_note path hmem), if_pos hmem]
    · rw [if_neg hp]
  revisions p := by
    by_cases hp : p = path
    · rw [if_pos hp, hp]
      cases hrevision : index.sourceRevisions.lookup path with
      | none => rfl
      | some revision =>
          have hnote := h.revisions path (by rw [hrevision]; rfl)
          rw [h.excluded_not_note path hmem] at hnote
          contradiction
    · rw [if_neg hp]
  linkResolver := by
    rw [h.excluded_not_note path hmem]
    rfl
  sourceBatch := rfl
  waiting := fun _ _ => rfl
  watchPaths := by
    apply Or.inl
    refine ⟨?_, rfl⟩
    rw [tracks_eq_isSome hpath, entryAt_of_no_note (h.excluded_not_note path hmem), if_pos hmem]

/-- Watching one path more keeps positive counts. -/
theorem watched_insert {watched : Option WatchPaths}
    (h : ∀ watch, watched = some watch → ∀ key count, watch.lookup key = some count → 0 < count)
    (path : OsString) (watch : WatchPaths)
    (hwatch : watched.map (WatchPaths.insert source path) = some watch)
    (key : Text × OsString) (count : ℕ) (hcount : watch.lookup key = some count) : 0 < count := by
  rw [Option.map_eq_some_iff] at hwatch
  rcases hwatch with ⟨old, hold, rfl⟩
  exact insertPrefixes_pos (h old hold) key count hcount

theorem addExcludedFile_stepped (h : Consistent source index) (hplain : Plain path) :
    ∃ added, index.addExcludedFile source path = some added ∧
      Stepped source path
        (if path ∈ index.excludedNotePaths ∨ isMarkdown path then some .excluded else none) none
        index added := by
  rw [addExcludedFile, hplain.logicalSeparators_eq]
  by_cases hmem : path ∈ index.excludedNotePaths
  · rw [if_pos hmem, if_pos (.inl hmem)]
    exact ⟨index, rfl, h.stepped_excluded hmem hplain.logicalSeparators_eq⟩
  · rcases removeFile_stepped h hplain.logicalSeparators_eq with ⟨removed, heq, hremoved, hstep⟩
    rw [if_neg hmem, heq, Option.map_some, hplain.1, Bool.true_and]
    by_cases hmarkdown : isMarkdown path = true
    · rw [if_pos hmarkdown, if_pos (.inr hmarkdown)]
      have hc := hstep.consistent
      have hnote : removed.notes.lookup path = none := by
        rw [hremoved.notes, AList.lookup_erase]
      have hattachment : removed.attachments.lookup path = none := by
        rw [hremoved.attachments, AList.lookup_erase]
      have hfresh : path ∉ removed.excludedNotePaths := by
        rw [hremoved.excludedNotePaths]
        exact Finset.notMem_erase path _
      refine ⟨_, rfl, ?_⟩
      exact {
        consistent := { hc with
          excluded_not_note := fun p hp => by
            rcases Finset.mem_insert.mp hp with rfl | hp
            · exact hnote
            · exact hc.excluded_not_note p hp
          excluded_not_attachment := fun p hp => by
            rcases Finset.mem_insert.mp hp with rfl | hp
            · exact hattachment
            · exact hc.excluded_not_attachment p hp
          stats_eq := by
            have hstats := hc.stats_eq
            rw [recomputeStats] at hstats
            dsimp only [trackWatchPath, recomputeStats]
            rw [Finset.card_insert_of_notMem hfresh, hstats]
          size_le := hc.size_le
          watched := watched_insert hc.watched path }
        entryAt := fun p => by
          by_cases hp : p = path
          · rw [if_pos hp, hp]
            exact entryAt_of_excluded hnote (Finset.mem_insert_self _ _)
          · have hrest := (hstep.entryAt p).trans (if_neg hp)
            rw [if_neg hp, ← hrest]
            refine entryAt_congr rfl ?_ rfl
            exact Finset.mem_insert.trans (or_iff_right hp)
        revisions := hstep.revisions
        linkResolver := hstep.linkResolver
        sourceBatch := hstep.sourceBatch
        waiting := hstep.waiting
        watchPaths := .inr ⟨removed.watchPaths,
          (unwatch_tracks path index).trans hremoved.watchPaths, rfl⟩ }
    · rw [if_neg hmarkdown, if_neg (not_or.mpr ⟨hmem, hmarkdown⟩)]
      exact ⟨removed, rfl, hstep⟩

/-- Keeping an attachment of the same size. -/
theorem Consistent.stepped_attachment (h : Consistent source index) {size : ℕ}
    (hsize : index.attachments.lookup path = some size) (hpath : logicalSeparators path = path) :
    Stepped source path (some (.attachment size)) none index index := by
  have hnote : index.notes.lookup path = none := by
    cases hnote : index.notes.lookup path with
    | none => rfl
    | some note =>
        have hnone := h.note_not_attachment path (by rw [hnote]; rfl)
        rw [hsize] at hnone
        contradiction
  have hexcluded : path ∉ index.excludedNotePaths := by
    intro hmem
    rw [h.excluded_not_attachment path hmem] at hsize
    contradiction
  have hentry : index.entryAt path = some (.attachment size) := by
    exact entryAt_of_attachment hnote hexcluded hsize
  constructor
  case consistent => exact h
  case entryAt =>
    intro p
    by_cases hp : p = path
    · rw [if_pos hp, hp, hentry]
    · rw [if_neg hp]
  case revisions =>
    intro p
    by_cases hp : p = path
    · rw [if_pos hp, hp]
      cases hrevision : index.sourceRevisions.lookup path with
      | none => rfl
      | some revision =>
          have hsome := h.revisions path (by rw [hrevision]; rfl)
          rw [hnote] at hsome
          contradiction
    · rw [if_neg hp]
  case linkResolver =>
    rw [hnote]
    rfl
  case sourceBatch => rfl
  case waiting => exact fun _ _ => rfl
  case watchPaths =>
    apply Or.inl
    exact ⟨by rw [tracks_eq_isSome hpath, hentry], rfl⟩

/-- An attachment takes its place, or the aggregate size refuses it. -/
theorem observeAttachment_stepped (h : Consistent source index) (hplain : Plain path)
    (stat : FileStat) :
    (u64Max < sizeWithout path index + stat.size ∧ index.observeAttachment source path stat =
        some (index, .error (inventorySizeError source path))) ∨
      sizeWithout path index + stat.size ≤ u64Max ∧
      ∃ next, index.observeAttachment source path stat = some (next, .ok none) ∧
        Stepped source path (some (.attachment stat.size)) none index next := by
  rw [observeAttachment]
  by_cases hsame : index.attachments.lookup path = some stat.size
  · rw [if_pos hsame]
    apply Or.inr
    refine ⟨?_, index, rfl, h.stepped_attachment hsame hplain.logicalSeparators_eq⟩
    have hnote : index.notes.lookup path = none := by
      cases hnote : index.notes.lookup path with
      | none => rfl
      | some note =>
          have hnone := h.note_not_attachment path (by rw [hnote]; rfl)
          rw [hsame] at hnone
          contradiction
    have hold : oldSize path index = stat.size := by
      rw [oldSize, hnote, hsame]
      rfl
    rw [← hold, ← vaultSize_eq_without h path]
    exact h.size_le
  · rw [if_neg hsame]
    cases htotal : index.observedByteTotals source path stat.size true with
    | error error =>
        apply Or.inl
        have hrefused := observedByteTotals_error h htotal
        exact ⟨hrefused.1, by rw [hrefused.2]⟩
    | ok totals =>
        rcases totals with ⟨total, bytes⟩
        rcases removeFile_stepped h hplain.logicalSeparators_eq with
          ⟨removed, heq, hremoved, hstep⟩
        dsimp only
        rw [heq, Option.map_some]
        have hadmitted := observedByteTotals_ok h htotal
        refine .inr ⟨hadmitted.1, _, rfl, ?_⟩
        have hc := hstep.consistent
        have hnote : removed.notes.lookup path = none := by
          rw [hremoved.notes, AList.lookup_erase]
        have hfresh : path ∉ removed.excludedNotePaths := by
          rw [hremoved.excludedNotePaths]
          exact Finset.notMem_erase path _
        have hnone : removed.attachments.lookup path = none := by
          rw [hremoved.attachments, AList.lookup_erase]
        have hbytes : bytes = stat.size + removed.attachments.total fun _ size => size := by
          rw [hadmitted.2.2, hremoved.attachments, if_pos rfl]
          exact Nat.add_comm _ _
        have hsum : total = Table.total (fun _ (note : NoteMetadata) => note.stat.size)
            removed.notes + bytes := by
          have htotal := hadmitted.2.1
          rw [sizeWithout] at htotal
          rw [hremoved.attachments] at hbytes
          rw [hremoved.notes]
          omega
        exact {
          consistent := { hc with
            note_not_attachment := fun p hp => by
              by_cases heq : p = path
              · rw [heq] at hp
                exact absurd hp (by rw [trackWatchPath, hnote]; decide)
              · exact (AList.lookup_insert_ne heq).trans (hc.note_not_attachment p hp)
            excluded_not_attachment := fun p hp => by
              have heq : p ≠ path := by
                intro heq
                rw [heq] at hp
                exact hfresh hp
              exact (AList.lookup_insert_ne heq).trans (hc.excluded_not_attachment p hp)
            attachmentBytes_eq := by
              dsimp only [trackWatchPath]
              rw [Table.total_insert, Table.erase_of_lookup_eq_none hnone, hbytes]
            stats_eq := by
              have hstats := hc.stats_eq
              rw [recomputeStats] at hstats
              dsimp only [trackWatchPath, recomputeStats]
              rw [VaultStats.mk.injEq, hstats]
              refine ⟨rfl, ?_, rfl, rfl, ?_, rfl⟩
              · dsimp only
                rw [Table.len_insert, Table.erase_of_lookup_eq_none hnone, Nat.add_assoc]
              · exact hsum
            size_le := hadmitted.2.1.trans_le hadmitted.1
            watched := watched_insert hc.watched path }
          entryAt := fun p => by
            by_cases hp : p = path
            · rw [if_pos hp, hp]
              exact entryAt_of_attachment hnote hfresh (AList.lookup_insert _)
            · have hrest := (hstep.entryAt p).trans (if_neg hp)
              rw [if_neg hp, ← hrest]
              exact entryAt_congr rfl Iff.rfl (AList.lookup_insert_ne hp)
          revisions := hstep.revisions
          linkResolver := hstep.linkResolver
          sourceBatch := hstep.sourceBatch
          waiting := hstep.waiting
          watchPaths := .inr ⟨removed.watchPaths,
            (unwatch_tracks path index).trans hremoved.watchPaths, rfl⟩ }

/-! ## Notes -/

theorem Replaced.stepped {note : NoteMetadata} {replaced : VaultIndex}
    (h : Replaced source path note index replaced) (hconsistent : Consistent source replaced)
    (revision : Text) :
    Stepped source path (some (.note note)) (some revision) index { replaced with
      sourceRevisions := replaced.sourceRevisions.insert path revision } where
  consistent := { hconsistent with
    revisions := fun p hp => by
      by_cases heq : p = path
      · rw [heq, h.notes, AList.lookup_insert]
        rfl
      · rw [AList.lookup_insert_ne heq] at hp
        exact hconsistent.revisions p hp }
  entryAt p := by
    by_cases hp : p = path
    · rw [if_pos hp, hp]
      apply entryAt_of_note
      rw [h.notes, AList.lookup_insert]
    · rw [if_neg hp]
      apply entryAt_congr
      · rw [h.notes, AList.lookup_insert_ne hp]
      · rw [h.excludedNotePaths, Finset.mem_erase]
        exact and_iff_right hp
      · rw [h.attachments, AList.lookup_erase_ne hp]
  revisions p := by
    by_cases hp : p = path
    · rw [if_pos hp, hp]
      exact AList.lookup_insert _
    · rw [if_neg hp, ← h.sourceRevisions]
      exact AList.lookup_insert_ne hp
  linkResolver := by
    rw [h.linkResolver, relink]
    cases (index.notes.lookup path).isSome <;> rfl
  sourceBatch := h.sourceBatch
  waiting := fun p hp => by rw [h.waitingForLexical, AList.lookup_erase_ne hp]
  watchPaths := by
    rw [h.watchPaths]
    by_cases ht : index.tracks path = true
    · rw [if_pos ht]
      exact .inl ⟨ht, rfl⟩
    · rw [if_neg ht, Bool.eq_false_iff.mpr ht]
      refine .inr ⟨index.watchPaths, ?_, rfl⟩
      cases index.watchPaths <;> rfl

/-- What an observation finds at a path, with the revision of its source. -/
def observedEntry (source : NoteSource) (exclude : ExcludeSet) (path : OsString)
    (content : Option Text) (stat : FileStat) : Except VaultError (Entry × Option Text) :=
  match classify path exclude with
  | .attachment => .ok (.attachment stat.size, none)
  | .excluded => .ok (.excluded, none)
  | .note =>
      match content with
      | none => .error (.other ("missing content for observed note: ".toList ++
          source.text.toStringLossy path))
      | some content =>
          if !exclude.allowsSource path content then .ok (.excluded, none)
          else (parseNoteMetadata source path content stat).map fun note =>
            (.note note, some (source.sourceRevision content))

/-- The bytes that an entry adds to the vault. -/
def Entry.size : Entry → ℕ
  | note metadata => metadata.stat.size
  | excluded => 0
  | attachment size => size

/-- The content that an observation hands on to lexical search. -/
def observedContent (entry : Entry) (content : Option Text) : Option Text :=
  if entry.isNote then content else none

theorem isMarkdown_of_classify {exclude : ExcludeSet} (h : classify path exclude ≠ .attachment) :
    isMarkdown path = true := by
  rw [classify] at h
  by_cases hmarkdown : isMarkdown path = true
  · exact hmarkdown
  · rw [Bool.not_eq_true] at hmarkdown
    rw [hmarkdown] at h
    contradiction

theorem sizeWithout_le (h : Consistent source index) (path : OsString) :
    sizeWithout path index ≤ u64Max := by
  have hvault := vaultSize_eq_without h path
  have hle := h.size_le
  omega

theorem observeNote_stepped (h : Consistent source index)
    {content : Text} {stat : FileStat} {note : NoteMetadata}
    (hnote : parseNoteMetadata source path content stat = .ok note) :
    (u64Max < sizeWithout path index + note.stat.size ∧
        index.observeNote source path content stat =
          some (index, .error (inventorySizeError source path))) ∨
      sizeWithout path index + note.stat.size ≤ u64Max ∧
      ∃ next, index.observeNote source path content stat = some (next, .ok (some content)) ∧
        Stepped source path (some (.note note)) (some (source.sourceRevision content))
          index next := by
  rw [observeNote, hnote]
  dsimp only
  cases htotal : index.observedByteTotals source path note.stat.size false with
  | error error =>
      have hrefused := observedByteTotals_error h htotal
      exact .inl ⟨hrefused.1, by rw [hrefused.2]⟩
  | ok totals =>
      rcases totals with ⟨total, bytes⟩
      rcases replaceNote_spec h htotal with ⟨replaced, heq, hconsistent, hreplaced⟩
      dsimp only
      rw [heq, Option.map_some]
      exact .inr ⟨(observedByteTotals_ok h htotal).1, _, rfl,
        hreplaced.stepped hconsistent _⟩

theorem addExcludedFile_of_classify {exclude : ExcludeSet} (h : Consistent source index)
    (hplain : Plain path) (hclass : classify path exclude ≠ .attachment) :
    ∃ next, (index.addExcludedFile source path).map
        (·, Except.ok (ε := VaultError) (none : Option Text)) = some (next, .ok none) ∧
      Stepped source path (some .excluded) none index next := by
  rcases addExcludedFile_stepped h hplain with ⟨added, hadded, hstep⟩
  rw [if_pos (.inr (isMarkdown_of_classify hclass))] at hstep
  exact ⟨added, by rw [hadded, Option.map_some], hstep⟩

/-- A source that does not parse is reported before anything changes. -/
theorem updateObservation_error {exclude : ExcludeSet} {content : Option Text} {stat : FileStat}
    {error : VaultError} (hplain : Plain path)
    (herror : observedEntry source exclude path content stat = .error error) :
    index.updateObservation source exclude path content stat = some (index, .error error) := by
  unfold observedEntry at herror
  unfold updateObservation
  rw [hplain.1]
  simp only [Bool.not_true, Bool.false_eq_true, if_false]
  cases hclass : classify path exclude with
  | attachment =>
      rw [hclass] at herror
      contradiction
  | excluded =>
      rw [hclass] at herror
      contradiction
  | note =>
      rw [hclass] at herror
      cases content with
      | none =>
          have hsame := Except.error.inj herror
          rw [← hsame]
      | some content =>
          dsimp only at herror ⊢
          by_cases hallowed : exclude.allowsSource path content = true
          · rw [hallowed] at herror ⊢
            cases hnote : parseNoteMetadata source path content stat with
            | error parse =>
                rw [hnote] at herror
                rw [observeNote, hnote]
                exact congrArg some (congrArg (Prod.mk index)
                  (congrArg Except.error (Except.error.inj herror)))
            | ok note =>
                rw [hnote] at herror
                contradiction
          · rw [Bool.not_eq_true] at hallowed
            rw [hallowed] at herror
            contradiction

/-- An observation is refused for its size or gives the path its entry. -/
theorem updateObservation_ok {exclude : ExcludeSet} {content : Option Text} {stat : FileStat}
    {entry : Entry} {revision : Option Text} (h : Consistent source index) (hplain : Plain path)
    (hentry : observedEntry source exclude path content stat = .ok (entry, revision)) :
    (u64Max < sizeWithout path index + entry.size ∧
        index.updateObservation source exclude path content stat =
          some (index, .error (inventorySizeError source path))) ∨
      sizeWithout path index + entry.size ≤ u64Max ∧
      ∃ next, index.updateObservation source exclude path content stat =
          some (next, .ok (observedContent entry content)) ∧
        Stepped source path (some entry) revision index next := by
  unfold observedEntry at hentry
  unfold updateObservation
  rw [hplain.1]
  simp only [Bool.not_true, Bool.false_eq_true, if_false]
  cases hclass : classify path exclude with
  | attachment =>
      rw [hclass, Except.ok.injEq, Prod.mk.injEq] at hentry
      rw [← hentry.1, ← hentry.2]
      exact observeAttachment_stepped h hplain stat
  | excluded =>
      rw [hclass, Except.ok.injEq, Prod.mk.injEq] at hentry
      rw [← hentry.1, ← hentry.2]
      exact .inr ⟨sizeWithout_le h path,
        addExcludedFile_of_classify h hplain (by rw [hclass]; decide)⟩
  | note =>
      rw [hclass] at hentry
      cases content with
      | none => contradiction
      | some content =>
          dsimp only at hentry ⊢
          by_cases hallowed : exclude.allowsSource path content = true
          · rw [hallowed] at hentry ⊢
            cases hnote : parseNoteMetadata source path content stat with
            | error parse =>
                rw [hnote] at hentry
                contradiction
            | ok note =>
                rw [hnote] at hentry
                have hpair := Prod.mk.inj (Except.ok.inj hentry)
                rw [← hpair.1, ← hpair.2]
                exact observeNote_stepped h hnote
          · rw [Bool.not_eq_true] at hallowed
            rw [hallowed] at hentry ⊢
            have hpair := Prod.mk.inj (Except.ok.inj hentry)
            rw [← hpair.1, ← hpair.2]
            exact .inr ⟨sizeWithout_le h path,
              addExcludedFile_of_classify h hplain (by rw [hclass]; decide)⟩

end ObsidianMcp.VaultIndex
