import ObsidianMcp.Verification.Index.Inventory

/-! # Runs of index operations -/

namespace ObsidianMcp.VaultIndex

open Text

/-! ## Operations -/

/-- The calls that change an index. -/
inductive Operation where
  | observe (path : OsString) (content : Option Text) (stat : FileStat)
      (lexical : Option Lexical) (embeddingsEnabled : Bool)
  | refresh (path : OsString) (revision : Text) (stat : FileStat)
  | remove (path : OsString) (lexical : Option Lexical)
  | exclude (path : OsString)
  | beginBatch
  | finishBatch

/-- The path that a call is about. -/
def Operation.path : Operation → Option OsString
  | observe path _ _ _ _ => some path
  | refresh path _ _ => some path
  | .remove path _ => some path
  | .exclude path => some path
  | beginBatch => none
  | finishBatch => none

variable (source : NoteSource) (exclude : ExcludeSet)

def Operation.apply : Operation → VaultIndex → Option VaultIndex
  | observe path content stat lexical embeddingsEnabled, index =>
      (index.applyObservation source exclude path content stat lexical embeddingsEnabled).map Prod.fst
  | refresh path revision stat, index =>
      some (index.refreshUnchangedNote source path revision stat).1
  | .remove path lexical, index => (index.removeProjection source path lexical).map Prod.fst
  | .exclude path, index => index.addExcludedFile source path
  | beginBatch, index => some index.beginSourceBatch
  | finishBatch, index => some (index.finishSourceBatch source)

def run (operations : List Operation) (index : VaultIndex) : Option VaultIndex :=
  operations.foldlM (fun index operation => operation.apply source exclude index) index

/-- Every path that a call is about is visible and without backslash. -/
def Operation.Plain (operation : Operation) : Prop :=
  ∀ path, operation.path = some path → VaultIndex.Plain path

/-! ## Their placements -/

def Entry.isExcluded : Entry → Bool
  | excluded => true
  | _ => false


/-- Lexical search takes the new state of a path. -/
def lexicalAccepts (path : OsString) (wasNote : Bool) (content : Option Text)
    (lexical : Option Lexical) (inv : Inventory) : Bool :=
  match lexical with
  | none => true
  | some lexical =>
      match content, (inv.lookup path).bind fun held => held.entry.metadata with
      | some content, some metadata => (lexical.replaceDocument path metadata content).isOk
      | _, _ => !wasNote || (lexical.removeFileBatch path).isOk

/-- A path that lexical search does not take is given up. -/
def lexicalPlacements (path : OsString) (wasNote : Bool) (content : Option Text)
    (lexical : Option Lexical) (inv : Inventory) : List Placement :=
  if lexicalAccepts path wasNote content lexical inv then [] else [⟨path, none⟩]

/-- A path keeps its entry without its revision. -/
def forgetRevision (path : OsString) (inv : Inventory) : List Placement :=
  match inv.lookup path with
  | none => []
  | some held => [⟨path, some { held with revision := none }⟩]

/-- One placement, and what lexical search makes of it. -/
def observed (placement : Placement) (content : Option Text) (lexical : Option Lexical)
    (inv : Inventory) : List Placement :=
  placement :: lexicalPlacements placement.path (inv.isNote placement.path) content lexical
    (inv.place placement)

def Operation.placements (inv : Inventory) : Operation → List Placement
  | observe path content stat lexical _ =>
      match observedEntry source exclude path content stat with
      | .error _ => observed ⟨path, none⟩ none lexical inv
      | .ok (entry, revision) =>
          if Inventory.size (inv.erase path) + entry.size ≤ u64Max then
            observed ⟨path, some ⟨entry, revision⟩⟩ (observedContent entry content) lexical inv
          else forgetRevision path inv
  | refresh path revision stat =>
      match inv.lookup path with
      | some ⟨.note note, some known⟩ =>
          if known ≠ revision then []
          else if Inventory.size (inv.erase path) + stat.size ≤ u64Max then
            [⟨path, some ⟨.note { note with stat := stat }, some known⟩⟩]
          else forgetRevision path inv
      | _ => []
  | .remove path _ => [⟨path, none⟩]
  | .exclude path =>
      if (inv.lookup path).any (fun held => held.entry.isExcluded) || isMarkdown path then
        [⟨path, some ⟨.excluded, none⟩⟩]
      else [⟨path, none⟩]
  | beginBatch => []
  | finishBatch => []

/-- The placements of a sequence of calls. -/
def placements (operations : List Operation) : List Placement :=
  operations.foldl (fun placed operation =>
    placed ++ operation.placements source exclude (inventory placed)) []

variable {source exclude} {index : VaultIndex} {path : OsString} {origin : Origin}
  {placed : List Placement}

/-! ## Sizes -/

def Entry.attachmentSize : Entry → Option ℕ
  | attachment size => some size
  | _ => none

theorem lookup_attachments_eq (h : Consistent source index) (p : OsString) :
    index.attachments.lookup p = (index.entryAt p).bind Entry.attachmentSize := by
  cases hnote : index.notes.lookup p with
  | some note =>
      rw [entryAt_of_note hnote, h.note_not_attachment p (by rw [hnote]; rfl)]
      rfl
  | none =>
      by_cases hmem : p ∈ index.excludedNotePaths
      · rw [entryAt_of_excluded hnote hmem, h.excluded_not_attachment p hmem]
        rfl
      · rw [entryAt_of_no_note hnote, if_neg hmem]
        cases index.attachments.lookup p <;> rfl

/-- What an observation of a path is added to. -/
theorem Holds.sizeWithout_eq (h : Holds source origin placed index) (path : OsString) :
    sizeWithout path index = Inventory.size ((origin.after placed).erase path) := by
  rw [sizeWithout, Inventory.size]
  apply Table.total_add_total
  intro p
  rw [Table.share, Table.share, Table.share]
  by_cases hp : p = path
  · rw [hp, AList.lookup_erase, AList.lookup_erase, AList.lookup_erase]
    rfl
  · rw [AList.lookup_erase_ne hp, AList.lookup_erase_ne hp, AList.lookup_erase_ne hp,
      lookup_notes_eq, lookup_attachments_eq h.consistent, h.entryAt]
    cases hheld : (origin.after placed).lookup p with
    | none => rfl
    | some held =>
        rcases held with ⟨entry, revision⟩
        cases entry with
        | note note => rfl
        | excluded => rfl
        | attachment size => exact Nat.zero_add size

/-! ## Changes that place nothing -/

theorem Holds.congr (h : Holds source origin placed index) {next : VaultIndex}
    (hconsistent : Consistent source next) (hheld : ∀ p, next.held p = index.held p)
    (hresolver : next.linkResolver = index.linkResolver)
    (hwatch : next.watchPaths = index.watchPaths) : Holds source origin placed next where
  consistent := hconsistent
  held p := by rw [hheld, h.held]
  linkResolver := by rw [hresolver, h.linkResolver]
  watched := by
    rw [hwatch]
    exact h.watched

theorem Holds.forget (h : Holds source origin placed index) (hpath : logicalSeparators path = path) :
    Holds source origin (placed ++ forgetRevision path (origin.after placed))
      { index with sourceRevisions := index.sourceRevisions.erase path } := by
  rw [forgetRevision]
  cases hheld : (origin.after placed).lookup path with
  | none =>
      have hnone : index.sourceRevisions.lookup path = none := by
        cases hrevision : index.sourceRevisions.lookup path with
        | none => rfl
        | some revision =>
            have hnote := h.consistent.revisions path (by rw [hrevision]; rfl)
            rw [h.lookup_notes, hheld] at hnote
            contradiction
      rw [Table.erase_of_lookup_eq_none hnone]
      dsimp only
      rw [List.append_nil]
      exact h
  | some held =>
      dsimp only
      apply h.place hpath
      exact {
        consistent := h.consistent.eraseRevision path
        entryAt := fun p => by
          by_cases hp : p = path
          · rw [if_pos hp, hp]
            exact (h.entryAt path).trans (by rw [hheld]; rfl)
          · rw [if_neg hp]
            rfl
        revisions := fun p => by
          by_cases hp : p = path
          · rw [if_pos hp, hp]
            exact AList.lookup_erase _ _
          · rw [if_neg hp]
            exact AList.lookup_erase_ne hp
        linkResolver := by
          rw [h.isNote, Inventory.isNote, hheld, relink]
          exact (if_pos rfl).symm
        sourceBatch := rfl
        waiting := fun _ _ => rfl
        watchPaths := .inl ⟨by rw [tracks_eq_isSome hpath, h.entryAt, hheld]; rfl, rfl⟩ }

theorem Holds.removeFile (h : Holds source origin placed index) (hpath : logicalSeparators path = path) :
    ∃ removed, index.removeFile source path = some removed ∧
      Holds source origin (placed ++ [⟨path, none⟩]) removed := by
  rcases removeFile_stepped h.consistent hpath with ⟨removed, heq, -, hstep⟩
  exact ⟨removed, heq, h.place hpath hstep⟩

/-! ## Lexical search -/

def LexicalStep.succeeds : LexicalStep → Bool
  | unchanged => true
  | replaced _ => true
  | removed => true
  | failed _ => false

theorem lexicalRemoval_succeeds (path : OsString) (wasNote : Bool) (lexical : Lexical) :
    (lexicalRemoval path wasNote lexical).succeeds =
      (!wasNote || (lexical.removeFileBatch path).isOk) := by
  rw [lexicalRemoval]
  cases wasNote with
  | false => rfl
  | true => cases lexical.removeFileBatch path <;> rfl

theorem lexicalRemoval_ne_replaced (path : OsString) (wasNote : Bool) (lexical : Lexical)
    (stamp : ℕ) : lexicalRemoval path wasNote lexical ≠ .replaced stamp := by
  rw [lexicalRemoval]
  cases wasNote with
  | false => nofun
  | true => cases lexical.removeFileBatch path <;> nofun

theorem Holds.lexicalAccepts_eq (h : Holds source origin placed index) (path : OsString)
    (wasNote : Bool) (content : Option Text) (lexical : Option Lexical) :
    lexicalAccepts path wasNote content lexical (origin.after placed) =
      (index.lexicalStep path wasNote content lexical).succeeds := by
  unfold lexicalAccepts lexicalStep
  rw [← h.lookup_notes]
  cases lexical with
  | none => rfl
  | some lexical =>
      cases content with
      | none => exact (lexicalRemoval_succeeds path wasNote lexical).symm
      | some content =>
          cases index.notes.lookup path with
          | none => exact (lexicalRemoval_succeeds path wasNote lexical).symm
          | some note =>
              dsimp only
              cases lexical.replaceDocument path note content <;> rfl

theorem lexicalStep_replaced {wasNote : Bool} {content : Option Text} {lexical : Option Lexical}
    {stamp : ℕ} (h : index.lexicalStep path wasNote content lexical = .replaced stamp) :
    (index.notes.lookup path).isSome := by
  cases hnote : index.notes.lookup path with
  | some note => rfl
  | none =>
      unfold lexicalStep at h
      rw [hnote] at h
      cases lexical with
      | none => contradiction
      | some lexical =>
          cases content with
          | none => exact absurd h (lexicalRemoval_ne_replaced path wasNote lexical stamp)
          | some content => exact absurd h (lexicalRemoval_ne_replaced path wasNote lexical stamp)

theorem Holds.insertWaiting (h : Holds source origin placed index)
    (hnote : (index.notes.lookup path).isSome) (stamp : ℕ) :
    Holds source origin placed { index with
      waitingForLexical := index.waitingForLexical.insert path stamp } := by
  refine h.congr ?_ (fun p => rfl) rfl rfl
  exact { h.consistent with
    waiting := fun p hp => by
      by_cases heq : p = path
      · rw [heq]
        exact hnote
      · rw [AList.lookup_insert_ne heq] at hp
        exact h.consistent.waiting p hp }

theorem Holds.finishLexical (h : Holds source origin placed index)
    (hpath : logicalSeparators path = path) (wasNote : Bool)
    (update : Except VaultError (Option Text)) (lexical : Option Lexical)
    (embeddingsEnabled : Bool) :
    ∃ next result, index.finishLexical source path wasNote update lexical embeddingsEnabled =
        some (next, result) ∧
      Holds source origin (placed ++ lexicalPlacements path wasNote update.toOption.join lexical
        (origin.after placed)) next := by
  rw [VaultIndex.finishLexical, lexicalPlacements, h.lexicalAccepts_eq]
  cases hstep : index.lexicalStep path wasNote update.toOption.join lexical with
  | unchanged => exact ⟨_, _, rfl, by rwa [LexicalStep.succeeds, if_pos rfl, List.append_nil]⟩
  | removed => exact ⟨_, _, rfl, by rwa [LexicalStep.succeeds, if_pos rfl, List.append_nil]⟩
  | replaced stamp =>
      refine ⟨_, _, rfl, ?_⟩
      rw [LexicalStep.succeeds, if_pos rfl, List.append_nil]
      cases embeddingsEnabled with
      | false => exact h
      | true => exact h.insertWaiting (lexicalStep_replaced hstep) stamp
  | failed error =>
      rcases h.removeFile hpath with ⟨removed, heq, hholds⟩
      dsimp only
      rw [heq, Option.map_some]
      exact ⟨_, _, rfl, hholds⟩

/-! ## Each call -/

theorem not_resourceLimit_of_observedEntry {content : Option Text} {stat : FileStat}
    {error : VaultError} (h : observedEntry source exclude path content stat = .error error) :
    isResourceLimit error = false := by
  unfold observedEntry at h
  cases hclass : classify path exclude with
  | attachment =>
      rw [hclass] at h
      contradiction
  | excluded =>
      rw [hclass] at h
      contradiction
  | note =>
      rw [hclass] at h
      cases content with
      | none =>
          rw [← Except.error.inj h]
          rfl
      | some content =>
          dsimp only at h
          by_cases hallowed : exclude.allowsSource path content = true
          · rw [hallowed, parseNoteMetadata] at h
            cases hparse : parseFrontmatter source.yaml content with
            | error parse =>
                rw [hparse] at h
                rw [← Except.error.inj h]
                rfl
            | ok frontmatter =>
                rw [hparse] at h
                contradiction
          · rw [Bool.not_eq_true] at hallowed
            rw [hallowed] at h
            contradiction

theorem Holds.observe (exclude : ExcludeSet) (h : Holds source origin placed index) (hplain : Plain path)
    (content : Option Text) (stat : FileStat) (lexical : Option Lexical)
    (embeddingsEnabled : Bool) :
    ∃ next result,
      index.applyObservation source exclude path content stat lexical embeddingsEnabled =
        some (next, result) ∧
      Holds source origin (placed ++ (Operation.observe path content stat lexical embeddingsEnabled).placements
        source exclude (origin.after placed)) next := by
  have hpath := hplain.logicalSeparators_eq
  rw [applyObservation, Operation.placements, h.isNote]
  cases hobserved : observedEntry source exclude path content stat with
  | error error =>
      rcases h.removeFile hpath with ⟨removed, hremoved, hholds⟩
      rcases hholds.finishLexical hpath ((origin.after placed).isNote path) (.error error) lexical
        embeddingsEnabled with ⟨next, result, hnext, hfinal⟩
      refine ⟨next, result, ?_, ?_⟩
      · rw [updateObservation_error hplain hobserved, Option.bind_some, finishRefresh,
          not_resourceLimit_of_observedEntry hobserved, if_neg Bool.false_ne_true, hremoved,
          Option.bind_some, hnext]
      · rw [origin.after_concat, List.append_assoc] at hfinal
        exact hfinal
  | ok observed =>
      rcases observed with ⟨entry, revision⟩
      dsimp only
      rw [← h.sizeWithout_eq]
      rcases updateObservation_ok h.consistent hplain hobserved with hrefused | hadmitted
      · rw [if_neg (Nat.not_le.mpr hrefused.1), hrefused.2, Option.bind_some, finishRefresh]
        exact ⟨_, _, rfl, h.forget hpath⟩
      · rcases hadmitted with ⟨hfits, updated, hupdated, hstep⟩
        rw [if_pos hfits, hupdated, Option.bind_some, finishRefresh]
        have hholds : Holds source origin (placed ++ [⟨path, some ⟨entry, revision⟩⟩]) updated :=
          h.place hpath hstep
        rcases hholds.finishLexical hpath ((origin.after placed).isNote path)
          (.ok (observedContent entry content)) lexical embeddingsEnabled with
          ⟨next, result, hnext, hfinal⟩
        refine ⟨next, result, hnext, ?_⟩
        rw [origin.after_concat, List.append_assoc] at hfinal
        exact hfinal

theorem isExcluded_entryAt (h : Consistent source index) :
    (index.entryAt path).any Entry.isExcluded = true ↔ path ∈ index.excludedNotePaths := by
  by_cases hmem : path ∈ index.excludedNotePaths
  · rw [entryAt_of_excluded (h.excluded_not_note path hmem) hmem]
    exact iff_of_true rfl hmem
  · refine iff_of_false ?_ hmem
    cases hnote : index.notes.lookup path with
    | some note =>
        rw [entryAt_of_note hnote]
        exact Bool.false_ne_true
    | none =>
        rw [entryAt_of_no_note hnote, if_neg hmem]
        cases index.attachments.lookup path <;> exact Bool.false_ne_true

/-- Only the stat of the note changes. -/
theorem Consistent.restat (h : Consistent source index) {note : NoteMetadata}
    (hnote : index.notes.lookup path = some note) (stat : FileStat)
    (hfits : sizeWithout path index + stat.size ≤ u64Max) :
    Consistent source { index with
      notes := index.notes.insert path { note with stat := stat }
      stats := { index.stats with vaultSizeBytes := sizeWithout path index + stat.size } } := by
  have hsome : ∀ {p : OsString},
      ((index.notes.insert path { note with stat := stat }).lookup p).isSome ↔
        (index.notes.lookup p).isSome := by
    intro p
    by_cases hp : p = path
    · rw [hp, AList.lookup_insert, hnote]
      rfl
    · rw [AList.lookup_insert_ne hp]
  have hstats := h.stats_eq
  rw [recomputeStats] at hstats
  exact { h with
    note_not_attachment := fun p hp => h.note_not_attachment p (hsome.mp hp)
    excluded_not_note := fun p hp => by
      have hnone := h.excluded_not_note p hp
      rw [← Option.not_isSome_iff_eq_none] at hnone ⊢
      exact fun hp => hnone (hsome.mp hp)
    tags := h.tags.congr fun p tag => by
      by_cases hp : p = path
      · rw [hp, HasTag, HasTag, AList.lookup_insert, hnote]
        simp
      · rw [HasTag, HasTag, AList.lookup_insert_ne hp]
    revisions := fun p hp => hsome.mpr (h.revisions p hp)
    waiting := fun p hp => hsome.mpr (h.waiting p hp)
    stats_eq := by
      have hlen := Table.len_erase_add hnote
      have hlinks := Table.total_erase_add (fun _ (note : NoteMetadata) => note.links.length) hnote
      have hattachments : Table.total (fun _ (size : ℕ) => size) (index.attachments.erase path) =
          index.attachmentBytes := by
        rw [h.attachmentBytes_eq, Table.erase_of_lookup_eq_none
          (h.note_not_attachment path (by rw [hnote]; rfl))]
      dsimp only [recomputeStats]
      rw [VaultStats.mk.injEq, hstats]
      refine ⟨?_, ?_, rfl, ?_, ?_, rfl⟩
      · rw [Table.len_insert, hlen]
      · rw [Table.len_insert, hlen]
      · rw [Table.total_insert]
        dsimp only
        omega
      · rw [Table.total_insert, sizeWithout]
        dsimp only
        omega
    size_le := hfits }

theorem Holds.refresh (h : Holds source origin placed index)
    (hpath : logicalSeparators path = path) (revision : Text) (stat : FileStat) :
    Holds source origin (placed ++ (Operation.refresh path revision stat).placements source exclude
      (origin.after placed)) (index.refreshUnchangedNote source path revision stat).1 := by
  have hsize := h.sizeWithout_eq path
  have hnotes := h.lookup_notes path
  have hheld := h.held path
  rw [refreshUnchangedNote, Operation.placements]
  cases hlookup : (origin.after placed).lookup path with
  | none =>
      rw [hlookup] at hnotes
      rw [hnotes]
      dsimp only [Option.bind_none]
      rw [List.append_nil]
      exact h
  | some held =>
      rw [hlookup] at hnotes hheld
      rcases held with ⟨entry, known⟩
      cases entry with
      | excluded =>
          rw [hnotes]
          dsimp only [Option.bind_some, Entry.metadata]
          rw [List.append_nil]
          exact h
      | attachment size =>
          rw [hnotes]
          dsimp only [Option.bind_some, Entry.metadata]
          rw [List.append_nil]
          exact h
      | note note =>
          have hknown : index.sourceRevisions.lookup path = known := by
            rw [VaultIndex.held, entryAt_of_note hnotes] at hheld
            exact congrArg Held.revision (Option.some.inj hheld)
          rw [hnotes]
          dsimp only [Option.bind_some, Entry.metadata]
          rw [hknown]
          cases known with
          | none =>
              rw [if_pos (Option.some_ne_none _).symm, List.append_nil]
              exact h
          | some known =>
              dsimp only
              by_cases hrevision : known = revision
              · have hsame : ¬some known ≠ some revision := not_not.mpr (congrArg some hrevision)
                rw [if_neg (not_not.mpr hrevision), if_neg hsame,
                  observedByteTotals_eq h.consistent, ← hsize]
                by_cases hfits : sizeWithout path index + stat.size ≤ u64Max
                · rw [if_pos hfits, if_pos hfits]
                  apply h.place hpath
                  exact {
                    consistent := h.consistent.restat hnotes stat hfits
                    entryAt := fun p => by
                      by_cases hp : p = path
                      · rw [if_pos hp, hp]
                        exact entryAt_of_note (AList.lookup_insert _)
                      · rw [if_neg hp]
                        exact entryAt_congr (AList.lookup_insert_ne hp) Iff.rfl rfl
                    revisions := fun p => by
                      by_cases hp : p = path
                      · rw [if_pos hp, hp]
                        exact hknown
                      · rw [if_neg hp]
                    linkResolver := by
                      rw [hnotes]
                      rfl
                    sourceBatch := rfl
                    waiting := fun _ _ => rfl
                    watchPaths := .inl ⟨by
                      rw [tracks_eq_isSome hpath, entryAt_of_note hnotes]
                      rfl, rfl⟩ }
                · rw [if_neg hfits, if_neg hfits]
                  exact h.forget hpath
              · have hother : some known ≠ some revision := fun h => hrevision (Option.some.inj h)
                rw [if_pos hrevision, if_pos hother, List.append_nil]
                exact h

theorem Holds.excludeFile (h : Holds source origin placed index) (hplain : Plain path) :
    ∃ next, index.addExcludedFile source path = some next ∧
      Holds source origin (placed ++ (Operation.exclude path).placements source exclude
        (origin.after placed)) next := by
  have hpath := hplain.logicalSeparators_eq
  rcases addExcludedFile_stepped h.consistent hplain with ⟨next, hnext, hstep⟩
  refine ⟨next, hnext, ?_⟩
  have hexcluded : path ∈ index.excludedNotePaths ↔
      ((origin.after placed).lookup path).any (fun held => held.entry.isExcluded) = true := by
    rw [← isExcluded_entryAt h.consistent, h.entryAt, Option.any_map]
  rw [Operation.placements]
  by_cases hkept : path ∈ index.excludedNotePaths ∨ isMarkdown path = true
  · rw [if_pos hkept] at hstep
    rw [hexcluded] at hkept
    rw [if_pos (Bool.or_eq_true _ _ ▸ hkept)]
    exact h.place hpath hstep
  · rw [if_neg hkept] at hstep
    rw [hexcluded] at hkept
    rw [if_neg (Bool.or_eq_true _ _ ▸ hkept)]
    exact h.place hpath hstep

theorem Holds.withGraph (h : Holds source origin placed index) (backlinks : Inverse OsString OsString)
    (sourceBatch : Bool) : Holds source origin placed { index with backlinks, sourceBatch } :=
  h.congr (h.consistent.withGraph _ _ _) (fun _ => rfl) rfl rfl

/-- Every call on a plain path succeeds and makes its placements. -/
theorem Holds.apply (exclude : ExcludeSet) (h : Holds source origin placed index) {operation : Operation}
    (hplain : operation.Plain) :
    ∃ next, operation.apply source exclude index = some next ∧
      Holds source origin (placed ++ operation.placements source exclude (origin.after placed)) next := by
  cases operation with
  | observe path content stat lexical embeddingsEnabled =>
      rcases h.observe exclude (hplain path rfl) content stat lexical
        embeddingsEnabled with ⟨next, result, hnext, hholds⟩
      exact ⟨next, by rw [Operation.apply, hnext, Option.map_some], hholds⟩
  | refresh path revision stat =>
      exact ⟨_, rfl, h.refresh (hplain path rfl).logicalSeparators_eq revision stat⟩
  | remove path lexical =>
      rcases h.removeFile (hplain path rfl).logicalSeparators_eq with ⟨removed, heq, hholds⟩
      refine ⟨removed, ?_, hholds⟩
      rw [Operation.apply]
      unfold removeProjection
      rw [heq]
      rfl
  | exclude path => exact h.excludeFile (hplain path rfl)
  | beginBatch =>
      refine ⟨_, rfl, ?_⟩
      rw [Operation.placements, List.append_nil]
      exact h.withGraph index.backlinks true
  | finishBatch =>
      refine ⟨_, rfl, ?_⟩
      rw [Operation.placements, List.append_nil, finishSourceBatch]
      by_cases hbatch : index.sourceBatch = true
      · rw [if_pos hbatch]
        exact h.withGraph _ false
      · rw [if_neg hbatch]
        exact h

theorem placements_concat (operations : List Operation) (operation : Operation) :
    placements source exclude (operations ++ [operation]) =
      placements source exclude operations ++
        operation.placements source exclude (inventory (placements source exclude operations)) := by
  rw [placements, List.foldl_append]
  rfl

theorem run_concat (operations : List Operation) (operation : Operation) (index : VaultIndex) :
    run source exclude (operations ++ [operation]) index =
      (run source exclude operations index).bind (operation.apply source exclude) := by
  rw [run, List.foldlM_append]
  cases h : operations.foldlM (fun index operation => operation.apply source exclude index) index with
  | none => rw [run, h]; rfl
  | some next =>
      rw [run, h, Option.bind_eq_bind, Option.bind_some, Option.bind_some, List.foldlM_cons]
      cases operation.apply source exclude next <;> rfl

theorem holds_empty : Holds source .empty [] empty where
  consistent := {
    note_not_attachment := fun path h => by simp [empty] at h
    excluded_not_note := fun path h => AList.lookup_empty path
    excluded_not_attachment := fun path h => AList.lookup_empty path
    tags := Inverse.exact_empty fun key label h => by
      rcases h with ⟨note, hnote, -⟩
      simp [empty] at hnote
    revisions := fun path h => by simp [empty] at h
    waiting := fun path h => by simp [empty] at h
    attachmentBytes_eq := rfl
    stats_eq := rfl
    size_le := Nat.zero_le _
    watched := fun watch h => by simp [empty] at h }
  held p := rfl
  linkResolver := rfl
  watched watch h := by simp [empty] at h

/-- A run of calls on plain paths is never cut short. -/
theorem run_holds (source : NoteSource) (exclude : ExcludeSet) {operations : List Operation}
    (h : ∀ operation ∈ operations, operation.Plain) :
    ∃ index, run source exclude operations empty = some index ∧
      Holds source .empty (placements source exclude operations) index := by
  induction operations using List.reverseRecOn with
  | nil => exact ⟨empty, rfl, holds_empty⟩
  | append_singleton operations operation ih =>
      rcases ih fun op hop => h op (List.mem_append_left _ hop) with ⟨index, hrun, hholds⟩
      rcases hholds.apply exclude
        (h operation (List.mem_append_right _ (List.mem_singleton_self _))) with
        ⟨next, hnext, hnextHolds⟩
      refine ⟨next, ?_, ?_⟩
      · rw [run_concat, hrun, Option.bind_some, hnext]
      · rw [placements_concat]
        exact hnextHolds

/-! ## The invariant -/

/-- An observation that the aggregate size refuses takes back the source revision only. -/
theorem applyObservation_refused (h : Consistent source index) (hplain : Plain path)
    {content : Option Text} {stat : FileStat} {lexical : Option Lexical}
    {embeddingsEnabled : Bool} {updated : VaultIndex} {error : VaultError}
    (hupdate : index.updateObservation source exclude path content stat =
      some (updated, .error error)) (hrefused : isResourceLimit error = true) :
    index.applyObservation source exclude path content stat lexical embeddingsEnabled =
      some ({ index with sourceRevisions := index.sourceRevisions.erase path }, .error error) := by
  have hsame : updated = index := by
    cases hobserved : observedEntry source exclude path content stat with
    | error error =>
        rw [updateObservation_error hplain hobserved, Option.some.injEq, Prod.mk.injEq] at hupdate
        exact hupdate.1.symm
    | ok observed =>
        rcases observed with ⟨entry, revision⟩
        rcases updateObservation_ok h hplain hobserved with hlarge | hadmitted
        · rw [hlarge.2, Option.some.injEq, Prod.mk.injEq] at hupdate
          exact hupdate.1.symm
        · rcases hadmitted with ⟨-, next, hnext, -⟩
          rw [hnext, Option.some.injEq, Prod.mk.injEq] at hupdate
          exact absurd hupdate.2 nofun
  rw [applyObservation, hupdate, Option.bind_some, finishRefresh, hsame, if_pos hrefused]

/-- After any calls on plain paths the index is consistent and no counter has left its range; a
refused observation changes nothing but its source revision. -/
theorem index_invariant (source : NoteSource) (exclude : ExcludeSet) (operations : List Operation)
    (h : ∀ operation ∈ operations, operation.Plain) :
    ∃ index, run source exclude operations empty = some index ∧ Consistent source index ∧
      index.attachmentBytes ≤ u64Max ∧
      (∀ path content stat lexical embeddingsEnabled updated error, Plain path →
        index.updateObservation source exclude path content stat =
          some (updated, .error error) → isResourceLimit error = true →
        index.applyObservation source exclude path content stat lexical embeddingsEnabled =
          some ({ index with sourceRevisions := index.sourceRevisions.erase path },
            .error error)) ∧
      ∀ path revision stat refreshed error,
        index.refreshUnchangedNote source path revision stat = (refreshed, .error error) →
        refreshed = { index with sourceRevisions := index.sourceRevisions.erase path } := by
  rcases run_holds source exclude h with ⟨index, hrun, hholds⟩
  have hconsistent := hholds.consistent
  refine ⟨index, hrun, hconsistent, ?_, ?_, ?_⟩
  · have hsize := hconsistent.size_le
    rw [hconsistent.stats_eq] at hsize
    exact (Nat.le_add_left _ _).trans hsize
  · intro path content stat lexical embeddingsEnabled updated error hplain hupdate hrefused
    exact applyObservation_refused hconsistent hplain hupdate hrefused
  · intro path revision stat refreshed error hrefused
    rw [refreshUnchangedNote] at hrefused
    cases hnote : index.notes.lookup path with
    | none =>
        rw [hnote] at hrefused
        exact absurd (congrArg Prod.snd hrefused) nofun
    | some note =>
        rw [hnote] at hrefused
        dsimp only at hrefused
        by_cases hrevision : index.sourceRevisions.lookup path ≠ some revision
        · rw [if_pos hrevision] at hrefused
          exact absurd (congrArg Prod.snd hrefused) nofun
        · rw [if_neg hrevision] at hrefused
          cases htotals : index.observedByteTotals source path stat.size false with
          | ok totals =>
              rw [htotals] at hrefused
              exact absurd (congrArg Prod.snd hrefused) nofun
          | error refusal =>
              rw [htotals] at hrefused
              exact (congrArg Prod.fst hrefused).symm

theorem plain_of_toStr (text : Text) (htext : path.toStr = some text)
    (hvisible : isVisiblePath path = true) (hslash : '\\' ∉ text) : Plain path := by
  refine ⟨hvisible, ?_⟩
  intro other hother
  rw [htext, Option.some.injEq] at hother
  rwa [← hother]

/-- Sources of plain text: no markup, no documents. -/
def plainSource : NoteSource where
  text := LinkResolver.basicText
  upper := fun c => [c.toUpper]
  upper_slash := by decide
  md := ⟨fun _ => [], fun _ => []⟩
  yaml := {
    fromStrJson := fun _ => .error []
    fromStrMapping := fun _ => .error []
    fromStrValue := fun _ => .error []
    toStringJson := fun _ => .error []
    toStringMapping := fun _ => .error []
    toStringValue := fun _ => .error []
    displayNumber := fun _ => [] }
  displayJson := fun _ => []
  isWord := Char.isAlphanum
  sourceRevision := fun content => content

def noExclusions : ExcludeSet where
  isExcluded := fun _ => false
  allowsSource := fun _ _ => true

def soleNote : OsString := utf8Bytes "a/b.md".toList

/-- A note is observed, observed again with the largest size, and removed. -/
theorem observed_note_invariant :
    ∃ index, run plainSource noExclusions
        [.observe soleNote (some "x".toList) ⟨1, none, none⟩ none false,
          .observe soleNote (some "y".toList) ⟨u64Max, none, none⟩ none false,
          .remove soleNote none] empty = some index ∧ Consistent plainSource index := by
  have hplain : Plain soleNote :=
    plain_of_toStr "a/b.md".toList (by decide +kernel) (by decide +kernel)
      (by decide +kernel)
  rcases index_invariant plainSource noExclusions
    [.observe soleNote (some "x".toList) ⟨1, none, none⟩ none false,
      .observe soleNote (some "y".toList) ⟨u64Max, none, none⟩ none false,
      .remove soleNote none] (by
        intro operation hmem path hpath
        simp only [List.mem_cons, List.not_mem_nil, or_false] at hmem
        rcases hmem with rfl | rfl | rfl
        · rwa [← Option.some.inj hpath]
        · rwa [← Option.some.inj hpath]
        · rwa [← Option.some.inj hpath]) with ⟨index, hrun, hconsistent, -⟩
  exact ⟨index, hrun, hconsistent⟩

end ObsidianMcp.VaultIndex
