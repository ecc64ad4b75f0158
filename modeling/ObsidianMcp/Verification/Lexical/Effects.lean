import ObsidianMcp.Model.LexicalIndex
import ObsidianMcp.Verification.Index.Runs
import ObsidianMcp.Verification.Links.Suffix

/-! # What one call does to the index and the lexical index -/

namespace ObsidianMcp.Projection

open Text VaultIndex

variable {W : Type} {source : NoteSource} {exclude : ExcludeSet} {writer : IndexWriter W}
  {embeddingsEnabled wasNote : Bool} {state next : Projection W} {index placed : VaultIndex}
  {path : OsString} {content : Option Text} {stat : FileStat}

/-! ## Statements -/

/-- One path receives a note or none; the other paths stay. -/
structure Placed (path : OsString) (note : Option NoteMetadata) (revision : Option Text)
    (index placed : VaultIndex) : Prop where
  notes : ∀ p, placed.notes.lookup p = if p = path then note else index.notes.lookup p
  revisions : ∀ p, placed.sourceRevisions.lookup p =
    if p = path then revision else index.sourceRevisions.lookup p
  waiting : ∀ p, p ≠ path →
    placed.waitingForLexical.lookup p = index.waitingForLexical.lookup p

/-- The effect of a call for a path, with what it asked of the writer and its result. -/
inductive Effect (source : NoteSource) (writer : IndexWriter W) (embeddingsEnabled : Bool)
    (path : OsString) (state next : Projection W) :
    Option LexicalCall → Except VaultError Bool → Prop
  | kept (error : VaultError)
      (hnotes : next.index.notes = state.index.notes)
      (hrevisions : next.index.sourceRevisions = state.index.sourceRevisions.erase path)
      (hwaiting : next.index.waitingForLexical = state.index.waitingForLexical)
      (hwriter : next.writer = state.writer) :
      Effect source writer embeddingsEnabled path state next none (.error error)
  | replaced (note : NoteMetadata) (content : Text) (stamp : ℕ)
      (hshown : isVisiblePath path = true)
      (hparse : parseNoteMetadata source path content note.stat = .ok note)
      (hplaced : Placed path (some note) (some (source.sourceRevision content)) state.index
        next.index)
      (hwaiting : embeddingsEnabled = true →
        next.index.waitingForLexical.lookup path = some stamp)
      (hwriter : writer.replaceDocument source path note content state.writer =
        (next.writer, .ok stamp)) :
      Effect source writer embeddingsEnabled path state next (some (.replace note content))
        (.ok true)
  | removed (result : Except VaultError Bool)
      (hplaced : Placed path none none state.index next.index)
      (hnote : (state.index.notes.lookup path).isSome = true)
      (hwriter : next.writer = (writer.removeFileBatch source path state.writer).1)
      (hreport : result = .ok true ∨ ∃ error, result = .error error) :
      Effect source writer embeddingsEnabled path state next (some .remove) result
  | absent (result : Except VaultError Bool)
      (hplaced : Placed path none none state.index next.index)
      (hnote : (state.index.notes.lookup path).isSome = false)
      (hwriter : next.writer = state.writer) :
      Effect source writer embeddingsEnabled path state next none result
  | rejected (note : NoteMetadata) (content : Text) (error : VaultError)
      (hplaced : Placed path none none state.index next.index)
      (hwriter : next.writer =
        (writer.replaceDocument source path note content state.writer).1)
      (hrejected : (writer.replaceDocument source path note content state.writer).2 =
        .error error) :
      Effect source writer embeddingsEnabled path state next (some (.replace note content))
        (.error error)

/-! ## Placements -/

theorem Placed.trans {note note' : Option NoteMetadata} {revision revision' : Option Text}
    {final : VaultIndex} (h : Placed path note revision index placed)
    (h' : Placed path note' revision' placed final) :
    Placed path note' revision' index final where
  notes p := by
    rw [h'.notes, h.notes]
    by_cases hp : p = path
    · rw [if_pos hp, if_pos hp]
    · rw [if_neg hp, if_neg hp, if_neg hp]
  revisions p := by
    rw [h'.revisions, h.revisions]
    by_cases hp : p = path
    · rw [if_pos hp, if_pos hp]
    · rw [if_neg hp, if_neg hp, if_neg hp]
  waiting p hp := (h'.waiting p hp).trans (h.waiting p hp)

theorem placed_of_stepped {entry : Option Entry} {revision : Option Text}
    (h : Stepped source path entry revision index placed) :
    Placed path (entry.bind Entry.metadata) revision index placed where
  notes p := by
    rw [lookup_notes_eq, h.entryAt]
    by_cases hp : p = path
    · rw [if_pos hp, if_pos hp]
    · rw [if_neg hp, if_neg hp, ← lookup_notes_eq]
  revisions := h.revisions
  waiting := h.waiting

theorem removeFile_placed (h : Consistent source index) (hpath : logicalSeparators path = path) :
    ∃ removed, index.removeFile source path = some removed ∧ Consistent source removed ∧
      Placed path none none index removed := by
  rcases removeFile_stepped h hpath with ⟨removed, heq, -, hstep⟩
  exact ⟨removed, heq, hstep.consistent, placed_of_stepped hstep⟩

/-! ## The writer is asked -/

theorem lexicalStep_eq (index : VaultIndex) (path : OsString) (wasNote : Bool)
    (content : Option Text) (w : W) :
    index.lexicalStep path wasNote content (some (writer.lexical source w)) =
      match index.lexicalCall path wasNote content with
      | none => .unchanged
      | some .remove => .removed
      | some (.replace note content) =>
          match (writer.replaceDocument source path note content w).2 with
          | .ok stamp => .replaced stamp
          | .error error => .failed error := by
  have hremoval : lexicalRemoval path wasNote (writer.lexical source w) =
      if wasNote then .removed else .unchanged := by
    cases wasNote <;> rfl
  unfold lexicalStep lexicalCall
  cases content with
  | none =>
      dsimp only
      rw [hremoval]
      cases wasNote <;> rfl
  | some content =>
      cases hnote : index.notes.lookup path with
      | none =>
          dsimp only
          rw [hremoval]
          cases wasNote <;> rfl
      | some note => rfl

theorem lexicalCall_note {note : NoteMetadata} {content : Text}
    (h : index.notes.lookup path = some note) :
    index.lexicalCall path wasNote (some content) = some (.replace note content) := by
  unfold lexicalCall
  rw [h]

theorem lexicalCall_none (h : index.notes.lookup path = none) :
    index.lexicalCall path wasNote content = if wasNote then some .remove else none := by
  unfold lexicalCall
  rw [h]
  cases content <;> rfl

/-- A live note goes to the writer with its content. -/
theorem finish_note {note : NoteMetadata} {content : Text} (h : Consistent source placed)
    (hshown : isVisiblePath path = true) (hpath : logicalSeparators path = path)
    (hparse : parseNoteMetadata source path content note.stat = .ok note)
    (hplaced : Placed path (some note) (some (source.sourceRevision content)) state.index placed) :
    ∃ final result, placed.finishLexical source path wasNote (.ok (some content))
        (some (writer.lexical source state.writer)) embeddingsEnabled = some (final, result) ∧
      Consistent source final ∧
      Effect source writer embeddingsEnabled path state
        ⟨final, perform source writer path (placed.lexicalCall path wasNote (some content))
          state.writer⟩ (placed.lexicalCall path wasNote (some content)) result := by
  have hnote : placed.notes.lookup path = some note := (hplaced.notes path).trans (if_pos rfl)
  have hcall : placed.lexicalCall path wasNote (some content) = some (.replace note content) :=
    lexicalCall_note hnote
  rw [hcall, perform, finishLexical]
  have hstep := @lexicalStep_eq _ source writer placed path wasNote
    (some content) state.writer
  rw [hcall] at hstep
  have hcontent : (Except.ok (some content) : Except VaultError (Option Text)).toOption.join =
      some content := rfl
  rw [hcontent, hstep]
  dsimp only
  cases hreplace : writer.replaceDocument source path note content state.writer with
  | mk w stamp =>
      cases stamp with
      | ok stamp =>
          refine ⟨_, _, rfl, ?_, .replaced note content stamp hshown hparse ?_ ?_ hreplace⟩
          · cases embeddingsEnabled with
            | false => exact h
            | true => exact { h with
                waiting := fun p hp => by
                  by_cases heq : p = path
                  · rw [heq, hnote]
                    rfl
                  · exact h.waiting p (by rwa [if_pos rfl, AList.lookup_insert_ne heq] at hp) }
          · exact { hplaced with
              waiting := fun p hp => by
                cases embeddingsEnabled with
                | false => exact hplaced.waiting p hp
                | true => exact (AList.lookup_insert_ne hp).trans (hplaced.waiting p hp) }
          · intro henabled
            rw [henabled]
            exact AList.lookup_insert _
      | error error =>
          rcases removeFile_placed h hpath with ⟨removed, heq, hremoved, hleft⟩
          dsimp only
          rw [heq, Option.map_some]
          refine ⟨_, _, rfl, hremoved, .rejected note content error (hplaced.trans hleft) ?_ ?_⟩
          · rw [hreplace]
          · rw [hreplace]

/-- A path without a note leaves the lexical index if it was a note. -/
theorem finish_none (h : Consistent source placed)
    (hwas : (state.index.notes.lookup path).isSome = wasNote)
    (hplaced : Placed path none none state.index placed)
    (update : Except VaultError (Option Text)) (hcontent : update.toOption.join = content) :
    ∃ final result, placed.finishLexical source path wasNote update
        (some (writer.lexical source state.writer)) embeddingsEnabled = some (final, result) ∧
      Consistent source final ∧
      Effect source writer embeddingsEnabled path state
        ⟨final, perform source writer path (placed.lexicalCall path wasNote content)
          state.writer⟩ (placed.lexicalCall path wasNote content) result := by
  have hnote : placed.notes.lookup path = none := (hplaced.notes path).trans (if_pos rfl)
  have hcall : placed.lexicalCall path wasNote content = if wasNote then some .remove else none :=
    lexicalCall_none hnote
  have hstep := @lexicalStep_eq _ source writer placed path wasNote
    content state.writer
  rw [hcall] at hstep ⊢
  rw [finishLexical, hcontent, hstep]
  cases wasNote with
  | false => exact ⟨_, _, rfl, h, .absent _ hplaced hwas rfl⟩
  | true =>
      refine ⟨_, _, rfl, h, .removed _ hplaced hwas rfl ?_⟩
      cases update with
      | ok update => exact .inl rfl
      | error error => exact .inr ⟨error, rfl⟩

/-! ## Each call -/

theorem plain_of_logical (hshown : isVisiblePath path = true)
    (hpath : logicalSeparators path = path) : Plain path := by
  refine ⟨hshown, ?_⟩
  intro text htext hmem
  rw [logicalSeparators, htext] at hpath
  dsimp only at hpath
  rw [if_pos hmem] at hpath
  rw [← hpath, OsString.toStr, fromUtf8_utf8Bytes, Option.some.injEq] at htext
  rw [← htext] at hmem
  exact LinkResolver.backslash_not_mem_portableSeparators _ hmem

theorem stat_of_parse {note : NoteMetadata} {content : Text}
    (h : parseNoteMetadata source path content stat = .ok note) : note.stat = stat := by
  rw [parseNoteMetadata] at h
  cases hfrontmatter : parseFrontmatter source.yaml content with
  | error error =>
      rw [hfrontmatter] at h
      contradiction
  | ok frontmatter =>
      rw [hfrontmatter] at h
      rw [← Except.ok.inj h]

/-- What is observed is a note with the content it was parsed from, or no note at all. -/
theorem observedEntry_cases {entry : Entry} {revision : Option Text}
    (h : observedEntry source exclude path content stat = .ok (entry, revision)) :
    (∃ note text, entry = .note note ∧ content = some text ∧
      revision = some (source.sourceRevision text) ∧
      parseNoteMetadata source path text note.stat = .ok note) ∨
    entry.metadata = none ∧ revision = none ∧ observedContent entry content = none := by
  unfold observedEntry at h
  cases hclass : classify path exclude with
  | attachment =>
      rw [hclass, Except.ok.injEq, Prod.mk.injEq] at h
      rw [← h.1, ← h.2]
      exact .inr ⟨rfl, rfl, rfl⟩
  | excluded =>
      rw [hclass, Except.ok.injEq, Prod.mk.injEq] at h
      rw [← h.1, ← h.2]
      exact .inr ⟨rfl, rfl, rfl⟩
  | note =>
      rw [hclass] at h
      cases content with
      | none => contradiction
      | some text =>
          dsimp only at h
          by_cases hallowed : exclude.allowsSource path text = true
          · rw [hallowed] at h
            cases hparse : parseNoteMetadata source path text stat with
            | error error =>
                rw [hparse] at h
                contradiction
            | ok note =>
                rw [hparse] at h
                have hpair := Prod.mk.inj (Except.ok.inj h)
                apply Or.inl
                refine ⟨note, text, hpair.1.symm, rfl, hpair.2.symm, ?_⟩
                rw [stat_of_parse hparse, hparse]
          · rw [Bool.eq_false_iff.mpr hallowed] at h
            have hpair := Prod.mk.inj (Except.ok.inj h)
            rw [← hpair.1, ← hpair.2]
            exact .inr ⟨rfl, rfl, rfl⟩

/-- An observation has an effect on its path. -/
theorem applyObservation_effect (exclude : ExcludeSet) (h : Consistent source state.index)
    (hpath : logicalSeparators path = path) (content : Option Text) (stat : FileStat)
    (embeddingsEnabled : Bool) :
    ∃ next result, applyObservation source exclude writer embeddingsEnabled path content stat
        state = some (next, result) ∧
      Consistent source next.index ∧
      Effect source writer embeddingsEnabled path state next
        (observationCall source exclude path content stat state) result := by
  unfold applyObservation observationCall VaultIndex.applyObservation
  by_cases hshown : isVisiblePath path = true
  · have hplain := plain_of_logical hshown hpath
    cases hobserved : observedEntry source exclude path content stat with
    | error error =>
        rcases removeFile_placed h hpath with ⟨removed, hremoved, hconsistent, hplaced⟩
        rcases finish_none hconsistent rfl hplaced (.error error) rfl with
          ⟨final, result, hfinal, hfinalConsistent, heffect⟩
        have hlimit := not_resourceLimit_of_observedEntry hobserved
        have hcall : updateCall path (state.index.notes.lookup path).isSome
            (state.index, .error error) =
              removed.lexicalCall path (state.index.notes.lookup path).isSome none := by
          rw [updateCall, hlimit]
          rfl
        rw [updateObservation_error hplain hobserved, Option.bind_some, Option.bind_some,
          finishRefresh, hlimit, if_neg Bool.false_ne_true, hremoved, Option.bind_some, hfinal,
          hcall]
        exact ⟨_, _, rfl, hfinalConsistent, heffect⟩
    | ok observed =>
        rcases observed with ⟨entry, revision⟩
        rcases updateObservation_ok h hplain hobserved with hrefused | hadmitted
        · rw [hrefused.2, Option.bind_some, Option.bind_some, finishRefresh]
          exact ⟨_, _, rfl, h.eraseRevision path, .kept _ rfl rfl rfl rfl⟩
        · rcases hadmitted with ⟨-, placed, hupdate, hstep⟩
          have hplaced := placed_of_stepped hstep
          rw [hupdate, Option.bind_some, Option.bind_some, finishRefresh]
          rcases observedEntry_cases hobserved with hnote | hnone
          · rcases hnote with ⟨note, text, rfl, rfl, rfl, hparse⟩
            rcases finish_note hstep.consistent hshown hpath hparse hplaced with
              ⟨final, result, hfinal, hfinalConsistent, heffect⟩
            have hcontent : observedContent (.note note) (some text) = some text := rfl
            rw [hcontent, hfinal]
            exact ⟨_, _, rfl, hfinalConsistent, heffect⟩
          · rw [Option.bind_some, hnone.1, hnone.2.1] at hplaced
            rw [hnone.2.2]
            rcases finish_none hstep.consistent rfl hplaced (.ok none) rfl with
              ⟨final, result, hfinal, hfinalConsistent, heffect⟩
            rw [hfinal]
            exact ⟨_, _, rfl, hfinalConsistent, heffect⟩
  · have hhidden := Bool.eq_false_iff.mpr hshown
    rcases removeFile_placed h hpath with ⟨removed, hremoved, hconsistent, hplaced⟩
    have hupdate : state.index.updateObservation source exclude path content stat =
        some (removed, .ok none) := by
      unfold updateObservation
      rw [hhidden, hremoved]
      rfl
    rw [hupdate, Option.bind_some, Option.bind_some, finishRefresh]
    rcases finish_none hconsistent rfl hplaced (.ok none) rfl with
      ⟨final, result, hfinal, hfinalConsistent, heffect⟩
    rw [hfinal]
    exact ⟨_, _, rfl, hfinalConsistent, heffect⟩

/-- A removal has an effect on its path. -/
theorem removeProjection_effect (h : Consistent source state.index)
    (hpath : logicalSeparators path = path) (embeddingsEnabled : Bool) :
    ∃ next result, removeProjection source writer path state = some (next, result) ∧
      Consistent source next.index ∧
      Effect source writer embeddingsEnabled path state next (removalCall path state) result := by
  rcases removeFile_placed h hpath with ⟨removed, hremoved, hconsistent, hplaced⟩
  unfold removeProjection VaultIndex.removeProjection removalCall
  rw [hremoved]
  cases hnote : (state.index.notes.lookup path).isSome with
  | false => exact ⟨_, _, rfl, hconsistent, .absent _ hplaced hnote rfl⟩
  | true => exact ⟨_, _, rfl, hconsistent, .removed _ hplaced hnote rfl (.inl rfl)⟩

end ObsidianMcp.Projection
