import ObsidianMcp.Library.Interleaving
import ObsidianMcp.Verification.Lexical.Effects

/-! # Metadata and lexical search agree -/

namespace ObsidianMcp.Projection

open Text VaultIndex

variable {W : Type} {source : NoteSource} {exclude : ExcludeSet} {writer : IndexWriter W}
  {embeddingsEnabled : Bool} {state next : Projection W} {path : OsString}
  {contents : OsString → Text} {result : Except VaultError Bool}

/-! ## Statements -/

/-- The documents that are staged or committed are one for each note, built from the metadata and
the content of its entry. -/
structure Documented (source : NoteSource) (writer : IndexWriter W) (contents : OsString → Text)
    (state : Projection W) : Prop where
  documents : (writer.documents state.writer).Perm
    (state.index.notes.toPairs.map fun entry =>
      buildDocument source entry.1 entry.2 (contents entry.1))
  parsed : ∀ p note, state.index.notes.lookup p = some note →
    parseNoteMetadata source p (contents p) note.stat = .ok note
  revisions : ∀ p revision, state.index.sourceRevisions.lookup p = some revision →
    revision = source.sourceRevision (contents p)

/-- The index is consistent, its notes are visible, and the documents are theirs. -/
structure Agrees (source : NoteSource) (writer : IndexWriter W) (state : Projection W) : Prop where
  consistent : Consistent source state.index
  visible : ∀ p, (state.index.notes.lookup p).isSome → isVisiblePath p = true
  documented : ∃ contents, Documented source writer contents state

/-- A call whose documents differ afterwards asks for a flush, or fails for a note. -/
def Reported (writer : IndexWriter W) (path : OsString) (state next : Projection W)
    (result : Except VaultError Bool) : Prop :=
  ¬(writer.documents next.writer).Perm (writer.documents state.writer) →
    result = .ok true ∨
      (∃ error, result = .error error) ∧ (state.index.notes.lookup path).isSome

/-- A call for a logical path that the writer takes. -/
def Taken (source : NoteSource) (exclude : ExcludeSet) (writer : IndexWriter W)
    (embeddingsEnabled : Bool) (state next : Projection W) : Prop :=
  ∃ (call : Call) (result : Except VaultError Bool), logicalSeparators call.path = call.path ∧
    accepts source writer call.path (call.asks source exclude state) state.writer = true ∧
    call.apply source exclude writer embeddingsEnabled state = some (next, result)

/-! ## Document paths -/

theorem toStringLossy_injective {p q : OsString} (hp : isVisiblePath p = true)
    (hq : isVisiblePath q = true)
    (h : source.text.toStringLossy p = source.text.toStringLossy q) : p = q := by
  rw [isVisiblePath, Option.any_eq_true] at hp hq
  rcases hp with ⟨text, htext, -⟩
  rcases hq with ⟨other, hother, -⟩
  rw [PathText.toStringLossy, PathText.toStringLossy, htext, hother] at h
  rw [OsString.toStr, fromUtf8_eq_some] at htext hother
  rw [htext, hother]
  exact congrArg utf8Bytes h

/-- Deleting by the path of a document keeps the documents of the other notes. -/
theorem Documented.delete (h : Documented source writer contents state)
    (hvisible : ∀ p, (state.index.notes.lookup p).isSome → isVisiblePath p = true)
    (hshown : isVisiblePath path = true) :
    (writer.documents (writer.deleteTerm (source.text.toStringLossy path) state.writer)).Perm
      ((Table.toPairs (state.index.notes.erase path)).map fun entry =>
        buildDocument source entry.1 entry.2 (contents entry.1)) := by
  rw [writer.documents_deleteTerm]
  refine (h.documents.filter _).trans ?_
  rw [List.filter_map]
  refine (List.Perm.of_eq ?_).trans ((Table.toPairs_erase_perm _ path).symm.map _)
  apply congrArg
  apply List.filter_congr
  intro entry hentry
  have hnote : (state.index.notes.lookup entry.1).isSome := by
    rw [Table.mem_toPairs.mp hentry]
    rfl
  apply decide_eq_decide.mpr
  apply not_congr
  constructor
  · exact toStringLossy_injective (hvisible _ hnote) hshown
  · intro heq
    exact congrArg source.text.toStringLossy heq

/-! ## One call -/

/-- Without its document a path is no note. -/
theorem Documented.removed (h : Documented source writer contents state)
    (hplaced : Placed path none none state.index next.index)
    (hdocuments : (writer.documents next.writer).Perm
      ((Table.toPairs (state.index.notes.erase path)).map fun entry =>
        buildDocument source entry.1 entry.2 (contents entry.1))) :
    Documented source writer contents next where
  documents := by
    refine hdocuments.trans ((Table.toPairs_perm ?_).map _)
    intro p
    rw [hplaced.notes]
    by_cases hp : p = path
    · rw [if_pos hp, hp, AList.lookup_erase]
    · rw [if_neg hp, AList.lookup_erase_ne hp]
  parsed p note hnote := by
    rw [hplaced.notes] at hnote
    by_cases hp : p = path
    · rw [if_pos hp] at hnote
      contradiction
    · rw [if_neg hp] at hnote
      exact h.parsed p note hnote
  revisions p revision hrevision := by
    rw [hplaced.revisions] at hrevision
    by_cases hp : p = path
    · rw [if_pos hp] at hrevision
      contradiction
    · rw [if_neg hp] at hrevision
      exact h.revisions p revision hrevision

/-- A new document takes the place of the old one. -/
theorem Documented.replaced (h : Documented source writer contents state)
    {note : NoteMetadata} {content : Text} {stamp : ℕ}
    (hvisible : ∀ p, (state.index.notes.lookup p).isSome → isVisiblePath p = true)
    (hshown : isVisiblePath path = true)
    (hparse : parseNoteMetadata source path content note.stat = .ok note)
    (hplaced : Placed path (some note) (some (source.sourceRevision content)) state.index
      next.index)
    (hwriter : writer.replaceDocument source path note content state.writer =
      (next.writer, .ok stamp)) :
    Documented source writer (Function.update contents path content) next where
  documents := by
    have hadded := writer.documents_addDocument (buildDocument source path note content)
      (writer.deleteTerm (source.text.toStringLossy path) state.writer) stamp
      (congrArg Prod.snd hwriter)
    rw [show (writer.addDocument (buildDocument source path note content)
      (writer.deleteTerm (source.text.toStringLossy path) state.writer)).1 = next.writer from
        congrArg Prod.fst hwriter] at hadded
    have hnotes : (Table.toPairs (state.index.notes.insert path note)).Perm
        next.index.notes.toPairs := by
      apply Table.toPairs_perm
      intro p
      rw [hplaced.notes]
      by_cases hp : p = path
      · rw [if_pos hp, hp, AList.lookup_insert]
      · rw [if_neg hp, AList.lookup_insert_ne hp]
    refine hadded.trans (((h.delete hvisible hshown).cons _).trans ?_)
    refine List.Perm.trans ?_ (hnotes.map _)
    rw [Table.toPairs_insert, List.map_cons, Function.update_self]
    apply List.Perm.of_eq
    apply congrArg
    apply List.map_congr_left
    intro entry hentry
    have hne : entry.1 ≠ path := by
      intro heq
      have hlookup := Table.mem_toPairs.mp hentry
      rw [heq, AList.lookup_erase] at hlookup
      contradiction
    rw [Function.update_of_ne hne]
  parsed p found hnote := by
    rw [hplaced.notes] at hnote
    by_cases hp : p = path
    · rw [if_pos hp, Option.some.injEq] at hnote
      rw [hp, ← hnote, Function.update_self]
      exact hparse
    · rw [if_neg hp] at hnote
      rw [Function.update_of_ne hp]
      exact h.parsed p found hnote
  revisions p revision hrevision := by
    rw [hplaced.revisions] at hrevision
    by_cases hp : p = path
    · rw [if_pos hp, Option.some.injEq] at hrevision
      rw [hp, ← hrevision, Function.update_self]
    · rw [if_neg hp] at hrevision
      rw [Function.update_of_ne hp]
      exact h.revisions p revision hrevision

theorem Placed.visible {note : Option NoteMetadata} {revision : Option Text}
    (h : Placed path note revision state.index next.index)
    (hvisible : ∀ p, (state.index.notes.lookup p).isSome → isVisiblePath p = true)
    (hshown : note.isSome → isVisiblePath path = true) (p : OsString)
    (hp : (next.index.notes.lookup p).isSome) : isVisiblePath p = true := by
  rw [h.notes] at hp
  by_cases heq : p = path
  · rw [if_pos heq] at hp
    rw [heq]
    exact hshown hp
  · rw [if_neg heq] at hp
    exact hvisible p hp

/-- What a call that the writer takes leaves behind. -/
theorem Agrees.effect (h : Agrees source writer state) (hconsistent : Consistent source next.index)
    {asked : Option LexicalCall}
    (heffect : Effect source writer embeddingsEnabled path state next asked result)
    (haccepted : accepts source writer path asked state.writer = true) :
    Agrees source writer next ∧ Reported writer path state next result := by
  rcases h.documented with ⟨contents, hdocumented⟩
  cases heffect with
  | kept error hnotes hrevisions hwaiting hwriter =>
      refine ⟨⟨hconsistent, ?_, contents, ?_, ?_, ?_⟩, ?_⟩
      · rw [hnotes]
        exact h.visible
      · rw [hwriter, hnotes]
        exact hdocumented.documents
      · rw [hnotes]
        exact hdocumented.parsed
      · intro p revision hrevision
        rw [hrevisions] at hrevision
        by_cases hp : p = path
        · rw [hp, AList.lookup_erase] at hrevision
          contradiction
        · rw [AList.lookup_erase_ne hp] at hrevision
          exact hdocumented.revisions p revision hrevision
      · intro hchanged
        rw [hwriter] at hchanged
        exact absurd (List.Perm.refl _) hchanged
  | replaced note content stamp hshown hparse hplaced hwaiting hwriter =>
      refine ⟨⟨hconsistent, hplaced.visible h.visible fun _ => hshown, _,
        hdocumented.replaced h.visible hshown hparse hplaced hwriter⟩, ?_⟩
      intro _
      exact .inl rfl
  | removed result hplaced hnote hwriter hreport =>
      have hshown := h.visible path hnote
      refine ⟨⟨hconsistent, hplaced.visible h.visible fun hnone => absurd hnone Bool.false_ne_true, contents,
        hdocumented.removed hplaced ?_⟩, ?_⟩
      · rw [hwriter]
        exact hdocumented.delete h.visible hshown
      · intro _
        exact hreport.imp_right fun herror => ⟨herror, hnote⟩
  | absent result hplaced hnote hwriter =>
      refine ⟨⟨hconsistent, hplaced.visible h.visible fun hnone => absurd hnone Bool.false_ne_true, contents,
        hdocumented.removed hplaced ?_⟩, ?_⟩
      · have hnone := Option.not_isSome_iff_eq_none.mp (Bool.eq_false_iff.mp hnote)
        rw [hwriter, Table.erase_of_lookup_eq_none hnone]
        exact hdocumented.documents
      · intro hchanged
        rw [hwriter] at hchanged
        exact absurd (List.Perm.refl _) hchanged
  | rejected note content error hplaced hwriter hrejected =>
      rw [accepts, hrejected] at haccepted
      contradiction

theorem Agrees.call (h : Agrees source writer state) (exclude : ExcludeSet)
    (embeddingsEnabled : Bool) (call : Call) (hpath : logicalSeparators call.path = call.path) :
    ∃ next result, call.apply source exclude writer embeddingsEnabled state = some (next, result) ∧
      (accepts source writer call.path (call.asks source exclude state) state.writer = true →
        Agrees source writer next ∧ Reported writer call.path state next result) := by
  cases call with
  | observe path content stat =>
      rcases applyObservation_effect exclude h.consistent hpath content stat embeddingsEnabled with
        ⟨next, result, hnext, hconsistent, heffect⟩
      exact ⟨next, result, hnext, h.effect hconsistent heffect⟩
  | remove path =>
      rcases removeProjection_effect h.consistent hpath embeddingsEnabled with
        ⟨next, result, hnext, hconsistent, heffect⟩
      exact ⟨next, result, hnext, h.effect hconsistent heffect⟩

/-! ## Every run -/

theorem Agrees.reached {start : Projection W} (h : Agrees source writer start)
    (hreached : Reached (fun s => s = start) (Taken source exclude writer embeddingsEnabled) state) :
    Agrees source writer state := by
  apply hreached.invariant
  · intro s hs
    rwa [hs]
  · intro s t _ hagrees hstep
    rcases hstep with ⟨call, result, hpath, haccepted, hstep⟩
    rcases hagrees.call exclude embeddingsEnabled call hpath with ⟨next, result', hnext, hkept⟩
    rw [hstep, Option.some.injEq, Prod.mk.injEq] at hnext
    rw [hnext.1]
    exact (hkept haccepted).1

/-- An empty index and a writer without documents. -/
theorem agrees_empty {w : W} (h : writer.documents w = []) :
    Agrees source writer ⟨empty, w⟩ where
  consistent := holds_empty.consistent
  visible p hp := by
    rw [empty, AList.lookup_empty] at hp
    contradiction
  documented := by
    refine ⟨fun _ => [], ?_, ?_, ?_⟩
    · rw [h]
      rfl
    · intro p note hnote
      rw [empty, AList.lookup_empty] at hnote
      contradiction
    · intro p revision hrevision
      rw [empty, AList.lookup_empty] at hrevision
      contradiction

/-- A note has one document with its path, and any other path has none. -/
theorem Agrees.count (h : Agrees source writer state) (hshown : isVisiblePath path = true) :
    (writer.documents state.writer).countP
        (fun document => document.path = source.text.toStringLossy path) =
      if (state.index.notes.lookup path).isSome then 1 else 0 := by
  rcases h.documented with ⟨contents, hdocumented⟩
  rw [hdocumented.documents.countP_eq, List.countP_map, ← Table.countP_toPairs]
  apply List.countP_congr
  intro entry hentry
  have hnote : (state.index.notes.lookup entry.1).isSome := by
    rw [Table.mem_toPairs.mp hentry]
    rfl
  rw [Function.comp_apply, decide_eq_true_eq, decide_eq_true_eq]
  constructor
  · exact toStringLossy_injective (h.visible _ hnote) hshown
  · intro heq
    exact congrArg source.text.toStringLossy heq

/-- From metadata and documents that agree, every sequence of calls that the writer takes keeps one
document for each note, built from its content and metadata, and every call that changes the
documents is reported. -/
theorem lexical_agreement (source : NoteSource) (exclude : ExcludeSet) (writer : IndexWriter W)
    (embeddingsEnabled : Bool) {start state : Projection W} (h : Agrees source writer start)
    (hreached : Reached (fun s => s = start) (Taken source exclude writer embeddingsEnabled) state) :
    Agrees source writer state ∧
      (∀ path, isVisiblePath path = true →
        (writer.documents state.writer).countP
            (fun document => document.path = source.text.toStringLossy path) =
          if (state.index.notes.lookup path).isSome then 1 else 0) ∧
      ∀ call : Call, logicalSeparators call.path = call.path →
        ∃ next result,
          call.apply source exclude writer embeddingsEnabled state = some (next, result) ∧
          (accepts source writer call.path (call.asks source exclude state) state.writer = true →
            Agrees source writer next ∧ Reported writer call.path state next result) := by
  have hagrees := h.reached hreached
  exact ⟨hagrees, fun _ hshown => hagrees.count hshown,
    fun call hpath => hagrees.call exclude embeddingsEnabled call hpath⟩

/-! ## A writer in memory -/

/-- The stamp of the last operation and the documents. -/
def memoryWriter : IndexWriter (ℕ × List Document) where
  deleteTerm term w := (w.1 + 1, w.2.filter fun document => document.path ≠ term)
  addDocument document w := ((w.1 + 1, document :: w.2), .ok (w.1 + 1))
  commit w := ((w.1 + 1, w.2), .ok (w.1 + 1))
  documents := Prod.snd
  opstamp := Prod.fst
  documents_deleteTerm _ _ := rfl
  documents_addDocument _ _ _ _ := .refl _
  documents_commit _ _ _ := .refl _
  opstamp_deleteTerm _ w := Nat.le_succ w.1
  opstamp_addDocument _ w := Nat.le_succ w.1
  stamp_addDocument _ w _ h := by
    rw [← Except.ok.inj h]
    exact ⟨Nat.lt_succ_self w.1, le_rfl⟩
  opstamp_commit w := Nat.le_succ w.1
  stamp_commit w _ h := by
    rw [← Except.ok.inj h]
    exact ⟨Nat.le_succ w.1, le_rfl⟩

/-- An observed note is documented. -/
theorem observed_note_documented : ∃ next result,
    (Call.observe soleNote (some "x".toList) ⟨1, none, none⟩).apply plainSource noExclusions
      memoryWriter true ⟨empty, (0, [])⟩ = some (next, result) ∧
      Agrees plainSource memoryWriter next := by
  have hagreement := lexical_agreement plainSource noExclusions memoryWriter true
    (agrees_empty (w := (0, [])) rfl) (.start rfl)
  rcases hagreement.2.2 (.observe soleNote (some "x".toList) ⟨1, none, none⟩) (by decide +kernel)
    with ⟨next, result, hnext, hkept⟩
  refine ⟨next, result, hnext, (hkept ?_).1⟩
  decide +kernel

end ObsidianMcp.Projection
