import ObsidianMcp.Library.Interleaving
import ObsidianMcp.Model.Publication
import ObsidianMcp.Verification.Lexical.Agreement

/-! # Embedding waits for lexical publication -/

namespace ObsidianMcp.Session

open Text VaultIndex Projection

variable {W : Type} {source : NoteSource} {exclude : ExcludeSet} {writer : IndexWriter W}
  {session next : Session W} {path : OsString}

/-! ## Statements -/

/-- What holds between two sections. -/
structure Waits (source : NoteSource) (writer : IndexWriter W) (session : Session W) : Prop where
  consistent : Consistent source session.projection.index
  live : ∀ p stamp, session.stamps.lookup p = some stamp →
    (session.projection.index.notes.lookup p).isSome
  stamped : ∀ p stamp, session.stamps.lookup p = some stamp →
    stamp ≤ writer.opstamp session.projection.writer
  waiting : ∀ p stamp, session.projection.index.waitingForLexical.lookup p = some stamp →
    session.stamps.lookup p = some stamp ∧ (p, stamp) ∉ session.released
  accounted : ∀ p stamp, session.stamps.lookup p = some stamp →
    session.projection.index.waitingForLexical.lookup p = some stamp ∨
      (p, stamp) ∈ session.released
  released : ∀ entry ∈ session.released, entry.2 ≤ session.published
  unreleased : ∀ committed ∈ session.unreleased, committed ≤ session.published
  published : session.published ≤ writer.opstamp session.projection.writer
  once : session.released.Nodup

/-- Nothing has been staged, published or released yet. -/
structure Fresh (source : NoteSource) (writer : IndexWriter W) (session : Session W) : Prop where
  consistent : Consistent source session.projection.index
  waiting : session.projection.index.waitingForLexical = ∅
  stamps : session.stamps = ∅
  unreleased : session.unreleased = []
  released : session.released = []
  published : session.published ≤ writer.opstamp session.projection.writer

/-- The path of a call is logical. -/
def Logical : SessionStep → Prop
  | .call c _ => logicalSeparators c.path = c.path
  | _ => True

/-- One section of any caller. -/
def Steps (source : NoteSource) (exclude : ExcludeSet) (writer : IndexWriter W)
    (session next : Session W) : Prop :=
  ∃ action, Logical action ∧ step source exclude writer action session = some next

/-- What a section submits and releases. -/
structure Honest (action : SessionStep) (session next : Session W) : Prop where
  submitted : ∃ changes, next.submitted = session.submitted ++ changes ∧
    ∀ change ∈ changes, ∀ stamp, next.stamps.lookup change.1 = some stamp →
      next.published < stamp → change.2 = .awaitingLexical
  released : ∃ upserts, next.released = session.released ++ upserts ∧
    ∀ entry ∈ upserts, (session.projection.index.notes.lookup entry.1).isSome ∧
      session.stamps.lookup entry.1 = some entry.2 ∧
      ∃ committed ∈ session.unreleased, action = .release committed ∧ entry.2 ≤ committed
  covered : ∀ committed, next.unreleased = committed :: session.unreleased →
    ∀ p stamp, next.stamps.lookup p = some stamp → stamp ≤ committed
  settled : ∀ committed, action = .release committed →
    ∀ p stamp, next.stamps.lookup p = some stamp → stamp ≤ committed →
      next.released.count (p, stamp) = 1

/-! ## Submissions -/

/-- What is submitted while its document is not published awaits it. -/
theorem Waits.awaiting (h : Waits source writer session) {wasNote : Bool} {kind : PendingKind}
    (hchange : session.projection.index.embeddingChange path wasNote = some kind) {stamp : ℕ}
    (hstamp : session.stamps.lookup path = some stamp) (hlate : session.published < stamp) :
    kind = .awaitingLexical := by
  rcases h.accounted path stamp hstamp with hwaiting | hreleased
  · rw [embeddingChange, hwaiting, Option.isSome_some, if_pos rfl, Option.some.injEq] at hchange
    exact hchange.symm
  · exact absurd (h.released _ hreleased) (Nat.not_le.mpr hlate)

theorem Waits.submit (h : Waits source writer session) (change : Option PendingKind) :
    Waits source writer (session.submit path change) :=
  { h with }

/-! ## Calls -/

/-- The stamps after a call that left its path without a note. -/
theorem Waits.unplaced (h : Waits source writer session) {projection : Projection W}
    {stamps : Table OsString ℕ} (hconsistent : Consistent source projection.index)
    (hplaced : Placed path none none session.projection.index projection.index)
    (hstamps : ∀ p, stamps.lookup p = if p = path then none else session.stamps.lookup p)
    (hopstamp : writer.opstamp session.projection.writer ≤ writer.opstamp projection.writer) :
    Waits source writer { session with projection, stamps } := by
  have hgone : projection.index.waitingForLexical.lookup path = none := by
    by_contra hsome
    have hnote := hconsistent.waiting path (Option.ne_none_iff_isSome.mp hsome)
    rw [hplaced.notes, if_pos rfl] at hnote
    contradiction
  constructor
  case consistent => exact hconsistent
  case live =>
    intro p stamp hstamp
    dsimp only at hstamp ⊢
    rw [hstamps] at hstamp
    by_cases hp : p = path
    · rw [if_pos hp] at hstamp
      contradiction
    · rw [if_neg hp] at hstamp
      rw [hplaced.notes, if_neg hp]
      exact h.live p stamp hstamp
  case stamped =>
    intro p stamp hstamp
    dsimp only at hstamp
    rw [hstamps] at hstamp
    by_cases hp : p = path
    · rw [if_pos hp] at hstamp
      contradiction
    · rw [if_neg hp] at hstamp
      exact (h.stamped p stamp hstamp).trans hopstamp
  case waiting =>
    intro p stamp hwaiting
    dsimp only at hwaiting ⊢
    by_cases hp : p = path
    · rw [hp, hgone] at hwaiting
      contradiction
    · rw [hplaced.waiting p hp] at hwaiting
      rw [hstamps, if_neg hp]
      exact h.waiting p stamp hwaiting
  case accounted =>
    intro p stamp hstamp
    dsimp only at hstamp ⊢
    rw [hstamps] at hstamp
    by_cases hp : p = path
    · rw [if_pos hp] at hstamp
      contradiction
    · rw [if_neg hp] at hstamp
      rw [hplaced.waiting p hp]
      exact h.accounted p stamp hstamp
  case released => exact h.released
  case unreleased => exact h.unreleased
  case published => exact h.published.trans hopstamp
  case once => exact h.once

/-- The stamps after a call that staged a document. -/
theorem Waits.placed (h : Waits source writer session) {projection : Projection W}
    {note : NoteMetadata} {revision : Option Text} {stamp : ℕ}
    (hconsistent : Consistent source projection.index)
    (hplaced : Placed path (some note) revision session.projection.index projection.index)
    (hwaiting : projection.index.waitingForLexical.lookup path = some stamp)
    (hfresh : writer.opstamp session.projection.writer < stamp)
    (hopstamp : stamp ≤ writer.opstamp projection.writer) :
    Waits source writer
      { session with projection, stamps := session.stamps.insert path stamp } := by
  have hunreleased : ∀ p, (p, stamp) ∉ session.released := by
    intro p hmem
    have hle := (h.released _ hmem).trans h.published
    exact absurd hle (Nat.not_le.mpr hfresh)
  constructor
  case consistent => exact hconsistent
  case live =>
    intro p other hstamp
    dsimp only at hstamp ⊢
    by_cases hp : p = path
    · rw [hplaced.notes, if_pos hp]
      rfl
    · rw [AList.lookup_insert_ne hp] at hstamp
      rw [hplaced.notes, if_neg hp]
      exact h.live p other hstamp
  case stamped =>
    intro p other hstamp
    dsimp only at hstamp ⊢
    by_cases hp : p = path
    · rw [hp, AList.lookup_insert, Option.some.injEq] at hstamp
      rwa [← hstamp]
    · rw [AList.lookup_insert_ne hp] at hstamp
      exact ((h.stamped p other hstamp).trans hfresh.le).trans hopstamp
  case waiting =>
    intro p other hother
    dsimp only at hother ⊢
    by_cases hp : p = path
    · rw [hp, hwaiting, Option.some.injEq] at hother
      rw [hp, AList.lookup_insert, ← hother]
      exact ⟨rfl, hunreleased path⟩
    · rw [hplaced.waiting p hp] at hother
      rw [AList.lookup_insert_ne hp]
      exact h.waiting p other hother
  case accounted =>
    intro p other hstamp
    dsimp only at hstamp ⊢
    by_cases hp : p = path
    · rw [hp, AList.lookup_insert, Option.some.injEq] at hstamp
      rw [hp, hwaiting, hstamp]
      exact .inl rfl
    · rw [AList.lookup_insert_ne hp] at hstamp
      rw [hplaced.waiting p hp]
      exact h.accounted p other hstamp
  case released => exact h.released
  case unreleased => exact h.unreleased
  case published => exact (h.published.trans hfresh.le).trans hopstamp
  case once => exact h.once

theorem opstamp_replaceDocument (note : NoteMetadata) (content : Text) (w : W) :
    writer.opstamp w ≤ writer.opstamp (writer.replaceDocument source path note content w).1 :=
  (writer.opstamp_deleteTerm _ w).trans (writer.opstamp_addDocument _ _)

theorem stamp_replaceDocument {note : NoteMetadata} {content : Text} {w w' : W} {stamp : ℕ}
    (h : writer.replaceDocument source path note content w = (w', .ok stamp)) :
    writer.opstamp w < stamp ∧ stamp ≤ writer.opstamp w' := by
  have hstamp := writer.stamp_addDocument _ _ stamp (congrArg Prod.snd h)
  have hwriter : (writer.addDocument (buildDocument source path note content)
      (writer.deleteTerm (source.text.toStringLossy path) w)).1 = w' := congrArg Prod.fst h
  rw [hwriter] at hstamp
  exact ⟨(writer.opstamp_deleteTerm _ w).trans_lt hstamp.1, hstamp.2⟩

theorem lookup_erase_eq (stamps : Table OsString ℕ) (p : OsString) :
    (stamps.erase path).lookup p = if p = path then none else stamps.lookup p := by
  by_cases hp : p = path
  · rw [if_pos hp, hp, AList.lookup_erase]
  · rw [if_neg hp, AList.lookup_erase_ne hp]

/-- The stamps follow the effect of a call. -/
theorem Waits.effect (h : Waits source writer session) {projection : Projection W}
    {asked : Option LexicalCall} {result : Except VaultError Bool}
    (hconsistent : Consistent source projection.index)
    (heffect : Effect source writer true path session.projection projection asked result) :
    Waits source writer { session with
      projection
      stamps := restamp source writer path asked session.projection.writer session.stamps } := by
  cases heffect with
  | kept error hnotes hrevisions hwaiting hwriter =>
      exact { h with
        consistent := hconsistent
        live := fun p stamp hstamp => by
          rw [hnotes]
          exact h.live p stamp hstamp
        stamped := fun p stamp hstamp => by
          rw [hwriter]
          exact h.stamped p stamp hstamp
        waiting := fun p stamp => by
          rw [hwaiting]
          exact h.waiting p stamp
        accounted := fun p stamp hstamp => by
          rw [hwaiting]
          exact h.accounted p stamp hstamp
        published := by
          rw [hwriter]
          exact h.published }
  | replaced note content stamp hshown hparse hplaced hwaiting hwriter =>
      have hstamp := stamp_replaceDocument hwriter
      rw [restamp, hwriter]
      exact h.placed hconsistent hplaced (hwaiting rfl) hstamp.1 hstamp.2
  | removed result hplaced hnote hwriter hreport =>
      apply h.unplaced hconsistent hplaced (lookup_erase_eq _)
      rw [hwriter]
      exact writer.opstamp_deleteTerm _ _
  | absent result hplaced hnote hwriter =>
      apply h.unplaced hconsistent hplaced
      · intro p
        by_cases hp : p = path
        · rw [if_pos hp, hp, restamp]
          by_contra hsome
          rcases Option.ne_none_iff_exists'.mp hsome with ⟨stamp, hstamp⟩
          rw [h.live path stamp hstamp] at hnote
          contradiction
        · exact (if_neg hp).symm
      · rw [hwriter]
  | rejected note content error hplaced hwriter hrejected =>
      apply h.unplaced hconsistent hplaced
      · intro p
        rw [restamp, hrejected]
        exact lookup_erase_eq _ p
      · rw [hwriter]
        exact opstamp_replaceDocument note content _

theorem ne_cons_self {α : Type} {a : α} {l : List α} : l ≠ a :: l := by
  intro h
  have hlength := congrArg List.length h
  rw [List.length_cons] at hlength
  omega

theorem Waits.honest_submit {action : SessionStep} {changed : Session W}
    (h : Waits source writer changed) (wasNote : Bool) {change : Option PendingKind}
    (hchange : ∀ kind, change = some kind →
      changed.projection.index.embeddingChange path wasNote = some kind)
    (hsubmitted : changed.submitted = session.submitted)
    (hreleased : changed.released = session.released)
    (hunreleased : changed.unreleased = session.unreleased)
    (haction : ∀ committed, action ≠ .release committed) :
    Honest action session (changed.submit path change) where
  submitted := by
    refine ⟨(change.map (path, ·)).toList, ?_, ?_⟩
    · rw [← hsubmitted]
      rfl
    · intro entry hentry stamp hstamp hlate
      rw [Option.mem_toList, Option.map_eq_some_iff] at hentry
      rcases hentry with ⟨kind, hkind, rfl⟩
      exact h.awaiting (hchange kind hkind) hstamp hlate
  released := by
    refine ⟨[], ?_, ?_⟩
    · rw [List.append_nil]
      exact hreleased
    · intro entry hentry
      exact absurd hentry List.not_mem_nil
  covered := by
    intro committed hcommitted
    exact absurd (hunreleased.symm.trans hcommitted) ne_cons_self
  settled := by
    intro committed hrelease
    exact absurd hrelease (haction committed)

/-- A section that neither submits nor releases. -/
theorem honest_quiet {action : SessionStep} (hsubmitted : next.submitted = session.submitted)
    (hreleased : next.released = session.released)
    (hcovered : ∀ committed, next.unreleased = committed :: session.unreleased →
      ∀ p stamp, next.stamps.lookup p = some stamp → stamp ≤ committed)
    (haction : ∀ committed, action ≠ .release committed) : Honest action session next where
  submitted := by
    refine ⟨[], by rw [hsubmitted, List.append_nil], ?_⟩
    intro change hchange
    exact absurd hchange List.not_mem_nil
  released := by
    refine ⟨[], by rw [hreleased, List.append_nil], ?_⟩
    intro entry hentry
    exact absurd hentry List.not_mem_nil
  covered := hcovered
  settled := by
    intro committed hrelease
    exact absurd hrelease (haction committed)

/-- A call for a logical path. -/
theorem Waits.call (h : Waits source writer session) (exclude : ExcludeSet) (c : Projection.Call)
    (watched : Bool) (hpath : logicalSeparators c.path = c.path) :
    ∃ next, session.call source exclude writer c watched = some next ∧ Waits source writer next ∧
      Honest (.call c watched) session next := by
  have hcall : ∃ projection result,
      c.apply source exclude writer true session.projection = some (projection, result) ∧
        Consistent source projection.index ∧
        Effect source writer true c.path session.projection projection
          (c.asks source exclude session.projection) result := by
    cases c with
    | observe path content stat =>
        exact applyObservation_effect exclude h.consistent hpath content stat true
    | remove path => exact removeProjection_effect h.consistent hpath true
  rcases hcall with ⟨projection, result, hcall, hconsistent, heffect⟩
  have hwaits := h.effect hconsistent heffect
  refine ⟨_, by rw [Session.call, hcall, Option.map_some], hwaits.submit _, ?_⟩
  refine hwaits.honest_submit (session.projection.index.notes.lookup c.path).isSome ?_ ?_ ?_ ?_ ?_
  · intro kind hkind
    by_cases hrefused : (!watched && isResourceLimitResult result) = true
    · rw [if_pos hrefused] at hkind
      contradiction
    · rwa [if_neg hrefused] at hkind
  · rfl
  · rfl
  · rfl
  · intro committed
    exact SessionStep.noConfusion

/-! ## Stat-only observations -/

/-- A stat-only observation keeps which paths are notes and what waits. -/
theorem refreshUnchangedNote_kept {index : VaultIndex} (h : Consistent source index)
    (revision : Text) (stat : FileStat) :
    Consistent source (index.refreshUnchangedNote source path revision stat).1 ∧
      (index.refreshUnchangedNote source path revision stat).1.waitingForLexical =
        index.waitingForLexical ∧
      ∀ p, ((index.refreshUnchangedNote source path revision stat).1.notes.lookup p).isSome =
        (index.notes.lookup p).isSome := by
  unfold refreshUnchangedNote
  cases hnote : index.notes.lookup path with
  | none => exact ⟨h, rfl, fun _ => rfl⟩
  | some note =>
      dsimp only
      by_cases hrevision : index.sourceRevisions.lookup path ≠ some revision
      · rw [if_pos hrevision]
        exact ⟨h, rfl, fun _ => rfl⟩
      · rw [if_neg hrevision]
        cases htotals : index.observedByteTotals source path stat.size false with
        | error error => exact ⟨h.eraseRevision path, rfl, fun _ => rfl⟩
        | ok totals =>
            rcases totals with ⟨total, bytes⟩
            have hadmitted := observedByteTotals_ok h htotals
            dsimp only
            rw [hadmitted.2.1]
            refine ⟨h.restat hnote stat hadmitted.1, rfl, ?_⟩
            intro p
            by_cases hp : p = path
            · rw [hp, AList.lookup_insert, hnote]
              rfl
            · rw [AList.lookup_insert_ne hp]

theorem Waits.unchanged (h : Waits source writer session) (path : OsString) (revision : Text)
    (stat : FileStat) (current : Bool) :
    Waits source writer (session.unchanged source path revision stat current) ∧
      Honest (.unchanged path revision stat current) session
        (session.unchanged source path revision stat current) := by
  have hkept := @refreshUnchangedNote_kept source path _ h.consistent revision stat
  unfold Session.unchanged
  generalize session.projection.index.refreshUnchangedNote source path revision stat = refreshed
    at hkept
  rcases refreshed with ⟨index, result⟩
  dsimp only at hkept ⊢
  have hwaits : Waits source writer
      { session with projection := { session.projection with index } } :=
    { h with
      consistent := hkept.1
      live := fun p stamp hstamp => by
        rw [hkept.2.2]
        exact h.live p stamp hstamp
      waiting := fun p stamp => by
        rw [hkept.2.1]
        exact h.waiting p stamp
      accounted := fun p stamp hstamp => by
        rw [hkept.2.1]
        exact h.accounted p stamp hstamp }
  have hquiet : ∀ quiet : Session W, quiet = { session with
      projection := { session.projection with index } } →
        Honest (.unchanged path revision stat current) session quiet := by
    intro quiet hquiet
    rw [hquiet]
    exact honest_quiet rfl rfl (fun _ hcommitted => absurd hcommitted ne_cons_self)
      fun _ => SessionStep.noConfusion
  cases result with
  | error error => exact ⟨hwaits, hquiet _ rfl⟩
  | ok refreshed =>
      cases refreshed with
      | false => exact ⟨hwaits, hquiet _ rfl⟩
      | true =>
          cases current with
          | true => exact ⟨hwaits, hquiet _ rfl⟩
          | false =>
              refine ⟨hwaits.submit _, hwaits.honest_submit true ?_ rfl rfl rfl ?_⟩
              · exact fun kind hkind => hkind
              · exact fun committed => SessionStep.noConfusion

/-! ## Publications and releases -/

theorem Waits.publish (h : Waits source writer session) (reload : Except VaultError Unit) :
    Waits source writer (session.publish writer reload) ∧
      Honest (.publish reload) session (session.publish writer reload) := by
  have hopstamp := writer.opstamp_commit session.projection.writer
  have hcommitted := writer.stamp_commit session.projection.writer
  unfold Session.publish IndexWriter.publish
  generalize writer.commit session.projection.writer = commit at hopstamp hcommitted
  rcases commit with ⟨w, result⟩
  dsimp only at hopstamp hcommitted
  have hstaged : Waits source writer
      { session with projection := { session.projection with writer := w } } :=
    { h with
      stamped := fun p stamp hstamp => (h.stamped p stamp hstamp).trans hopstamp
      published := h.published.trans hopstamp }
  have hquiet : Honest (.publish reload) session
      { session with projection := { session.projection with writer := w } } :=
    honest_quiet rfl rfl (fun _ hcommitted => absurd hcommitted ne_cons_self)
      fun _ => SessionStep.noConfusion
  cases result with
  | error error => exact ⟨hstaged, hquiet⟩
  | ok committed =>
      cases reload with
      | error error => exact ⟨hstaged, hquiet⟩
      | ok reloaded =>
          have hstamp := hcommitted committed rfl
          constructor
          · exact { hstaged with
              released := fun entry hentry =>
                (h.released entry hentry).trans (le_max_left _ _)
              unreleased := fun c hc => by
                rcases List.mem_cons.mp hc with rfl | hc
                · exact le_max_right _ _
                · exact (h.unreleased c hc).trans (le_max_left _ _)
              published := max_le hstaged.published hstamp.2 }
          · refine honest_quiet ?_ ?_ ?_ fun _ => SessionStep.noConfusion
            · rfl
            · rfl
            · intro c hc p stamp hstamped
              rw [← (List.cons.inj hc).1]
              exact (h.stamped p stamp hstamped).trans hstamp.1

theorem mem_upserts {index : VaultIndex} (h : Consistent source index) {committed : ℕ}
    {entry : OsString × ℕ} :
    entry ∈ (index.publishEmbeddingUpserts committed).2 ↔
      index.waitingForLexical.lookup entry.1 = some entry.2 ∧ entry.2 ≤ committed := by
  unfold publishEmbeddingUpserts readyUpserts
  rw [List.mem_filter, List.mem_mergeSort, List.mem_filter, Table.mem_toPairs, decide_eq_true_eq]
  constructor
  · intro hentry
    exact hentry.1
  · intro hentry
    exact ⟨hentry, h.waiting entry.1 (by rw [hentry.1]; rfl)⟩

theorem nodup_upserts (index : VaultIndex) (committed : ℕ) :
    (index.publishEmbeddingUpserts committed).2.Nodup := by
  unfold publishEmbeddingUpserts readyUpserts
  apply List.Nodup.filter
  exact (List.mergeSort_perm _ _).nodup_iff.mpr ((Table.nodup_toPairs _).filter _)

/-- Every path that waits for a stamp that is committed is released. -/
theorem Waits.release (h : Waits source writer session) {committed : ℕ}
    (hmem : committed ∈ session.unreleased) :
    Waits source writer (session.release committed) ∧
      Honest (.release committed) session (session.release committed) := by
  have hpublished := h.unreleased committed hmem
  have hupserts : ∀ entry ∈ (session.projection.index.publishEmbeddingUpserts committed).2,
      session.projection.index.waitingForLexical.lookup entry.1 = some entry.2 ∧
        entry.2 ≤ committed :=
    fun entry => (mem_upserts h.consistent).mp
  have hleft : ∀ p stamp,
      (session.release committed).projection.index.waitingForLexical.lookup p = some stamp ↔
        session.projection.index.waitingForLexical.lookup p = some stamp ∧ ¬stamp ≤ committed := by
    intro p stamp
    have hlookup := Table.lookup_filter (fun _ stamp => !decide (stamp ≤ committed))
      session.projection.index.waitingForLexical p
    rw [show (session.release committed).projection.index.waitingForLexical =
      session.projection.index.waitingForLexical.filter
        fun _ stamp => !decide (stamp ≤ committed) from rfl, hlookup, Option.filter_eq_some_iff]
    simp
  have hwaits : Waits source writer (session.release committed) := by
    constructor
    case consistent =>
      exact { h.consistent with
        waiting := fun p hp => by
          rcases Option.isSome_iff_exists.mp hp with ⟨stamp, hstamp⟩
          exact h.consistent.waiting p (by rw [((hleft p stamp).mp hstamp).1]; rfl) }
    case live => exact h.live
    case stamped => exact h.stamped
    case waiting =>
      intro p stamp hstamp
      have hwaiting := (hleft p stamp).mp hstamp
      have hheld := h.waiting p stamp hwaiting.1
      refine ⟨hheld.1, ?_⟩
      intro hreleased
      rcases List.mem_append.mp hreleased with hreleased | hreleased
      · exact hheld.2 hreleased
      · exact hwaiting.2 (hupserts _ hreleased).2
    case accounted =>
      intro p stamp hstamp
      rcases h.accounted p stamp hstamp with hwaiting | hreleased
      · by_cases hle : stamp ≤ committed
        · exact .inr (List.mem_append_right _ ((mem_upserts h.consistent).mpr ⟨hwaiting, hle⟩))
        · exact .inl ((hleft p stamp).mpr ⟨hwaiting, hle⟩)
      · exact .inr (List.mem_append_left _ hreleased)
    case released =>
      intro entry hentry
      rcases List.mem_append.mp hentry with hentry | hentry
      · exact h.released entry hentry
      · exact (hupserts entry hentry).2.trans hpublished
    case unreleased => exact fun c hc => h.unreleased c (List.mem_of_mem_erase hc)
    case published => exact h.published
    case once =>
      apply List.nodup_append'.mpr
      refine ⟨h.once, nodup_upserts _ _, ?_⟩
      intro entry hreleased hentry
      exact (h.waiting entry.1 entry.2 (hupserts entry hentry).1).2 hreleased
  refine ⟨hwaits, ?_, ?_, ?_, ?_⟩
  · refine ⟨_, rfl, ?_⟩
    intro change hchange stamp hstamp hlate
    rcases List.mem_map.mp hchange with ⟨entry, hentry, rfl⟩
    have hstamped := (h.waiting entry.1 entry.2 (hupserts entry hentry).1).1
    have hsame : entry.2 = stamp := Option.some.inj (hstamped.symm.trans hstamp)
    have hle := (hupserts entry hentry).2.trans hpublished
    rw [hsame] at hle
    exact absurd hle (Nat.not_le.mpr hlate)
  · refine ⟨_, rfl, ?_⟩
    intro entry hentry
    have hwaiting := hupserts entry hentry
    have hstamped := (h.waiting entry.1 entry.2 hwaiting.1).1
    exact ⟨h.live _ _ hstamped, hstamped, committed, hmem, rfl, hwaiting.2⟩
  · intro c hc
    have hlength := congrArg List.length hc
    rw [List.length_cons] at hlength
    have herased : (session.release committed).unreleased.length ≤ session.unreleased.length :=
      List.length_erase_le
    omega
  · intro c hrelease p stamp hstamp hle
    rw [SessionStep.release.injEq] at hrelease
    apply List.count_eq_one_of_mem hwaits.once
    rcases hwaits.accounted p stamp hstamp with hwaiting | hreleased
    · rw [← hrelease] at hle
      exact absurd hle ((hleft p stamp).mp hwaiting).2
    · exact hreleased

/-! ## Every run -/

theorem Waits.step (h : Waits source writer session) (exclude : ExcludeSet) {action : SessionStep}
    (haction : Logical action)
    (hstep : Session.step source exclude writer action session = some next) :
    Waits source writer next ∧ Honest action session next := by
  cases action with
  | call c watched =>
      rcases h.call exclude c watched haction with ⟨other, hother, hkept⟩
      rw [Session.step, hother, Option.some.injEq] at hstep
      rwa [← hstep]
  | unchanged path revision stat current =>
      rw [← Option.some.inj hstep]
      exact h.unchanged path revision stat current
  | publish reload =>
      rw [← Option.some.inj hstep]
      exact h.publish reload
  | release committed =>
      rw [Session.step] at hstep
      by_cases hmem : committed ∈ session.unreleased
      · rw [if_pos hmem, Option.some.injEq] at hstep
        rw [← hstep]
        exact h.release hmem
      · rw [if_neg hmem] at hstep
        contradiction

theorem Fresh.waits (h : Fresh source writer session) : Waits source writer session where
  consistent := h.consistent
  live p stamp hstamp := by
    rw [h.stamps, AList.lookup_empty] at hstamp
    contradiction
  stamped p stamp hstamp := by
    rw [h.stamps, AList.lookup_empty] at hstamp
    contradiction
  waiting p stamp hstamp := by
    rw [h.waiting, AList.lookup_empty] at hstamp
    contradiction
  accounted p stamp hstamp := by
    rw [h.stamps, AList.lookup_empty] at hstamp
    contradiction
  released entry hentry := by
    rw [h.released] at hentry
    exact absurd hentry List.not_mem_nil
  unreleased c hc := by
    rw [h.unreleased] at hc
    exact absurd hc List.not_mem_nil
  published := h.published
  once := by
    rw [h.released]
    exact List.nodup_nil

theorem Waits.reached {start : Session W} (h : Waits source writer start)
    (hreached : Reached (fun s => s = start) (Steps source exclude writer) session) :
    Waits source writer session := by
  apply hreached.invariant
  · intro s hs
    rwa [hs]
  · intro s t _ hwaits hstep
    rcases hstep with ⟨action, haction, hstep⟩
    exact (hwaits.step exclude haction hstep).1

/-- In every interleaving of calls, publications and releases nothing is released before its latest
document is published, and after a release every latest document that is covered has been released
exactly once. -/
theorem embedding_waits (source : NoteSource) (exclude : ExcludeSet) (writer : IndexWriter W)
    {start session : Session W} (h : Fresh source writer start)
    (hreached : Reached (fun s => s = start) (Steps source exclude writer) session) :
    session.released.Nodup ∧
      (∀ c watched, logicalSeparators c.path = c.path →
        (session.call source exclude writer c watched).isSome) ∧
      ∀ action next, Logical action →
        Session.step source exclude writer action session = some next →
          Honest action session next := by
  have hwaits := h.waits.reached hreached
  refine ⟨hwaits.once, ?_, ?_⟩
  · intro c watched hpath
    rcases hwaits.call exclude c watched hpath with ⟨next, hnext, -⟩
    rw [hnext]
    rfl
  · intro action next haction hstep
    exact (hwaits.step exclude haction hstep).2

def emptySession : Session (ℕ × List Document) :=
  ⟨⟨empty, (0, [])⟩, [], [], 0, ∅, []⟩

/-- An observed note waits, and the release that follows its publication upserts it. -/
theorem published_note_released : ∃ session,
    Reached (fun s => s = emptySession) (Steps plainSource noExclusions memoryWriter) session ∧
      session.released = [(soleNote, 2)] ∧ session.released.Nodup := by
  let observe := SessionStep.call (.observe soleNote (some "x".toList) ⟨1, none, none⟩) false
  have hlogical : logicalSeparators soleNote = soleNote := by decide +kernel
  have hfresh : Fresh plainSource memoryWriter emptySession :=
    ⟨holds_empty.consistent, rfl, rfl, rfl, rfl, Nat.zero_le _⟩
  have hrun : (((emptySession.step plainSource noExclusions memoryWriter observe).bind
      (Session.step plainSource noExclusions memoryWriter (.publish (.ok ())))).bind
        (Session.step plainSource noExclusions memoryWriter (.release 3))).map Session.released =
          some [(soleNote, 2)] := by
    decide +kernel
  rcases Option.map_eq_some_iff.mp hrun with ⟨session, hsession, hreleased⟩
  rcases Option.bind_eq_some_iff.mp hsession with ⟨published, hpublished, hlast⟩
  rcases Option.bind_eq_some_iff.mp hpublished with ⟨observed, hobserved, hpublish⟩
  have hreached : Reached (fun s => s = emptySession)
      (Steps plainSource noExclusions memoryWriter) session := by
    refine Reached.next ?_ ⟨.release 3, trivial, hlast⟩
    refine Reached.next ?_ ⟨.publish (.ok ()), trivial, hpublish⟩
    exact .next (.start rfl) ⟨observe, hlogical, hobserved⟩
  exact ⟨session, hreached, hreleased,
    (embedding_waits plainSource noExclusions memoryWriter hfresh hreached).1⟩

end ObsidianMcp.Session
