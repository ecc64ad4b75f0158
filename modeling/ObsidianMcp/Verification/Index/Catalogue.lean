import ObsidianMcp.Verification.Index.ColdBuild
import ObsidianMcp.Verification.Index.Graph

/-! # What the index knows of its notes

Every note is the reading of a source under its own path, and the resolver knows the notes only. -/

namespace ObsidianMcp

open Text

/-! ## The paths that a resolver knows -/

namespace LinkResolver

variable {u : PathText} {paths paths' : OsString → Prop} {resolver : LinkResolver}

/-- A resolver knows paths of a set only, each under its own keys. -/
structure Within (u : PathText) (paths : OsString → Prop) (resolver : LinkResolver) : Prop where
  byPath : ∀ key path, resolver.byPath.lookup key = some path → paths path ∧ pathKey u path = key
  byStem : ∀ stem path, path ∈ (resolver.byStem.lookup stem).getD [] →
    paths path ∧ stemKey u path = stem

theorem within_empty (u : PathText) (paths : OsString → Prop) : Within u paths ⟨∅, ∅⟩ := by
  constructor
  · intro key path h
    simp at h
  · intro stem path h
    simp at h

theorem Within.mono (h : Within u paths resolver) (hle : ∀ path, paths path → paths' path) :
    Within u paths' resolver where
  byPath key path hkey := (h.byPath key path hkey).imp_left (hle path)
  byStem stem path hstem := (h.byStem stem path hstem).imp_left (hle path)

theorem Within.insert (h : Within u paths resolver) {path : OsString} (hpath : paths path) :
    Within u paths (resolver.insert u path) := by
  constructor
  · intro key p hkey
    by_cases hk : key = pathKey u path
    · subst hk
      simp only [LinkResolver.insert, AList.lookup_insert, Option.some.injEq] at hkey
      subst hkey
      exact ⟨hpath, rfl⟩
    · rw [LinkResolver.insert, AList.lookup_insert_ne hk] at hkey
      exact h.byPath key p hkey
  · intro stem p hstem
    by_cases hs : stem = stemKey u path
    · subst hs
      simp only [LinkResolver.insert, AList.lookup_insert, Option.getD_some, List.mem_append,
        List.mem_singleton] at hstem
      obtain hp | rfl := hstem
      · exact h.byStem _ p hp
      · exact ⟨hpath, rfl⟩
    · rw [LinkResolver.insert, AList.lookup_insert_ne hs] at hstem
      exact h.byStem stem p hstem

/-- A removed path is known no more. -/
theorem Within.removePath (h : Within u paths resolver) (path : OsString) :
    Within u (fun p => paths p ∧ p ≠ path) (resolver.removePath u path) := by
  constructor
  · intro key p hkey
    by_cases hk : key = pathKey u path
    · subst hk
      simp [LinkResolver.removePath] at hkey
    · rw [LinkResolver.removePath, AList.lookup_erase_ne hk] at hkey
      obtain ⟨hp, hpk⟩ := h.byPath key p hkey
      refine ⟨⟨hp, ?_⟩, hpk⟩
      rintro rfl
      exact hk hpk.symm
  · intro stem p hstem
    rw [LinkResolver.removePath, lookup_removeStem] at hstem
    by_cases hs : stem = stemKey u path
    · rw [if_pos hs, List.mem_filter] at hstem
      obtain ⟨hp, hpk⟩ := h.byStem stem p hstem.1
      exact ⟨⟨hp, by simpa using hstem.2⟩, hpk⟩
    · rw [if_neg hs] at hstem
      obtain ⟨hp, hpk⟩ := h.byStem stem p hstem
      refine ⟨⟨hp, ?_⟩, hpk⟩
      rintro rfl
      exact hs hpk.symm

theorem within_build (u : PathText) (listing : List OsString) :
    Within u (· ∈ listing) (build u listing) := by
  induction listing using List.reverseRecOn with
  | nil => exact within_empty u _
  | append_singleton listing path ih =>
      rw [build, List.foldl_concat]
      apply (ih.mono _).insert
      · simp
      · intro p hp
        simp [hp]

/-- What a target resolves to is a path of the set. -/
theorem Within.resolve (h : Within u paths resolver) {target : Text} {path : OsString}
    (hresolve : resolver.resolve u target = some path) : paths path := by
  simp only [LinkResolver.resolve] at hresolve
  split_ifs at hresolve with hempty hslash
  · exact (h.byPath _ path hresolve).1
  · obtain ⟨candidates, hlookup, hsingle⟩ := Option.bind_eq_some_iff.mp hresolve
    refine (h.byStem (normalizeTarget u target) path ?_).1
    rw [hlookup, Option.getD_some]
    cases candidates with
    | nil => simp [single] at hsingle
    | cons p rest =>
        cases rest with
        | nil => simpa [single, eq_comm] using hsingle
        | cons q rest => simp [single] at hsingle

end LinkResolver

namespace VaultIndex

variable {source : NoteSource} {exclude : ExcludeSet} {index next : VaultIndex} {path : OsString}

/-! ## One change of the notes -/

/-- A note is the reading of some content under a path. -/
def ReadFrom (source : NoteSource) (path : OsString) (note : NoteMetadata) : Prop :=
  ∃ content, parseNoteMetadata source path content note.stat = .ok note

/-- What a change does to the notes and to the resolver. -/
inductive NoteStep (source : NoteSource) (index next : VaultIndex) : Prop
  | kept (hnotes : next.notes = index.notes) (hresolver : next.linkResolver = index.linkResolver)
  | removed (path : OsString) (hnotes : next.notes = index.notes.erase path)
      (hresolver : next.linkResolver = index.linkResolver.removePath source.text path)
  | added (path : OsString) (note : NoteMetadata) (hpath : logicalSeparators path = path)
      (hread : ReadFrom source path note) (hnotes : next.notes = index.notes.insert path note)
      (hresolver : next.linkResolver = index.linkResolver.addPath source.text path)
  | changed (path : OsString) (note : NoteMetadata) (hold : (index.notes.lookup path).isSome)
      (hread : ReadFrom source path note) (hnotes : next.notes = index.notes.insert path note)
      (hresolver : next.linkResolver = index.linkResolver)
  | restated (path : OsString) (note : NoteMetadata) (stat : FileStat)
      (hold : index.notes.lookup path = some note)
      (hnotes : next.notes = index.notes.insert path { note with stat := stat })
      (hresolver : next.linkResolver = index.linkResolver)

/-- Changes one after the other. -/
abbrev NoteSteps (source : NoteSource) : VaultIndex → VaultIndex → Prop :=
  Relation.ReflTransGen (NoteStep source)

/-- Notes are readings under their own portable paths, and the resolver knows nothing else. -/
structure Catalogued (source : NoteSource) (index : VaultIndex) : Prop where
  read : ∀ path note, index.notes.lookup path = some note → ReadFrom source path note
  portable : ∀ path, (index.notes.lookup path).isSome → logicalSeparators path = path
  within : index.linkResolver.Within source.text fun path => (index.notes.lookup path).isSome

theorem ReadFrom.restat {note : NoteMetadata} (h : ReadFrom source path note) (stat : FileStat) :
    ReadFrom source path { note with stat := stat } := by
  obtain ⟨content, hparse⟩ := h
  refine ⟨content, ?_⟩
  rw [parseNoteMetadata] at hparse ⊢
  cases hfront : parseFrontmatter source.yaml content with
  | error error =>
      rw [hfront] at hparse
      contradiction
  | ok frontmatter =>
      rw [hfront] at hparse
      rw [← Except.ok.inj hparse]

/-- A note that takes the place of another. -/
theorem Catalogued.insert {note : NoteMetadata} (h : Catalogued source index)
    (hpath : logicalSeparators path = path) (hread : ReadFrom source path note)
    (hnotes : next.notes = index.notes.insert path note)
    (hwithin : next.linkResolver.Within source.text
      fun p => (index.notes.lookup p).isSome ∨ p = path) : Catalogued source next := by
  have hlookup : ∀ p, p ≠ path → next.notes.lookup p = index.notes.lookup p := by
    intro p hp
    rw [hnotes, AList.lookup_insert_ne hp]
  constructor
  · intro p found hfound
    by_cases hp : p = path
    · subst hp
      rw [hnotes, AList.lookup_insert, Option.some.injEq] at hfound
      rwa [← hfound]
    · exact h.read p found (by rw [← hlookup p hp, hfound])
  · intro p hsome
    by_cases hp : p = path
    · rwa [hp]
    · exact h.portable p (by rwa [← hlookup p hp])
  · apply hwithin.mono
    intro p hsome
    by_cases hp : p = path
    · subst hp
      simp [hnotes]
    · rw [hlookup p hp]
      exact hsome.resolve_right hp

theorem NoteStep.catalogued (hstep : NoteStep source index next) (h : Catalogued source index) :
    Catalogued source next := by
  cases hstep with
  | kept hnotes hresolver =>
      constructor
      · rw [hnotes]
        exact h.read
      · rw [hnotes]
        exact h.portable
      · rw [hnotes, hresolver]
        exact h.within
  | removed path hnotes hresolver =>
      have hlookup : ∀ p note, next.notes.lookup p = some note →
          index.notes.lookup p = some note := by
        intro p note hnote
        by_cases hp : p = path
        · subst hp
          simp [hnotes] at hnote
        · rwa [hnotes, AList.lookup_erase_ne hp] at hnote
      constructor
      · exact fun p note hnote => h.read p note (hlookup p note hnote)
      · intro p hsome
        obtain ⟨note, hnote⟩ := Option.isSome_iff_exists.mp hsome
        exact h.portable p (by rw [hlookup p note hnote]; rfl)
      · rw [hresolver]
        apply (h.within.removePath path).mono
        intro p hp
        rw [hnotes, AList.lookup_erase_ne hp.2]
        exact hp.1
  | added path note hpath hread hnotes hresolver =>
      apply h.insert hpath hread hnotes
      rw [hresolver]
      exact (h.within.mono fun p hp => .inl hp).insert (.inr rfl)
  | changed path note hold hread hnotes hresolver =>
      apply h.insert (h.portable path hold) hread hnotes
      rw [hresolver]
      exact h.within.mono fun p hp => .inl hp
  | restated path note stat hold hnotes hresolver =>
      apply h.insert (h.portable path (by rw [hold]; rfl)) ((h.read path note hold).restat stat)
        hnotes
      rw [hresolver]
      exact h.within.mono fun p hp => .inl hp

theorem NoteSteps.catalogued (hsteps : NoteSteps source index next)
    (h : Catalogued source index) : Catalogued source next := by
  induction hsteps with
  | refl => exact h
  | tail _ hstep ih => exact hstep.catalogued ih

/-! ## Operations -/

theorem SameGraph.noteSteps (h : SameGraph index next) : NoteSteps source index next :=
  .single (.kept h.notes h.linkResolver)

theorem unlinkNote_notes (source : NoteSource) (path : OsString) (index : VaultIndex) :
    (index.unlinkNote source path).notes = index.notes ∧
      (index.unlinkNote source path).linkResolver =
        index.linkResolver.removePath source.text path := by
  simp only [unlinkNote]
  split_ifs
  · exact ⟨rfl, rfl⟩
  · exact ⟨rfl, rfl⟩

theorem removeFile_noteSteps (hremove : index.removeFile source path = some next) :
    NoteSteps source index next := by
  obtain ⟨detached, unnoted, hkept, hunnoted, rfl⟩ := removeFile_cases hremove
  apply hkept.noteSteps.tail
  cases hnote : detached.notes.lookup (logicalSeparators path) with
  | none =>
      exact .kept (hunnoted.notes.trans (Table.erase_of_lookup_eq_none hnote))
        hunnoted.linkResolver
  | some note =>
      obtain ⟨hnotes, hresolver⟩ :=
        unlinkNote_notes source (logicalSeparators path) unnoted
      rw [Option.isSome_some, if_pos rfl]
      exact .removed (logicalSeparators path) (hnotes.trans hunnoted.notes)
        (by rw [hresolver, hunnoted.linkResolver])

theorem linkNote_notes (source : NoteSource) (path : OsString) (old : Option NoteMetadata)
    (wasExisting : Bool) (index : VaultIndex) :
    (index.linkNote source path old wasExisting).notes = index.notes ∧
      (index.linkNote source path old wasExisting).linkResolver =
        if wasExisting then index.linkResolver
        else index.linkResolver.addPath source.text path := by
  cases wasExisting with
  | false =>
      simp only [linkNote, Bool.false_eq_true, if_false]
      split_ifs
      · exact ⟨rfl, rfl⟩
      · exact ⟨rfl, rfl⟩
  | true =>
      simp only [linkNote, if_true]
      split_ifs
      · exact ⟨rfl, rfl⟩
      · exact ⟨rfl, rfl⟩

theorem replaceNote_noteSteps {note : NoteMetadata} {total : ℕ}
    (hpath : logicalSeparators path = path) (hread : ReadFrom source path note)
    (hreplace : index.replaceNote source path note total = some next) :
    NoteSteps source index next := by
  obtain ⟨detached, unnoted, hkept, hunnoted, rfl⟩ := replaceNote_cases hreplace
  obtain ⟨hnotes, hresolver⟩ := linkNote_notes source path (index.notes.lookup path)
    (index.notes.lookup path).isSome (unnoted.storeNote source path note total)
  have hstored : (unnoted.storeNote source path note total).notes =
      index.notes.insert path note := by
    rw [storeNote, hunnoted.notes, hkept.notes, insert_erase]
  have hkeptResolver : (unnoted.storeNote source path note total).linkResolver =
      index.linkResolver := hunnoted.linkResolver.trans hkept.linkResolver
  rw [hstored] at hnotes
  rw [hkeptResolver] at hresolver
  apply Relation.ReflTransGen.single
  by_cases hold : (index.notes.lookup path).isSome = true
  · exact .changed path note hold hread hnotes (by rw [hresolver, if_pos hold])
  · exact .added path note hpath hread hnotes (by rw [hresolver, if_neg hold])

theorem addExcludedFile_noteSteps (hadd : index.addExcludedFile source path = some next) :
    NoteSteps source index next := by
  rw [addExcludedFile] at hadd
  by_cases hmem : logicalSeparators path ∈ index.excludedNotePaths
  · rw [if_pos hmem, Option.some.injEq] at hadd
    rw [hadd]
  · rw [if_neg hmem, Option.map_eq_some_iff] at hadd
    obtain ⟨removed, hremoved, rfl⟩ := hadd
    apply (removeFile_noteSteps hremoved).tail
    split_ifs
    · exact .kept rfl rfl
    · exact .kept rfl rfl

theorem observeAttachment_noteSteps {stat : FileStat} {result : Except VaultError (Option Text)}
    (hobserve : index.observeAttachment source path stat = some (next, result)) :
    NoteSteps source index next := by
  rw [observeAttachment] at hobserve
  by_cases hsame : index.attachments.lookup path = some stat.size
  · rw [if_pos hsame, Option.some.injEq, Prod.mk.injEq] at hobserve
    rw [hobserve.1]
  · rw [if_neg hsame] at hobserve
    cases htotals : index.observedByteTotals source path stat.size true with
    | error error =>
        rw [htotals, Option.some.injEq, Prod.mk.injEq] at hobserve
        rw [hobserve.1]
    | ok totals =>
        rw [htotals, Option.map_eq_some_iff] at hobserve
        obtain ⟨removed, hremoved, heq⟩ := hobserve
        rw [Prod.mk.injEq] at heq
        rw [← heq.1]
        exact (removeFile_noteSteps hremoved).tail (.kept rfl rfl)

/-- The reading of a content is read from it. -/
theorem readFrom_of_parse {content : Text} {stat : FileStat} {note : NoteMetadata}
    (h : parseNoteMetadata source path content stat = .ok note) : ReadFrom source path note := by
  have hstat : note.stat = stat := by
    rw [parseNoteMetadata] at h
    cases hfront : parseFrontmatter source.yaml content with
    | error error =>
        rw [hfront] at h
        contradiction
    | ok frontmatter =>
        rw [hfront] at h
        rw [← Except.ok.inj h]
  exact ⟨content, hstat ▸ h⟩

theorem readFrom_of_indexed {file : VaultFile} {note : NoteMetadata} {content : Text}
    (h : readIndexedNote source file = .ok (note, content)) :
    ReadFrom source file.path note := by
  rw [readIndexedNote] at h
  cases hcontent : file.content with
  | error error =>
      rw [hcontent] at h
      contradiction
  | ok text =>
      cases hparse : parseNoteMetadata source file.path text file.stat with
      | error error => simp [hcontent, hparse, bind, Except.bind] at h
      | ok parsed =>
          simp only [hcontent, hparse, bind, Except.bind, pure, Except.pure, Except.ok.injEq,
            Prod.mk.injEq] at h
          rw [← h.1]
          exact readFrom_of_parse hparse

theorem observeNote_noteSteps {content : Text} {stat : FileStat}
    {result : Except VaultError (Option Text)} (hpath : logicalSeparators path = path)
    (hobserve : index.observeNote source path content stat = some (next, result)) :
    NoteSteps source index next := by
  rw [observeNote] at hobserve
  cases hnote : parseNoteMetadata source path content stat with
  | error error =>
      rw [hnote, Option.some.injEq, Prod.mk.injEq] at hobserve
      rw [hobserve.1]
  | ok note =>
      rw [hnote] at hobserve
      dsimp only at hobserve
      cases htotals : index.observedByteTotals source path note.stat.size false with
      | error error =>
          rw [htotals, Option.some.injEq, Prod.mk.injEq] at hobserve
          rw [hobserve.1]
      | ok totals =>
          rw [htotals, Option.map_eq_some_iff] at hobserve
          obtain ⟨replaced, hreplaced, heq⟩ := hobserve
          rw [Prod.mk.injEq] at heq
          rw [← heq.1]
          exact (replaceNote_noteSteps hpath (readFrom_of_parse hnote) hreplaced).tail
            (.kept rfl rfl)

theorem updateObservation_noteSteps {content : Option Text} {stat : FileStat}
    {result : Except VaultError (Option Text)} (hpath : logicalSeparators path = path)
    (hupdate : index.updateObservation source exclude path content stat = some (next, result)) :
    NoteSteps source index next := by
  have hexcluded : (index.addExcludedFile source path).map
      (·, Except.ok (ε := VaultError) (none : Option Text)) = some (next, result) →
        NoteSteps source index next := by
    intro hadd
    obtain ⟨added, hadded, heq⟩ := Option.map_eq_some_iff.mp hadd
    rw [← (Prod.mk.inj heq).1]
    exact addExcludedFile_noteSteps hadded
  unfold updateObservation at hupdate
  by_cases hvisible : isVisiblePath path = true
  · rw [hvisible] at hupdate
    cases hclass : classify path exclude with
    | attachment =>
        rw [hclass] at hupdate
        exact observeAttachment_noteSteps hupdate
    | excluded =>
        rw [hclass] at hupdate
        exact hexcluded hupdate
    | note =>
        rw [hclass] at hupdate
        cases content with
        | none =>
            rw [(Prod.mk.inj (Option.some.inj hupdate)).1]
        | some content =>
            dsimp only at hupdate
            by_cases hallowed : exclude.allowsSource path content = true
            · rw [hallowed] at hupdate
              exact observeNote_noteSteps hpath hupdate
            · rw [Bool.eq_false_iff.mpr hallowed] at hupdate
              exact hexcluded hupdate
  · rw [Bool.eq_false_iff.mpr hvisible] at hupdate
    obtain ⟨removed, hremoved, heq⟩ := Option.map_eq_some_iff.mp hupdate
    rw [← (Prod.mk.inj heq).1]
    exact removeFile_noteSteps hremoved

theorem finishLexical_noteSteps {wasNote : Bool} {update : Except VaultError (Option Text)}
    {lexical : Option Lexical} {embeddingsEnabled : Bool} {result : Except VaultError Bool}
    (hfinish : index.finishLexical source path wasNote update lexical embeddingsEnabled =
      some (next, result)) : NoteSteps source index next := by
  rw [finishLexical] at hfinish
  cases hstep : index.lexicalStep path wasNote update.toOption.join lexical with
  | unchanged =>
      rw [hstep] at hfinish
      rw [(Prod.mk.inj (Option.some.inj hfinish)).1]
  | removed =>
      rw [hstep] at hfinish
      rw [(Prod.mk.inj (Option.some.inj hfinish)).1]
  | replaced stamp =>
      rw [hstep] at hfinish
      rw [← (Prod.mk.inj (Option.some.inj hfinish)).1]
      exact .single (.kept rfl rfl)
  | failed error =>
      rw [hstep] at hfinish
      obtain ⟨removed, hremoved, heq⟩ := Option.map_eq_some_iff.mp hfinish
      rw [← (Prod.mk.inj heq).1]
      exact removeFile_noteSteps hremoved

theorem applyObservation_noteSteps {content : Option Text} {stat : FileStat}
    {lexical : Option Lexical} {embeddingsEnabled : Bool} {result : Except VaultError Bool}
    (hpath : logicalSeparators path = path)
    (happly : index.applyObservation source exclude path content stat lexical embeddingsEnabled =
      some (next, result)) : NoteSteps source index next := by
  rw [applyObservation] at happly
  obtain ⟨⟨updated, outcome⟩, hupdate, hfinish⟩ := Option.bind_eq_some_iff.mp happly
  have hsteps := updateObservation_noteSteps hpath hupdate
  cases outcome with
  | ok content => exact hsteps.trans (finishLexical_noteSteps hfinish)
  | error error =>
      rw [finishRefresh] at hfinish
      by_cases hlimit : isResourceLimit error = true
      · rw [if_pos hlimit] at hfinish
        rw [← (Prod.mk.inj (Option.some.inj hfinish)).1]
        exact hsteps.tail (.kept rfl rfl)
      · rw [if_neg hlimit] at hfinish
        obtain ⟨removed, hremoved, hfinish⟩ := Option.bind_eq_some_iff.mp hfinish
        exact (hsteps.trans (removeFile_noteSteps hremoved)).trans
          (finishLexical_noteSteps hfinish)

theorem refreshUnchangedNote_noteSteps (source : NoteSource) (path : OsString) (revision : Text)
    (stat : FileStat) (index : VaultIndex) :
    NoteSteps source index (index.refreshUnchangedNote source path revision stat).1 := by
  rw [refreshUnchangedNote]
  cases hnote : index.notes.lookup path with
  | none => exact .refl
  | some note =>
      dsimp only
      by_cases hrevision : index.sourceRevisions.lookup path ≠ some revision
      · rw [if_pos hrevision]
      · rw [if_neg hrevision]
        cases index.observedByteTotals source path stat.size false with
        | error error => exact .single (.kept rfl rfl)
        | ok totals => exact .single (.restated path note stat hnote rfl rfl)

/-- The path of an operation is spelled as storage spells it. -/
def Operation.Portable (operation : Operation) : Prop :=
  ∀ path, operation.path = some path → logicalSeparators path = path

theorem Operation.apply_noteSteps {operation : Operation} (hportable : operation.Portable)
    (happly : operation.apply source exclude index = some next) :
    NoteSteps source index next := by
  cases operation with
  | observe path content stat lexical embeddingsEnabled =>
      obtain ⟨applied, happlied, rfl⟩ := Option.map_eq_some_iff.mp happly
      exact applyObservation_noteSteps (hportable path rfl) happlied
  | refresh path revision stat =>
      rw [← Option.some.inj happly]
      exact refreshUnchangedNote_noteSteps source path revision stat index
  | remove path lexical =>
      obtain ⟨applied, happlied, rfl⟩ := Option.map_eq_some_iff.mp happly
      obtain ⟨removed, hremoved, rfl⟩ := Option.map_eq_some_iff.mp happlied
      exact removeFile_noteSteps hremoved
  | exclude path => exact addExcludedFile_noteSteps happly
  | beginBatch =>
      rw [← Option.some.inj happly]
      exact .single (.kept rfl rfl)
  | finishBatch =>
      rw [← Option.some.inj happly, finishSourceBatch]
      split_ifs
      · exact .single (.kept rfl rfl)
      · exact .refl

theorem run_noteSteps {operations : List Operation}
    (hportable : ∀ operation ∈ operations, operation.Portable)
    (hrun : run source exclude operations index = some next) : NoteSteps source index next := by
  induction operations using List.reverseRecOn generalizing next with
  | nil => rw [Option.some.inj hrun]
  | append_singleton operations operation ih =>
      rw [run_concat] at hrun
      obtain ⟨before, hbefore, happly⟩ := Option.bind_eq_some_iff.mp hrun
      have hsteps := ih (fun earlier hearlier => hportable earlier (by simp [hearlier])) hbefore
      exact hsteps.trans (Operation.apply_noteSteps (hportable operation (by simp)) happly)

/-! ## Runs -/

/-- Every note of a walk is read from the file at its path. -/
theorem buildFile_read {indexContent : NoteMetadata → Text → Except VaultError Unit}
    {state built : ℕ × VaultIndex} {file : VaultFile}
    (h : ∀ p note, state.2.notes.lookup p = some note → ReadFrom source p note)
    (hok : buildFile source exclude indexContent state file = .ok built) :
    ∀ p note, built.2.notes.lookup p = some note → ReadFrom source p note := by
  obtain ⟨bytes, index⟩ := state
  unfold buildFile at hok
  dsimp only at h hok
  cases hclass : classify file.path exclude with
  | excluded =>
      rw [hclass] at hok
      rwa [← Except.ok.inj hok]
  | attachment =>
      rw [hclass] at hok
      dsimp only at hok
      cases htotal : checkedAdd bytes file.stat.size with
      | none =>
          rw [htotal] at hok
          contradiction
      | some total =>
          cases hattachments : checkedAdd index.attachmentBytes file.stat.size with
          | none =>
              rw [htotal, hattachments] at hok
              contradiction
          | some attachments =>
              rw [htotal, hattachments] at hok
              rwa [← Except.ok.inj hok]
  | note =>
      rw [hclass] at hok
      dsimp only at hok
      cases hread : readIndexedNote source file with
      | error error =>
          rw [hread] at hok
          rwa [← Except.ok.inj hok]
      | ok found =>
          obtain ⟨note, content⟩ := found
          rw [hread] at hok
          dsimp only at hok
          by_cases hallowed : exclude.allowsSource file.path content = true
          · rw [hallowed] at hok
            simp only [Bool.not_true, Bool.false_eq_true, if_false] at hok
            cases htotal : checkedAdd bytes note.stat.size with
            | none =>
                rw [htotal] at hok
                contradiction
            | some total =>
                rw [htotal] at hok
                dsimp only at hok
                cases hindexed : indexContent note content with
                | error error =>
                    rw [hindexed] at hok
                    contradiction
                | ok indexed =>
                    rw [hindexed] at hok
                    rw [← Except.ok.inj hok]
                    intro p found hfound
                    by_cases hp : p = file.path
                    · subst hp
                      rw [AList.lookup_insert, Option.some.injEq] at hfound
                      subst hfound
                      exact readFrom_of_indexed hread
                    · rw [AList.lookup_insert_ne hp] at hfound
                      exact h p found hfound
          · rw [Bool.eq_false_iff.mpr hallowed] at hok
            rwa [← Except.ok.inj hok]

theorem foldlM_read {indexContent : NoteMetadata → Text → Except VaultError Unit}
    {files : List VaultFile} {state built : ℕ × VaultIndex}
    (h : ∀ p note, state.2.notes.lookup p = some note → ReadFrom source p note)
    (hok : files.foldlM (buildFile source exclude indexContent) state = .ok built) :
    ∀ p note, built.2.notes.lookup p = some note → ReadFrom source p note := by
  induction files generalizing state with
  | nil =>
      rw [← Except.ok.inj hok]
      exact h
  | cons file files ih =>
      rw [List.foldlM_cons] at hok
      cases hfile : buildFile source exclude indexContent state file with
      | error error =>
          rw [hfile] at hok
          contradiction
      | ok middle =>
          rw [hfile] at hok
          exact ih (buildFile_read h hfile) hok

/-- A cold build knows its notes, and no others. -/
theorem buildSync_catalogued {indexContent : NoteMetadata → Text → Except VaultError Unit}
    {files : List VaultFile}
    (hportable : ∀ path, (index.notes.lookup path).isSome → logicalSeparators path = path)
    (h : buildSync source exclude indexContent files = .ok index) : Catalogued source index := by
  rw [buildSync] at h
  cases hfold : files.foldlM (buildFile source exclude indexContent) (0, empty) with
  | error error =>
      rw [hfold] at h
      contradiction
  | ok state =>
      rw [hfold] at h
      have hbuilt := Except.ok.inj h
      have hnotes : index.notes = state.2.notes := by
        rw [← hbuilt]
        rfl
      have hread : ∀ p note, index.notes.lookup p = some note → ReadFrom source p note := by
        rw [hnotes]
        exact foldlM_read (by simp [empty]) hfold
      have hresolver : index.linkResolver = LinkResolver.build source.text
          (state.2.notes.toPairs.map fun entry => entry.2.path) := by
        rw [← hbuilt]
        rfl
      refine ⟨hread, hportable, ?_⟩
      rw [hresolver]
      apply (LinkResolver.within_build _ _).mono
      intro path hpath
      obtain ⟨⟨key, note⟩, hentry, rfl⟩ := List.mem_map.mp hpath
      have hlookup := Table.mem_toPairs.mp hentry
      rw [← hnotes] at hlookup
      obtain ⟨content, hparse⟩ := hread key note hlookup
      rw [path_of_parse hparse, hlookup]
      rfl

theorem Started.catalogued (h : Started source exclude index)
    (hportable : ∀ path, (index.notes.lookup path).isSome → logicalSeparators path = path) :
    Catalogued source index := by
  cases h with
  | empty =>
      refine ⟨?_, hportable, LinkResolver.within_empty _ _⟩
      intro path note hnote
      simp [VaultIndex.empty] at hnote
  | built h => exact buildSync_catalogued hportable h

/-- After any run, the index knows its notes and no others. -/
theorem run_catalogued {operations : List Operation} (h : Catalogued source index)
    (hportable : ∀ operation ∈ operations, operation.Portable)
    (hrun : run source exclude operations index = some next) : Catalogued source next :=
  NoteSteps.catalogued (run_noteSteps hportable hrun) h

end VaultIndex

end ObsidianMcp
