import ObsidianMcp.Verification.Index.Graph

/-! # The cold build -/

namespace ObsidianMcp.VaultIndex

open Text

variable {source : NoteSource} {exclude : ExcludeSet} {index next : VaultIndex} {path : OsString}
  {placed : List Placement}

/-! ## The walk -/

/-- What a cold build holds for a file. -/
def builtHeld (source : NoteSource) (exclude : ExcludeSet) (file : VaultFile) : Option Held :=
  match classify file.path exclude with
  | .excluded => some ⟨.excluded, none⟩
  | .attachment => some ⟨.attachment file.stat.size, none⟩
  | .note =>
      match readIndexedNote source file with
      | .error _ => none
      | .ok (metadata, content) =>
          if !exclude.allowsSource file.path content then some ⟨.excluded, none⟩
          else some ⟨.note metadata, some (source.sourceRevision content)⟩

def builtPlacements (source : NoteSource) (exclude : ExcludeSet) (files : List VaultFile) :
    List Placement :=
  files.map fun file => ⟨file.path, builtHeld source exclude file⟩

/-- The index with its totals. -/
def totaled (index : VaultIndex) : VaultIndex :=
  { index with stats := index.recomputeStats }

/-- A walk has taken up what the placements say. -/
structure Built (source : NoteSource) (placed : List Placement) (state : ℕ × VaultIndex) :
    Prop where
  consistent : Consistent source state.2.totaled
  held : ∀ p, state.2.held p = (inventory placed).lookup p
  bytes : state.1 = state.2.recomputeStats.vaultSizeBytes

/-- Nothing is held at a path. -/
structure Fresh (path : OsString) (index : VaultIndex) : Prop where
  notes : index.notes.lookup path = none
  excludedNotePaths : path ∉ index.excludedNotePaths
  attachments : index.attachments.lookup path = none
  sourceRevisions : index.sourceRevisions.lookup path = none

theorem Built.fresh {bytes : ℕ} (h : Built source placed (bytes, index))
    (hnone : (inventory placed).lookup path = none) : Fresh path index := by
  have hheld := h.held path
  rw [hnone, VaultIndex.held, Option.map_eq_none_iff] at hheld
  have hnotes : index.notes.lookup path = none := by
    rw [lookup_notes_eq, hheld]
    rfl
  rw [entryAt_of_no_note hnotes] at hheld
  by_cases hmem : path ∈ index.excludedNotePaths
  · rw [if_pos hmem] at hheld
    contradiction
  · rw [if_neg hmem, Option.map_eq_none_iff] at hheld
    refine ⟨hnotes, hmem, hheld, ?_⟩
    cases hrevision : index.sourceRevisions.lookup path with
    | none => rfl
    | some revision =>
        have hsome := h.consistent.revisions path (by
          rw [totaled, hrevision]
          rfl)
        rw [totaled, hnotes] at hsome
        contradiction

/-- The held entries after one path has received something. -/
theorem held_concat {before after : VaultIndex} {held : Option Held}
    (h : ∀ p, before.held p = (inventory placed).lookup p) (hself : after.held path = held)
    (hrest : ∀ p, p ≠ path → after.held p = before.held p) (p : OsString) :
    after.held p = (inventory (placed ++ [⟨path, held⟩])).lookup p := by
  rw [inventory_concat, Inventory.lookup_place]
  by_cases hp : p = path
  · rw [if_pos hp, hp, hself]
  · rw [if_neg hp, hrest p hp, h]

theorem held_congr {before after : VaultIndex} {p : OsString}
    (hentry : after.entryAt p = before.entryAt p)
    (hrevision : after.sourceRevisions.lookup p = before.sourceRevisions.lookup p) :
    after.held p = before.held p := by
  rw [held, held, hentry, hrevision]

theorem held_eq {entry : Entry} {revision : Option Text} (hentry : index.entryAt path = some entry)
    (hrevision : index.sourceRevisions.lookup path = revision) :
    index.held path = some ⟨entry, revision⟩ := by
  rw [held, hentry, hrevision]
  rfl

theorem Built.excludeFile {bytes : ℕ} (h : Built source placed (bytes, index))
    (hnone : (inventory placed).lookup path = none) :
    Built source (placed ++ [⟨path, some ⟨.excluded, none⟩⟩])
      (bytes, { index with excludedNotePaths := insert path index.excludedNotePaths }) := by
  have hfresh := h.fresh hnone
  have hc := h.consistent
  constructor
  case consistent =>
    exact { hc with
      excluded_not_note := fun p hp => by
        rcases Finset.mem_insert.mp hp with rfl | hp
        · exact hfresh.notes
        · exact hc.excluded_not_note p hp
      excluded_not_attachment := fun p hp => by
        rcases Finset.mem_insert.mp hp with rfl | hp
        · exact hfresh.attachments
        · exact hc.excluded_not_attachment p hp
      stats_eq := rfl
      size_le := hc.size_le }
  case held =>
    apply held_concat h.held
    · exact held_eq (entryAt_of_excluded hfresh.notes (Finset.mem_insert_self _ _))
        hfresh.sourceRevisions
    · intro p hp
      have hmem := Finset.mem_insert.trans (or_iff_right (b := p ∈ index.excludedNotePaths) hp)
      exact held_congr (entryAt_congr rfl hmem rfl) rfl
  case bytes => exact h.bytes

theorem Built.attach {bytes size : ℕ} (h : Built source placed (bytes, index))
    (hnone : (inventory placed).lookup path = none) (hfits : bytes + size ≤ u64Max) :
    Built source (placed ++ [⟨path, some ⟨.attachment size, none⟩⟩])
      (bytes + size, { index with
        attachments := index.attachments.insert path size
        attachmentBytes := index.attachmentBytes + size }) := by
  have hfresh := h.fresh hnone
  have hc := h.consistent
  have hbytes := h.bytes
  constructor
  case consistent =>
    exact { hc with
      note_not_attachment := fun p hp => by
        by_cases heq : p = path
        · rw [heq, totaled, hfresh.notes] at hp
          contradiction
        · exact (AList.lookup_insert_ne heq).trans (hc.note_not_attachment p hp)
      excluded_not_attachment := fun p hp => by
        by_cases heq : p = path
        · rw [heq] at hp
          exact absurd hp hfresh.excludedNotePaths
        · exact (AList.lookup_insert_ne heq).trans (hc.excluded_not_attachment p hp)
      attachmentBytes_eq := by
        have htotal := hc.attachmentBytes_eq
        dsimp only [totaled] at htotal ⊢
        rw [Table.total_insert, Table.erase_of_lookup_eq_none hfresh.attachments, htotal]
        exact Nat.add_comm _ _
      stats_eq := rfl
      size_le := by
        dsimp only [totaled, recomputeStats] at hbytes ⊢
        omega }
  case held =>
    apply held_concat h.held
    · exact held_eq (entryAt_of_attachment hfresh.notes hfresh.excludedNotePaths
        (AList.lookup_insert _)) hfresh.sourceRevisions
    · intro p hp
      exact held_congr (entryAt_congr rfl Iff.rfl (AList.lookup_insert_ne hp)) rfl
  case bytes =>
    dsimp only [recomputeStats] at hbytes ⊢
    omega

theorem Built.addNote {bytes : ℕ} {note : NoteMetadata} {revision : Text}
    (h : Built source placed (bytes, index)) (hnone : (inventory placed).lookup path = none)
    (hfits : bytes + note.stat.size ≤ u64Max) :
    Built source (placed ++ [⟨path, some ⟨.note note, some revision⟩⟩])
      (bytes + note.stat.size, { index with
        tags := addTags source path note.tags index.tags
        sourceRevisions := index.sourceRevisions.insert path revision
        notes := index.notes.insert path note }) := by
  have hfresh := h.fresh hnone
  have hc := h.consistent
  have hbytes := h.bytes
  have herase := Table.erase_of_lookup_eq_none hfresh.notes
  constructor
  case consistent =>
    exact { hc with
      note_not_attachment := fun p hp => by
        by_cases heq : p = path
        · rw [heq]
          exact hfresh.attachments
        · rw [totaled, AList.lookup_insert_ne heq] at hp
          exact hc.note_not_attachment p hp
      excluded_not_note := fun p hp => by
        have heq : p ≠ path := by
          intro heq
          rw [heq] at hp
          exact hfresh.excludedNotePaths hp
        exact (AList.lookup_insert_ne heq).trans (hc.excluded_not_note p hp)
      tags := by
        have hadded := (addTags_exact (herase.symm ▸ hc.tags) path note.tags).congr
          (hasTag_insert note)
        exact hadded
      revisions := fun p hp => by
        by_cases heq : p = path
        · exact lookup_insert_isSome (.inl heq)
        · rw [totaled, AList.lookup_insert_ne heq] at hp
          exact lookup_insert_isSome (.inr (hc.revisions p hp))
      waiting := fun p hp => lookup_insert_isSome (.inr (hc.waiting p hp))
      stats_eq := rfl
      size_le := by
        dsimp only [totaled, recomputeStats] at hbytes ⊢
        rw [Table.total_insert, herase]
        omega }
  case held =>
    apply held_concat h.held
    · exact held_eq (entryAt_of_note (AList.lookup_insert _)) (AList.lookup_insert _)
    · intro p hp
      exact held_congr (entryAt_congr (AList.lookup_insert_ne hp) Iff.rfl rfl)
        (AList.lookup_insert_ne hp)
  case bytes =>
    dsimp only [recomputeStats] at hbytes ⊢
    rw [Table.total_insert, herase]
    omega

theorem Built.skip {state : ℕ × VaultIndex} (h : Built source placed state)
    (hnone : (inventory placed).lookup path = none) :
    Built source (placed ++ [⟨path, none⟩]) state where
  consistent := h.consistent
  held := held_concat h.held ((h.held path).trans hnone) fun _ _ => rfl
  bytes := h.bytes

/-- The bytes that a file adds to a cold build. -/
def builtSize (source : NoteSource) (exclude : ExcludeSet) (file : VaultFile) : ℕ :=
  (builtHeld source exclude file).elim 0 fun held => held.entry.size

variable {indexContent : NoteMetadata → Text → Except VaultError Unit}

theorem checkedAdd_of_le {a b : ℕ} (h : a + b ≤ u64Max) : checkedAdd a b = some (a + b) :=
  if_pos h

theorem buildFile_built {state : ℕ × VaultIndex} (h : Built source placed state)
    (hcontent : ∀ note content, indexContent note content = .ok ()) {file : VaultFile}
    (hnone : (inventory placed).lookup file.path = none)
    (hfits : state.1 + builtSize source exclude file ≤ u64Max) :
    ∃ next, buildFile source exclude indexContent state file = .ok next ∧
      Built source (placed ++ [⟨file.path, builtHeld source exclude file⟩]) next ∧
      next.1 = state.1 + builtSize source exclude file := by
  rcases state with ⟨bytes, index⟩
  rw [builtSize, builtHeld] at hfits
  rw [buildFile, builtSize, builtHeld]
  dsimp only
  cases hclass : classify file.path exclude with
  | excluded => exact ⟨_, rfl, h.excludeFile hnone, rfl⟩
  | attachment =>
      rw [hclass] at hfits
      dsimp only [Option.elim_some, Entry.size] at hfits
      have hattachments : index.attachmentBytes + file.stat.size ≤ u64Max := by
        have hbytes := h.bytes
        dsimp only [recomputeStats] at hbytes
        omega
      dsimp only
      rw [checkedAdd_of_le hfits, checkedAdd_of_le hattachments]
      exact ⟨_, rfl, h.attach hnone hfits, rfl⟩
  | note =>
      rw [hclass] at hfits
      dsimp only
      cases hread : readIndexedNote source file with
      | error error => exact ⟨_, rfl, h.skip hnone, rfl⟩
      | ok found =>
          rcases found with ⟨note, content⟩
          rw [hread] at hfits
          dsimp only at hfits ⊢
          by_cases hallowed : exclude.allowsSource file.path content = true
          · rw [hallowed] at hfits ⊢
            simp only [Bool.not_true, Bool.false_eq_true, if_false, Option.elim_some,
              Entry.size] at hfits ⊢
            rw [checkedAdd_of_le hfits, hcontent]
            exact ⟨_, rfl, h.addNote hnone hfits, rfl⟩
          · rw [Bool.eq_false_iff.mpr hallowed]
            exact ⟨_, rfl, h.excludeFile hnone, rfl⟩

/-- A file that is taken up without an error. -/
theorem buildFile_ok {state next : ℕ × VaultIndex} (h : Built source placed state)
    {file : VaultFile} (hnone : (inventory placed).lookup file.path = none)
    (hok : buildFile source exclude indexContent state file = .ok next) :
    Built source (placed ++ [⟨file.path, builtHeld source exclude file⟩]) next := by
  rcases state with ⟨bytes, index⟩
  rw [builtHeld]
  unfold buildFile at hok
  dsimp only at hok
  cases hclass : classify file.path exclude with
  | excluded =>
      rw [hclass] at hok
      rw [← Except.ok.inj hok]
      exact h.excludeFile hnone
  | attachment =>
      rw [hclass] at hok
      dsimp only at hok
      cases htotal : checkedAdd bytes file.stat.size with
      | none =>
          rw [htotal] at hok
          contradiction
      | some total =>
          cases hattachments : checkedAdd index.attachmentBytes file.stat.size with
          | none =>
              rw [htotal, hattachments] at hok
              contradiction
          | some attachments =>
              rw [htotal, hattachments] at hok
              have hfits := checkedAdd_eq_some.mp htotal
              rw [← Except.ok.inj hok, ← hfits.2, ← (checkedAdd_eq_some.mp hattachments).2]
              exact h.attach hnone hfits.1
  | note =>
      rw [hclass] at hok
      dsimp only at hok
      cases hread : readIndexedNote source file with
      | error error =>
          rw [hread] at hok
          rw [← Except.ok.inj hok]
          exact h.skip hnone
      | ok found =>
          rcases found with ⟨note, content⟩
          rw [hread] at hok
          dsimp only at hok ⊢
          by_cases hallowed : exclude.allowsSource file.path content = true
          · rw [hallowed] at hok ⊢
            simp only [Bool.not_true, Bool.false_eq_true, if_false] at hok ⊢
            cases htotal : checkedAdd bytes note.stat.size with
            | none =>
                rw [htotal] at hok
                contradiction
            | some total =>
                have hfits := checkedAdd_eq_some.mp htotal
                rw [htotal] at hok
                dsimp only at hok
                cases hindexed : indexContent note content with
                | error error =>
                    rw [hindexed] at hok
                    contradiction
                | ok indexed =>
                    rw [hindexed] at hok
                    rw [← Except.ok.inj hok, ← hfits.2]
                    exact h.addNote hnone hfits.1
          · rw [Bool.eq_false_iff.mpr hallowed] at hok ⊢
            rw [← Except.ok.inj hok]
            exact h.excludeFile hnone

theorem built_empty : Built source [] (0, empty) where
  consistent := holds_empty.consistent
  held _ := rfl
  bytes := rfl

theorem lookup_inventory_eq_none (h : path ∉ placed.map Placement.path) :
    (inventory placed).lookup path = none := by
  induction placed using List.reverseRecOn with
  | nil => exact AList.lookup_empty path
  | append_singleton placed placement ih =>
      rw [List.map_append, List.mem_append, not_or] at h
      rw [inventory_concat, Inventory.lookup_place, if_neg, ih h.1]
      intro heq
      exact h.2 (heq ▸ List.mem_singleton_self _)

/-- A walk over files with different paths takes up each of them. -/
theorem foldlM_built (hcontent : ∀ note content, indexContent note content = .ok ())
    {files : List VaultFile} (hdistinct : (files.map VaultFile.path).Nodup)
    (hfits : (files.map (builtSize source exclude)).sum ≤ u64Max) :
    ∃ state, files.foldlM (buildFile source exclude indexContent) (0, empty) = .ok state ∧
      Built source (builtPlacements source exclude files) state ∧
      state.1 = (files.map (builtSize source exclude)).sum := by
  induction files using List.reverseRecOn with
  | nil => exact ⟨(0, empty), rfl, built_empty, rfl⟩
  | append_singleton files file ih =>
      rw [List.map_append, List.nodup_append] at hdistinct
      rw [List.map_append, List.sum_append, List.map_singleton, List.sum_singleton] at hfits
      rcases ih hdistinct.1 ((Nat.le_add_right _ _).trans hfits) with ⟨state, hstate, hbuilt, hbytes⟩
      have hnone : (inventory (builtPlacements source exclude files)).lookup file.path = none := by
        apply lookup_inventory_eq_none
        rw [builtPlacements, List.map_map]
        intro hmem
        exact hdistinct.2.2 _ hmem _ (List.mem_singleton_self _) rfl
      rw [← hbytes] at hfits
      rcases buildFile_built hbuilt hcontent hnone hfits with ⟨next, hnext, hbuilt', hbytes'⟩
      refine ⟨next, ?_, ?_, ?_⟩
      · rw [List.foldlM_append, hstate]
        exact (bind_pure _).trans hnext
      · rw [builtPlacements, List.map_append]
        exact hbuilt'
      · rw [List.map_append, List.sum_append, List.map_singleton, List.sum_singleton, ← hbytes]
        exact hbytes'

/-- A walk without an error takes up each of its files. -/
theorem foldlM_ok {files : List VaultFile} (hdistinct : (files.map VaultFile.path).Nodup)
    {state : ℕ × VaultIndex}
    (hok : files.foldlM (buildFile source exclude indexContent) (0, empty) = .ok state) :
    Built source (builtPlacements source exclude files) state := by
  induction files using List.reverseRecOn generalizing state with
  | nil => exact Except.ok.inj hok ▸ built_empty
  | append_singleton files file ih =>
      rw [List.map_append, List.nodup_append] at hdistinct
      rw [List.foldlM_append] at hok
      cases hbefore : files.foldlM (buildFile source exclude indexContent) (0, empty) with
      | error error =>
          rw [hbefore] at hok
          contradiction
      | ok before =>
          rw [hbefore] at hok
          have hlast : buildFile source exclude indexContent before file = .ok state :=
            (bind_pure _).symm.trans hok
          rw [builtPlacements, List.map_append]
          apply buildFile_ok (ih hdistinct.1 hbefore) _ hlast
          apply lookup_inventory_eq_none
          rw [builtPlacements, List.map_map]
          intro hmem
          exact hdistinct.2.2 _ hmem _ (List.mem_singleton_self _) rfl

/-! ## Its result -/

variable {files : List VaultFile}

/-- The resolver of a cold build is built from the paths of its notes. -/
theorem built_paths_nodup (index : VaultIndex) : (index.notes.toPairs.map Prod.fst).Nodup := by
  rw [Table.map_fst_toPairs]
  exact index.notes.keys_nodup

theorem path_of_parse {content : Text} {stat : FileStat} {note : NoteMetadata}
    (h : parseNoteMetadata source path content stat = .ok note) : note.path = path := by
  rw [parseNoteMetadata] at h
  cases hparse : parseFrontmatter source.yaml content with
  | error error =>
      rw [hparse] at h
      contradiction
  | ok frontmatter =>
      rw [hparse] at h
      rw [← Except.ok.inj h]

theorem path_of_builtHeld {file : VaultFile} {note : NoteMetadata} {revision : Option Text}
    (h : builtHeld source exclude file = some ⟨.note note, revision⟩) : note.path = file.path := by
  rw [builtHeld] at h
  cases hclass : classify file.path exclude with
  | excluded =>
      rw [hclass] at h
      exact absurd h (by simp)
  | attachment =>
      rw [hclass] at h
      exact absurd h (by simp)
  | note =>
      rw [hclass] at h
      dsimp only at h
      cases hread : readIndexedNote source file with
      | error error =>
          rw [hread] at h
          contradiction
      | ok found =>
          rcases found with ⟨metadata, content⟩
          rw [hread] at h
          dsimp only at h
          cases hallowed : exclude.allowsSource file.path content with
          | false =>
              rw [hallowed] at h
              exact absurd h (by simp)
          | true =>
              rw [hallowed] at h
              simp only [Bool.not_true, Bool.false_eq_true, if_false, Option.some.injEq,
                Held.mk.injEq, Entry.note.injEq] at h
              rw [← h.1]
              rw [readIndexedNote] at hread
              cases hcontent : file.content with
              | error error =>
                  rw [hcontent] at hread
                  contradiction
              | ok text =>
                  rw [hcontent] at hread
                  cases hparse : parseNoteMetadata source file.path text file.stat with
                  | error error =>
                      simp [hparse, bind, Except.bind] at hread
                  | ok parsed =>
                      simp only [hparse, bind, Except.bind, pure, Except.pure, Except.ok.injEq,
                        Prod.mk.injEq] at hread
                      rw [← hread.1]
                      exact path_of_parse hparse

theorem exists_placement {held : Held} (h : (inventory placed).lookup path = some held) :
    ∃ placement ∈ placed, placement.path = path ∧ placement.held = some held := by
  induction placed using List.reverseRecOn with
  | nil =>
      rw [inventory, List.foldl_nil, AList.lookup_empty] at h
      contradiction
  | append_singleton placed placement ih =>
      rw [inventory_concat, Inventory.lookup_place] at h
      by_cases hp : path = placement.path
      · rw [if_pos hp] at h
        exact ⟨placement, List.mem_append_right _ (List.mem_singleton_self _), hp.symm, h⟩
      · rw [if_neg hp] at h
        rcases ih h with ⟨found, hmem, hfound⟩
        exact ⟨found, List.mem_append_left _ hmem, hfound⟩

/-- The result of a cold build: its entries, its graph and the listing behind its links. -/
structure BuiltFrom (source : NoteSource) (exclude : ExcludeSet) (files : List VaultFile)
    (built : VaultIndex) : Prop where
  consistent : Consistent source built
  held : ∀ p, built.held p = (inventory (builtPlacements source exclude files)).lookup p
  linked : Inverse.Exact (Linked source built) built.backlinks
  listed : ∃ listing : List OsString, listing.Nodup ∧
    built.linkResolver = LinkResolver.build source.text listing ∧
    ∀ p, p ∈ listing ↔ (built.notes.lookup p).isSome

theorem Built.path_eq {state : ℕ × VaultIndex} {note : NoteMetadata}
    (h : Built source (builtPlacements source exclude files) state)
    (hnote : state.2.notes.lookup path = some note) : note.path = path := by
  have hheld := h.held path
  rw [VaultIndex.held, entryAt_of_note hnote] at hheld
  rcases exists_placement hheld.symm with ⟨placement, hmem, hpath, hself⟩
  rcases List.mem_map.mp hmem with ⟨file, -, rfl⟩
  rw [← hpath]
  exact path_of_builtHeld hself

theorem Built.finish {state : ℕ × VaultIndex}
    (h : Built source (builtPlacements source exclude files) state) :
    BuiltFrom source exclude files (state.2.finishBuild source) where
  consistent := h.consistent.withGraph _ _ _
  held := h.held
  linked := rebuildBacklinks_linked source { state.2 with
    linkResolver := LinkResolver.build source.text
      (state.2.notes.toPairs.map fun entry => entry.2.path) }
  listed := by
    have hown : state.2.notes.toPairs.map (fun entry => entry.2.path) =
        state.2.notes.toPairs.map Prod.fst := by
      apply List.map_congr_left
      intro entry hentry
      exact h.path_eq (Table.mem_toPairs.mp hentry)
    refine ⟨_, ?_, rfl, ?_⟩
    · rw [hown]
      exact built_paths_nodup state.2
    · intro p
      rw [hown, List.mem_map]
      constructor
      · intro hp
        rcases hp with ⟨entry, hentry, rfl⟩
        exact Option.isSome_iff_exists.mpr ⟨entry.2, Table.mem_toPairs.mp hentry⟩
      · intro hp
        rcases Option.isSome_iff_exists.mp hp with ⟨note, hnote⟩
        exact ⟨(p, note), Table.mem_toPairs.mpr hnote, rfl⟩

/-- Nothing is watched yet after a file of a walk. -/
theorem buildFile_watchPaths {state next : ℕ × VaultIndex} {file : VaultFile}
    (hok : buildFile source exclude indexContent state file = .ok next) :
    next.2.watchPaths = state.2.watchPaths := by
  rcases state with ⟨bytes, index⟩
  unfold buildFile at hok
  dsimp only at hok
  cases hclass : classify file.path exclude with
  | excluded =>
      rw [hclass] at hok
      rw [← Except.ok.inj hok]
  | attachment =>
      rw [hclass] at hok
      dsimp only at hok
      cases htotal : checkedAdd bytes file.stat.size with
      | none =>
          rw [htotal] at hok
          contradiction
      | some total =>
          cases hattachments : checkedAdd index.attachmentBytes file.stat.size with
          | none =>
              rw [htotal, hattachments] at hok
              contradiction
          | some attachments =>
              rw [htotal, hattachments] at hok
              rw [← Except.ok.inj hok]
  | note =>
      rw [hclass] at hok
      dsimp only at hok
      cases hread : readIndexedNote source file with
      | error error =>
          rw [hread] at hok
          rw [← Except.ok.inj hok]
      | ok found =>
          rcases found with ⟨note, content⟩
          rw [hread] at hok
          dsimp only at hok
          by_cases hallowed : exclude.allowsSource file.path content = true
          · rw [hallowed] at hok
            simp only [Bool.not_true, Bool.false_eq_true, if_false] at hok
            cases htotal : checkedAdd bytes note.stat.size with
            | none =>
                rw [htotal] at hok
                contradiction
            | some total =>
                rw [htotal] at hok
                dsimp only at hok
                cases hindexed : indexContent note content with
                | error error =>
                    rw [hindexed] at hok
                    contradiction
                | ok indexed =>
                    rw [hindexed] at hok
                    rw [← Except.ok.inj hok]
          · rw [Bool.eq_false_iff.mpr hallowed] at hok
            rw [← Except.ok.inj hok]

theorem foldlM_watchPaths {files : List VaultFile} {state next : ℕ × VaultIndex}
    (hok : files.foldlM (buildFile source exclude indexContent) state = .ok next) :
    next.2.watchPaths = state.2.watchPaths := by
  induction files generalizing state with
  | nil => rw [← Except.ok.inj hok]
  | cons file files ih =>
      rw [List.foldlM_cons] at hok
      cases hfile : buildFile source exclude indexContent state file with
      | error error =>
          rw [hfile] at hok
          contradiction
      | ok middle =>
          rw [hfile] at hok
          rw [ih hok, buildFile_watchPaths hfile]

/-- A cold build that succeeds. -/
theorem buildSync_ok (hdistinct : (files.map VaultFile.path).Nodup) {built : VaultIndex}
    (hok : buildSync source exclude indexContent files = .ok built) :
    BuiltFrom source exclude files built ∧ built.watchPaths = none := by
  rw [buildSync] at hok
  cases hstate : files.foldlM (buildFile source exclude indexContent) (0, empty) with
  | error error =>
      rw [hstate] at hok
      contradiction
  | ok state =>
      rw [hstate] at hok
      rw [← Except.ok.inj hok]
      exact ⟨(foldlM_ok hdistinct hstate).finish, foldlM_watchPaths hstate⟩

/-- A cold build holds what it placed. -/
theorem holds_built (hdistinct : (files.map VaultFile.path).Nodup) {built : VaultIndex}
    (hok : buildSync source exclude indexContent files = .ok built) :
    Holds source ⟨inventory (builtPlacements source exclude files), built.linkResolver⟩ [] built := by
  rcases buildSync_ok hdistinct hok with ⟨hfrom, hwatch⟩
  exact {
    consistent := hfrom.consistent
    held := hfrom.held
    linkResolver := rfl
    watched := fun watch hsome => by
      rw [hwatch] at hsome
      contradiction }

theorem buildSync_spec {indexContent : NoteMetadata → Text → Except VaultError Unit}
    (hcontent : ∀ note content, indexContent note content = .ok ())
    (hdistinct : (files.map VaultFile.path).Nodup)
    (hfits : (files.map (builtSize source exclude)).sum ≤ u64Max) :
    ∃ built, buildSync source exclude indexContent files = .ok built ∧
      BuiltFrom source exclude files built := by
  rcases foldlM_built hcontent hdistinct hfits with ⟨state, hstate, hbuilt, -⟩
  exact ⟨_, by rw [buildSync, hstate]; rfl, hbuilt.finish⟩

end ObsidianMcp.VaultIndex
