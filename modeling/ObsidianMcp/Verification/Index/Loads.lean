import ObsidianMcp.Verification.Index.ColdBuild

/-! # Cold builds and incremental loads agree -/

namespace ObsidianMcp.VaultIndex

open Text

variable {source : NoteSource} {exclude : ExcludeSet} {index next : VaultIndex} {path : OsString}
  {placed : List Placement}

/-! ## The observations of a vault -/

/-- What an observation of a file gives its path. -/
def observedHeld (source : NoteSource) (exclude : ExcludeSet) (file : VaultFile) : Option Held :=
  match observedEntry source exclude file.path file.content.toOption file.stat with
  | .error _ => none
  | .ok (entry, revision) => some ⟨entry, revision⟩

def observedPlacements (source : NoteSource) (exclude : ExcludeSet) (files : List VaultFile) :
    List Placement :=
  files.map fun file => ⟨file.path, observedHeld source exclude file⟩

/-- A note whose source the policy keeps out has metadata that parse. -/
def RefusedParses (source : NoteSource) (exclude : ExcludeSet) (file : VaultFile) : Prop :=
  classify file.path exclude = .note → ∀ content, file.content = .ok content →
    exclude.allowsSource file.path content = false →
      (parseNoteMetadata source file.path content file.stat).isOk = true

/-- A walk and an observation agree on a file unless its source is kept out and does not parse. -/
theorem builtHeld_eq_iff (file : VaultFile) :
    builtHeld source exclude file = observedHeld source exclude file ↔
      RefusedParses source exclude file := by
  unfold builtHeld observedHeld RefusedParses observedEntry readIndexedNote
  cases classify file.path exclude with
  | excluded => exact iff_of_true rfl nofun
  | attachment => exact iff_of_true rfl nofun
  | note =>
      cases file.content with
      | error error => exact iff_of_true rfl nofun
      | ok content =>
          cases hallowed : exclude.allowsSource file.path content with
          | true =>
              refine iff_of_true ?_ ?_
              · cases hparse : parseNoteMetadata source file.path content file.stat with
                | error error => simp [Except.toOption, hallowed, hparse, Except.map, bind,
                    Except.bind]
                | ok note => simp [Except.toOption, hallowed, hparse, Except.map, bind,
                    Except.bind, pure, Except.pure]
              · intro _ other hother hrefused
                rw [← Except.ok.inj hother, hallowed] at hrefused
                contradiction
          | false =>
              cases hparse : parseNoteMetadata source file.path content file.stat with
              | error error =>
                  refine iff_of_false ?_ ?_
                  · simp [Except.toOption, hallowed, hparse, bind, Except.bind]
                  · intro h
                    have hok := h rfl content rfl hallowed
                    rw [hparse] at hok
                    contradiction
              | ok note =>
                  refine iff_of_true ?_ ?_
                  · simp [Except.toOption, hallowed, hparse, bind, Except.bind, pure, Except.pure]
                  · intro _ other hother _
                    rw [← Except.ok.inj hother, hparse]
                    rfl

/-- One observation of each file, without lexical search. -/
def observation (file : VaultFile) : Operation :=
  .observe file.path file.content.toOption file.stat none false

theorem size_place_le (inv : Inventory) (placement : Placement) :
    (inv.place placement).size ≤
      inv.size + placement.held.elim 0 fun held => held.entry.size := by
  have herase : Inventory.size (inv.erase placement.path) ≤ inv.size := by
    rw [Inventory.size, Inventory.size]
    cases hheld : inv.lookup placement.path with
    | none => rw [Table.erase_of_lookup_eq_none hheld]
    | some held =>
        have htotal := Table.total_erase_add (fun _ (held : Held) => held.entry.size) hheld
        omega
  rw [Inventory.place]
  cases placement.held with
  | none => exact herase
  | some held =>
      rw [Inventory.size, Table.total_insert, Nat.add_comm, Option.elim_some]
      exact Nat.add_le_add_right herase _

theorem entry_size_le {file : VaultFile} {entry : Entry} {revision : Option Text}
    (h : observedEntry source exclude file.path file.content.toOption file.stat =
      .ok (entry, revision)) : entry.size ≤ file.stat.size := by
  unfold observedEntry at h
  cases hclass : classify file.path exclude with
  | excluded =>
      rw [hclass] at h
      rw [← (Prod.mk.inj (Except.ok.inj h)).1]
      exact Nat.zero_le _
  | attachment =>
      rw [hclass] at h
      rw [← (Prod.mk.inj (Except.ok.inj h)).1]
      exact Nat.le_refl _
  | note =>
      rw [hclass] at h
      cases hcontent : file.content.toOption with
      | none =>
          rw [hcontent] at h
          contradiction
      | some content =>
          rw [hcontent] at h
          dsimp only at h
          cases hallowed : exclude.allowsSource file.path content with
          | false =>
              rw [hallowed] at h
              rw [← (Prod.mk.inj (Except.ok.inj h)).1]
              exact Nat.zero_le _
          | true =>
              rw [hallowed, parseNoteMetadata] at h
              cases hparse : parseFrontmatter source.yaml content with
              | error error =>
                  rw [hparse] at h
                  contradiction
              | ok frontmatter =>
                  rw [hparse] at h
                  rw [← (Prod.mk.inj (Except.ok.inj h)).1]
                  exact Nat.le_refl _

theorem observedPlacements_concat (files : List VaultFile) (file : VaultFile) :
    observedPlacements source exclude (files ++ [file]) =
      observedPlacements source exclude files ++ [⟨file.path, observedHeld source exclude file⟩] := by
  rw [observedPlacements, List.map_append]
  rfl

theorem observedHeld_size_le (file : VaultFile) :
    ((observedHeld source exclude file).elim 0 fun held => held.entry.size) ≤ file.stat.size := by
  rw [observedHeld]
  cases hobserved : observedEntry source exclude file.path file.content.toOption file.stat with
  | error error => exact Nat.zero_le _
  | ok observed => exact entry_size_le hobserved

theorem size_observed_le (files : List VaultFile) :
    (inventory (observedPlacements source exclude files)).size ≤
      (files.map fun file => file.stat.size).sum := by
  induction files using List.reverseRecOn with
  | nil => exact Nat.le_refl _
  | append_singleton files file ih =>
      rw [observedPlacements_concat, inventory_concat, List.map_append, List.sum_append,
        List.map_singleton, List.sum_singleton]
      exact (size_place_le _ _).trans (Nat.add_le_add ih (observedHeld_size_le file))

/-- An observation that fits places what it finds. -/
theorem observation_placements {file : VaultFile} {inv : Inventory}
    (hfits : inv.size + file.stat.size ≤ u64Max) :
    (observation file).placements source exclude inv =
      [⟨file.path, observedHeld source exclude file⟩] := by
  rw [observation, Operation.placements, observedHeld]
  cases hobserved : observedEntry source exclude file.path file.content.toOption file.stat with
  | error error => rfl
  | ok observed =>
      rcases observed with ⟨entry, revision⟩
      have herase := size_place_le inv ⟨file.path, none⟩
      have hentry := entry_size_le hobserved
      have hsmall : Inventory.size (inv.erase file.path) + entry.size ≤ u64Max := by
        have hle : Inventory.size (inv.erase file.path) ≤ inv.size := herase
        omega
      dsimp only
      rw [if_pos hsmall]
      rfl

theorem placements_observations {files : List VaultFile}
    (hfits : (files.map fun file => file.stat.size).sum ≤ u64Max) :
    placements source exclude (files.map observation) = observedPlacements source exclude files := by
  induction files using List.reverseRecOn with
  | nil => rfl
  | append_singleton files file ih =>
      rw [List.map_append, List.sum_append, List.map_singleton, List.sum_singleton] at hfits
      have hsize := @size_observed_le source exclude files
      rw [List.map_append, List.map_singleton, placements_concat,
        ih ((Nat.le_add_right _ _).trans hfits), observedPlacements_concat,
        observation_placements (by omega)]

theorem lookup_inventory_of_mem {placement : Placement} (hmem : placement ∈ placed)
    (hdistinct : (placed.map Placement.path).Nodup) :
    (inventory placed).lookup placement.path = placement.held := by
  induction placed using List.reverseRecOn with
  | nil => contradiction
  | append_singleton placed last ih =>
      rw [List.map_append, List.nodup_append] at hdistinct
      rw [inventory_concat, Inventory.lookup_place]
      rcases List.mem_append.mp hmem with hmem | hmem
      · have hne : placement.path ≠ last.path := hdistinct.2.2 _ (List.mem_map_of_mem hmem) _
          (List.mem_singleton_self _)
        rw [if_neg hne]
        exact ih hmem hdistinct.1
      · rw [List.mem_singleton.mp hmem, if_pos rfl]

/-- With different paths the order of the placements does not matter. -/
theorem lookup_inventory_perm {placed' : List Placement} (hperm : placed.Perm placed')
    (hdistinct : (placed.map Placement.path).Nodup) (p : OsString) :
    (inventory placed).lookup p = (inventory placed').lookup p := by
  have hdistinct' := (hperm.map Placement.path).nodup hdistinct
  by_cases hmem : p ∈ placed.map Placement.path
  · rcases List.mem_map.mp hmem with ⟨placement, hplacement, rfl⟩
    rw [lookup_inventory_of_mem hplacement hdistinct,
      lookup_inventory_of_mem (hperm.mem_iff.mp hplacement) hdistinct']
  · rw [lookup_inventory_eq_none hmem, lookup_inventory_eq_none]
    intro hmem'
    exact hmem ((hperm.map Placement.path).mem_iff.mpr hmem')

/-- The calls are on plain paths and leave what observing the files gives. -/
structure NetEffect (source : NoteSource) (exclude : ExcludeSet) (files : List VaultFile)
    (operations : List Operation) : Prop where
  plain : ∀ operation ∈ operations, operation.Plain
  net : ∀ p, (inventory (placements source exclude operations)).lookup p =
    (inventory (observedPlacements source exclude files)).lookup p

theorem observations_net {files order : List VaultFile} (hplain : ∀ file ∈ files, Plain file.path)
    (hdistinct : (files.map VaultFile.path).Nodup)
    (hfits : (files.map fun file => file.stat.size).sum ≤ u64Max) (hperm : order.Perm files) :
    NetEffect source exclude files (order.map observation) where
  plain operation hmem := by
    rcases List.mem_map.mp hmem with ⟨file, hfile, rfl⟩
    intro path hpath
    rw [← Option.some.inj hpath]
    exact hplain file (hperm.mem_iff.mp hfile)
  net p := by
    have hsum : (order.map fun file => file.stat.size).sum ≤ u64Max := by
      rwa [(hperm.map fun file : VaultFile => file.stat.size).sum_eq]
    rw [placements_observations hsum]
    apply lookup_inventory_perm (hperm.map _)
    rw [List.map_map]
    exact (hperm.map VaultFile.path).symm.nodup hdistinct

theorem placements_batch (operations : List Operation) :
    placements source exclude (.beginBatch :: operations ++ [.finishBatch]) =
      placements source exclude operations := by
  rw [placements_concat]
  exact List.append_nil _

theorem NetEffect.batch {files : List VaultFile} {operations : List Operation}
    (h : NetEffect source exclude files operations) :
    NetEffect source exclude files (.beginBatch :: operations ++ [.finishBatch]) where
  plain operation hmem := by
    rcases List.mem_append.mp hmem with hmem | hmem
    · rcases List.mem_cons.mp hmem with rfl | hmem
      · nofun
      · exact h.plain operation hmem
    · rw [List.mem_singleton.mp hmem]
      nofun
  net := by
    rw [placements_batch]
    exact h.net

/-! ## Equal contents -/

/-- Two indexes are alike in everything that is asked of them. -/
structure SameIndex (source : NoteSource) (a b : VaultIndex) : Prop where
  notes : ∀ p, a.notes.lookup p = b.notes.lookup p
  tags : ∀ tag, a.tags.lookup tag = b.tags.lookup tag
  attachments : ∀ p, a.attachments.lookup p = b.attachments.lookup p
  excludedNotePaths : a.excludedNotePaths = b.excludedNotePaths
  sourceRevisions : ∀ p, a.sourceRevisions.lookup p = b.sourceRevisions.lookup p
  links : ∀ target, LinkResolver.SameAnswers source.text target a.linkResolver b.linkResolver
  backlinks : ∀ target, a.backlinks.lookup target = b.backlinks.lookup target
  stats : a.stats = b.stats

theorem lookup_revisions_eq (h : Consistent source index) (p : OsString) :
    index.sourceRevisions.lookup p = (index.held p).bind Held.revision := by
  rw [held]
  cases hentry : index.entryAt p with
  | some entry => rfl
  | none =>
      cases hrevision : index.sourceRevisions.lookup p with
      | none => rfl
      | some revision =>
          have hnote := h.revisions p (by rw [hrevision]; rfl)
          rw [lookup_notes_eq, hentry] at hnote
          contradiction

/-- Indexes that hold the same and answer links alike are alike. -/
theorem sameIndex_of_held {a b : VaultIndex} (ha : Consistent source a) (hb : Consistent source b)
    (hheld : ∀ p, a.held p = b.held p)
    (hlinks : ∀ target, LinkResolver.SameAnswers source.text target a.linkResolver b.linkResolver)
    (hbacka : Inverse.Exact (Linked source a) a.backlinks)
    (hbackb : Inverse.Exact (Linked source b) b.backlinks) : SameIndex source a b := by
  have hentry : ∀ p, a.entryAt p = b.entryAt p := by
    intro p
    rw [← map_entry_held, hheld, map_entry_held]
  have hnotes : ∀ p, a.notes.lookup p = b.notes.lookup p := by
    intro p
    rw [lookup_notes_eq, lookup_notes_eq, hentry]
  have hattachments : ∀ p, a.attachments.lookup p = b.attachments.lookup p := by
    intro p
    rw [lookup_attachments_eq ha, lookup_attachments_eq hb, hentry]
  have hexcluded : a.excludedNotePaths = b.excludedNotePaths := by
    ext p
    rw [← isExcluded_entryAt ha, ← isExcluded_entryAt hb, hentry]
  have htags : ∀ tag, a.tags.lookup tag = b.tags.lookup tag := by
    apply ha.tags.lookup_eq
    apply hb.tags.congr
    intro p tag
    rw [HasTag, HasTag, hnotes]
  constructor
  case notes => exact hnotes
  case tags => exact htags
  case attachments => exact hattachments
  case excludedNotePaths => exact hexcluded
  case sourceRevisions =>
    intro p
    rw [lookup_revisions_eq ha, lookup_revisions_eq hb, hheld]
  case links => exact hlinks
  case backlinks =>
    apply hbacka.lookup_eq
    apply hbackb.congr
    intro p target
    have htargets : ∀ links, linkTargets source a.linkResolver links =
        linkTargets source b.linkResolver links := by
      intro links
      unfold linkTargets
      apply List.filterMap_congr
      intro link _
      rw [(hlinks link.target).resolve]
    simp only [Linked, hnotes, htargets]
  case stats =>
    have hperm := Table.perm_of_lookup_eq hnotes
    have hperm' := Table.perm_of_lookup_eq hattachments
    rw [ha.stats_eq, hb.stats_eq, recomputeStats, recomputeStats, VaultStats.mk.injEq,
      ha.attachmentBytes_eq, hb.attachmentBytes_eq, hexcluded]
    refine ⟨hperm.length_eq, ?_, (Table.perm_of_lookup_eq htags).length_eq,
      Table.total_perm _ hperm, ?_, rfl⟩
    · exact congrArg₂ _ hperm.length_eq hperm'.length_eq
    · rw [Table.total_perm _ hperm, Table.total_perm _ hperm']

/-! ## The link history of placements -/

theorem netPaths_append (events later : List LinkResolver.Event) :
    LinkResolver.netPaths (events ++ later) =
      later.foldl (fun paths event => event.applyPaths paths) (LinkResolver.netPaths events) :=
  List.foldl_append

theorem isNote_place (inv : Inventory) (placement : Placement) (p : OsString) :
    (inv.place placement).isNote p =
      if p = placement.path then placement.held.any Held.isNote else inv.isNote p := by
  rw [Inventory.isNote, Inventory.lookup_place]
  by_cases hp : p = placement.path
  · rw [if_pos hp, if_pos hp]
  · rw [if_neg hp, if_neg hp]
    rfl

/-- The paths that the link history leaves are the notes of the inventory. -/
theorem mem_netPaths_linkHistory (placed : List Placement) (p : OsString) :
    p ∈ LinkResolver.netPaths (linkHistory placed) ↔ (inventory placed).isNote p = true := by
  induction placed using List.reverseRecOn generalizing p with
  | nil => simp [linkHistory, linkHistoryFrom, LinkResolver.netPaths, inventory, Inventory.isNote]
  | append_singleton placed placement ih =>
      rw [linkHistory_concat, netPaths_append, inventory_concat, isNote_place, placementEvents,
        linkEvents]
      have hself := ih placement.path
      cases hwas : (inventory placed).isNote placement.path with
      | true =>
          rw [hwas] at hself
          cases hnow : placement.held.any Held.isNote with
          | true =>
              by_cases hp : p = placement.path
              · rw [if_pos hp, hp]
                exact hself
              · rw [if_neg hp]
                exact ih p
          | false =>
              have hevent : p ∈ (LinkResolver.netPaths (linkHistory placed)).erase placement.path ↔
                  (if p = placement.path then false else (inventory placed).isNote p) = true := by
                by_cases hp : p = placement.path
                · simp [hp]
                · simp [hp, ih p]
              exact hevent
      | false =>
          rw [hwas] at hself
          cases hnow : placement.held.any Held.isNote with
          | true =>
              have hevent : p ∈ insert placement.path (LinkResolver.netPaths (linkHistory placed)) ↔
                  (if p = placement.path then true else (inventory placed).isNote p) = true := by
                by_cases hp : p = placement.path
                · simp [hp]
                · simp [hp, ih p]
              exact hevent
          | false =>
              by_cases hp : p = placement.path
              · rw [if_pos hp, hp]
                exact hself
              · rw [if_neg hp]
                exact ih p

/-- Notes are linked only while they are not. -/
theorem addsAbsent_linkHistory (placed : List Placement) :
    LinkResolver.AddsAbsent ∅ (linkHistory placed) := by
  induction placed using List.reverseRecOn with
  | nil => trivial
  | append_singleton placed placement ih =>
      rw [linkHistory_concat, LinkResolver.addsAbsent_append]
      refine ⟨ih, ?_⟩
      rw [placementEvents, linkEvents]
      cases hwas : (inventory placed).isNote placement.path with
      | true =>
          cases placement.held.any Held.isNote with
          | true => trivial
          | false =>
              refine ⟨?_, trivial⟩
              intro path hpath
              contradiction
      | false =>
          cases placement.held.any Held.isNote with
          | false => trivial
          | true =>
              refine ⟨?_, trivial⟩
              intro path hpath hmem
              have hnet : path ∈ LinkResolver.netPaths (linkHistory placed) := hmem
              rw [mem_netPaths_linkHistory, ← LinkResolver.Event.added.inj hpath, hwas] at hnet
              contradiction

/-! ## Loads agree -/

variable {files : List VaultFile} {operations : List Operation}

theorem held_eq_of_sameIndex {a b : VaultIndex} (h : SameIndex source a b) (p : OsString) :
    a.held p = b.held p := by
  rw [held, held, h.sourceRevisions,
    entryAt_congr (h.notes p) (by rw [h.excludedNotePaths]) (h.attachments p)]

theorem isSome_notes_eq (index : VaultIndex) (p : OsString) :
    (index.notes.lookup p).isSome = (index.held p).any Held.isNote := by
  rw [← isNote_entryAt, held]
  cases index.entryAt p <;> rfl

theorem builtHeld_eq_none {file : VaultFile} (h : ¬RefusedParses source exclude file) :
    builtHeld source exclude file = none := by
  simp only [RefusedParses, not_forall] at h
  rcases h with ⟨hclass, content, hcontent, hrefused, hparse⟩
  rw [builtHeld, hclass, readIndexedNote, hcontent]
  cases hnote : parseNoteMetadata source file.path content file.stat with
  | ok note =>
      rw [hnote] at hparse
      exact absurd rfl hparse
  | error error => simp [hnote, bind, Except.bind]

theorem sum_builtSize_le (files : List VaultFile) :
    (files.map (builtSize source exclude)).sum ≤ (files.map fun file => file.stat.size).sum := by
  apply List.sum_le_sum
  intro file _
  rw [builtSize]
  by_cases hparses : RefusedParses source exclude file
  · rw [(builtHeld_eq_iff file).mpr hparses]
    exact observedHeld_size_le file
  · rw [builtHeld_eq_none hparses]
    exact Nat.zero_le _

theorem inventory_builtPlacements (hparses : ∀ file ∈ files, RefusedParses source exclude file) :
    builtPlacements source exclude files = observedPlacements source exclude files := by
  apply List.map_congr_left
  intro file hmem
  rw [(builtHeld_eq_iff file).mpr (hparses file hmem)]

theorem lookup_observed {file : VaultFile} (hmem : file ∈ files)
    (hdistinct : (files.map VaultFile.path).Nodup) :
    (inventory (observedPlacements source exclude files)).lookup file.path =
      observedHeld source exclude file := by
  have hplacement : (⟨file.path, observedHeld source exclude file⟩ : Placement) ∈
      observedPlacements source exclude files := List.mem_map_of_mem hmem
  apply lookup_inventory_of_mem hplacement
  rw [observedPlacements, List.map_map]
  exact hdistinct

theorem lookup_built {file : VaultFile} (hmem : file ∈ files)
    (hdistinct : (files.map VaultFile.path).Nodup) :
    (inventory (builtPlacements source exclude files)).lookup file.path =
      builtHeld source exclude file := by
  have hplacement : (⟨file.path, builtHeld source exclude file⟩ : Placement) ∈
      builtPlacements source exclude files := List.mem_map_of_mem hmem
  apply lookup_inventory_of_mem hplacement
  rw [builtPlacements, List.map_map]
  exact hdistinct

theorem Holds.held_inventory (h : Holds source .empty placed index) (p : OsString) :
    index.held p = (inventory placed).lookup p :=
  h.held p

theorem Holds.isNote_inventory (h : Holds source .empty placed index) (p : OsString) :
    (index.notes.lookup p).isSome = (inventory placed).isNote p :=
  h.isNote p

/-- The links of a loaded index are those of the history of its notes. -/
theorem mem_netPaths_iff (hholds : Holds source .empty placed index) (p : OsString) :
    p ∈ LinkResolver.netPaths (linkHistory placed) ↔ (index.notes.lookup p).isSome = true := by
  rw [mem_netPaths_linkHistory, hholds.isNote_inventory]

/-- A cold build of the files gives the loaded index when every refused source parses and every
note in a folder was the last with its path key. -/
theorem sameIndex_built (hholds : Holds source .empty placed index)
    (hlinked : Inverse.Exact (Linked source index) index.backlinks)
    (hlast : ∀ path, (index.notes.lookup path).isSome →
      '/' ∈ LinkResolver.pathKey source.text path →
        LinkResolver.lastWith source.text (LinkResolver.pathKey source.text path)
          (linkHistory placed) = some (.added path))
    {built : VaultIndex} (hbuilt : BuiltFrom source exclude files built)
    (hheld : ∀ p, index.held p = built.held p) : SameIndex source index built := by
  apply sameIndex_of_held hholds.consistent hbuilt.consistent hheld _ hlinked hbuilt.linked
  intro target
  rcases hbuilt.listed with ⟨listing, hnodup, hresolver, hlisting⟩
  rw [hholds.linkResolver, hresolver]
  apply LinkResolver.run_sameAnswers (addsAbsent_linkHistory placed) _ hnodup
  · ext p
    rw [List.mem_toFinset, hlisting, mem_netPaths_iff hholds, isSome_notes_eq, isSome_notes_eq,
      hheld]
  · intro path hpath
    exact hlast path ((mem_netPaths_iff hholds path).mp hpath)

/-- Observing the files in any order, within a source batch or not, has their net effect; and a
history with that effect gives the index of every cold build of the files exactly when every source
that the policy keeps out parses and every note in a folder was the last with its path key to be
added or removed. -/
theorem loads_agree_iff (source : NoteSource) (exclude : ExcludeSet)
    (indexContent : NoteMetadata → Text → Except VaultError Unit)
    (hcontent : ∀ note content, indexContent note content = .ok ())
    (files : List VaultFile) (hplain : ∀ file ∈ files, Plain file.path)
    (hdistinct : (files.map VaultFile.path).Nodup)
    (hfits : (files.map fun file => file.stat.size).sum ≤ u64Max)
    (hkeys : ∀ a ∈ files, ∀ b ∈ files, (observedHeld source exclude a).any Held.isNote →
      (observedHeld source exclude b).any Held.isNote →
        LinkResolver.pathKey source.text a.path = LinkResolver.pathKey source.text b.path →
          a.path = b.path) :
    (∀ order : List VaultFile, order.Perm files →
      NetEffect source exclude files (order.map observation) ∧
        NetEffect source exclude files (.beginBatch :: order.map observation ++ [.finishBatch])) ∧
    ∀ operations index, NetEffect source exclude files operations →
      run source exclude operations empty = some index → index.sourceBatch = false →
        ((∀ listing : List VaultFile, listing.Perm files →
            ∃ built, buildSync source exclude indexContent listing = .ok built ∧
              SameIndex source index built) ↔
          (∀ file ∈ files, RefusedParses source exclude file) ∧
          ∀ file ∈ files, (observedHeld source exclude file).any Held.isNote →
            '/' ∈ LinkResolver.pathKey source.text file.path →
              LinkResolver.lastWith source.text (LinkResolver.pathKey source.text file.path)
                (linkHistory (placements source exclude operations)) =
                  some (.added file.path)) := by
  refine ⟨fun order hperm => ?_, ?_⟩
  · have hnet : NetEffect source exclude files (order.map observation) :=
      observations_net hplain hdistinct hfits hperm
    exact ⟨hnet, hnet.batch⟩
  intro operations index hnet hrun hclosed
  rcases run_holds source exclude hnet.plain with ⟨index', hrun', hholds⟩
  rw [hrun, Option.some.injEq] at hrun'
  rw [← hrun'] at hholds
  have hlinked := run_graph (empty_graph source) hrun hclosed
  have hobserved : ∀ file ∈ files, index.held file.path = observedHeld source exclude file := by
    intro file hmem
    rw [hholds.held_inventory, hnet.net, lookup_observed hmem hdistinct]
  constructor
  · intro h
    rcases h files (.refl files) with ⟨built, hbuild, hsame⟩
    rcases buildSync_spec hcontent hdistinct ((sum_builtSize_le files).trans hfits) with
      ⟨built', hbuild', hbuilt⟩
    rw [hbuild, Except.ok.injEq] at hbuild'
    rw [← hbuild'] at hbuilt
    have hparses : ∀ file ∈ files, RefusedParses source exclude file := by
      intro file hmem
      rw [← builtHeld_eq_iff, ← hobserved file hmem, held_eq_of_sameIndex hsame, hbuilt.held,
        lookup_built hmem hdistinct]
    refine ⟨hparses, ?_⟩
    intro file hmem hnote hslash
    rcases hbuilt.listed with ⟨listing, -, hresolver, hlisting⟩
    have hlisted : ∀ p, p ∈ listing ↔ (index.held p).any Held.isNote = true := by
      intro p
      rw [hlisting, isSome_notes_eq, held_eq_of_sameIndex hsame]
    have hanswers := hsame.links (source.text.toStringLossy file.path)
    rw [hholds.linkResolver, hresolver] at hanswers
    apply LinkResolver.lastWith_of_sameAnswers hslash _ hanswers
    apply LinkResolver.lastWith_listing
    · rw [hlisted, hobserved file hmem]
      exact hnote
    · intro other hother hkey
      rw [hlisted, hholds.held_inventory, hnet.net] at hother
      rcases (Option.any_eq_true _ _).mp hother with ⟨held, hsome, hother⟩
      rcases exists_placement hsome with ⟨placement, hin, hpath, hheld⟩
      rcases List.mem_map.mp hin with ⟨file', hmem', rfl⟩
      dsimp only at hpath hheld
      rw [← hpath] at hkey ⊢
      exact hkeys file' hmem' file hmem (by rw [hheld]; exact hother) hnote hkey
  · intro h listing hperm
    have hdistinct' : (listing.map VaultFile.path).Nodup :=
      (hperm.map VaultFile.path).symm.nodup hdistinct
    have hfits' : (listing.map fun file => file.stat.size).sum ≤ u64Max := by
      rwa [(hperm.map fun file : VaultFile => file.stat.size).sum_eq]
    rcases buildSync_spec hcontent hdistinct' ((sum_builtSize_le listing).trans hfits') with
      ⟨built, hbuild, hbuilt⟩
    refine ⟨built, hbuild, sameIndex_built hholds hlinked ?_ hbuilt ?_⟩
    · intro path hpath hslash
      rw [isSome_notes_eq, hholds.held_inventory, hnet.net] at hpath
      rcases (Option.any_eq_true _ _).mp hpath with ⟨held, hsome, hnote⟩
      rcases exists_placement hsome with ⟨placement, hin, rfl, hheld⟩
      rcases List.mem_map.mp hin with ⟨file, hmem, rfl⟩
      dsimp only at hheld
      exact h.2 file hmem (by rw [hheld]; exact hnote) hslash
    · intro p
      rw [hholds.held_inventory, hnet.net, hbuilt.held, ← inventory_builtPlacements h.1]
      apply lookup_inventory_perm (hperm.symm.map _)
      rw [List.map_map]
      exact hdistinct

/-- A policy that keeps every source out. -/
def privateMemory : ExcludeSet where
  isExcluded := fun _ => false
  allowsSource := fun _ _ => false

def unparsedFile : VaultFile where
  path := soleNote
  content := .ok "---\n[\n---\n".toList
  stat := ⟨10, none, none⟩

/-- A refused source that does not parse is excluded when observed and lost in a cold build. -/
theorem refused_source_is_dropped :
    NetEffect plainSource privateMemory [unparsedFile] [observation unparsedFile] ∧
      ∃ index built, run plainSource privateMemory [observation unparsedFile] empty = some index ∧
        index.sourceBatch = false ∧
        buildSync plainSource privateMemory (fun _ _ => .ok ()) [unparsedFile] = .ok built ∧
        ¬SameIndex plainSource index built := by
  constructor
  · apply observations_net _ (by decide) (by decide) (.refl _)
    intro file hmem
    rw [List.mem_singleton.mp hmem]
    exact plain_of_toStr "a/b.md".toList (by decide +kernel) (by decide +kernel)
      (by decide +kernel)
  · have hrun : (run plainSource privateMemory [observation unparsedFile] empty).map
        (fun index => (index.excludedNotePaths, index.sourceBatch)) = some ({soleNote}, false) := by
      decide +kernel
    have hbuild : ((buildSync plainSource privateMemory (fun _ _ => .ok ()) [unparsedFile]).map
        excludedNotePaths).toOption = some ∅ := by
      decide +kernel
    rcases Option.map_eq_some_iff.mp hrun with ⟨index, hindex, hpair⟩
    cases hbuilt : buildSync plainSource privateMemory (fun _ _ => .ok ()) [unparsedFile] with
    | error error =>
        rw [hbuilt] at hbuild
        contradiction
    | ok built =>
        rw [hbuilt] at hbuild
        refine ⟨index, built, hindex, (Prod.mk.inj hpair).2, rfl, ?_⟩
        intro hsame
        have hexcluded := hsame.excludedNotePaths
        rw [(Prod.mk.inj hpair).1, Option.some.inj hbuild] at hexcluded
        exact absurd hexcluded (by decide)

def loadedFiles : List VaultFile :=
  [⟨soleNote, .ok "[[c]]".toList, ⟨5, none, none⟩⟩, ⟨otherNote, .ok "x".toList, ⟨1, none, none⟩⟩]

/-- A batch of two observations gives the index of a cold build. -/
theorem batch_load_agrees :
    ∃ index, run plainSource noExclusions
        (.beginBatch :: loadedFiles.map observation ++ [.finishBatch]) empty = some index ∧
      ∀ listing : List VaultFile, listing.Perm loadedFiles →
        ∃ built, buildSync plainSource noExclusions (fun _ _ => .ok ()) listing = .ok built ∧
          SameIndex plainSource index built := by
  have hplain : ∀ file ∈ loadedFiles, Plain file.path := by
    intro file hmem
    rcases List.mem_pair.mp hmem with rfl | rfl
    · exact plain_of_toStr "a/b.md".toList (by decide +kernel) (by decide +kernel)
        (by decide +kernel)
    · exact plain_of_toStr "c.md".toList (by decide +kernel) (by decide +kernel)
        (by decide +kernel)
  have hkeys : ∀ a ∈ loadedFiles, ∀ b ∈ loadedFiles,
      LinkResolver.pathKey plainSource.text a.path = LinkResolver.pathKey plainSource.text b.path →
        a.path = b.path := by
    decide +kernel
  have hagree := loads_agree_iff plainSource noExclusions (fun _ _ => .ok ()) (fun _ _ => rfl)
    loadedFiles hplain (by decide +kernel) (by decide)
    (fun a ha b hb _ _ hkey => hkeys a ha b hb hkey)
  have hnet := (hagree.1 loadedFiles (.refl _)).2
  have hclosed : (run plainSource noExclusions
      (.beginBatch :: loadedFiles.map observation ++ [.finishBatch]) empty).map sourceBatch =
        some false := by
    decide +kernel
  rcases Option.map_eq_some_iff.mp hclosed with ⟨index, hrun, hbatch⟩
  refine ⟨index, hrun, (hagree.2 _ index hnet hrun hbatch).mpr ⟨?_, ?_⟩⟩
  · intro file _ _ content _ hrefused
    contradiction
  · have hlast : ∀ file ∈ loadedFiles,
        LinkResolver.lastWith plainSource.text (LinkResolver.pathKey plainSource.text file.path)
          (linkHistory (placements plainSource noExclusions
            (.beginBatch :: loadedFiles.map observation ++ [.finishBatch]))) =
              some (.added file.path) := by
      decide +kernel
    exact fun file hmem _ _ => hlast file hmem

end ObsidianMcp.VaultIndex
