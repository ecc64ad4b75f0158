import ObsidianMcp.Verification.Watcher.Spellings

/-! # Staging the changes of an event -/

namespace ObsidianMcp

open Text VaultIndex

variable {source : NoteSource} {exclude : ExcludeSet} {disk : Disk} {index next : VaultIndex}
  {path : OsString} {origin origin' : VaultIndex.Origin} {placed placed' : List Placement}
  {lexical : Option VaultIndex.Lexical} {changes : Changes}

/-! ## One change -/

theorem stageChange_refresh (hchange : changes.lookup path = some .refresh)
    {embeddingsEnabled : Bool} {result : Except VaultError Bool}
    (h : index.refreshFile source exclude disk path lexical embeddingsEnabled = some (next, result))
    (dirty : Bool) : ∃ dirty', ObsidianMcp.stageChange source disk exclude lexical
      embeddingsEnabled changes (index, dirty) path = some (next, dirty') := by
  rw [ObsidianMcp.stageChange, hchange]
  dsimp only
  rw [h]
  exact ⟨_, rfl⟩

theorem stageChange_remove (hchange : changes.lookup path = some .remove)
    (h : index.removeFile source path = some next) (embeddingsEnabled dirty : Bool) :
    ∃ dirty', ObsidianMcp.stageChange source disk exclude lexical embeddingsEnabled changes
      (index, dirty) path = some (next, dirty') := by
  rw [ObsidianMcp.stageChange, hchange]
  unfold removeProjection
  dsimp only
  rw [h]
  exact ⟨_, rfl⟩

theorem VaultIndex.Holds.stageChange (h : Holds source origin placed index) (exclude : ExcludeSet)
    (disk : Disk) (hpath : Portable path) (lexical : Option VaultIndex.Lexical)
    (embeddingsEnabled : Bool) (changes : Changes) (dirty : Bool) :
    ∃ next later, ∃ dirty', ObsidianMcp.stageChange source disk exclude lexical embeddingsEnabled
        changes (index, dirty) path = some (next, dirty') ∧
      Holds source origin (placed ++ later) next ∧
      Touches path (disk.fileAt path).isSome (fun q => index.held q) fun q => next.held q := by
  cases hchange : changes.lookup path with
  | none =>
      refine ⟨index, [], _, by rw [ObsidianMcp.stageChange, hchange]; rfl, ?_, .refl path _ _⟩
      rwa [List.append_nil]
  | some change =>
      cases change with
      | refresh =>
          rcases hpath with ⟨names, hnames, rfl⟩
          rcases h.refreshFile exclude disk hnames lexical embeddingsEnabled with
            ⟨next, result, hnext, hholds⟩
          rcases stageChange_refresh hchange hnext dirty with ⟨dirty', hstage⟩
          refine ⟨next, _, dirty', hstage, hholds, ?_⟩
          have htouches := @touches_refresh source exclude disk
            (textPath names) lexical (origin.after placed)
          rw [← origin.after_append] at htouches
          simp only [← h.held, ← hholds.held] at htouches
          exact htouches
      | remove =>
          rcases h.removeFile hpath.logicalSeparators with ⟨removed, hremoved, hholds⟩
          rcases @stageChange_remove _ exclude disk _ _ _ lexical _ hchange
            hremoved embeddingsEnabled dirty with ⟨dirty', hstage⟩
          refine ⟨removed, _, dirty', hstage, hholds, ?_⟩
          have htouches := @touches_erase path (disk.fileAt path).isSome
            (origin.after placed)
          rw [← origin.after_concat] at htouches
          simp only [← h.held, ← hholds.held] at htouches
          exact htouches

theorem Sound.stageChange (h : Sound source index) (exclude : ExcludeSet) (disk : Disk)
    (hpath : Portable path) (lexical : Option VaultIndex.Lexical) (embeddingsEnabled : Bool)
    (changes : Changes) (dirty : Bool) :
    ∃ next, ∃ dirty', ObsidianMcp.stageChange source disk exclude lexical embeddingsEnabled changes
        (index, dirty) path = some (next, dirty') ∧ Sound source next := by
  rcases h.holds with ⟨origin, placed, hholds⟩
  rcases hholds.stageChange exclude disk hpath lexical embeddingsEnabled changes dirty with
    ⟨next, later, dirty', hnext, hnextHolds, htouches⟩
  refine ⟨next, dirty', hnext, ⟨origin, _, hnextHolds⟩, ?_⟩
  intro q hq
  by_cases heq : q = path
  · rw [heq] at hq ⊢
    rcases htouches.known hq with hfound | hknown
    · refine ⟨?_, hpath, ?_⟩
      · intro hnil
        rw [hnil, Disk.fileAt, Disk.lookup_nil] at hfound
        contradiction
      · by_contra hhidden
        rw [Disk.fileAt_of_hidden (Bool.eq_false_iff.mpr hhidden)] at hfound
        contradiction
    · exact h.portable path hknown
  · have hsame : next.held q = index.held q := htouches.others q heq
    rw [hsame] at hq
    exact h.portable q hq

/-- Staging any changes of portable paths keeps the index sound. -/
theorem Sound.stageAll (h : Sound source index) (exclude : ExcludeSet) (disk : Disk)
    {paths : List OsString} (hpaths : ∀ q ∈ paths, Portable q) (lexical : Option VaultIndex.Lexical)
    (embeddingsEnabled : Bool) (changes : Changes) (dirty : Bool) :
    ∃ next, ∃ dirty', paths.foldlM (ObsidianMcp.stageChange source disk exclude lexical
        embeddingsEnabled changes) (index, dirty) = some (next, dirty') ∧ Sound source next := by
  induction paths generalizing index dirty with
  | nil => exact ⟨index, dirty, rfl, h⟩
  | cons path paths ih =>
      rcases h.stageChange exclude disk (hpaths path List.mem_cons_self) lexical embeddingsEnabled
        changes dirty with ⟨middle, dirty', hmiddle, hsound⟩
      rcases ih hsound (fun q hq => hpaths q (List.mem_cons_of_mem _ hq)) dirty' with
        ⟨next, dirty'', hnext, hnextSound⟩
      refine ⟨next, dirty'', ?_, hnextSound⟩
      rw [List.foldlM_cons, hmiddle]
      exact hnext

/-! ## Sizes -/

theorem oldSize_eq (h : Consistent source index) (path : OsString) :
    oldSize path index = heldSize (index.held path) := by
  rw [oldSize, VaultIndex.held]
  cases hnote : index.notes.lookup path with
  | some note =>
      rw [entryAt_of_note hnote]
      rfl
  | none =>
      rw [entryAt_of_no_note hnote]
      by_cases hmem : path ∈ index.excludedNotePaths
      · rw [if_pos hmem, h.excluded_not_attachment path hmem]
        rfl
      · rw [if_neg hmem]
        cases index.attachments.lookup path <;> rfl

theorem vaultSize_eq_held (h : Consistent source index) (path : OsString) :
    index.stats.vaultSizeBytes = sizeWithout path index + heldSize (index.held path) := by
  rw [vaultSize_eq_without h, oldSize_eq h]

/-- The other paths determine the total without one path. -/
theorem sizeWithout_congr (h : Holds source origin placed index)
    (h' : Holds source origin' placed' next) (hsame : ∀ q, q ≠ path → next.held q = index.held q) :
    sizeWithout path next = sizeWithout path index := by
  rw [h.sizeWithout_eq, h'.sizeWithout_eq]
  apply Table.total_perm
  apply Table.perm_of_lookup_eq
  intro q
  by_cases hq : q = path
  · rw [hq, AList.lookup_erase, AList.lookup_erase]
  · rw [AList.lookup_erase_ne hq, AList.lookup_erase_ne hq, ← h.held, ← h'.held, hsame q hq]

/-! ## Changes without failures -/

/-- The paths that are admitted when, one after the other, they take what is on disk. -/
def admittedPaths (source : NoteSource) (exclude : ExcludeSet) (disk : Disk) (index : VaultIndex) :
    ℕ → List OsString → List OsString
  | _, [] => []
  | total, path :: paths =>
      let taken := total - heldSize (index.held path) +
        heldSize (diskHeld source exclude disk path)
      if taken ≤ u64Max then path :: admittedPaths source exclude disk index taken paths
      else admittedPaths source exclude disk index total paths

theorem admittedPaths_congr {total : ℕ} {paths : List OsString}
    (h : ∀ q ∈ paths, next.held q = index.held q) :
    admittedPaths source exclude disk next total paths =
      admittedPaths source exclude disk index total paths := by
  induction paths generalizing total with
  | nil => rfl
  | cons path paths ih =>
      rw [admittedPaths, admittedPaths, h path List.mem_cons_self,
        ih fun q hq => h q (List.mem_cons_of_mem _ hq),
        ih fun q hq => h q (List.mem_cons_of_mem _ hq)]

theorem admittedPaths_subset (total : ℕ) (paths : List OsString) :
    admittedPaths source exclude disk index total paths ⊆ paths := by
  induction paths generalizing total with
  | nil => exact List.Subset.refl _
  | cons path paths ih =>
      rw [admittedPaths]
      by_cases hfits : total - heldSize (index.held path) +
          heldSize (diskHeld source exclude disk path) ≤ u64Max
      · rw [if_pos hfits]
        exact List.cons_subset_cons path (ih _)
      · rw [if_neg hfits]
        exact List.subset_cons_of_subset path (ih total)

/-- A held path without its revision. -/
def withoutRevision (held : Option Held) : Option Held :=
  held.map fun held => { held with revision := none }

theorem heldSize_withoutRevision (held : Option Held) :
    heldSize (withoutRevision held) = heldSize held := by
  cases held <;> rfl

/-- A path takes what is on disk, or loses its revision if that does not fit. -/
structure Settled (source : NoteSource) (exclude : ExcludeSet) (disk : Disk) (path : OsString)
    (index next : VaultIndex) : Prop where
  others : ∀ q, q ≠ path → next.held q = index.held q
  admitted : sizeWithout path index + heldSize (diskHeld source exclude disk path) ≤ u64Max →
    next.held path = diskHeld source exclude disk path
  refused : ¬sizeWithout path index + heldSize (diskHeld source exclude disk path) ≤ u64Max →
    next.held path = withoutRevision (index.held path)

/-- The change of a path agrees with the disk. -/
def Agrees (disk : Disk) (changes : Changes) (path : OsString) : Prop :=
  changes.lookup path = some .refresh ∨
    changes.lookup path = some .remove ∧ disk.fileAt path = none

theorem lookup_forgetRevision (inv : Inventory) (path q : OsString) :
    (placeAll inv (forgetRevision path inv)).lookup q =
      if q = path then (inv.lookup path).map fun held => { held with revision := none }
      else inv.lookup q := by
  rw [forgetRevision]
  cases hheld : inv.lookup path with
  | none =>
      by_cases hq : q = path
      · rw [if_pos hq, hq]
        exact hheld
      · rw [if_neg hq]
        rfl
  | some held =>
      exact inv.lookup_place ⟨path, some { held with revision := none }⟩ q

theorem VaultIndex.Holds.settle (h : Holds source origin placed index) (hpath : Portable path)
    (hchange : Agrees disk changes path) (hlexical : LexicalReady lexical)
    (hread : Readable exclude disk path) (embeddingsEnabled dirty : Bool) :
    ∃ next later, ∃ dirty', ObsidianMcp.stageChange source disk exclude lexical embeddingsEnabled
        changes (index, dirty) path = some (next, dirty') ∧
      Holds source origin (placed ++ later) next ∧
      Settled source exclude disk path index next := by
  have hsize := h.sizeWithout_eq path
  have hle := sizeWithout_le h.consistent path
  rcases hchange with hchange | ⟨hchange, hfile⟩
  · rcases hpath with ⟨names, hnames, rfl⟩
    rcases h.refreshFile exclude disk hnames lexical embeddingsEnabled with
      ⟨next, result, hnext, hholds⟩
    rcases stageChange_refresh hchange hnext dirty with ⟨dirty', hstage⟩
    refine ⟨next, _, dirty', hstage, hholds, ?_⟩
    have hheld : ∀ q, next.held q = (placeAll (origin.after placed) (refreshPlacements source exclude
        disk (textPath names) lexical (origin.after placed))).lookup q := by
      intro q
      rw [hholds.held, origin.after_append]
    rw [hsize] at hle
    rw [refreshPlacements_eq hlexical hread hle, ← hsize] at hheld
    constructor
    case others =>
      intro q hq
      rw [hheld, h.held]
      by_cases hfits : sizeWithout (textPath names) index +
          heldSize (diskHeld source exclude disk (textPath names)) ≤ u64Max
      · rw [if_pos hfits]
        exact ((origin.after placed).lookup_place _ q).trans (if_neg hq)
      · rw [if_neg hfits, lookup_forgetRevision, if_neg hq]
    case admitted =>
      intro hfits
      rw [hheld, if_pos hfits]
      exact ((origin.after placed).lookup_place _ _).trans (if_pos rfl)
    case refused =>
      intro hfits
      rw [hheld, if_neg hfits, lookup_forgetRevision, if_pos rfl, h.held]
      rfl
  · rcases h.removeFile hpath.logicalSeparators with ⟨removed, hremoved, hholds⟩
    rcases @stageChange_remove _ exclude disk _ _ _ lexical _ hchange
      hremoved embeddingsEnabled dirty with ⟨dirty', hstage⟩
    refine ⟨removed, _, dirty', hstage, hholds, ?_⟩
    have hheld : ∀ q, removed.held q = if q = path then none else index.held q := by
      intro q
      rw [hholds.held, origin.after_concat, Inventory.lookup_place, h.held]
    have hnone : diskHeld source exclude disk path = none := by
      rw [diskHeld, hfile]
      rfl
    constructor
    case others =>
      intro q hq
      rw [hheld, if_neg hq]
    case admitted =>
      intro _
      rw [hheld, if_pos rfl, hnone]
    case refused =>
      intro hfits
      rw [hnone] at hfits
      exact absurd hle hfits

/-- Changes that agree with the disk bring every admitted path up to date. -/
theorem VaultIndex.Holds.settleAll (h : Holds source origin placed index) {paths : List OsString}
    (hnodup : paths.Nodup) (hpaths : ∀ q ∈ paths, Portable q)
    (hchanges : ∀ q ∈ paths, Agrees disk changes q) (hlexical : LexicalReady lexical)
    (hread : ∀ q ∈ paths, Readable exclude disk q) (embeddingsEnabled dirty : Bool) :
    ∃ next, ∃ dirty', paths.foldlM (ObsidianMcp.stageChange source disk exclude lexical
        embeddingsEnabled changes) (index, dirty) = some (next, dirty') ∧
      (∀ q, q ∉ paths → next.held q = index.held q) ∧
      ∀ q ∈ paths, next.held q =
        if q ∈ admittedPaths source exclude disk index index.stats.vaultSizeBytes paths then
          diskHeld source exclude disk q
        else withoutRevision (index.held q) := by
  induction paths generalizing index placed dirty with
  | nil => exact ⟨index, dirty, rfl, fun _ _ => rfl, nofun⟩
  | cons path paths ih =>
      have hmem : ∀ {q}, q ∈ paths → q ∈ path :: paths := List.mem_cons_of_mem path
      rw [List.nodup_cons] at hnodup
      rcases h.settle (hpaths path List.mem_cons_self) (hchanges path List.mem_cons_self) hlexical
        (hread path List.mem_cons_self) embeddingsEnabled dirty with
        ⟨middle, later, dirty', hmiddle, hholds, hsettled⟩
      rcases ih hholds hnodup.2 (fun q hq => hpaths q (hmem hq)) (fun q hq => hchanges q (hmem hq))
        (fun q hq => hread q (hmem hq)) dirty' with ⟨next, dirty'', hnext, hothers, hsame⟩
      refine ⟨next, dirty'', ?_, ?_, ?_⟩
      · rw [List.foldlM_cons, hmiddle]
        exact hnext
      · intro q hq
        rw [List.mem_cons, not_or] at hq
        rw [hothers q hq.2, hsettled.others q hq.1]
      · have htotal := vaultSize_eq_held h.consistent path
        have hmiddleTotal := vaultSize_eq_held hholds.consistent path
        rw [sizeWithout_congr h hholds hsettled.others] at hmiddleTotal
        have hwithout : index.stats.vaultSizeBytes - heldSize (index.held path) =
            sizeWithout path index := by omega
        have hrest : ∀ total, admittedPaths source exclude disk middle total paths =
            admittedPaths source exclude disk index total paths := fun total =>
          admittedPaths_congr fun q hq => hsettled.others q (ne_of_mem_of_not_mem hq hnodup.1)
        have hnot : ∀ total, path ∉ admittedPaths source exclude disk index total paths :=
          fun total hpath => hnodup.1 (admittedPaths_subset total paths hpath)
        rw [admittedPaths, hwithout, List.forall_mem_cons, hothers path hnodup.1]
        by_cases hfits : sizeWithout path index + heldSize (diskHeld source exclude disk path) ≤ u64Max
        · rw [hsettled.admitted hfits] at hmiddleTotal
          rw [if_pos hfits, if_pos List.mem_cons_self, hsettled.admitted hfits, ← hmiddleTotal]
          refine ⟨rfl, fun q hq => ?_⟩
          have hne := ne_of_mem_of_not_mem hq hnodup.1
          rw [hsame q hq, hrest, hsettled.others q hne]
          exact if_congr (List.mem_cons.trans (or_iff_right hne)).symm rfl rfl
        · -- The refused path keeps its size.
          rw [hsettled.refused hfits, heldSize_withoutRevision] at hmiddleTotal
          rw [if_neg hfits, if_neg (hnot _), hsettled.refused hfits]
          refine ⟨rfl, fun q hq => ?_⟩
          rw [hsame q hq, hrest, hmiddleTotal, ← htotal,
            hsettled.others q (ne_of_mem_of_not_mem hq hnodup.1)]

end ObsidianMcp
