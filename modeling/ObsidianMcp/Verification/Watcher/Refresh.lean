import ObsidianMcp.Verification.Index.Loads
import ObsidianMcp.Verification.Watcher.Disk

/-! # Refreshing one path -/

namespace ObsidianMcp.VaultIndex

open Text

variable {source : NoteSource} {exclude : ExcludeSet} {disk : Disk} {index : VaultIndex}
  {path : OsString} {origin : VaultIndex.Origin} {placed : List Placement} {lexical : Option Lexical}
  {names : List Text}

/-! ## What is found -/

/-- What an observation of a path on disk gives. -/
def diskHeld (source : NoteSource) (exclude : ExcludeSet) (disk : Disk) (path : OsString) :
    Option Held :=
  (disk.fileAt path).bind (observedHeld source exclude)

def heldSize (held : Option Held) : ℕ :=
  held.elim 0 fun held => held.entry.size

/-- Every note that is there can be read. -/
def Readable (exclude : ExcludeSet) (disk : Disk) (path : OsString) : Prop :=
  ∀ file, disk.fileAt path = some file → classify path exclude = .note →
    ∃ content, file.content = .ok content

/-- Lexical search takes every document and every removal. -/
def LexicalReady (lexical : Option Lexical) : Prop :=
  ∀ search, lexical = some search →
    (∀ path metadata content, (search.replaceDocument path metadata content).isOk = true) ∧
      ∀ path, (search.removeFileBatch path).isOk = true

/-- The placements of one refresh. -/
def refreshPlacements (source : NoteSource) (exclude : ExcludeSet) (disk : Disk) (path : OsString)
    (lexical : Option Lexical) (inv : Inventory) : List Placement :=
  match disk.fileAt path with
  | none => observed ⟨path, none⟩ none lexical inv
  | some file =>
      match classify path exclude, file.content with
      | .note, .error error =>
          if isResourceLimit error then forgetRevision path inv
          else observed ⟨path, none⟩ none lexical inv
      | _, content =>
          (Operation.observe path content.toOption file.stat lexical false).placements source exclude
            inv

/-! ## The call -/

/-- What is left of an update without content after the path has been removed. -/
theorem Holds.finishRemoved (h : Holds source origin placed index)
    (hpath : logicalSeparators path = path) (wasNote : Bool)
    {update : Except VaultError (Option Text)} (hcontent : update.toOption.join = none)
    (lexical : Option Lexical) (embeddingsEnabled : Bool) :
    ∃ next result, (index.removeFile source path).bind
        (VaultIndex.finishLexical source path wasNote update lexical embeddingsEnabled) =
          some (next, result) ∧
      Holds source origin (placed ++ ⟨path, none⟩ :: lexicalPlacements path wasNote none lexical
        ((origin.after placed).place ⟨path, none⟩)) next := by
  rcases h.removeFile hpath with ⟨removed, hremoved, hholds⟩
  rcases hholds.finishLexical hpath wasNote update lexical embeddingsEnabled with
    ⟨next, result, hnext, hfinal⟩
  refine ⟨next, result, by rw [hremoved, Option.bind_some, hnext], ?_⟩
  rw [hcontent, origin.after_concat, List.append_assoc] at hfinal
  exact hfinal

theorem not_resourceLimit_of_skip {error : VaultError} (h : skipChangedEntry error = true) :
    isResourceLimit error = false := by
  cases error <;> first | rfl | contradiction

theorem finishRefresh_removed (index : VaultIndex) (wasNote : Bool) (lexical : Option Lexical)
    (embeddingsEnabled : Bool) :
    ((index.removeFile source path).map (·, Except.ok none)).bind (fun update =>
        finishRefresh source path wasNote update lexical embeddingsEnabled) =
      (index.removeFile source path).bind
        (VaultIndex.finishLexical source path wasNote (.ok none) lexical embeddingsEnabled) := by
  cases index.removeFile source path <;> rfl

theorem finishRefresh_error {error : VaultError} (h : isResourceLimit error = false)
    (index : VaultIndex) (wasNote : Bool) (lexical : Option Lexical) (embeddingsEnabled : Bool) :
    finishRefresh source path wasNote (index, .error error) lexical embeddingsEnabled =
      (index.removeFile source path).bind
        (VaultIndex.finishLexical source path wasNote (.error error) lexical embeddingsEnabled) := by
  rw [finishRefresh, h, if_neg Bool.false_ne_true]

/-- The class of a path decides whether its file is read. -/
theorem Holds.refreshEntry (h : Holds source origin placed index) (exclude : ExcludeSet)
    (hnames : PortableNames names) (hvisible : isVisiblePath (textPath names) = true)
    {content : Except VaultError Text} {stat : FileStat}
    (hentry : disk.entryAt (textPath names) = some (.file content stat))
    (lexical : Option Lexical) (embeddingsEnabled : Bool) :
    ∃ next result,
      index.refreshFile source exclude disk (textPath names) lexical embeddingsEnabled =
        some (next, result) ∧
      Holds source origin (placed ++ refreshPlacements source exclude disk (textPath names) lexical
        (origin.after placed)) next := by
  have hpath := logicalSeparators_textPath hnames
  have hplain : Plain (textPath names) :=
    plain_textPath hnames ((isVisiblePath_textPath hnames).mp hvisible)
  rw [VaultIndex.refreshFile, refreshPlacements, disk.fileAt_eq, hentry]
  unfold updateFile
  rw [hvisible, if_neg (by decide), Disk.entryMetadataExact_of_some hnames hentry]
  dsimp only
  rw [if_pos rfl]
  cases hclass : classify (textPath names) exclude with
  | note =>
      cases content with
      | ok content => exact h.observe exclude hplain (some content) stat lexical embeddingsEnabled
      | error error =>
          dsimp only
          rw [Option.bind_some]
          by_cases hrefused : isResourceLimit error = true
          · rw [if_pos hrefused, finishRefresh, if_pos hrefused]
            exact ⟨_, _, rfl, h.forget hpath⟩
          · rw [if_neg hrefused, finishRefresh_error (Bool.eq_false_iff.mpr hrefused), h.isNote]
            exact h.finishRemoved hpath _ rfl lexical embeddingsEnabled
  | excluded =>
      rcases h.observe exclude hplain none ⟨stat.size, none, none⟩ lexical embeddingsEnabled with
        ⟨next, result, hnext, hholds⟩
      refine ⟨next, result, hnext, ?_⟩
      unfold Operation.placements observedEntry at hholds ⊢
      dsimp only at hholds ⊢
      rw [hclass] at hholds ⊢
      exact hholds
  | attachment =>
      rcases h.observe exclude hplain none ⟨stat.size, none, none⟩ lexical embeddingsEnabled with
        ⟨next, result, hnext, hholds⟩
      refine ⟨next, result, hnext, ?_⟩
      unfold Operation.placements observedEntry at hholds ⊢
      dsimp only at hholds ⊢
      rw [hclass] at hholds ⊢
      exact hholds

/-- Nothing is observed at a path without a visible file. -/
theorem Holds.refreshMissing (h : Holds source origin placed index) (exclude : ExcludeSet)
    (hnames : PortableNames names) (hfile : disk.fileAt (textPath names) = none)
    (lexical : Option Lexical) (embeddingsEnabled : Bool) :
    ∃ next result,
      index.refreshFile source exclude disk (textPath names) lexical embeddingsEnabled =
        some (next, result) ∧
      Holds source origin (placed ++ refreshPlacements source exclude disk (textPath names) lexical
        (origin.after placed)) next := by
  have hpath := logicalSeparators_textPath hnames
  rw [VaultIndex.refreshFile, refreshPlacements, hfile, h.isNote]
  unfold updateFile
  by_cases hvisible : isVisiblePath (textPath names) = true
  · rw [disk.fileAt_eq] at hfile
    rw [hvisible, if_neg (by decide)]
    cases hentry : disk.entryAt (textPath names) with
    | none =>
        rcases @Disk.entryMetadataExact_of_none source _ _ hnames hentry with
          ⟨error, herror, hskip⟩
        rw [herror]
        dsimp only
        by_cases hmissing : isMissingEntry error = true
        · rw [hmissing, if_pos (by decide), finishRefresh_removed]
          exact h.finishRemoved hpath _ rfl lexical embeddingsEnabled
        · rw [Bool.eq_false_iff.mpr hmissing, if_neg (by decide), Option.bind_some,
            finishRefresh_error (not_resourceLimit_of_skip hskip)]
          exact h.finishRemoved hpath _ rfl lexical embeddingsEnabled
    | some entry =>
        rw [Disk.entryMetadataExact_of_some hnames hentry]
        cases entry with
        | file content stat =>
            rw [hentry] at hfile
            dsimp only at hfile
            rw [hvisible, if_pos rfl] at hfile
            contradiction
        | folder =>
            dsimp only
            rw [finishRefresh_removed]
            exact h.finishRemoved hpath _ rfl lexical embeddingsEnabled
        | link target =>
            dsimp only
            rw [finishRefresh_removed]
            exact h.finishRemoved hpath _ rfl lexical embeddingsEnabled
        | special =>
            dsimp only
            rw [finishRefresh_removed]
            exact h.finishRemoved hpath _ rfl lexical embeddingsEnabled
  · rw [Bool.eq_false_iff.mpr hvisible, if_pos (by decide), finishRefresh_removed]
    exact h.finishRemoved hpath _ rfl lexical embeddingsEnabled

/-- A refresh makes its placements. -/
theorem Holds.refreshFile (h : Holds source origin placed index) (exclude : ExcludeSet)
    (disk : Disk) (hnames : PortableNames names) (lexical : Option Lexical)
    (embeddingsEnabled : Bool) :
    ∃ next result,
      index.refreshFile source exclude disk (textPath names) lexical embeddingsEnabled =
        some (next, result) ∧
      Holds source origin (placed ++ refreshPlacements source exclude disk (textPath names) lexical
        (origin.after placed)) next := by
  cases hfile : disk.fileAt (textPath names) with
  | none => exact h.refreshMissing exclude hnames hfile lexical embeddingsEnabled
  | some file =>
      by_cases hvisible : isVisiblePath (textPath names) = true
      · rw [disk.fileAt_eq] at hfile
        cases hentry : disk.entryAt (textPath names) with
        | none =>
            rw [hentry] at hfile
            contradiction
        | some entry =>
            rw [hentry] at hfile
            cases entry with
            | file content stat =>
                exact h.refreshEntry exclude hnames hvisible hentry lexical embeddingsEnabled
            | folder => contradiction
            | link target => contradiction
            | special => contradiction
      · rw [Disk.fileAt_of_hidden (Bool.eq_false_iff.mpr hvisible)] at hfile
        contradiction

/-! ## Its effect -/

/-- One path changes, and nothing comes that is not there already or on disk. -/
structure Touches (path : OsString) (found : Bool) (before after : OsString → Option Held) :
    Prop where
  others : ∀ q, q ≠ path → after q = before q
  known : (after path).isSome → found = true ∨ (before path).isSome

theorem Touches.refl (path : OsString) (found : Bool) (held : OsString → Option Held) :
    Touches path found held held :=
  ⟨fun _ _ => rfl, .inr⟩

theorem Touches.trans {found : Bool} {before middle after : OsString → Option Held}
    (h : Touches path found before middle) (h' : Touches path found middle after) :
    Touches path found before after where
  others q hq := (h'.others q hq).trans (h.others q hq)
  known hsome := (h'.known hsome).elim .inl h.known

theorem touches_place (found : Bool) (inv : Inventory) {held : Option Held}
    (h : held.isSome → found = true ∨ (inv.lookup path).isSome) :
    Touches path found (fun q => inv.lookup q)
      (fun q => (inv.place ⟨path, held⟩).lookup q) where
  others q hq := by rw [Inventory.lookup_place, if_neg hq]
  known := by
    rw [Inventory.lookup_place, if_pos rfl]
    exact h

theorem touches_erase (found : Bool) (inv : Inventory) :
    Touches path found (fun q => inv.lookup q)
      (fun q => (inv.place ⟨path, none⟩).lookup q) := by
  apply touches_place
  intro h
  exact absurd h Bool.false_ne_true

/-- The inventory after more placements. -/
def placeAll (inv : Inventory) (placements : List Placement) : Inventory :=
  placements.foldl Inventory.place inv

theorem Origin.after_append (origin : VaultIndex.Origin) (placed later : List Placement) :
    origin.after (placed ++ later) = placeAll (origin.after placed) later :=
  List.foldl_append

theorem touches_lexical (found : Bool) (wasNote : Bool) (content : Option Text) (inv : Inventory) :
    Touches path found (fun q => inv.lookup q)
      (fun q => (placeAll inv (lexicalPlacements path wasNote content lexical inv)).lookup q) := by
  rw [lexicalPlacements]
  by_cases haccepts : lexicalAccepts path wasNote content lexical inv = true
  · rw [if_pos haccepts]
    exact .refl path found _
  · rw [if_neg haccepts]
    exact touches_erase found inv

theorem touches_observed {found : Bool} {inv : Inventory} {held : Option Held}
    (h : held.isSome → found = true ∨ (inv.lookup path).isSome) (content : Option Text) :
    Touches path found (fun q => inv.lookup q)
      (fun q => (placeAll inv (observed ⟨path, held⟩ content lexical inv)).lookup q) :=
  (touches_place found inv h).trans (touches_lexical found _ content _)

theorem touches_removed (found : Bool) (content : Option Text) (inv : Inventory) :
    Touches path found (fun q => inv.lookup q)
      (fun q => (placeAll inv (observed ⟨path, none⟩ content lexical inv)).lookup q) :=
  (touches_erase found inv).trans (touches_lexical found _ content _)

theorem touches_forget (found : Bool) (inv : Inventory) :
    Touches path found (fun q => inv.lookup q)
      (fun q => (placeAll inv (forgetRevision path inv)).lookup q) := by
  rw [forgetRevision]
  cases hheld : inv.lookup path with
  | none => exact .refl path found _
  | some held =>
      have hknown : (some { held with revision := none } : Option Held).isSome →
          found = true ∨ (inv.lookup path).isSome := by
        intro _
        rw [hheld]
        exact .inr rfl
      exact touches_place found inv hknown

theorem touches_refresh (inv : Inventory) :
    Touches path (disk.fileAt path).isSome (fun q => inv.lookup q)
      (fun q => (placeAll inv (refreshPlacements source exclude disk path lexical inv)).lookup q) := by
  rw [refreshPlacements]
  cases hfile : disk.fileAt path with
  | none => exact touches_removed _ none inv
  | some file =>
      have hobserve : Touches path true (fun q => inv.lookup q)
          (fun q => (placeAll inv ((Operation.observe path file.content.toOption file.stat lexical
            false).placements source exclude inv)).lookup q) := by
        rw [Operation.placements]
        cases observedEntry source exclude path file.content.toOption file.stat with
        | error error => exact touches_removed _ none inv
        | ok observed =>
            rcases observed with ⟨entry, revision⟩
            dsimp only
            by_cases hfits : Inventory.size (inv.erase path) + entry.size ≤ u64Max
            · rw [if_pos hfits]
              exact touches_observed (fun _ => .inl rfl) _
            · rw [if_neg hfits]
              exact touches_forget true inv
      dsimp only
      cases hclass : classify path exclude with
      | excluded => exact hobserve
      | attachment => exact hobserve
      | note =>
          cases hcontent : file.content with
          | ok content =>
              rw [hcontent] at hobserve
              exact hobserve
          | error error =>
              dsimp only
              by_cases hrefused : isResourceLimit error = true
              · rw [if_pos hrefused]
                exact touches_forget _ inv
              · rw [if_neg hrefused]
                exact touches_removed _ none inv

/-! ## Without failures -/

theorem lexicalPlacements_eq_nil (h : LexicalReady lexical) (path : OsString) (wasNote : Bool)
    (content : Option Text) (inv : Inventory) :
    lexicalPlacements path wasNote content lexical inv = [] := by
  have haccepts : lexicalAccepts path wasNote content lexical inv = true := by
    unfold lexicalAccepts
    cases lexical with
    | none => rfl
    | some search =>
        have hready := h search rfl
        have hremoval : (!wasNote || (search.removeFileBatch path).isOk) = true := by
          rw [hready.2, Bool.or_true]
        cases content with
        | none => exact hremoval
        | some content =>
            cases (inv.lookup path).bind fun held => held.entry.metadata with
            | none => exact hremoval
            | some metadata => exact hready.1 path metadata content
  rw [lexicalPlacements, if_pos haccepts]

theorem observed_eq (hlexical : LexicalReady lexical) (placement : Placement)
    (content : Option Text) (inv : Inventory) :
    observed placement content lexical inv = [placement] := by
  rw [observed, lexicalPlacements_eq_nil hlexical]

theorem observe_placements_eq (hlexical : LexicalReady lexical) {file : VaultFile}
    (hpath : file.path = path) {inv : Inventory}
    (hsize : Inventory.size (inv.erase path) ≤ u64Max) :
    (Operation.observe path file.content.toOption file.stat lexical false).placements source exclude
        inv =
      if Inventory.size (inv.erase path) + heldSize (observedHeld source exclude file) ≤ u64Max then
        [⟨path, observedHeld source exclude file⟩]
      else forgetRevision path inv := by
  rw [Operation.placements, observedHeld, hpath]
  cases observedEntry source exclude path file.content.toOption file.stat with
  | error error =>
      rw [observed_eq hlexical]
      exact (if_pos hsize).symm
  | ok found =>
      rcases found with ⟨entry, revision⟩
      dsimp only
      rw [observed_eq hlexical]
      rfl

/-- A refresh without failures places what is on disk if it fits. -/
theorem refreshPlacements_eq (hlexical : LexicalReady lexical) (hread : Readable exclude disk path)
    {inv : Inventory} (hsize : Inventory.size (inv.erase path) ≤ u64Max) :
    refreshPlacements source exclude disk path lexical inv =
      if Inventory.size (inv.erase path) + heldSize (diskHeld source exclude disk path) ≤ u64Max then
        [⟨path, diskHeld source exclude disk path⟩]
      else forgetRevision path inv := by
  rw [refreshPlacements, diskHeld]
  cases hfile : disk.fileAt path with
  | none =>
      dsimp only
      rw [observed_eq hlexical]
      exact (if_pos hsize).symm
  | some file =>
      have hobserve := @observe_placements_eq source exclude _ _ hlexical _
        (Disk.path_of_fileAt hfile) _ hsize
      dsimp only
      rw [Option.bind_some]
      cases hclass : classify path exclude with
      | excluded => exact hobserve
      | attachment => exact hobserve
      | note =>
          rcases hread file hfile hclass with ⟨content, hcontent⟩
          rw [hcontent] at hobserve ⊢
          exact hobserve

end ObsidianMcp.VaultIndex
