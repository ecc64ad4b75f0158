import ObsidianMcp.Library.Counts
import ObsidianMcp.Verification.Index.Observations
import ObsidianMcp.Verification.Links.Resolver

/-! # The inventory that the index stands for

Abstractly the index is a table from paths to what was found there, written one path at a time. The
rest of the index is determined by the sequence of these placements. -/

namespace ObsidianMcp.VaultIndex

open Text

/-! ## Placements -/

/-- What the vault holds at a path, with the revision of its source. -/
structure Held where
  entry : Entry
  revision : Option Text

/-- A path receives something or nothing. -/
structure Placement where
  path : OsString
  held : Option Held

abbrev Inventory := Table OsString Held

def Entry.metadata : Entry → Option NoteMetadata
  | note metadata => some metadata
  | _ => none

def Held.isNote (held : Held) : Bool :=
  held.entry.isNote

namespace Inventory

def place (inv : Inventory) (placement : Placement) : Inventory :=
  match placement.held with
  | some held => inv.insert placement.path held
  | none => inv.erase placement.path

def isNote (path : OsString) (inv : Inventory) : Bool :=
  (inv.lookup path).any Held.isNote

def size (inv : Inventory) : ℕ :=
  inv.total fun _ held => held.entry.size

def paths (inv : Inventory) : Finset OsString :=
  inv.keys.toFinset

end Inventory

/-- The inventory after a sequence of placements. -/
def inventory (placements : List Placement) : Inventory :=
  placements.foldl Inventory.place ∅

/-- What an index starts from. -/
structure Origin where
  inventory : Inventory
  linkResolver : LinkResolver

def Origin.empty : Origin :=
  ⟨∅, ∅, ∅⟩

def Origin.after (origin : Origin) (placements : List Placement) : Inventory :=
  placements.foldl Inventory.place origin.inventory

/-- The link event of a path that becomes or ceases to be a note. -/
def linkEvents (path : OsString) (was now : Bool) : List LinkResolver.Event :=
  if was = now then []
  else if now then [.added path]
  else [.removed path]

/-- The link events of one placement. -/
def placementEvents (inv : Inventory) (placement : Placement) : List LinkResolver.Event :=
  linkEvents placement.path (inv.isNote placement.path) (placement.held.any Held.isNote)

/-- The link events of a sequence of placements. -/
def linkHistoryFrom : Inventory → List Placement → List LinkResolver.Event
  | _, [] => []
  | inv, placement :: placements =>
      placementEvents inv placement ++ linkHistoryFrom (inv.place placement) placements

def linkHistory (placements : List Placement) : List LinkResolver.Event :=
  linkHistoryFrom ∅ placements

/-- The keys under which a path is watched. -/
def watchKeys (source : NoteSource) (path : OsString) : List (Text × OsString) :=
  (pathPrefixes path).map fun p => (foldedPath source p, p)

/-- How often a key is watched. -/
def watchOccurs (source : NoteSource) (paths : Finset OsString) (key : Text × OsString) : ℕ :=
  ∑ path ∈ paths, Counts.occurrences (watchKeys source path) key

/-- What the index holds at a path. -/
def held (path : OsString) (index : VaultIndex) : Option Held :=
  (index.entryAt path).map fun entry => ⟨entry, index.sourceRevisions.lookup path⟩

/-- The index represents what a sequence of placements makes of its origin. -/
structure Holds (source : NoteSource) (origin : Origin) (placements : List Placement)
    (index : VaultIndex) : Prop where
  consistent : Consistent source index
  held : ∀ p, index.held p = (origin.after placements).lookup p
  linkResolver : index.linkResolver =
    LinkResolver.run source.text (linkHistoryFrom origin.inventory placements) origin.linkResolver
  watched : ∀ watch, index.watchPaths = some watch →
    Counts.Exact (watchOccurs source (origin.after placements).paths) watch

variable {source : NoteSource} {index : VaultIndex} {path : OsString} {origin : Origin}
  {placements : List Placement}

/-! ## One placement more -/

theorem inventory_concat (placements : List Placement) (placement : Placement) :
    inventory (placements ++ [placement]) = (inventory placements).place placement := by
  rw [inventory, List.foldl_append]
  rfl

theorem Origin.after_concat (origin : Origin) (placements : List Placement)
    (placement : Placement) :
    origin.after (placements ++ [placement]) = (origin.after placements).place placement := by
  rw [after, List.foldl_append]
  rfl

theorem linkHistoryFrom_append (inv : Inventory) (placements later : List Placement) :
    linkHistoryFrom inv (placements ++ later) =
      linkHistoryFrom inv placements ++ linkHistoryFrom (placements.foldl Inventory.place inv) later := by
  induction placements generalizing inv with
  | nil => rfl
  | cons placement placements ih =>
      rw [List.cons_append, linkHistoryFrom, ih, linkHistoryFrom, List.append_assoc]
      rfl

theorem linkHistoryFrom_concat (origin : Origin) (placements : List Placement)
    (placement : Placement) :
    linkHistoryFrom origin.inventory (placements ++ [placement]) =
      linkHistoryFrom origin.inventory placements ++
        placementEvents (origin.after placements) placement := by
  rw [linkHistoryFrom_append, linkHistoryFrom, linkHistoryFrom, List.append_nil]
  rfl

theorem linkHistory_concat (placements : List Placement) (placement : Placement) :
    linkHistory (placements ++ [placement]) =
      linkHistory placements ++ placementEvents (inventory placements) placement := by
  rw [linkHistory, linkHistoryFrom_append, linkHistoryFrom, linkHistoryFrom, List.append_nil]
  rfl

theorem Inventory.lookup_place (inv : Inventory) (placement : Placement) (p : OsString) :
    (inv.place placement).lookup p =
      if p = placement.path then placement.held else inv.lookup p := by
  rw [place]
  cases hheld : placement.held with
  | none =>
      by_cases hp : p = placement.path
      · rw [if_pos hp, hp, AList.lookup_erase]
      · rw [if_neg hp, AList.lookup_erase_ne hp]
  | some held =>
      by_cases hp : p = placement.path
      · rw [if_pos hp, hp, AList.lookup_insert]
      · rw [if_neg hp, AList.lookup_insert_ne hp]

theorem Inventory.mem_paths {inv : Inventory} {p : OsString} :
    p ∈ inv.paths ↔ (inv.lookup p).isSome := by
  rw [paths, List.mem_toFinset, AList.lookup_isSome]
  exact AList.mem_keys.symm

theorem run_linkEvents (path : OsString) (was now : Bool) (resolver : LinkResolver) :
    LinkResolver.run source.text (linkEvents path was now) resolver =
      relink source path was now resolver := by
  rw [linkEvents, relink]
  cases was <;> cases now <;> rfl

/-- The note at a path is part of its entry. -/
theorem lookup_notes_eq (index : VaultIndex) (p : OsString) :
    index.notes.lookup p = (index.entryAt p).bind Entry.metadata := by
  cases h : index.notes.lookup p with
  | some note =>
      rw [entryAt_of_note h]
      rfl
  | none =>
      rw [entryAt_of_no_note h]
      by_cases hmem : p ∈ index.excludedNotePaths
      · rw [if_pos hmem]
        rfl
      · rw [if_neg hmem]
        cases index.attachments.lookup p <;> rfl

theorem map_entry_held (index : VaultIndex) (p : OsString) :
    (index.held p).map Held.entry = index.entryAt p := by
  rw [held]
  cases index.entryAt p <;> rfl

theorem Holds.entryAt (h : Holds source origin placements index) (p : OsString) :
    index.entryAt p = ((origin.after placements).lookup p).map Held.entry := by
  rw [← map_entry_held, h.held]

theorem Holds.lookup_notes (h : Holds source origin placements index) (p : OsString) :
    index.notes.lookup p = ((origin.after placements).lookup p).bind fun held =>
      held.entry.metadata := by
  rw [lookup_notes_eq, h.entryAt]
  cases (origin.after placements).lookup p <;> rfl

theorem Holds.isNote (h : Holds source origin placements index) (p : OsString) :
    (index.notes.lookup p).isSome = (origin.after placements).isNote p := by
  rw [← isNote_entryAt, h.entryAt, Inventory.isNote]
  cases (origin.after placements).lookup p <;> rfl

/-! ## Watched paths -/

theorem insert_eq_foldl (path : OsString) (watch : WatchPaths) :
    watch.insert source path = (watchKeys source path).foldl Counts.increment watch := by
  rw [WatchPaths.insert, watchKeys, List.foldl_map]
  rfl

theorem removePrefix_eq {occurs : Text × OsString → ℕ} {watch : WatchPaths}
    (h : Counts.Exact occurs watch) (p : OsString) :
    WatchPaths.removePrefix source watch p =
      some (Counts.decrement watch (foldedPath source p, p)) := by
  rw [WatchPaths.removePrefix, Counts.decrement]
  cases hcount : watch.lookup (foldedPath source p, p) with
  | none =>
      dsimp only
      rw [Option.getD_none, if_pos rfl, Table.erase_of_lookup_eq_none hcount]
  | some count =>
      have hpos : 0 < count := by
        have hexact := (h (foldedPath source p, p)).symm.trans hcount
        have heq := Counts.getD_positive (occurs (foldedPath source p, p))
        rw [hexact, Option.getD_some] at heq
        rw [heq]
        exact Counts.positive_eq_some hexact
      dsimp only
      rw [checkedSub_of_le hpos]
      rfl

theorem remove_eq_foldl {occurs : Text × OsString → ℕ} {watch : WatchPaths}
    (h : Counts.Exact occurs watch) (path : OsString) :
    watch.remove source path = some ((watchKeys source path).foldl Counts.decrement watch) := by
  rw [WatchPaths.remove, watchKeys]
  induction pathPrefixes path generalizing occurs watch with
  | nil => rfl
  | cons p prefixes ih =>
      rw [List.foldlM_cons, removePrefix_eq h, List.map_cons, List.foldl_cons]
      exact ih (h.decrement (foldedPath source p, p))

theorem watchOccurs_insert {paths : Finset OsString} (h : path ∉ paths)
    (key : Text × OsString) :
    watchOccurs source (insert path paths) key =
      watchOccurs source paths key + Counts.occurrences (watchKeys source path) key := by
  rw [watchOccurs, Finset.sum_insert h, Nat.add_comm]
  rfl

theorem watchOccurs_erase {paths : Finset OsString} (h : path ∈ paths) (key : Text × OsString) :
    watchOccurs source (paths.erase path) key =
      watchOccurs source paths key - Counts.occurrences (watchKeys source path) key := by
  have hsum := Finset.sum_erase_add paths
    (fun p => Counts.occurrences (watchKeys source p) key) h
  rw [watchOccurs, watchOccurs, ← hsum, Nat.add_sub_cancel]

/-- The watched paths of a set follow one path. -/
theorem Rewatched.exact {paths paths' : Finset OsString} {was now : Bool}
    {before after : Option WatchPaths} (h : Rewatched source path was now before after)
    (hbefore : ∀ watch, before = some watch → Counts.Exact (watchOccurs source paths) watch)
    (hwas : path ∈ paths ↔ was = true) (hnow : path ∈ paths' ↔ now = true)
    (hrest : paths.erase path = paths'.erase path) (watch : WatchPaths)
    (hafter : after = some watch) : Counts.Exact (watchOccurs source paths') watch := by
  rcases h with h | h
  · have hsame : paths = paths' := by
      ext p
      by_cases hp : p = path
      · rw [hp, hwas, hnow, h.1]
      · have hmem := Finset.ext_iff.mp hrest p
        rwa [Finset.mem_erase, Finset.mem_erase, and_iff_right hp, and_iff_right hp] at hmem
    rw [← hsame]
    exact hbefore watch (h.2.symm.trans hafter)
  · rcases h with ⟨without, hwithout, heq⟩
    have hexact : ∀ watch, without = some watch →
        Counts.Exact (watchOccurs source (paths.erase path)) watch := by
      intro left hleft
      cases hb : before with
      | none =>
          rw [hb, unwatch, hleft, Option.some.injEq] at hwithout
          contradiction
      | some old =>
          rw [hb, unwatch] at hwithout
          have hold := hbefore old hb
          by_cases ht : was = true
          · rw [if_pos ht, remove_eq_foldl hold, Option.map_some, hleft, Option.some.injEq,
              Option.some.injEq] at hwithout
            rw [← hwithout]
            apply (hold.decrementAll (watchKeys source path)).congr
            intro key
            exact (watchOccurs_erase (hwas.mpr ht) key).symm
          · rw [if_neg ht, hleft, Option.some.injEq, Option.some.injEq] at hwithout
            rw [← hwithout, Finset.erase_eq_of_notMem (fun hmem => ht (hwas.mp hmem))]
            exact hold
    by_cases ht : now = true
    · rw [heq, if_pos ht, Option.map_eq_some_iff] at hafter
      rcases hafter with ⟨left, hleft, rfl⟩
      rw [insert_eq_foldl, ← Finset.insert_erase (hnow.mpr ht), ← hrest]
      apply ((hexact left hleft).incrementAll (watchKeys source path)).congr
      intro key
      exact (watchOccurs_insert (Finset.notMem_erase path paths) key).symm
    · rw [heq, if_neg ht] at hafter
      rw [← Finset.erase_eq_of_notMem (fun hmem => ht (hnow.mp hmem)), ← hrest]
      exact hexact watch hafter

/-! ## Steps -/

/-- A step of the index is a placement. -/
theorem Holds.place (h : Holds source origin placements index) {next : VaultIndex} {held : Option Held}
    (hpath : logicalSeparators path = path)
    (hstep : Stepped source path (held.map Held.entry) (held.bind Held.revision) index next) :
    Holds source origin (placements ++ [⟨path, held⟩]) next := by
  have hlookup := Inventory.lookup_place (origin.after placements) ⟨path, held⟩
  rw [← origin.after_concat] at hlookup
  constructor
  case consistent => exact hstep.consistent
  case held =>
    intro p
    rw [hlookup, VaultIndex.held, hstep.entryAt, hstep.revisions]
    by_cases hp : p = path
    · rw [if_pos hp, if_pos hp, if_pos hp]
      cases held <;> rfl
    · rw [if_neg hp, if_neg hp, if_neg hp]
      exact h.held p
  case linkResolver =>
    rw [linkHistoryFrom_concat, LinkResolver.run_append, ← h.linkResolver, placementEvents,
      run_linkEvents, hstep.linkResolver, h.isNote]
    cases held <;> rfl
  case watched =>
    apply hstep.watchPaths.exact h.watched
    · rw [Inventory.mem_paths, tracks_eq_isSome hpath, h.entryAt, Option.isSome_map]
    · rw [Inventory.mem_paths, hlookup, if_pos rfl, Option.isSome_map]
    · ext p
      rw [Finset.mem_erase, Finset.mem_erase, Inventory.mem_paths, Inventory.mem_paths, hlookup]
      constructor
      · intro hp
        rw [if_neg hp.1]
        exact hp
      · intro hp
        rw [if_neg hp.1] at hp
        exact hp

end ObsidianMcp.VaultIndex
