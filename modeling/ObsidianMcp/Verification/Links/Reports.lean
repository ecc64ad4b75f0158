import ObsidianMcp.Library.Selection
import ObsidianMcp.Model.LinkReports
import ObsidianMcp.Verification.Index.Catalogue

/-! # Link reports

Backlinks, broken links and orphans partition the links of the notes. -/

namespace ObsidianMcp

open Text VaultIndex

variable {source : NoteSource} {vault : LinkVault}

/-- The vault answers queries for an index whose graph is exact; every indexed note is stored under
its own path. -/
structure Reporting (source : NoteSource) (vault : LinkVault) : Prop where
  catalogued : Catalogued source vault.index
  graph : Inverse.Exact (Linked source vault.index) vault.index.backlinks
  catalog : vault.requireCatalog = .ok ()
  canonical : ∀ path, (vault.index.notes.lookup path).isSome →
    vault.canonicalExistingRelativePath path = .ok path

/-! ## Links -/

/-- The text of a link determines its target. -/
theorem parseWikilinkInner_target {inner inner' : Text} {line line' : ℕ}
    (h : (parseWikilinkInner ("[[".toList ++ inner ++ "]]".toList) inner line).raw =
      (parseWikilinkInner ("[[".toList ++ inner' ++ "]]".toList) inner' line').raw) :
    (parseWikilinkInner ("[[".toList ++ inner ++ "]]".toList) inner line).target =
      (parseWikilinkInner ("[[".toList ++ inner' ++ "]]".toList) inner' line').target := by
  have hraw : "[[".toList ++ inner ++ "]]".toList = "[[".toList ++ inner' ++ "]]".toList := h
  rw [List.append_left_inj, List.append_right_inj] at hraw
  rw [hraw]
  rfl

theorem links_of_readFrom {path : OsString} {note : NoteMetadata}
    (h : ReadFrom source path note) :
    ∃ content, note.path = path ∧ note.links = extractWikilinks source.md content := by
  obtain ⟨content, hparse⟩ := h
  refine ⟨content, path_of_parse hparse, ?_⟩
  rw [parseNoteMetadata] at hparse
  cases hfront : parseFrontmatter source.yaml content with
  | error error =>
      rw [hfront] at hparse
      contradiction
  | ok frontmatter =>
      rw [hfront] at hparse
      rw [← Except.ok.inj hparse]

theorem Reporting.note_path (h : Reporting source vault) {path : OsString} {note : NoteMetadata}
    (hnote : vault.index.notes.lookup path = some note) : note.path = path :=
  (links_of_readFrom (h.catalogued.read path note hnote)).choose_spec.1

theorem Reporting.target_eq (h : Reporting source vault) {path : OsString} {note : NoteMetadata}
    (hnote : vault.index.notes.lookup path = some note) {link other : WikiLink}
    (hlink : link ∈ note.links) (hother : other ∈ note.links) (hraw : link.raw = other.raw) :
    link.target = other.target := by
  obtain ⟨content, -, hlinks⟩ := links_of_readFrom (h.catalogued.read path note hnote)
  rw [hlinks, extractWikilinks] at hlink hother
  obtain ⟨found, -, rfl⟩ := List.mem_map.mp hlink
  obtain ⟨found', -, rfl⟩ := List.mem_map.mp hother
  exact parseWikilinkInner_target hraw

theorem resolveLink_nil (source : NoteSource) (index : VaultIndex) :
    index.resolveLink source [] = none := by
  have hnil : LinkResolver.normalizeTarget source.text [] = [] := by
    have hempty : source.text.toLowercase (source.text.nfc []) = [] := by
      rw [(source.text.nfc_eq_nil []).mpr rfl]
      rfl
    simp [LinkResolver.normalizeTarget, portableSeparators, lookupKeyWithoutMd, hempty,
      stripSuffix]
  simp [VaultIndex.resolveLink, LinkResolver.resolve, hnil]

theorem Reporting.resolves_indexed (h : Reporting source vault) {target : Text} {path : OsString}
    (hresolve : vault.resolveLink source target = some path) :
    (vault.index.notes.lookup path).isSome :=
  h.catalogued.within.resolve hresolve

/-! ## Backlinks -/

/-- A note has a link that resolves to a path. -/
def LinksTo (source : NoteSource) (vault : LinkVault) (note : NoteMetadata) (path : OsString) :
    Prop :=
  ∃ link ∈ note.links, vault.resolveLink source link.target = some path

theorem linked_iff {path target : OsString} :
    Linked source vault.index path target ↔
      ∃ note, vault.index.notes.lookup path = some note ∧ LinksTo source vault note target := by
  simp only [Linked, linkTargets, List.mem_filterMap, LinksTo]
  constructor
  · rintro ⟨note, hnote, link, hlink, htarget⟩
    split_ifs at htarget with hempty
    exact ⟨note, hnote, link, hlink, htarget⟩
  · rintro ⟨note, hnote, link, hlink, htarget⟩
    refine ⟨note, hnote, link, hlink, ?_⟩
    rw [if_neg]
    · exact htarget
    · intro hempty
      rw [hempty, LinkVault.resolveLink, resolveLink_nil] at htarget
      contradiction

theorem Reporting.mem_backlinksTo (h : Reporting source vault) {path : OsString}
    (hpath : logicalSeparators path = path) {note : NoteMetadata} :
    note ∈ vault.index.backlinksTo vault.listing path ↔
      ∃ s, vault.index.notes.lookup s = some note ∧ LinksTo source vault note path := by
  have hmem : note ∈ vault.index.backlinksTo vault.listing path ↔
      ∃ s ∈ vault.index.backlinks.keysOf path, vault.index.notes.lookup s = some note := by
    rw [backlinksTo, hpath, Inverse.keysOf]
    cases vault.index.backlinks.lookup path with
    | none => simp
    | some sources => simp [vault.listing.mem]
  rw [hmem]
  constructor
  · rintro ⟨s, hs, hnote⟩
    obtain ⟨found, hfound, hlinks⟩ := linked_iff.mp ((h.graph.mem path s).mp hs)
    rw [hnote, Option.some.injEq] at hfound
    subst hfound
    exact ⟨s, hnote, hlinks⟩
  · rintro ⟨s, hnote, hlinks⟩
    exact ⟨s, (h.graph.mem path s).mpr (linked_iff.mpr ⟨note, hnote, hlinks⟩), hnote⟩

theorem Reporting.getNoteMetadata_eq (h : Reporting source vault) {path : OsString}
    {note : NoteMetadata} (hnote : vault.index.notes.lookup path = some note) :
    vault.getNoteMetadata source path = .ok note := by
  have hsome : (vault.index.notes.lookup path).isSome := by rw [hnote]; rfl
  have hfound : vault.index.getNote path = some note := by
    rw [getNote, h.catalogued.portable path hsome, hnote]
  rw [LinkVault.getNoteMetadata, h.catalog, h.canonical path hsome]
  simp [hfound, bind, Except.bind, pure, Except.pure]

theorem Reporting.backlinks_eq (h : Reporting source vault) {path : OsString}
    (hpath : (vault.index.notes.lookup path).isSome) :
    vault.backlinks path = .ok (vault.index.backlinksTo vault.listing path) := by
  rw [LinkVault.backlinks, h.catalog, h.canonical path hpath]
  rfl

theorem Reporting.outgoingLinks_eq (h : Reporting source vault) {path : OsString}
    {note : NoteMetadata} (hnote : vault.index.notes.lookup path = some note) :
    vault.outgoingLinks path = .ok note.links := by
  have hsome : (vault.index.notes.lookup path).isSome := by rw [hnote]; rfl
  have hfound : vault.index.outgoingLinks path = note.links := by
    rw [VaultIndex.outgoingLinks, h.catalogued.portable path hsome, hnote]
    rfl
  rw [LinkVault.outgoingLinks, h.catalog, h.canonical path hsome]
  simp [hfound, bind, Except.bind, pure, Except.pure]

/-- The references of an entry are links of its note that resolve to the path. -/
theorem mem_backlinkSource {path : OsString} {note : NoteMetadata} {entry : BacklinkSource}
    (h : backlinkSource source vault path note = some entry) :
    entry.sourcePath = note.path ∧ ∀ ref, ref ∈ entry.links ↔ ∃ link ∈ note.links,
      vault.resolveLink source link.target = some path ∧ ref = ⟨link.raw, link.line⟩ := by
  simp only [backlinkSource] at h
  split_ifs at h
  rw [Option.some.injEq] at h
  subst h
  refine ⟨rfl, ?_⟩
  intro ref
  simp only [List.mem_map, List.mem_filter, Option.any_eq_true, decide_eq_true_eq]
  constructor
  · rintro ⟨link, ⟨hlink, resolved, hresolved, rfl⟩, rfl⟩
    exact ⟨link, hlink, hresolved, rfl⟩
  · rintro ⟨link, hlink, hresolved, rfl⟩
    exact ⟨link, ⟨hlink, path, hresolved, rfl⟩, rfl⟩

/-- A note that links to a path has an entry. -/
theorem exists_backlinkSource {path : OsString} {note : NoteMetadata}
    (h : LinksTo source vault note path) :
    ∃ entry, backlinkSource source vault path note = some entry := by
  obtain ⟨link, hlink, hresolve⟩ := h
  simp only [backlinkSource]
  rw [if_neg]
  · exact ⟨_, rfl⟩
  · rw [List.isEmpty_iff, List.map_eq_nil_iff, List.filter_eq_nil_iff]
    intro hnone
    exact hnone link hlink (by simp [hresolve])

/-- The answer to a backlinks query for an indexed note. -/
theorem Reporting.wikilinksBacklinks_eq (h : Reporting source vault) {path : OsString}
    (hpath : (vault.index.notes.lookup path).isSome) :
    wikilinksBacklinks source vault path =
      .ok ((vault.index.backlinksTo vault.listing path).filterMap
        (backlinkSource source vault path)) := by
  obtain ⟨note, hnote⟩ := Option.isSome_iff_exists.mp hpath
  rw [wikilinksBacklinks, h.canonical path hpath]
  simp [h.getNoteMetadata_eq hnote, h.backlinks_eq hpath, bind, Except.bind, pure, Except.pure]

/-- What a backlinks query lists under a note are links of that note that resolve. -/
theorem Reporting.wikilinksBacklinks_sound (h : Reporting source vault) {path : OsString}
    {entries : List BacklinkSource} (hquery : wikilinksBacklinks source vault path = .ok entries)
    {entry : BacklinkSource} (hentry : entry ∈ entries) {ref : BacklinkRef}
    (href : ref ∈ entry.links) {note : NoteMetadata}
    (hnote : vault.index.notes.lookup entry.sourcePath = some note) :
    ∃ link ∈ note.links, (vault.resolveLink source link.target).isSome ∧
      ref = ⟨link.raw, link.line⟩ := by
  rw [wikilinksBacklinks] at hquery
  cases hcanonical : vault.canonicalExistingRelativePath path with
  | error error => simp [hcanonical, bind, Except.bind] at hquery
  | ok target =>
      cases hmetadata : vault.getNoteMetadata source target with
      | error error => simp [hcanonical, hmetadata, bind, Except.bind] at hquery
      | ok metadata =>
          cases hbacklinks : vault.backlinks target with
          | error error => simp [hcanonical, hmetadata, hbacklinks, bind, Except.bind] at hquery
          | ok notes =>
              simp only [hcanonical, hmetadata, hbacklinks, bind, Except.bind, pure, Except.pure,
                Except.ok.injEq] at hquery
              subst hquery
              obtain ⟨found, hfound, hselected⟩ := List.mem_filterMap.mp hentry
              obtain ⟨hpath, hrefs⟩ := mem_backlinkSource hselected
              obtain ⟨link, hlink, hresolve, rfl⟩ := (hrefs ref).mp href
              have hindexed : ∃ s, vault.index.notes.lookup s = some found := by
                rw [LinkVault.backlinks, h.catalog] at hbacklinks
                cases hagain : vault.canonicalExistingRelativePath target with
                | error error => simp [hagain, bind, Except.bind] at hbacklinks
                | ok actual =>
                    simp only [hagain, bind, Except.bind, pure, Except.pure,
                      Except.ok.injEq] at hbacklinks
                    subst hbacklinks
                    rw [backlinksTo] at hfound
                    cases hsources : vault.index.backlinks.lookup (logicalSeparators actual) with
                    | none => simp [hsources] at hfound
                    | some sources =>
                        rw [hsources, Option.map_some, Option.getD_some,
                          List.mem_filterMap] at hfound
                        obtain ⟨s, -, hs⟩ := hfound
                        exact ⟨s, hs⟩
              obtain ⟨s, hs⟩ := hindexed
              rw [hpath, h.note_path hs, hs, Option.some.injEq] at hnote
              subst hnote
              exact ⟨link, hlink, by rw [hresolve]; rfl, rfl⟩

/-! ## Broken links -/

theorem isBrokenTarget_iff {target : Text} :
    isBrokenTarget source vault target = true ↔
      target ≠ [] ∧ vault.resolveLink source target = none := by
  simp [isBrokenTarget]

theorem Reporting.brokenLinks_eq (h : Reporting source vault) :
    vault.brokenLinks source = .ok (vault.index.brokenLinks source) := by
  rw [LinkVault.brokenLinks, h.catalog]
  rfl

/-- The broken links of the notes, in the order of the notes. -/
theorem Reporting.index_brokenLinks_eq (h : Reporting source vault) :
    vault.index.brokenLinks source = vault.index.notes.toPairs.flatMap fun entry =>
      (entry.2.links.filter fun link => isBrokenTarget source vault link.target).map
        (entry.1, ·) := by
  rw [VaultIndex.brokenLinks]
  apply List.flatMap_congr
  intro entry hentry
  rw [h.note_path (Table.mem_toPairs.mp hentry)]
  simp only [isBrokenTarget, LinkVault.resolveLink, VaultIndex.resolveLink,
    LinkResolver.isResolved, Option.not_isSome]

theorem Reporting.mem_brokenLinks (h : Reporting source vault) {path : OsString}
    {link : WikiLink} :
    (path, link) ∈ vault.index.brokenLinks source ↔
      ∃ note, vault.index.notes.lookup path = some note ∧ link ∈ note.links ∧
        isBrokenTarget source vault link.target = true := by
  simp only [h.index_brokenLinks_eq, List.mem_flatMap, List.mem_map, List.mem_filter, Prod.exists,
    Table.mem_toPairs, Prod.mk.injEq]
  constructor
  · rintro ⟨p, note, hnote, found, hfound, rfl, rfl⟩
    exact ⟨note, hnote, hfound⟩
  · rintro ⟨note, hnote, hlink⟩
    exact ⟨path, note, hnote, link, hlink, rfl, rfl⟩

/-- The entry of a broken-links answer for a link. -/
def brokenEntry (path : OsString) (link : WikiLink) : BrokenLink :=
  ⟨path, link.raw, link.target⟩

theorem Reporting.wikilinksBroken_vault (h : Reporting source vault) :
    wikilinksBroken source vault none =
      .ok ((vault.index.brokenLinks source).map fun entry => brokenEntry entry.1 entry.2) := by
  simp [wikilinksBroken, h.brokenLinks_eq, bind, Except.bind, pure, Except.pure, brokenEntry]

theorem Reporting.wikilinksBroken_note (h : Reporting source vault) {path : OsString}
    {note : NoteMetadata} (hnote : vault.index.notes.lookup path = some note) :
    wikilinksBroken source vault (some path) =
      .ok ((note.links.filter fun link => isBrokenTarget source vault link.target).map
        (brokenEntry path)) := by
  have hsome : (vault.index.notes.lookup path).isSome := by rw [hnote]; rfl
  simp only [wikilinksBroken, h.canonical path hsome, h.getNoteMetadata_eq hnote,
    h.outgoingLinks_eq hnote, bind, Except.bind, pure, Except.pure]
  rfl

/-- Broken-links queries list unresolved targets only. -/
theorem Reporting.wikilinksBroken_sound (h : Reporting source vault) {path : Option OsString}
    {entries : List BrokenLink} (hquery : wikilinksBroken source vault path = .ok entries)
    {entry : BrokenLink} (hentry : entry ∈ entries) :
    vault.resolveLink source entry.target = none := by
  cases path with
  | none =>
      rw [h.wikilinksBroken_vault, Except.ok.injEq] at hquery
      subst hquery
      obtain ⟨⟨p, link⟩, hlink, rfl⟩ := List.mem_map.mp hentry
      obtain ⟨note, -, -, hbroken⟩ := h.mem_brokenLinks.mp hlink
      exact (isBrokenTarget_iff.mp hbroken).2
  | some path =>
      rw [wikilinksBroken] at hquery
      cases hcanonical : vault.canonicalExistingRelativePath path with
      | error error => simp [hcanonical, bind, Except.bind] at hquery
      | ok actual =>
          cases hmetadata : vault.getNoteMetadata source actual with
          | error error => simp [hcanonical, hmetadata, bind, Except.bind] at hquery
          | ok metadata =>
              cases hlinks : vault.outgoingLinks actual with
              | error error => simp [hcanonical, hmetadata, hlinks, bind, Except.bind] at hquery
              | ok links =>
                  simp only [hcanonical, hmetadata, hlinks, bind, Except.bind, pure, Except.pure,
                    Except.ok.injEq] at hquery
                  subst hquery
                  obtain ⟨link, hlink, rfl⟩ := List.mem_map.mp hentry
                  exact (isBrokenTarget_iff.mp (List.mem_filter.mp hlink).2).2

/-- How often a link occurs in a note. -/
def occurrences (link : WikiLink) (note : NoteMetadata) : ℕ :=
  note.links.countP fun other => other.raw = link.raw ∧ other.target = link.target

/-- A broken link is listed as often as it occurs. -/
theorem count_broken {path : OsString} {note : NoteMetadata} {link : WikiLink}
    (hbroken : isBrokenTarget source vault link.target = true) :
    ((note.links.filter fun other => isBrokenTarget source vault other.target).map
      (brokenEntry path)).count (brokenEntry path link) = occurrences link note := by
  rw [List.count, List.countP_map, List.countP_filter, occurrences]
  apply List.countP_congr
  intro other hother
  simp only [brokenEntry, Function.comp_apply, beq_iff_eq, BrokenLink.mk.injEq, true_and,
    Bool.and_eq_true, decide_eq_true_eq]
  constructor
  · exact fun heq => heq.1
  · intro heq
    refine ⟨heq, ?_⟩
    rw [heq.2]
    exact hbroken

theorem Reporting.count_broken_vault (h : Reporting source vault) {path : OsString}
    {note : NoteMetadata} (hnote : vault.index.notes.lookup path = some note) {link : WikiLink}
    (hbroken : isBrokenTarget source vault link.target = true) :
    ((vault.index.brokenLinks source).map fun entry => brokenEntry entry.1 entry.2).count
      (brokenEntry path link) = occurrences link note := by
  rw [h.index_brokenLinks_eq, List.map_flatMap, Table.count_flatMap_toPairs hnote]
  · rw [List.map_map]
    exact count_broken hbroken
  · intro entry hentry hmem
    simp only [List.mem_map] at hmem
    obtain ⟨found, ⟨other, -, rfl⟩, heq⟩ := hmem
    exact hentry (BrokenLink.mk.inj heq).1

/-! ## Orphans -/

/-- An indexed note that no link resolves to and none of whose links resolves. -/
structure Disconnected (source : NoteSource) (vault : LinkVault) (path : OsString)
    (note : NoteMetadata) : Prop where
  indexed : vault.index.notes.lookup path = some note
  incoming : ∀ s other, vault.index.notes.lookup s = some other → ¬LinksTo source vault other path
  outgoing : ∀ link ∈ note.links, vault.resolveLink source link.target = none

/-- The sorted set of the unresolved targets of a note. -/
def unresolvedTargets (source : NoteSource) (vault : LinkVault) (note : NoteMetadata) :
    List Text :=
  ((note.links.filter fun link => isBrokenTarget source vault link.target).map
    WikiLink.target).dedup.mergeSort fun a b => a ≤ b

/-- The entry of a disconnected note. -/
def orphanEntry (source : NoteSource) (vault : LinkVault) (path : OsString)
    (note : NoteMetadata) : OrphanNoteEntry :=
  if note.links.all fun link => link.target.isEmpty then ⟨path, .noLinks, []⟩
  else ⟨path, .brokenOutgoingOnly, unresolvedTargets source vault note⟩

theorem Reporting.incoming_iff (h : Reporting source vault) {path : OsString} :
    ((vault.index.backlinks.lookup path).any fun sources => sources ≠ ∅) = false ↔
      ∀ s other, vault.index.notes.lookup s = some other →
        ¬LinksTo source vault other path := by
  have hkeys : ((vault.index.backlinks.lookup path).any fun sources => sources ≠ ∅) = false ↔
      vault.index.backlinks.keysOf path = ∅ := by
    rw [Inverse.keysOf]
    cases vault.index.backlinks.lookup path with
    | none => simp
    | some sources => simp
  rw [hkeys, Finset.eq_empty_iff_forall_notMem]
  simp only [h.graph.mem, linked_iff, not_exists, not_and]

theorem Reporting.backlinksTo_isEmpty (h : Reporting source vault) {path : OsString}
    (hpath : logicalSeparators path = path) :
    (vault.index.backlinksTo vault.listing path).isEmpty = true ↔
      ∀ s other, vault.index.notes.lookup s = some other →
        ¬LinksTo source vault other path := by
  rw [List.isEmpty_iff, List.eq_nil_iff_forall_not_mem]
  simp only [h.mem_backlinksTo hpath, not_exists, not_and]
  exact ⟨fun hnone s other => hnone other s, fun hnone other s => hnone s other⟩

/-- The first pass finds the disconnected notes without links. -/
theorem Reporting.mem_orphanNotes (h : Reporting source vault) {note : NoteMetadata} :
    note ∈ vault.index.orphanNotes ↔
      Disconnected source vault note.path note ∧
        (note.links.all fun link => link.target.isEmpty) = true := by
  have hempty : ((!note.links.any fun link => !link.target.isEmpty) = true) ↔
      (note.links.all fun link => link.target.isEmpty) = true := by
    rw [List.not_any_eq_all_not]
    simp
  simp only [VaultIndex.orphanNotes, List.mem_map, List.mem_filter, Prod.exists,
    Table.mem_toPairs, Bool.and_eq_true, exists_eq_right, Bool.not_eq_true']
  constructor
  · rintro ⟨path, hnote, hincoming, houtgoing⟩
    have hpath := h.note_path hnote
    subst hpath
    have hall := hempty.mp (by rw [houtgoing]; rfl)
    refine ⟨⟨hnote, h.incoming_iff.mp hincoming, ?_⟩, hall⟩
    intro link hlink
    have htarget := List.all_eq_true.mp hall link hlink
    rw [List.isEmpty_iff.mp htarget]
    exact resolveLink_nil source vault.index
  · rintro ⟨hdisconnected, hall⟩
    refine ⟨note.path, hdisconnected.indexed, h.incoming_iff.mpr hdisconnected.incoming, ?_⟩
    simpa using hempty.mpr hall

/-! ## The second pass -/

/-- The table of broken targets lists the broken links. -/
theorem brokenBySource_exact (broken : List (OsString × WikiLink)) :
    Inverse.Exact (fun target path => ∃ link, (path, link) ∈ broken ∧ link.target = target)
      (brokenBySource broken) := by
  induction broken using List.reverseRecOn with
  | nil => exact Inverse.exact_empty (by simp)
  | append_singleton broken entry ih =>
      rw [brokenBySource, List.foldl_concat]
      apply (ih.add entry.2.target entry.1).congr
      intro target path
      constructor
      · rintro (⟨link, hlink, rfl⟩ | ⟨rfl, rfl⟩)
        · exact ⟨link, by simp [hlink], rfl⟩
        · exact ⟨entry.2, by simp, rfl⟩
      · rintro ⟨link, hlink, rfl⟩
        rw [List.mem_append, List.mem_singleton] at hlink
        obtain hlink | rfl := hlink
        · exact .inl ⟨link, hlink, rfl⟩
        · exact .inr ⟨rfl, rfl⟩

/-- What one step of the second pass adds. -/
def brokenOrphan (source : NoteSource) (vault : LinkVault) (targets : SetListing Text)
    (entry : OsString × Finset Text) : Option OrphanNoteEntry :=
  if (vault.index.backlinksTo vault.listing entry.1).isEmpty &&
      !(vault.index.outgoingLinks entry.1).any fun link =>
        hasResolvedTarget source vault link.target then
    some ⟨entry.1, .brokenOutgoingOnly, (targets.list entry.2).mergeSort fun a b => a ≤ b⟩
  else none

theorem Reporting.orphanStep_eq (h : Reporting source vault) (targets : SetListing Text)
    (found : List OrphanNoteEntry) {seen : Finset OsString} {entry : OsString × Finset Text}
    (hindexed : (vault.index.notes.lookup entry.1).isSome) (hseen : entry.1 ∉ seen) :
    ∃ seen', orphanStep source vault targets (found, seen) entry =
        .ok (found ++ (brokenOrphan source vault targets entry).toList, seen') ∧
      seen' ⊆ insert entry.1 seen := by
  obtain ⟨note, hnote⟩ := Option.isSome_iff_exists.mp hindexed
  have hlinks : vault.index.outgoingLinks entry.1 = note.links := by
    rw [VaultIndex.outgoingLinks, h.catalogued.portable entry.1 hindexed, hnote]
    rfl
  obtain ⟨path, broken⟩ := entry
  simp only [orphanStep, if_neg hseen, h.backlinks_eq hindexed, h.outgoingLinks_eq hnote,
    brokenOrphan, hlinks, bind, Except.bind, pure, Except.pure]
  cases hincoming : (vault.index.backlinksTo vault.listing path).isEmpty with
  | false => exact ⟨seen, by simp, Finset.subset_insert _ _⟩
  | true =>
      cases hresolved : note.links.any fun link => hasResolvedTarget source vault link.target with
      | true => exact ⟨seen, by simp, Finset.subset_insert _ _⟩
      | false => exact ⟨insert path seen, by simp, subset_rfl⟩

/-- The second pass visits every note with broken links. -/
theorem Reporting.orphanLoop (h : Reporting source vault) (targets : SetListing Text)
    {entries : List (OsString × Finset Text)}
    (hindexed : ∀ entry ∈ entries, (vault.index.notes.lookup entry.1).isSome)
    (hnodup : (entries.map Prod.fst).Nodup) (found : List OrphanNoteEntry)
    {seen : Finset OsString} (hseen : ∀ entry ∈ entries, entry.1 ∉ seen) :
    ∃ seen', entries.foldlM (orphanStep source vault targets) (found, seen) =
      .ok (found ++ entries.filterMap (brokenOrphan source vault targets), seen') := by
  induction entries generalizing found seen with
  | nil => exact ⟨seen, by simp [pure, Except.pure]⟩
  | cons entry entries ih =>
      obtain ⟨middle, hstep, hmiddle⟩ := h.orphanStep_eq targets found
        (hindexed entry List.mem_cons_self) (hseen entry List.mem_cons_self)
      rw [List.map_cons, List.nodup_cons] at hnodup
      have hrest : ∀ other ∈ entries, other.1 ∉ middle := by
        intro other hother hmem
        obtain heq | hmem := Finset.mem_insert.mp (hmiddle hmem)
        · exact hnodup.1 (heq ▸ List.mem_map_of_mem hother)
        · exact hseen other (List.mem_cons_of_mem _ hother) hmem
      obtain ⟨last, hlast⟩ := ih
        (fun other hother => hindexed other (List.mem_cons_of_mem _ hother)) hnodup.2
        (found ++ (brokenOrphan source vault targets entry).toList) hrest
      refine ⟨last, ?_⟩
      rw [List.foldlM_cons, hstep]
      change entries.foldlM (orphanStep source vault targets) _ = _
      rw [hlast, List.append_assoc]
      cases hentry : brokenOrphan source vault targets entry with
      | none => rw [List.filterMap_cons_none hentry]; rfl
      | some orphan => rw [List.filterMap_cons_some hentry]; rfl

/-- The broken targets of a source are those of its note. -/
theorem Reporting.lookup_brokenBySource (h : Reporting source vault) {path : OsString}
    {broken : Finset Text}
    (hlookup : (brokenBySource (vault.index.brokenLinks source)).lookup path = some broken) :
    broken ≠ ∅ ∧ ∃ note, vault.index.notes.lookup path = some note ∧ ∀ target, target ∈ broken ↔
      ∃ link ∈ note.links, isBrokenTarget source vault link.target = true ∧
        link.target = target := by
  have hexact := brokenBySource_exact (vault.index.brokenLinks source)
  have hmem : ∀ target, target ∈ broken ↔
      ∃ link, (path, link) ∈ vault.index.brokenLinks source ∧ link.target = target := by
    intro target
    rw [← hexact.mem path target, Inverse.keysOf, hlookup, Option.getD_some]
  have hne := hexact.nonempty path broken hlookup
  refine ⟨hne, ?_⟩
  obtain ⟨first, hfirst⟩ := Finset.nonempty_iff_ne_empty.mpr hne
  obtain ⟨link, hlink, -⟩ := (hmem first).mp hfirst
  obtain ⟨note, hnote, -, -⟩ := h.mem_brokenLinks.mp hlink
  refine ⟨note, hnote, ?_⟩
  intro target
  rw [hmem]
  constructor
  · rintro ⟨link, hlink, rfl⟩
    obtain ⟨found, hfound, hin, hbroken⟩ := h.mem_brokenLinks.mp hlink
    rw [hnote, Option.some.injEq] at hfound
    subst hfound
    exact ⟨link, hin, hbroken, rfl⟩
  · rintro ⟨link, hin, hbroken, rfl⟩
    exact ⟨link, h.mem_brokenLinks.mpr ⟨note, hnote, hin, hbroken⟩, rfl⟩

theorem sort_targets_eq (targets : SetListing Text) {note : NoteMetadata} {broken : Finset Text}
    (hbroken : ∀ target, target ∈ broken ↔
      ∃ link ∈ note.links, isBrokenTarget source vault link.target = true ∧
        link.target = target) :
    ((targets.list broken).mergeSort fun a b => a ≤ b) =
      unresolvedTargets source vault note := by
  rw [unresolvedTargets]
  apply mergeSort_eq_of_perm sortOrder_le
  · apply (List.perm_ext_iff_of_nodup (targets.nodup broken) (List.nodup_dedup _)).mpr
    intro target
    simp only [targets.mem, hbroken, List.mem_dedup, List.mem_map, List.mem_filter, and_assoc]
  · intro a _ b _ hab hba
    exact le_antisymm (of_decide_eq_true hab) (of_decide_eq_true hba)

/-- The second pass finds the disconnected notes that have links. -/
theorem Reporting.mem_secondPass (h : Reporting source vault) (targets : SetListing Text)
    {orphan : OrphanNoteEntry} :
    orphan ∈ (brokenBySource (vault.index.brokenLinks source)).toPairs.filterMap
        (brokenOrphan source vault targets) ↔
      ∃ note, Disconnected source vault orphan.path note ∧
        (note.links.all fun link => link.target.isEmpty) = false ∧
        orphan = ⟨orphan.path, .brokenOutgoingOnly, unresolvedTargets source vault note⟩ := by
  rw [List.mem_filterMap]
  constructor
  · rintro ⟨⟨path, broken⟩, hentry, horphan⟩
    obtain ⟨hne, note, hnote, hmem⟩ := h.lookup_brokenBySource (Table.mem_toPairs.mp hentry)
    have hindexed : (vault.index.notes.lookup path).isSome := by rw [hnote]; rfl
    have hportable := h.catalogued.portable path hindexed
    have hlinks : vault.index.outgoingLinks path = note.links := by
      rw [VaultIndex.outgoingLinks, hportable, hnote]
      rfl
    simp only [brokenOrphan, hlinks] at horphan
    split_ifs at horphan with hboth
    rw [Option.some.injEq] at horphan
    subst horphan
    rw [Bool.and_eq_true, Bool.not_eq_true', List.any_eq_false] at hboth
    refine ⟨note, ⟨hnote, (h.backlinksTo_isEmpty hportable).mp hboth.1, ?_⟩, ?_, ?_⟩
    · intro link hlink
      have hunresolved := hboth.2 link hlink
      cases htarget : link.target with
      | nil => exact resolveLink_nil source vault.index
      | cons c rest => simpa [hasResolvedTarget, htarget] using hunresolved
    · obtain ⟨first, hfirst⟩ := Finset.nonempty_iff_ne_empty.mpr hne
      obtain ⟨link, hlink, hbroken, -⟩ := (hmem first).mp hfirst
      rw [List.all_eq_false]
      exact ⟨link, hlink, by simpa using (isBrokenTarget_iff.mp hbroken).1⟩
    · rw [sort_targets_eq targets hmem]
  · rintro ⟨note, hdisconnected, hsome, horphan⟩
    have hnote := hdisconnected.indexed
    have hindexed : (vault.index.notes.lookup orphan.path).isSome := by rw [hnote]; rfl
    have hportable := h.catalogued.portable orphan.path hindexed
    obtain ⟨link, hlink, htarget⟩ := List.all_eq_false.mp hsome
    have hbroken : isBrokenTarget source vault link.target = true :=
      isBrokenTarget_iff.mpr ⟨by simpa using htarget, hdisconnected.outgoing link hlink⟩
    have hkey : link.target ∈
        (brokenBySource (vault.index.brokenLinks source)).keysOf orphan.path := by
      rw [(brokenBySource_exact _).mem]
      exact ⟨link, h.mem_brokenLinks.mpr ⟨note, hnote, hlink, hbroken⟩, rfl⟩
    cases hlookup : (brokenBySource (vault.index.brokenLinks source)).lookup orphan.path with
    | none => simp [Inverse.keysOf, hlookup] at hkey
    | some broken =>
        refine ⟨(orphan.path, broken), Table.mem_toPairs.mpr hlookup, ?_⟩
        obtain ⟨-, found, hfound, hmem⟩ := h.lookup_brokenBySource hlookup
        rw [hnote, Option.some.injEq] at hfound
        subst hfound
        have hlinks : vault.index.outgoingLinks orphan.path = note.links := by
          rw [VaultIndex.outgoingLinks, hportable, hnote]
          rfl
        have hnone : (note.links.any fun link =>
            hasResolvedTarget source vault link.target) = false := by
          rw [List.any_eq_false]
          intro other hother
          simp [hasResolvedTarget, hdisconnected.outgoing other hother]
        have hempty := (h.backlinksTo_isEmpty hportable).mpr hdisconnected.incoming
        simp only [brokenOrphan, hlinks, hnone, hempty, Bool.not_false, Bool.and_self, if_true,
          Option.some.injEq]
        rw [sort_targets_eq targets hmem]
        exact horphan.symm

/-! ## The answer -/

/-- The entries of the first pass. -/
def firstPass (vault : LinkVault) : List OrphanNoteEntry :=
  vault.index.orphanNotes.map fun note => ⟨note.path, .noLinks, []⟩

/-- The entries of the second pass. -/
def secondPass (source : NoteSource) (vault : LinkVault) (targets : SetListing Text) :
    List OrphanNoteEntry :=
  (brokenBySource (vault.index.brokenLinks source)).toPairs.filterMap
    (brokenOrphan source vault targets)

theorem Reporting.mem_firstPass (h : Reporting source vault) {orphan : OrphanNoteEntry} :
    orphan ∈ firstPass vault ↔
      ∃ note, Disconnected source vault orphan.path note ∧
        (note.links.all fun link => link.target.isEmpty) = true ∧
        orphan = ⟨orphan.path, .noLinks, []⟩ := by
  rw [firstPass, List.mem_map]
  constructor
  · rintro ⟨note, hnote, rfl⟩
    exact ⟨note, (h.mem_orphanNotes.mp hnote).1, (h.mem_orphanNotes.mp hnote).2, rfl⟩
  · rintro ⟨note, hdisconnected, hall, horphan⟩
    have hpath := h.note_path hdisconnected.indexed
    refine ⟨note, h.mem_orphanNotes.mpr ⟨hpath.symm ▸ hdisconnected, hall⟩, ?_⟩
    rw [hpath, ← horphan]

/-- A source of broken links is a note with links. -/
theorem Reporting.brokenSource_links (h : Reporting source vault)
    {entry : OsString × Finset Text}
    (hentry : entry ∈ (brokenBySource (vault.index.brokenLinks source)).toPairs) :
    ∃ note, vault.index.notes.lookup entry.1 = some note ∧
      (note.links.all fun link => link.target.isEmpty) = false := by
  obtain ⟨hne, note, hnote, hmem⟩ := h.lookup_brokenBySource (Table.mem_toPairs.mp hentry)
  refine ⟨note, hnote, ?_⟩
  obtain ⟨target, htarget⟩ := Finset.nonempty_iff_ne_empty.mpr hne
  obtain ⟨link, hlink, hbroken, -⟩ := (hmem target).mp htarget
  rw [List.all_eq_false]
  exact ⟨link, hlink, by simpa using (isBrokenTarget_iff.mp hbroken).1⟩

/-- The two passes find different notes. -/
theorem Reporting.firstPass_disjoint (h : Reporting source vault)
    {entry : OsString × Finset Text}
    (hentry : entry ∈ (brokenBySource (vault.index.brokenLinks source)).toPairs) :
    entry.1 ∉ (firstPass vault).map OrphanNoteEntry.path := by
  intro hmem
  obtain ⟨orphan, horphan, hpath⟩ := List.mem_map.mp hmem
  obtain ⟨note, hdisconnected, hall, -⟩ := h.mem_firstPass.mp horphan
  obtain ⟨found, hfound, hsome⟩ := h.brokenSource_links hentry
  rw [← hpath, hdisconnected.indexed, Option.some.injEq] at hfound
  subst hfound
  rw [hall] at hsome
  contradiction

theorem path_of_brokenOrphan {targets : SetListing Text} {entry : OsString × Finset Text}
    {orphan : OrphanNoteEntry} (h : brokenOrphan source vault targets entry = some orphan) :
    orphan.path = entry.1 := by
  rw [brokenOrphan] at h
  split_ifs at h
  rw [Option.some.injEq] at h
  rw [← h]

theorem Reporting.passes_nodup (h : Reporting source vault) (targets : SetListing Text) :
    ((firstPass vault ++ secondPass source vault targets).map OrphanNoteEntry.path).Nodup := by
  rw [List.map_append, List.nodup_append]
  refine ⟨?_, ?_, ?_⟩
  · have hpaths : (firstPass vault).map OrphanNoteEntry.path =
        vault.index.orphanNotes.map NoteMetadata.path := by
      rw [firstPass, List.map_map]
      rfl
    have hkeys : vault.index.notes.toPairs.Pairwise fun a b => a.1 ≠ b.1 := by
      rw [← List.pairwise_map (f := Prod.fst) (R := (· ≠ ·)), Table.map_fst_toPairs]
      exact vault.index.notes.keys_nodup
    rw [hpaths, VaultIndex.orphanNotes, List.map_map, List.Nodup, List.pairwise_map]
    refine (hkeys.filter _).imp_of_mem ?_
    intro a b ha hb hne
    rw [Function.comp_apply, Function.comp_apply,
      h.note_path (Table.mem_toPairs.mp (List.mem_filter.mp ha).1),
      h.note_path (Table.mem_toPairs.mp (List.mem_filter.mp hb).1)]
    exact hne
  · rw [secondPass, List.Nodup, List.pairwise_map, List.pairwise_filterMap]
    have hkeys : (brokenBySource (vault.index.brokenLinks source)).toPairs.Pairwise
        fun a b => a.1 ≠ b.1 := by
      rw [← List.pairwise_map (f := Prod.fst) (R := (· ≠ ·)), Table.map_fst_toPairs]
      exact AList.keys_nodup _
    refine hkeys.imp ?_
    intro a b hne x hx y hy
    rw [path_of_brokenOrphan hx, path_of_brokenOrphan hy]
    exact hne
  · intro path hfirst path' hsecond heq
    subst heq
    obtain ⟨orphan, horphan, rfl⟩ := List.mem_map.mp hsecond
    obtain ⟨entry, hentry, hselected⟩ := List.mem_filterMap.mp horphan
    rw [path_of_brokenOrphan hselected] at hfirst
    exact h.firstPass_disjoint hentry hfirst

/-- The answer to an orphans query. -/
theorem Reporting.wikilinksOrphans_eq (h : Reporting source vault) (targets : SetListing Text) :
    wikilinksOrphans source vault targets =
      .ok ((firstPass vault ++ secondPass source vault targets).mergeSort
        fun a b => a.path ≤ b.path) := by
  have hkeys : ((brokenBySource (vault.index.brokenLinks source)).toPairs.map Prod.fst).Nodup := by
    rw [Table.map_fst_toPairs]
    exact AList.keys_nodup _
  have hindexed : ∀ entry ∈ (brokenBySource (vault.index.brokenLinks source)).toPairs,
      (vault.index.notes.lookup entry.1).isSome := by
    intro entry hentry
    obtain ⟨note, hnote, -⟩ := h.brokenSource_links hentry
    rw [hnote]
    rfl
  have hseen : ∀ entry ∈ (brokenBySource (vault.index.brokenLinks source)).toPairs,
      entry.1 ∉ ((firstPass vault).map OrphanNoteEntry.path).toFinset := by
    intro entry hentry
    rw [List.mem_toFinset]
    exact h.firstPass_disjoint hentry
  obtain ⟨seen, hloop⟩ := h.orphanLoop targets hindexed hkeys (firstPass vault) hseen
  have horphans : vault.orphanNotes = .ok vault.index.orphanNotes := by
    rw [LinkVault.orphanNotes, h.catalog]
    rfl
  rw [firstPass] at hloop
  simp only [wikilinksOrphans, horphans, h.brokenLinks_eq, bind, Except.bind]
  rw [hloop]
  rfl

theorem sortOrder_path : SortOrder fun a b : OrphanNoteEntry => decide (a.path ≤ b.path) := by
  constructor
  · intro a b c hab hbc
    simp only [decide_eq_true_eq] at hab hbc ⊢
    exact List.le_trans hab hbc
  · intro a b
    simpa using List.le_total a.path b.path

/-- The orphans answer lists every disconnected note once, by path. -/
theorem Reporting.wikilinksOrphans_spec (h : Reporting source vault)
    (targets : SetListing Text) :
    ∃ entries, wikilinksOrphans source vault targets = .ok entries ∧
      (entries.map OrphanNoteEntry.path).Nodup ∧
      (entries.Pairwise fun a b => a.path ≤ b.path) ∧
      ∀ entry, entry ∈ entries ↔ ∃ note, Disconnected source vault entry.path note ∧
        entry = orphanEntry source vault entry.path note := by
  have hperm := List.mergeSort_perm (firstPass vault ++ secondPass source vault targets)
    fun a b : OrphanNoteEntry => a.path ≤ b.path
  refine ⟨_, h.wikilinksOrphans_eq targets, ?_, ?_, ?_⟩
  · exact (hperm.map OrphanNoteEntry.path).nodup_iff.mpr (h.passes_nodup targets)
  · have hsorted := List.pairwise_mergeSort sortOrder_path.trans sortOrder_path.total
      (firstPass vault ++ secondPass source vault targets)
    exact hsorted.imp of_decide_eq_true
  · intro entry
    rw [hperm.mem_iff, List.mem_append, h.mem_firstPass, secondPass, h.mem_secondPass targets,
      ← exists_or]
    apply exists_congr
    intro note
    rw [← and_or_left, orphanEntry]
    apply and_congr_right
    intro hdisconnected
    cases note.links.all fun link => link.target.isEmpty with
    | true => simp
    | false => simp

/-! ## The partition -/

/-- A link of a note `s` that resolves to `d` is a backlink of `d`, and never a broken link. -/
structure ResolvedReport (source : NoteSource) (vault : LinkVault) (s : OsString)
    (link : WikiLink) (d : OsString) : Prop where
  indexed : (vault.index.notes.lookup d).isSome
  listed : ∃ entries, wikilinksBacklinks source vault d = .ok entries ∧
    ∃ entry ∈ entries, entry.sourcePath = s ∧ ⟨link.raw, link.line⟩ ∈ entry.links
  unbroken : ∀ path entries, wikilinksBroken source vault path = .ok entries →
    brokenEntry s link ∉ entries

/-- A link of a note `s` that does not resolve is a broken link as often as it occurs, and never a
backlink. -/
structure BrokenReport (source : NoteSource) (vault : LinkVault) (s : OsString)
    (note : NoteMetadata) (link : WikiLink) : Prop where
  vaultWide : ∃ entries, wikilinksBroken source vault none = .ok entries ∧
    entries.count (brokenEntry s link) = occurrences link note
  perNote : ∃ entries, wikilinksBroken source vault (some s) = .ok entries ∧
    entries.count (brokenEntry s link) = occurrences link note
  unlisted : ∀ path entries, wikilinksBacklinks source vault path = .ok entries →
    ∀ entry ∈ entries, entry.sourcePath = s → ⟨link.raw, link.line⟩ ∉ entry.links

theorem Reporting.resolved (h : Reporting source vault) {s d : OsString} {note : NoteMetadata}
    (hnote : vault.index.notes.lookup s = some note) {link : WikiLink} (hlink : link ∈ note.links)
    (hresolve : vault.resolveLink source link.target = some d) :
    ResolvedReport source vault s link d := by
  have hindexed := h.resolves_indexed hresolve
  refine ⟨hindexed, ?_, ?_⟩
  · have hlinks : LinksTo source vault note d := ⟨link, hlink, hresolve⟩
    obtain ⟨entry, hentry⟩ := exists_backlinkSource hlinks
    obtain ⟨hpath, hrefs⟩ := mem_backlinkSource hentry
    refine ⟨_, h.wikilinksBacklinks_eq hindexed, entry, ?_, ?_, ?_⟩
    · rw [List.mem_filterMap]
      exact ⟨note, (h.mem_backlinksTo (h.catalogued.portable d hindexed)).mpr
        ⟨s, hnote, hlinks⟩, hentry⟩
    · rw [hpath, h.note_path hnote]
    · exact (hrefs _).mpr ⟨link, hlink, hresolve, rfl⟩
  · intro path entries hquery hmem
    have hnone := h.wikilinksBroken_sound hquery hmem
    rw [brokenEntry, hresolve] at hnone
    contradiction

theorem Reporting.broken (h : Reporting source vault) {s : OsString} {note : NoteMetadata}
    (hnote : vault.index.notes.lookup s = some note) {link : WikiLink} (hlink : link ∈ note.links)
    (htarget : link.target ≠ []) (hresolve : vault.resolveLink source link.target = none) :
    BrokenReport source vault s note link := by
  have hbroken : isBrokenTarget source vault link.target = true :=
    isBrokenTarget_iff.mpr ⟨htarget, hresolve⟩
  refine ⟨⟨_, h.wikilinksBroken_vault, h.count_broken_vault hnote hbroken⟩,
    ⟨_, h.wikilinksBroken_note hnote, count_broken hbroken⟩, ?_⟩
  intro path entries hquery entry hentry hsource href
  subst hsource
  obtain ⟨other, hother, hresolved, heq⟩ := h.wikilinksBacklinks_sound hquery hentry href hnote
  have hsame := h.target_eq hnote hlink hother (BacklinkRef.mk.inj heq).1
  rw [← hsame, hresolve] at hresolved
  contradiction

/-- After any run outside a source batch, a link that resolves is a backlink of an indexed note and
a link that does not is broken; the orphans are the notes without either end of a resolved link. -/
theorem link_reports_partition (source : NoteSource) (exclude : ExcludeSet) (start : VaultIndex)
    (operations : List Operation) (vault : LinkVault) (targets : SetListing Text)
    (hstart : Started source exclude start)
    (hspelled : ∀ path, (start.notes.lookup path).isSome → logicalSeparators path = path)
    (hportable : ∀ operation ∈ operations, operation.Portable)
    (hrun : run source exclude operations start = some vault.index)
    (hclosed : vault.index.sourceBatch = false) (hcatalog : vault.requireCatalog = .ok ())
    (hcanonical : ∀ path, (vault.index.notes.lookup path).isSome →
      vault.canonicalExistingRelativePath path = .ok path) :
    (∀ s note, vault.index.notes.lookup s = some note → ∀ link ∈ note.links, link.target ≠ [] →
      (∀ d, vault.resolveLink source link.target = some d →
        ResolvedReport source vault s link d) ∧
      (vault.resolveLink source link.target = none → BrokenReport source vault s note link)) ∧
    ∃ entries, wikilinksOrphans source vault targets = .ok entries ∧
      (entries.map OrphanNoteEntry.path).Nodup ∧
      (entries.Pairwise fun a b => a.path ≤ b.path) ∧
      ∀ entry, entry ∈ entries ↔ ∃ note, Disconnected source vault entry.path note ∧
        entry = orphanEntry source vault entry.path note := by
  have h : Reporting source vault := {
    catalogued := run_catalogued (hstart.catalogued hspelled) hportable hrun
    graph := run_graph hstart.graph hrun hclosed
    catalog := hcatalog
    canonical := hcanonical }
  refine ⟨?_, h.wikilinksOrphans_spec targets⟩
  intro s note hnote link hlink htarget
  exact ⟨fun d hresolve => h.resolved hnote hlink hresolve, h.broken hnote hlink htarget⟩

/-- Some listing of sets. -/
noncomputable def SetListing.unspecified (K : Type*) : SetListing K where
  list := Finset.toList
  nodup := Finset.nodup_toList
  mem _ _ := Finset.mem_toList

/-- One note links to another and to nothing; the other has a broken link only. -/
theorem linked_run_partition :
    ∃ index entries, run plainSource noExclusions (linkedRun.take 3) empty = some index ∧
      wikilinksOrphans plainSource ⟨index, .ok (), .ok, .unspecified OsString⟩ (.unspecified Text) =
        .ok entries ∧
      (entries.map OrphanNoteEntry.path).Nodup := by
  have hclosed : (run plainSource noExclusions (linkedRun.take 3) empty).map sourceBatch =
      some false := by
    decide +kernel
  obtain ⟨index, hrun, hbatch⟩ := Option.map_eq_some_iff.mp hclosed
  have hsole : logicalSeparators soleNote = soleNote := by decide +kernel
  have hother : logicalSeparators otherNote = otherNote := by decide +kernel
  have hportable : ∀ operation ∈ linkedRun.take 3, operation.Portable := by
    intro operation hmem path hpath
    simp only [linkedRun, List.take_succ_cons, List.take_zero, List.mem_cons, List.not_mem_nil,
      or_false] at hmem
    obtain rfl | rfl | rfl := hmem
    · rwa [← Option.some.inj hpath]
    · rwa [← Option.some.inj hpath]
    · rwa [← Option.some.inj hpath]
  obtain ⟨-, entries, hquery, hnodup, -⟩ := link_reports_partition plainSource noExclusions empty
    (linkedRun.take 3) ⟨index, .ok (), .ok, .unspecified OsString⟩ (.unspecified Text) .empty
    (by simp [VaultIndex.empty]) hportable hrun hbatch rfl (fun _ _ => rfl)
  exact ⟨index, entries, hrun, hquery, hnodup⟩

end ObsidianMcp
