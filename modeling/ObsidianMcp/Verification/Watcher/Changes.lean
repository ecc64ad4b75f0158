import ObsidianMcp.Verification.Watcher.Stage

/-! # The paths that an event changes -/

namespace ObsidianMcp

open Text VaultIndex

variable {source : NoteSource} {exclude : ExcludeSet} {disk : Disk} {index : VaultIndex}
  {path : OsString} {names : List Text} {watch : WatchPaths} {paths : Finset OsString}

/-! ## What is tracked below a path -/

theorem lookup_foldl_insert (chosen : OsString → Bool) (change : Change) (list : List OsString)
    (changes : Changes) (q : OsString) :
    (list.foldl (fun changes p => if chosen p then changes.insert p change else changes)
        changes).lookup q =
      if q ∈ list ∧ chosen q = true then some change else changes.lookup q := by
  induction list generalizing changes with
  | nil => rw [if_neg fun h => List.not_mem_nil h.1]; rfl
  | cons p list ih =>
      rw [List.foldl_cons, ih]
      by_cases hq : q ∈ list ∧ chosen q = true
      · rw [if_pos hq, if_pos ⟨List.mem_cons_of_mem p hq.1, hq.2⟩]
      · rw [if_neg hq]
        by_cases hp : chosen p = true
        · rw [if_pos hp]
          by_cases heq : q = p
          · rw [heq, AList.lookup_insert, if_pos ⟨List.mem_cons_self, hp⟩]
          · rw [AList.lookup_insert_ne heq, if_neg]
            intro h
            exact hq ⟨(List.mem_cons.mp h.1).resolve_left heq, h.2⟩
        · rw [if_neg hp, if_neg]
          intro h
          rcases List.mem_cons.mp h.1 with heq | hmem
          · exact hp (heq ▸ h.2)
          · exact hq ⟨hmem, h.2⟩

/-- A watched spelling is portable. -/
theorem Sound.portable_matching (h : Sound source index)
    (hexact : Counts.Exact (watchOccurs source paths) watch)
    (hpaths : ∀ q, q ∈ paths ↔ (index.held q).isSome) {base p : OsString} {descendants : Bool}
    (hmem : p ∈ watch.pathsMatching source base descendants) : Portable p := by
  rcases ((mem_pathsMatching hexact).mp hmem).1 with ⟨tracked, htracked, hp⟩
  rcases (h.portable tracked ((hpaths tracked).mp htracked)).2.1 with ⟨names, hnames, rfl⟩
  rcases (mem_pathPrefixes hnames).mp hp with ⟨above, -, hstart, rfl⟩
  exact ⟨above, hnames.mono hstart.subset, rfl⟩

/-- Everything tracked at or below a path is removed. -/
theorem Sound.lookup_removeTracked (h : Sound source index)
    (hexact : Counts.Exact (watchOccurs source paths) watch)
    (hpaths : ∀ q, q ∈ paths ↔ (index.held q).isSome) {base : OsString} (hbase : Portable base)
    (changes : Changes) (q : OsString) :
    (removeTracked source index watch changes base).lookup q =
      if startsWith q base = true ∧ (index.held q).isSome then some .remove
      else changes.lookup q := by
  have hiff : q ∈ watch.pathsMatching source base true ∧
      (startsWith q base && index.tracks q) = true ↔
      startsWith q base = true ∧ (index.held q).isSome := by
    rw [Bool.and_eq_true]
    constructor
    · intro hq
      rw [(h.portable_matching hexact hpaths hq.1).tracks] at hq
      exact hq.2
    · intro hq
      have hportable := h.portable q hq.2
      rw [hportable.2.1.tracks]
      refine ⟨(mem_pathsMatching hexact).mpr ⟨⟨q, (hpaths q).mpr hq.2, ?_⟩, ?_⟩, hq⟩
      · rcases hportable.2.1 with ⟨names, hnames, rfl⟩
        refine (mem_pathPrefixes hnames).mpr ⟨names, ?_, List.prefix_rfl, rfl⟩
        intro hnil
        exact hportable.1 ((textPath_eq_nil hnames).mpr hnil)
      · rcases hportable.2.1 with ⟨names, hnames, rfl⟩
        rcases hbase with ⟨above, habove, rfl⟩
        rw [if_pos rfl]
        exact startsWithKey_of_start ((startsWith_textPath hnames habove).mp hq.1)
  rw [removeTracked, lookup_foldl_insert]
  exact if_congr hiff rfl rfl

/-! ## Spellings of one folder -/

/-- A name in use: on disk, or above something tracked. -/
def Spelled (disk : Disk) (index : VaultIndex) (path : OsString) : Prop :=
  (disk.entries.lookup path).isSome ∨
    ∃ tracked, (index.held tracked).isSome ∧ path ∈ pathPrefixes tracked

/-- No two names of one folder differ only by case or composition. -/
def DistinctSpellings (source : NoteSource) (disk : Disk) (index : VaultIndex) : Prop :=
  ∀ a b, Spelled disk index a → Spelled disk index b → parentPath a = parentPath b →
    foldedPath source a = foldedPath source b → a = b

/-- The folders above an entry exist. -/
theorem isSome_of_start (hnames : PortableNames names)
    (h : (disk.entries.lookup (textPath names)).isSome) {above : List Text} (hne : above ≠ [])
    (hstart : above <+: names) : (disk.entries.lookup (textPath above)).isSome := by
  by_cases heq : above = names
  · rw [heq]
    exact h
  · rw [Disk.folder_of_start hnames h hne hstart heq]
    rfl

/-- No other spelling of an existing path is watched. -/
theorem previousSpelling_eq_none (hexact : Counts.Exact (watchOccurs source paths) watch)
    (hpaths : ∀ q, q ∈ paths ↔ (index.held q).isSome)
    (hdistinct : DistinctSpellings source disk index) (hnames : PortableNames names)
    (h : (disk.entries.lookup (textPath names)).isSome) :
    previousSpelling source disk watch (textPath names) = none := by
  rw [previousSpelling, List.findSome?_eq_none_iff]
  intro current hcurrent
  rw [Option.map_eq_none_iff, List.find?_eq_none]
  intro previous hprevious
  rw [spellings, List.mem_reverse] at hcurrent
  rcases (mem_pathPrefixes hnames).mp hcurrent with ⟨above, hne, hstart, rfl⟩
  rcases (mem_pathsMatching hexact).mp hprevious with ⟨⟨tracked, htracked, hmem⟩, hfolded⟩
  rw [if_neg Bool.false_ne_true] at hfolded
  simp only [Bool.and_eq_true, decide_eq_true_eq]
  intro halias
  apply halias.1.1
  apply hdistinct previous (textPath above)
  · exact .inr ⟨tracked, (hpaths tracked).mp htracked, hmem⟩
  · exact .inl (isSome_of_start hnames h hne hstart)
  · exact halias.1.2
  · exact hfolded

/-! ## The disk at an event path -/

/-- The part of an entry that an event looks at. -/
def kept : DiskEntry → Option DiskEntry
  | .file content stat => some (.file content stat)
  | .folder => some .folder
  | _ => none

theorem eventMetadata_eq (hnames : PortableNames names) :
    eventMetadata source disk (textPath names) =
      .ok ((disk.entryAt (textPath names)).bind kept) := by
  unfold eventMetadata
  cases hentry : disk.entryAt (textPath names) with
  | none =>
      rcases @Disk.entryMetadataExact_of_none source _ _ hnames hentry with
        ⟨error, herror, hskip⟩
      rw [herror]
      exact if_pos hskip
  | some entry =>
      rw [Disk.entryMetadataExact_of_some hnames hentry]
      cases entry <;> rfl

theorem isLink_of_kept {entry metadata : DiskEntry} (h : kept entry = some metadata) :
    entry.isLink = false := by
  cases entry <;> first | rfl | contradiction

theorem actualPath_eq (hnames : PortableNames names) :
    actualPath source disk (textPath names) ((disk.entryAt (textPath names)).bind kept) =
      .ok (((disk.entryAt (textPath names)).bind kept).map fun _ => textPath names) := by
  unfold actualPath
  cases hentry : disk.entryAt (textPath names) with
  | none => rfl
  | some entry =>
      rw [Option.bind_some]
      cases hkept : kept entry with
      | none => rfl
      | some metadata =>
          dsimp only
          by_cases hnil : textPath names = []
          · rw [if_pos hnil, hnil]
            rfl
          · rw [if_neg hnil, Disk.resolveExisting_self hnames hentry (isLink_of_kept hkept)]
            rfl

theorem isSome_fileAt {q : OsString} {content : Except VaultError Text} {stat : FileStat}
    (h : disk.entries.lookup q = some (.file content stat)) (hvisible : isVisiblePath q = true) :
    (disk.fileAt q).isSome := by
  rw [Disk.fileAt, h]
  dsimp only
  rw [if_pos hvisible]
  rfl

/-- Only a folder has files below it. -/
theorem folder_of_fileAt (hdisk : disk.Portable) (hnames : PortableNames names) {q : OsString}
    (h : (disk.fileAt q).isSome) (hbelow : startsWith q (textPath names) = true)
    (hne : q ≠ textPath names) : disk.entryAt (textPath names) = some .folder := by
  rcases Disk.fileAt_isSome hdisk h with ⟨fileNames, content, stat, -, hfile, -, rfl, hentry⟩
  have hstart := (startsWith_textPath hfile hnames).mp hbelow
  rw [Disk.entryAt]
  by_cases hnil : textPath names = []
  · rw [if_pos hnil]
  · rw [if_neg hnil]
    apply Disk.folder_of_start hfile (by rw [hentry]; rfl)
      (mt (textPath_eq_nil hnames).mpr hnil) hstart
    intro heq
    exact hne (congrArg textPath heq.symm)

/-- The files below a visible folder. -/
theorem fileBelow_iff (hdisk : disk.Portable) (hnames : PortableNames names)
    (hvisible : VisibleNames names) (hfolder : disk.entryAt (textPath names) = some .folder)
    {q : OsString} :
    (∃ rest, disk.FileBelow names rest q) ↔
      (disk.fileAt q).isSome ∧ startsWith q (textPath names) = true := by
  constructor
  · intro h
    rcases h with ⟨rest, -, hrest, hall, rfl, content, stat, hentry⟩
    refine ⟨isSome_fileAt hentry ((isVisiblePath_textPath hall).mpr ?_),
      (startsWith_textPath hall hnames).mpr (List.prefix_append _ _)⟩
    intro name hname
    exact (List.mem_append.mp hname).elim (hvisible name) (hrest name)
  · intro h
    rcases Disk.fileAt_isSome hdisk h.1 with ⟨fileNames, content, stat, hne, hfile, hshown, rfl, hentry⟩
    rcases (startsWith_textPath hfile hnames).mp h.2 with ⟨rest, rfl⟩
    refine ⟨rest, ?_, ?_, hfile, rfl, content, stat, hentry⟩
    · intro hnil
      rw [hnil, List.append_nil] at hentry hne
      rw [Disk.entryAt, if_neg (mt (textPath_eq_nil hnames).mp hne), hentry] at hfolder
      have hsame := Option.some.inj hfolder
      contradiction
    · intro name hname
      exact hshown name (List.mem_append_right _ hname)

/-! ## The changes of an event -/

/-- What is on disk is refreshed, and what else is tracked is removed. -/
def expectedChange (disk : Disk) (index : VaultIndex) (path q : OsString) : Option Change :=
  if (disk.fileAt q).isSome ∧ startsWith q path = true then some .refresh
  else if startsWith q path = true ∧ (index.held q).isSome then some .remove
  else none

theorem lookup_insertAll (files : List OsString) (changes : Changes) (q : OsString) :
    (files.foldl (fun changes p => changes.insert p .refresh) changes).lookup q =
      if q ∈ files then some .refresh else changes.lookup q := by
  have h := lookup_foldl_insert (fun _ => true) .refresh files changes q
  simp only [if_true, and_true] at h
  exact h

theorem Sound.lookup_removed (h : Sound source index)
    (hexact : Counts.Exact (watchOccurs source paths) watch)
    (hpaths : ∀ q, q ∈ paths ↔ (index.held q).isSome) (hpath : Portable path) (q : OsString) :
    (removeTracked source index watch ∅ path).lookup q =
      if startsWith q path = true ∧ (index.held q).isSome then some .remove else none :=
  h.lookup_removeTracked hexact hpaths hpath ∅ q

/-- Without another spelling an event reconciles its path with the disk. -/
theorem Sound.eventChanges_eq (h : Sound source index) (hdisk : disk.Portable)
    (hexact : Counts.Exact (watchOccurs source paths) watch)
    (hpaths : ∀ q, q ∈ paths ↔ (index.held q).isSome)
    (hdistinct : DistinctSpellings source disk index) (hnames : PortableNames names)
    (hvisible : VisibleNames names) :
    ∃ changes, eventChanges source disk index watch (textPath names)
        (((disk.entryAt (textPath names)).bind kept).map fun _ => textPath names)
        ((disk.entryAt (textPath names)).bind kept) = .ok changes ∧
      ∀ q, changes.lookup q = expectedChange disk index (textPath names) q := by
  have hportable : Portable (textPath names) := ⟨names, hnames, rfl⟩
  have hremoved := h.lookup_removed hexact hpaths hportable
  have hnone : ((((disk.entryAt (textPath names)).bind kept).map fun _ => textPath names).filter
      fun path => path ≠ [] && path = textPath names).bind (previousSpelling source disk watch) =
        none := by
    rw [Option.bind_eq_none_iff]
    intro actual hactual
    rw [Option.filter_eq_some_iff, Option.map_eq_some_iff] at hactual
    rcases hactual with ⟨⟨metadata, hmetadata, rfl⟩, hnonempty⟩
    rw [Bool.and_eq_true, decide_eq_true_eq] at hnonempty
    apply previousSpelling_eq_none hexact hpaths hdistinct hnames
    rcases Option.bind_eq_some_iff.mp hmetadata with ⟨entry, hentry, -⟩
    rw [Disk.entryAt, if_neg hnonempty.1] at hentry
    rw [hentry]
    rfl
  have hsame : ((((disk.entryAt (textPath names)).bind kept).map fun _ => textPath names).filter
      fun path => path ≠ textPath names) = none := by
    rw [Option.filter_eq_none_iff]
    intro actual hactual
    rcases Option.map_eq_some_iff.mp hactual with ⟨metadata, -, rfl⟩
    simp
  -- Below anything but a folder there is no other file.
  have hempty : disk.entryAt (textPath names) ≠ some .folder → ∀ q, (disk.fileAt q).isSome →
      startsWith q (textPath names) = true → q = textPath names := by
    intro hfolder q hfile hbelow
    by_contra hne
    exact hfolder (folder_of_fileAt hdisk hnames hfile hbelow hne)
  have hnothing : (∀ q, (disk.fileAt q).isSome → startsWith q (textPath names) = true → False) →
      ∀ q, (removeTracked source index watch ∅ (textPath names)).lookup q =
        expectedChange disk index (textPath names) q := by
    intro hno q
    rw [hremoved q, expectedChange]
    exact (if_neg fun hfile => hno q hfile.1 hfile.2).symm
  unfold eventChanges
  rw [hnone]
  unfold reconcilePaths
  rw [hsame]
  dsimp only [Option.toList_none, List.foldl_cons, List.foldl_nil]
  cases hentry : disk.entryAt (textPath names) with
  | none =>
      refine ⟨_, rfl, hnothing fun q hfile hbelow => ?_⟩
      have hself := hempty (by simp [hentry]) q hfile hbelow
      rw [hself, disk.fileAt_eq, hentry] at hfile
      contradiction
  | some entry =>
      cases entry with
      | link target =>
          refine ⟨_, rfl, hnothing fun q hfile hbelow => ?_⟩
          have hself := hempty (by simp [hentry]) q hfile hbelow
          rw [hself, disk.fileAt_eq, hentry] at hfile
          contradiction
      | special =>
          refine ⟨_, rfl, hnothing fun q hfile hbelow => ?_⟩
          have hself := hempty (by simp [hentry]) q hfile hbelow
          rw [hself, disk.fileAt_eq, hentry] at hfile
          contradiction
      | file content stat =>
          refine ⟨_, rfl, fun q => ?_⟩
          have hfile : (disk.fileAt (textPath names)).isSome := by
            rw [disk.fileAt_eq, hentry]
            dsimp only
            rw [if_pos ((isVisiblePath_textPath hnames).mpr hvisible)]
            rfl
          rw [expectedChange]
          by_cases hq : q = textPath names
          · rw [hq, AList.lookup_insert, if_pos ⟨hfile, startsWith_self hportable⟩]
          · have hother : ¬((disk.fileAt q).isSome ∧ startsWith q (textPath names) = true) :=
              fun hother => hq (hempty (by simp [hentry]) q hother.1 hother.2)
            rw [AList.lookup_insert_ne hq, hremoved q, if_neg hother]
      | folder =>
          rcases @Disk.visitFiles_eq source _ _ hdisk hnames hentry with
            ⟨files, hfiles, hmem⟩
          have hvisited := congrArg (Except.map fun files => files.foldl (fun changes path =>
            AList.insert path Change.refresh changes)
              (removeTracked source index watch ∅ (textPath names))) hfiles
          refine ⟨_, hvisited, fun q => ?_⟩
          rw [lookup_insertAll, hremoved q, expectedChange]
          exact if_congr ((hmem q).trans (fileBelow_iff hdisk hnames hvisible hentry)) rfl rfl

/-! ## Portable changes -/

/-- Every changed path is portable. -/
def PortableChanges (changes : Changes) : Prop :=
  ∀ q, (changes.lookup q).isSome → Portable q

theorem PortableChanges.insert {changes : Changes} (h : PortableChanges changes) {p : OsString}
    (hp : Portable p) (change : Change) : PortableChanges (changes.insert p change) := by
  intro q hq
  by_cases heq : q = p
  · rw [heq]
    exact hp
  · rw [AList.lookup_insert_ne heq] at hq
    exact h q hq

theorem PortableChanges.insertAll {changes : Changes} (h : PortableChanges changes)
    {files : List OsString} (hfiles : ∀ q ∈ files, Portable q) :
    PortableChanges (files.foldl (fun changes p => changes.insert p .refresh) changes) := by
  intro q hq
  rw [lookup_insertAll] at hq
  by_cases hmem : q ∈ files
  · exact hfiles q hmem
  · rw [if_neg hmem] at hq
    exact h q hq

theorem Sound.portable_removeTracked (h : Sound source index)
    (hexact : Counts.Exact (watchOccurs source paths) watch)
    (hpaths : ∀ q, q ∈ paths ↔ (index.held q).isSome) {changes : Changes}
    (hchanges : PortableChanges changes) (base : OsString) :
    PortableChanges (removeTracked source index watch changes base) := by
  intro q hq
  rw [removeTracked, lookup_foldl_insert] at hq
  by_cases hmem : q ∈ watch.pathsMatching source base true ∧
      (startsWith q base && index.tracks q) = true
  · exact h.portable_matching hexact hpaths hmem.1
  · rw [if_neg hmem] at hq
    exact hchanges q hq

theorem portable_refreshExisting (hdisk : disk.Portable) (hnames : PortableNames names)
    {metadata : DiskEntry} {changes result : Changes} (hchanges : PortableChanges changes)
    (h : refreshExisting source disk (textPath names) metadata changes = .ok result) :
    PortableChanges result := by
  have hinsert : PortableChanges (changes.insert (textPath names) .refresh) :=
    hchanges.insert ⟨names, hnames, rfl⟩ .refresh
  unfold refreshExisting at h
  cases metadata with
  | file content stat => exact Except.ok.inj h ▸ hinsert
  | link target => exact Except.ok.inj h ▸ hinsert
  | special => exact Except.ok.inj h ▸ hinsert
  | folder =>
      dsimp only at h
      rw [Disk.visitFiles, Disk.openDirExact_eq hnames] at h
      rcases @Disk.openNames_error_or_ok source disk [] _
        (textPath names) hnames with ⟨error, herror, -⟩ | hok
      · rw [herror] at h
        contradiction
      · rw [hok, List.nil_append] at h
        rw [← Except.ok.inj h]
        apply hchanges.insertAll
        intro q hq
        rcases (Disk.mem_walk hdisk disk.depth hnames).mp hq with ⟨rest, -, -, -, hall, rfl, -⟩
        exact ⟨_, hall, rfl⟩

theorem Sound.portable_reconcile (h : Sound source index) (hdisk : disk.Portable)
    (hexact : Counts.Exact (watchOccurs source paths) watch)
    (hpaths : ∀ q, q ∈ paths ↔ (index.held q).isSome) {base : OsString}
    {actual : Option OsString} (hactual : ∀ p, actual = some p → Portable p)
    {metadata : Option DiskEntry} {changes : Changes}
    (hchanges : reconcilePaths source disk index watch base actual metadata = .ok changes) :
    PortableChanges changes := by
  have hremoved : ∀ (bases : List OsString) (changes : Changes), PortableChanges changes →
      PortableChanges (bases.foldl (removeTracked source index watch) changes) := by
    intro bases
    induction bases with
    | nil => exact fun changes hchanges => hchanges
    | cons first bases ih =>
        intro changes hchanges
        exact ih _ (h.portable_removeTracked hexact hpaths hchanges first)
  have hempty : PortableChanges ∅ := by
    intro q hq
    rw [AList.lookup_empty] at hq
    contradiction
  unfold reconcilePaths at hchanges
  dsimp only at hchanges
  cases metadata with
  | none => exact Except.ok.inj hchanges ▸ hremoved _ _ hempty
  | some metadata =>
      cases actual with
      | none => exact Except.ok.inj hchanges ▸ hremoved _ _ hempty
      | some p =>
          rcases hactual p rfl with ⟨names, hnames, rfl⟩
          exact portable_refreshExisting hdisk hnames (hremoved _ _ hempty) hchanges

/-- The changes of an event are portable. -/
theorem Sound.portable_eventChanges (h : Sound source index) (hdisk : disk.Portable)
    (hexact : Counts.Exact (watchOccurs source paths) watch)
    (hpaths : ∀ q, q ∈ paths ↔ (index.held q).isSome) {base : OsString}
    {actual : Option OsString} (hactual : ∀ p, actual = some p → Portable p)
    {metadata : Option DiskEntry} {changes : Changes}
    (hchanges : eventChanges source disk index watch base actual metadata = .ok changes) :
    PortableChanges changes := by
  unfold eventChanges at hchanges
  cases hprevious : (actual.filter fun path => path ≠ [] && path = base).bind
      (previousSpelling source disk watch) with
  | none =>
      rw [hprevious] at hchanges
      exact h.portable_reconcile hdisk hexact hpaths hactual hchanges
  | some found =>
      rcases found with ⟨previous, current⟩
      rw [hprevious] at hchanges
      dsimp only at hchanges
      cases hmetadata : disk.entryMetadataExact source current with
      | error error =>
          rw [hmetadata] at hchanges
          contradiction
      | ok metadata =>
          rw [hmetadata, Disk.ok_bind] at hchanges
          refine h.portable_reconcile hdisk hexact hpaths ?_ hchanges
          intro p hp
          rw [← Option.some.inj hp]
          rcases Option.bind_eq_some_iff.mp hprevious with ⟨path, hpath, hspelling⟩
          rw [Option.filter_eq_some_iff] at hpath
          rcases hactual path hpath.1 with ⟨names, hnames, rfl⟩
          rw [previousSpelling, List.findSome?_eq_some_iff] at hspelling
          rcases hspelling with ⟨before, spelling, after, heq, hfound, -⟩
          rcases Option.map_eq_some_iff.mp hfound with ⟨other, -, halias⟩
          have hmem : spelling ∈ spellings (textPath names) := by
            rw [heq]
            exact List.mem_append_right _ List.mem_cons_self
          rw [spellings, List.mem_reverse] at hmem
          rcases (mem_pathPrefixes hnames).mp hmem with ⟨above, -, hstart, rfl⟩
          rw [← (Prod.mk.inj halias).2]
          exact ⟨above, hnames.mono hstart.subset, rfl⟩

end ObsidianMcp
