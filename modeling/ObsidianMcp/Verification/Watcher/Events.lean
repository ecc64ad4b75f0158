import ObsidianMcp.Verification.Watcher.Changes

/-! # Events bring the index up to date -/

namespace ObsidianMcp

open Text VaultIndex

variable {source : NoteSource} {exclude : ExcludeSet} {disk : Disk} {index next : VaultIndex}
  {path : OsString} {names : List Text} {lexical : Option VaultIndex.Lexical}

/-! ## Statements -/

/-- A file takes the place of a folder whose files are still tracked, and is tracked itself. -/
def Shadowed (disk : Disk) (index : VaultIndex) (path : OsString) : Prop :=
  (disk.fileAt path).isSome ∧ (index.held path).isSome ∧
    ∃ q, q ≠ path ∧ startsWith q path = true ∧ (index.held q).isSome

/-- The paths at or below another that are tracked or on disk. -/
def affectedPaths (disk : Disk) (index : VaultIndex) (path : OsString) : Finset OsString :=
  ((trackedList index).toFinset ∪
    disk.entries.keys.toFinset.filter fun q => (disk.fileAt q).isSome).filter
      fun q => startsWith q path

/-- The paths at or below another whose observation is admitted. -/
def admittedBelow (source : NoteSource) (exclude : ExcludeSet) (disk : Disk) (index : VaultIndex)
    (path : OsString) : List OsString :=
  admittedPaths source exclude disk index index.stats.vaultSizeBytes
    (sortedPaths (affectedPaths disk index path))

/-- The index holds at and below a path what is admitted of the disk, and elsewhere what it
held. -/
structure Converged (source : NoteSource) (exclude : ExcludeSet) (disk : Disk) (path : OsString)
    (index next : VaultIndex) : Prop where
  below : ∀ q, startsWith q path = true → next.held q =
    if q ∈ admittedBelow source exclude disk index path then diskHeld source exclude disk q
    else none
  outside : ∀ q, startsWith q path = false → next.held q = index.held q

/-- Nothing tracked at or below a path is refused. -/
def Replaceable (source : NoteSource) (exclude : ExcludeSet) (disk : Disk) (index : VaultIndex)
    (path : OsString) : Prop :=
  ∀ q, startsWith q path = true → (index.held q).isSome →
    q ∈ admittedBelow source exclude disk index path

/-- The states that a watched vault goes through after a cold build. -/
inductive Reachable (source : NoteSource) (exclude : ExcludeSet) : VaultIndex → Prop where
  | built {disk : Disk} {files : List VaultFile}
      {indexContent : NoteMetadata → Text → Except VaultError Unit} {index : VaultIndex}
      (hdisk : disk.Portable) (hfiles : files.Perm (disk.files source))
      (hbuilt : buildSync source exclude indexContent files = .ok index) :
      Reachable source exclude index
  | event {index next : VaultIndex} {disk : Disk} {path : OsString}
      {lexical : Option VaultIndex.Lexical} {embeddingsEnabled dirty : Bool}
      (h : Reachable source exclude index) (hdisk : disk.Portable) (hpath : Portable path)
      (hnext : stageEvent source disk exclude lexical embeddingsEnabled path index =
        some (next, dirty)) :
      Reachable source exclude next

/-! ## Affected paths -/

theorem mem_affectedPaths {q : OsString} :
    q ∈ affectedPaths disk index path ↔
      ((index.held q).isSome ∨ (disk.fileAt q).isSome) ∧ startsWith q path = true := by
  rw [affectedPaths, Finset.mem_filter, Finset.mem_union, List.mem_toFinset, mem_trackedList,
    ← isSome_held, Finset.mem_filter, List.mem_toFinset]
  have hlisted : (disk.fileAt q).isSome → q ∈ disk.entries.keys := by
    intro hfile
    rw [← AList.mem_keys, ← AList.lookup_isSome]
    exact Disk.isSome_entry_of_fileAt hfile
  rw [and_iff_right_of_imp hlisted]

theorem diskHeld_eq_none {q : OsString} (h : ¬(disk.fileAt q).isSome) :
    diskHeld source exclude disk q = none := by
  rw [diskHeld, Option.not_isSome_iff_eq_none.mp h]
  rfl

theorem mem_affected_of_admitted {q : OsString}
    (h : q ∈ admittedBelow source exclude disk index path) :
    q ∈ affectedPaths disk index path :=
  mem_sortedPaths.mp (admittedPaths_subset _ _ h)

/-- Only the affected paths decide. -/
theorem converged_iff {index' : VaultIndex} (hsame : ∀ q, index'.held q = index.held q)
    (hothers : ∀ q, q ∉ affectedPaths disk index path → next.held q = index'.held q) :
    Converged source exclude disk path index next ↔
      ∀ q ∈ affectedPaths disk index path, next.held q =
        if q ∈ admittedBelow source exclude disk index path then diskHeld source exclude disk q
        else none := by
  constructor
  · intro h q hq
    exact h.below q (mem_affectedPaths.mp hq).2
  · intro h
    constructor
    · intro q hbelow
      by_cases hq : q ∈ affectedPaths disk index path
      · exact h q hq
      · rw [hothers q hq, hsame, if_neg (mt mem_affected_of_admitted hq)]
        rw [mem_affectedPaths, not_and_or, not_or] at hq
        exact Option.not_isSome_iff_eq_none.mp (hq.resolve_right (not_not.mpr hbelow)).1
    · intro q houtside
      rw [hothers q, hsame]
      intro hq
      rw [(mem_affectedPaths.mp hq).2] at houtside
      contradiction

/-- A file is the only affected path unless something is tracked below it. -/
theorem affectedPaths_of_file (hdisk : disk.Portable) (hpath : Portable path)
    (hfile : (disk.fileAt path).isSome)
    (halone : ¬∃ q, q ≠ path ∧ startsWith q path = true ∧ (index.held q).isSome) :
    sortedPaths (affectedPaths disk index path) = [path] := by
  have hset : affectedPaths disk index path = {path} := by
    ext q
    rw [mem_affectedPaths, Finset.mem_singleton]
    constructor
    · intro hq
      by_contra hne
      rcases hq.1 with hheld | hfound
      · exact halone ⟨q, hne, hq.2, hheld⟩
      · rcases hpath with ⟨names, hnames, rfl⟩
        have hfolder := folder_of_fileAt hdisk hnames hfound hq.2 hne
        rw [disk.fileAt_eq, hfolder] at hfile
        contradiction
    · intro hq
      rw [hq]
      exact ⟨.inr hfile, startsWith_self hpath⟩
  rw [hset, sortedPaths, Finset.sort_singleton]

/-! ## Hidden paths -/

theorem visibleNames_of_start {below : List Text} (h : VisibleNames below)
    (hstart : names <+: below) : VisibleNames names :=
  fun name hname => h name (hstart.subset hname)

/-- Nothing tracked and no visible file is below a hidden path. -/
theorem Sound.affectedPaths_hidden (h : Sound source index) (hdisk : disk.Portable)
    (hpath : Portable path) (hhidden : isVisiblePath path = false) :
    affectedPaths disk index path = ∅ := by
  rcases hpath with ⟨names, hnames, rfl⟩
  have hnot : ¬VisibleNames names := by
    rw [← isVisiblePath_textPath hnames, hhidden]
    exact Bool.false_ne_true
  rw [Finset.eq_empty_iff_forall_notMem]
  intro q hq
  have hq := mem_affectedPaths.mp hq
  rcases hq.1 with hheld | hfile
  · rcases (h.portable q hheld).2 with ⟨⟨below, hbelow, rfl⟩, hvisible⟩
    exact hnot (visibleNames_of_start ((isVisiblePath_textPath hbelow).mp hvisible)
      ((startsWith_textPath hbelow hnames).mp hq.2))
  · rcases Disk.fileAt_isSome hdisk hfile with ⟨below, content, stat, -, hbelow, hvisible, rfl, -⟩
    exact hnot (visibleNames_of_start hvisible ((startsWith_textPath hbelow hnames).mp hq.2))

/-! ## One event -/

/-- The changes of an event on a visible path. -/
structure EventChanges (source : NoteSource) (disk : Disk) (path : OsString) (index : VaultIndex)
    (found : VaultIndex × Except VaultError Changes) : Prop where
  sound : Sound source found.1
  held : ∀ q, found.1.held q = index.held q
  stats : found.1.stats = index.stats
  portable : ∀ changes, found.2 = .ok changes → PortableChanges changes

theorem Sound.eventPaths (h : Sound source index) (hdisk : disk.Portable) (hpath : Portable path) :
    EventChanges source disk path index (ObsidianMcp.eventPaths source disk path index) := by
  have hunchanged : EventChanges source disk path index
      (index, .ok (AList.insert path .refresh ∅)) :=
    { sound := h
      held := fun _ => rfl
      stats := rfl
      portable := fun changes hchanges => by
        rw [← Except.ok.inj hchanges]
        apply PortableChanges.insert _ hpath
        intro q hq
        rw [AList.lookup_empty] at hq
        contradiction }
  rcases hpath with ⟨names, hnames, rfl⟩
  rw [ObsidianMcp.eventPaths, eventMetadata_eq hnames]
  dsimp only
  rw [actualPath_eq hnames]
  dsimp only
  by_cases hfast : ((((disk.entryAt (textPath names)).bind kept).any DiskEntry.isFile &&
      decide ((((disk.entryAt (textPath names)).bind kept).map fun _ => textPath names) =
        some (textPath names))) && index.tracks (textPath names)) = true
  · rw [if_pos hfast]
    exact hunchanged
  · rw [if_neg hfast]
    have hinit := h.initWatchPaths
    rcases @initWatchPaths_some source index with ⟨watch, hwatch⟩
    rcases hinit.1.watched hwatch with ⟨paths, hexact, hpaths⟩
    exact {
      sound := hinit.1
      held := hinit.2
      stats := by
        rw [VaultIndex.initWatchPaths]
        cases index.watchPaths <;> rfl
      portable := fun changes hchanges => by
        rw [hwatch, Option.getD_some] at hchanges
        refine hinit.1.portable_eventChanges hdisk hexact hpaths ?_ hchanges
        intro p hp
        rcases Option.map_eq_some_iff.mp hp with ⟨metadata, -, rfl⟩
        exact ⟨names, hnames, rfl⟩ }

theorem Sound.portable_trackedChanges (h : Sound source index) (path : OsString) :
    PortableChanges (trackedChanges path index) := by
  have hempty : PortableChanges ∅ := by
    intro q hq
    rw [AList.lookup_empty] at hq
    contradiction
  rw [trackedChanges]
  apply hempty.insertAll
  intro q hq
  rw [List.mem_filter, mem_sortedPaths] at hq
  have hlisted : q ∈ trackedList index := by
    have hmem := hq.1
    rw [trackedPaths, Finset.mem_union, Finset.mem_union, List.mem_toFinset,
      List.mem_toFinset] at hmem
    rw [trackedList, List.mem_append, List.mem_append, mem_sortedPaths]
    exact hmem
  rw [mem_trackedList, ← isSome_held] at hlisted
  exact (h.portable q hlisted).2.1

/-- Every event on a portable path succeeds and keeps the index sound. -/
theorem Sound.stageEvent (h : Sound source index) (exclude : ExcludeSet) (hdisk : disk.Portable)
    (hpath : Portable path) (lexical : Option VaultIndex.Lexical) (embeddingsEnabled : Bool) :
    ∃ next dirty, ObsidianMcp.stageEvent source disk exclude lexical embeddingsEnabled path index =
      some (next, dirty) ∧ Sound source next := by
  rw [ObsidianMcp.stageEvent]
  by_cases hvisible : isVisiblePath path = true
  · rw [hvisible, if_neg (by decide)]
    have hfound := h.eventPaths hdisk hpath
    revert hfound
    rcases ObsidianMcp.eventPaths source disk path index with ⟨listed, result⟩
    intro hfound
    dsimp only at hfound ⊢
    apply hfound.sound.stageAll exclude disk
    intro q hq
    rw [mem_sortedPaths, List.mem_toFinset, ← AList.mem_keys, ← AList.lookup_isSome] at hq
    cases result with
    | error error => exact hfound.sound.portable_trackedChanges path q hq
    | ok changes => exact hfound.portable changes rfl q hq
  · rw [Bool.eq_false_iff.mpr hvisible, if_pos (by decide)]
    exact ⟨index, false, rfl, h⟩

/-! ## Convergence -/

/-- Any list of changes that agrees with the disk and covers the affected paths. -/
theorem Sound.converged_stageAll {index' : VaultIndex} (h : Sound source index')
    (hsame : ∀ q, index'.held q = index.held q) (hstats : index'.stats = index.stats)
    {changes : Changes} {list : List OsString}
    (hlist : list = sortedPaths (affectedPaths disk index path))
    (hportable : ∀ q ∈ list, Portable q) (hagrees : ∀ q ∈ list, Agrees disk changes q)
    (hlexical : LexicalReady lexical)
    (hread : ∀ q, startsWith q path = true → Readable exclude disk q)
    (embeddingsEnabled dirty : Bool) :
    ∃ next, ∃ dirty', list.foldlM (ObsidianMcp.stageChange source disk exclude lexical
        embeddingsEnabled changes) (index', dirty) = some (next, dirty') ∧
      (Converged source exclude disk path index next ↔
        Replaceable source exclude disk index path) := by
  rcases h.holds with ⟨origin, placed, hholds⟩
  have hmem : ∀ q, q ∈ list ↔ q ∈ affectedPaths disk index path := by
    intro q
    rw [hlist, mem_sortedPaths]
  rcases hholds.settleAll (hlist ▸ nodup_sortedPaths _) hportable hagrees hlexical
    (fun q hq => hread q (mem_affectedPaths.mp ((hmem q).mp hq)).2) embeddingsEnabled dirty with
    ⟨next, dirty', hnext, hothers, hsettled⟩
  refine ⟨next, dirty', hnext, ?_⟩
  have hadmitted : admittedPaths source exclude disk index' index'.stats.vaultSizeBytes list =
      admittedBelow source exclude disk index path := by
    rw [hstats, hlist]
    exact admittedPaths_congr fun q _ => hsame q
  rw [converged_iff hsame fun q hq => hothers q (mt (hmem q).mp hq)]
  constructor
  · intro hconverged q hbelow hheld
    have hq : q ∈ affectedPaths disk index path := mem_affectedPaths.mpr ⟨.inl hheld, hbelow⟩
    by_contra hrefused
    have hkept := hsettled q ((hmem q).mpr hq)
    rw [hadmitted, if_neg hrefused, hconverged q hq, if_neg hrefused, hsame] at hkept
    rw [withoutRevision, eq_comm, Option.map_eq_none_iff] at hkept
    rw [hkept] at hheld
    contradiction
  · intro hreplaceable q hq
    rw [hsettled q ((hmem q).mpr hq), hadmitted]
    by_cases htaken : q ∈ admittedBelow source exclude disk index path
    · rw [if_pos htaken, if_pos htaken]
    · rw [if_neg htaken, if_neg htaken, hsame]
      have hnone : ¬(index.held q).isSome :=
        fun hheld => htaken (hreplaceable q (mem_affectedPaths.mp hq).2 hheld)
      rw [Option.not_isSome_iff_eq_none.mp hnone]
      rfl

theorem keys_eq_affected {changes : Changes}
    (h : ∀ q, changes.lookup q = expectedChange disk index path q) :
    changes.keys.toFinset = affectedPaths disk index path := by
  ext q
  rw [List.mem_toFinset, ← AList.mem_keys, ← AList.lookup_isSome, h, mem_affectedPaths,
    expectedChange]
  by_cases hfile : (disk.fileAt q).isSome ∧ startsWith q path = true
  · rw [if_pos hfile]
    exact iff_of_true rfl ⟨.inr hfile.1, hfile.2⟩
  · rw [if_neg hfile]
    by_cases hheld : startsWith q path = true ∧ (index.held q).isSome
    · rw [if_pos hheld]
      exact iff_of_true rfl ⟨.inl hheld.2, hheld.1⟩
    · rw [if_neg hheld]
      refine iff_of_false Bool.false_ne_true ?_
      intro hq
      exact hq.1.elim (fun h => hheld ⟨hq.2, h⟩) fun h => hfile ⟨h, hq.2⟩

theorem agrees_of_expected {changes : Changes}
    (h : ∀ q, changes.lookup q = expectedChange disk index path q) {q : OsString}
    (hq : q ∈ affectedPaths disk index path) : Agrees disk changes q := by
  have hmem := mem_affectedPaths.mp hq
  rw [Agrees, h, expectedChange]
  by_cases hfile : (disk.fileAt q).isSome ∧ startsWith q path = true
  · rw [if_pos hfile]
    exact .inl rfl
  · have hnone : ¬(disk.fileAt q).isSome := fun h => hfile ⟨h, hmem.2⟩
    rw [if_neg hfile, if_pos ⟨hmem.2, hmem.1.resolve_right hnone⟩]
    exact .inr ⟨rfl, Option.not_isSome_iff_eq_none.mp hnone⟩

theorem Sound.portable_affected (h : Sound source index) (hdisk : disk.Portable) {q : OsString}
    (hq : q ∈ affectedPaths disk index path) : Portable q := by
  rcases (mem_affectedPaths.mp hq).1 with hheld | hfile
  · exact (h.portable q hheld).2.1
  · rcases Disk.fileAt_isSome hdisk hfile with ⟨names, content, stat, -, hnames, -, rfl, -⟩
    exact ⟨names, hnames, rfl⟩

/-- The condition of the fast path. -/
theorem fast_iff (hnames : PortableNames names) (hvisible : isVisiblePath (textPath names) = true) :
    ((((disk.entryAt (textPath names)).bind kept).any DiskEntry.isFile &&
      decide ((((disk.entryAt (textPath names)).bind kept).map fun _ => textPath names) =
        some (textPath names))) && index.tracks (textPath names)) = true ↔
      (disk.fileAt (textPath names)).isSome ∧ (index.held (textPath names)).isSome := by
  have hportable : Portable (textPath names) := ⟨names, hnames, rfl⟩
  rw [hportable.tracks, disk.fileAt_eq, hvisible, Bool.and_eq_true, Bool.and_eq_true]
  apply and_congr_left'
  cases disk.entryAt (textPath names) with
  | none => exact iff_of_false (fun h => Bool.false_ne_true h.1) Bool.false_ne_true
  | some entry =>
      cases entry with
      | file content stat => exact iff_of_true ⟨rfl, decide_eq_true rfl⟩ rfl
      | folder => exact iff_of_false (fun h => Bool.false_ne_true h.1) Bool.false_ne_true
      | link target => exact iff_of_false (fun h => Bool.false_ne_true h.1) Bool.false_ne_true
      | special => exact iff_of_false (fun h => Bool.false_ne_true h.1) Bool.false_ne_true

/-- The paths of an event without another spelling: only the file itself on the fast path, else
everything affected. -/
theorem Sound.eventPaths_eq (h : Sound source index) (hdisk : disk.Portable)
    (hnames : PortableNames names) (hvisible : isVisiblePath (textPath names) = true)
    (hdistinct : DistinctSpellings source disk index) :
    ((disk.fileAt (textPath names)).isSome ∧ (index.held (textPath names)).isSome ∧
      ObsidianMcp.eventPaths source disk (textPath names) index =
        (index, .ok (AList.insert (textPath names) .refresh ∅))) ∨
    (¬((disk.fileAt (textPath names)).isSome ∧ (index.held (textPath names)).isSome) ∧
      ∃ changes, ObsidianMcp.eventPaths source disk (textPath names) index =
          (index.initWatchPaths source, .ok changes) ∧
        ∀ q, changes.lookup q = expectedChange disk index (textPath names) q) := by
  rw [ObsidianMcp.eventPaths, eventMetadata_eq hnames]
  dsimp only
  rw [actualPath_eq hnames]
  dsimp only
  by_cases hfast : (disk.fileAt (textPath names)).isSome ∧ (index.held (textPath names)).isSome
  · rw [if_pos ((fast_iff hnames hvisible).mpr hfast)]
    exact .inl ⟨hfast.1, hfast.2, rfl⟩
  · rw [if_neg (mt (fast_iff hnames hvisible).mp hfast)]
    refine .inr ⟨hfast, ?_⟩
    have hinit := h.initWatchPaths
    rcases @initWatchPaths_some source index with ⟨watch, hwatch⟩
    rcases hinit.1.watched hwatch with ⟨paths, hexact, hpaths⟩
    have hspellings : DistinctSpellings source disk (index.initWatchPaths source) := by
      intro a b ha hb
      apply hdistinct a b
      · simpa only [Spelled, hinit.2] using ha
      · simpa only [Spelled, hinit.2] using hb
    rcases hinit.1.eventChanges_eq hdisk hexact hpaths hspellings hnames
      ((isVisiblePath_textPath hnames).mp hvisible) with ⟨changes, hchanges, hlookup⟩
    refine ⟨changes, ?_, ?_⟩
    · rw [hwatch, Option.getD_some, hchanges]
    · intro q
      rw [hlookup, expectedChange, expectedChange, hinit.2]

theorem stageEvent_eq {found : VaultIndex} {changes : Changes}
    (hvisible : isVisiblePath path = true)
    (h : ObsidianMcp.eventPaths source disk path index = (found, .ok changes))
    (lexical : Option VaultIndex.Lexical) (embeddingsEnabled : Bool) :
    ObsidianMcp.stageEvent source disk exclude lexical embeddingsEnabled path index =
      (sortedPaths changes.keys.toFinset).foldlM (ObsidianMcp.stageChange source disk exclude lexical
        embeddingsEnabled changes) (found, false) := by
  rw [ObsidianMcp.stageEvent, hvisible, if_neg (by decide), h]

/-- Without failures an event brings its path up to date, unless a tracked file hides tracked
paths below it or the new size of something tracked is refused. -/
theorem Sound.converged_iff (h : Sound source index) (hdisk : disk.Portable)
    (hpath : Portable path) (hdistinct : DistinctSpellings source disk index)
    (hlexical : LexicalReady lexical)
    (hread : ∀ q, startsWith q path = true → Readable exclude disk q) (embeddingsEnabled : Bool) :
    ∃ next dirty, ObsidianMcp.stageEvent source disk exclude lexical embeddingsEnabled path index =
        some (next, dirty) ∧
      (Converged source exclude disk path index next ↔
        ¬Shadowed disk index path ∧ Replaceable source exclude disk index path) := by
  have hportable : ∀ q ∈ sortedPaths (affectedPaths disk index path), Portable q :=
    fun q hq => h.portable_affected hdisk (mem_sortedPaths.mp hq)
  by_cases hvisible : isVisiblePath path = true
  · have hnames := hpath
    rcases hnames with ⟨names, hnames, rfl⟩
    rcases h.eventPaths_eq hdisk hnames hvisible hdistinct with
      ⟨hfile, hheld, hpaths⟩ | ⟨hslow, changes, hpaths, hchanges⟩
    · rw [stageEvent_eq hvisible hpaths]
      have hkeys : (AList.insert (textPath names) Change.refresh ∅ : Changes).keys.toFinset =
          {textPath names} := rfl
      have hone : sortedPaths {textPath names} = [textPath names] := Finset.sort_singleton _ _
      have hagrees : ∀ q ∈ [textPath names], Agrees disk
          (AList.insert (textPath names) Change.refresh ∅) q := by
        intro q hq
        rw [List.mem_singleton.mp hq]
        exact .inl (AList.lookup_insert _)
      rw [hkeys, hone]
      by_cases halone : ∃ q, q ≠ textPath names ∧ startsWith q (textPath names) = true ∧
          (index.held q).isSome
      · -- What is tracked below the file is left there.
        rcases h.holds with ⟨origin, placed, hholds⟩
        have hreadable : ∀ q ∈ [textPath names], Readable exclude disk q := by
          intro q hq
          rw [List.mem_singleton.mp hq]
          exact hread _ (startsWith_self hpath)
        rcases hholds.settleAll (List.nodup_singleton _)
          (fun q hq => List.mem_singleton.mp hq ▸ hpath) hagrees hlexical hreadable
          embeddingsEnabled false with ⟨next, dirty, hnext, hothers, -⟩
        refine ⟨next, dirty, hnext, iff_of_false ?_ ?_⟩
        · intro hconverged
          rcases halone with ⟨q, hne, hbelow, hstale⟩
          have hq := hconverged.below q hbelow
          have hnone : diskHeld source exclude disk q = none := by
            apply diskHeld_eq_none
            intro hother
            have hfolder := folder_of_fileAt hdisk hnames hother hbelow hne
            rw [disk.fileAt_eq, hfolder] at hfile
            contradiction
          rw [hothers q fun hmem => hne (List.mem_singleton.mp hmem), hnone, ite_self] at hq
          rw [hq] at hstale
          contradiction
        · intro hclear
          exact hclear.1 ⟨hfile, hheld, halone⟩
      · have hlist := affectedPaths_of_file hdisk hpath hfile halone
        rcases @Sound.converged_stageAll _ _ _ index _ _ _ h (fun _ => rfl) rfl _ _ hlist.symm
          (fun q hq => List.mem_singleton.mp hq ▸ hpath) hagrees hlexical hread
          embeddingsEnabled false with ⟨next, dirty, hnext, hiff⟩
        refine ⟨next, dirty, hnext, hiff.trans ?_⟩
        exact (and_iff_right fun hshadowed => halone hshadowed.2.2).symm
    · rw [stageEvent_eq hvisible hpaths, keys_eq_affected hchanges]
      have hstats : (index.initWatchPaths source).stats = index.stats := by
        rw [VaultIndex.initWatchPaths]
        cases index.watchPaths <;> rfl
      rcases h.initWatchPaths.1.converged_stageAll h.initWatchPaths.2 hstats rfl hportable
        (fun q hq => agrees_of_expected hchanges (mem_sortedPaths.mp hq)) hlexical hread
        embeddingsEnabled false with ⟨next, dirty, hnext, hiff⟩
      refine ⟨next, dirty, hnext, hiff.trans ?_⟩
      exact (and_iff_right fun hshadowed => hslow ⟨hshadowed.1, hshadowed.2.1⟩).symm
  · have hhidden := Bool.eq_false_iff.mpr hvisible
    have hnone := h.affectedPaths_hidden hdisk hpath hhidden
    refine ⟨index, false, by rw [ObsidianMcp.stageEvent, hhidden, if_pos (by decide)], ?_⟩
    refine iff_of_true ?_ ⟨?_, ?_⟩
    · rw [ObsidianMcp.converged_iff (fun _ => rfl) (fun _ _ => rfl), hnone]
      exact fun q hq => absurd hq (Finset.notMem_empty q)
    · intro hshadowed
      have hmem : path ∈ affectedPaths disk index path :=
        mem_affectedPaths.mpr ⟨.inl hshadowed.2.1, startsWith_self hpath⟩
      rw [hnone] at hmem
      exact Finset.notMem_empty _ hmem
    · intro q hbelow hheld
      have hmem : q ∈ affectedPaths disk index path := mem_affectedPaths.mpr ⟨.inl hheld, hbelow⟩
      rw [hnone] at hmem
      exact absurd hmem (Finset.notMem_empty q)

/-! ## Every reachable state -/

theorem sound_built (hdisk : disk.Portable) {files : List VaultFile}
    (hfiles : files.Perm (disk.files source))
    {indexContent : NoteMetadata → Text → Except VaultError Unit}
    (hbuilt : buildSync source exclude indexContent files = .ok index) : Sound source index := by
  have hspec := @Disk.files_spec source _ hdisk
  have hdistinct : (files.map VaultFile.path).Nodup :=
    (hfiles.map VaultFile.path).nodup_iff.mpr hspec.1
  rcases buildSync_ok hdistinct hbuilt with ⟨hfrom, -⟩
  constructor
  case holds => exact ⟨_, _, holds_built hdistinct hbuilt⟩
  case portable =>
    intro q hq
    rw [hfrom.held] at hq
    rcases Option.isSome_iff_exists.mp hq with ⟨held, hheld⟩
    rcases exists_placement hheld with ⟨placement, hmem, hpath, -⟩
    rcases List.mem_map.mp hmem with ⟨file, hfile, rfl⟩
    have hfound := (hspec.2 file).mp (hfiles.mem_iff.mp hfile)
    rcases Disk.fileAt_isSome hdisk (by rw [hfound]; rfl) with
      ⟨names, content, stat, hne, hnames, hvisible, hnamed, -⟩
    have hq : q = textPath names := hpath.symm.trans hnamed
    rw [hq]
    exact ⟨mt (textPath_eq_nil hnames).mp hne, ⟨names, hnames, rfl⟩,
      (isVisiblePath_textPath hnames).mpr hvisible⟩

theorem Reachable.sound (h : Reachable source exclude index) : Sound source index := by
  induction h with
  | built hdisk hfiles hbuilt => exact sound_built hdisk hfiles hbuilt
  | event h hdisk hpath hnext ih =>
      rcases ih.stageEvent exclude hdisk hpath _ _ with ⟨next, dirty, hstaged, hsound⟩
      rw [hnext, Option.some.injEq, Prod.mk.injEq] at hstaged
      rw [hstaged.1]
      exact hsound

/-- From every reachable state an event without failures leaves exactly what is on disk at and
below its path, unless a tracked file hides tracked paths below it or the new size of something tracked is refused. -/
theorem event_converges_iff (source : NoteSource) (exclude : ExcludeSet)
    (h : Reachable source exclude index) (hdisk : disk.Portable) (hpath : Portable path)
    (hdistinct : DistinctSpellings source disk index) (hlexical : LexicalReady lexical)
    (hread : ∀ q, startsWith q path = true → Readable exclude disk q) (embeddingsEnabled : Bool) :
    ∃ next dirty, stageEvent source disk exclude lexical embeddingsEnabled path index =
        some (next, dirty) ∧
      (Converged source exclude disk path index next ↔
        ¬Shadowed disk index path ∧ Replaceable source exclude disk index path) :=
  h.sound.converged_iff hdisk hpath hdistinct hlexical hread embeddingsEnabled

/-! ## A stale file -/

def folderName : OsString := utf8Bytes "a".toList

def insideName : OsString := utf8Bytes "a/b".toList

def smallFile : DiskEntry :=
  .file (.ok "x".toList) ⟨1, none, none⟩

def entriesOf (entries : List (OsString × DiskEntry)) : Table OsString DiskEntry :=
  entries.foldl (fun table entry => AList.insert entry.1 entry.2 table) ∅

theorem folderName_eq : folderName = textPath ["a".toList] := by decide

theorem insideName_eq : insideName = textPath ["a".toList, "b".toList] := by decide

theorem portableNames_inside : PortableNames ["a".toList, "b".toList] := by
  intro name hname
  rw [List.mem_pair] at hname
  rcases hname with rfl | rfl
  · exact ⟨by decide, by decide, by decide, by decide, by decide⟩
  · exact ⟨by decide, by decide, by decide, by decide, by decide⟩

theorem portable_insideName : Portable insideName :=
  ⟨_, portableNames_inside, insideName_eq⟩

theorem portable_folderName : Portable folderName := by
  refine ⟨["a".toList], portableNames_inside.mono ?_, folderName_eq⟩
  intro name hname
  rw [List.mem_singleton.mp hname]
  exact List.mem_cons_self

theorem isSome_lookup_file {q : OsString}
    (h : ((entriesOf [(folderName, smallFile)]).lookup q).isSome) : q = folderName := by
  by_contra hne
  rw [entriesOf, List.foldl_cons, List.foldl_nil, AList.lookup_insert_ne hne,
    AList.lookup_empty] at h
  contradiction

theorem isSome_lookup_folder {q : OsString}
    (h : ((entriesOf [(folderName, .folder), (insideName, smallFile)]).lookup q).isSome) :
    q = folderName ∨ q = insideName := by
  by_contra hne
  rw [not_or] at hne
  rw [entriesOf, List.foldl_cons, List.foldl_cons, List.foldl_nil, AList.lookup_insert_ne hne.2,
    AList.lookup_insert_ne hne.1, AList.lookup_empty] at h
  contradiction

/-- One regular file. -/
def fileDisk : Disk where
  entries := entriesOf [(folderName, smallFile)]
  named path h := by
    rw [isSome_lookup_file h]
    decide
  inFolder path h := by
    rw [isSome_lookup_file h]
    intro hne
    exact absurd (by decide : parentPath folderName = []) hne

/-- A folder of the same name with a file in it. -/
def folderDisk : Disk where
  entries := entriesOf [(folderName, .folder), (insideName, smallFile)]
  named path h := by
    rcases isSome_lookup_folder h with rfl | rfl
    · decide
    · decide
  inFolder path h := by
    rcases isSome_lookup_folder h with rfl | rfl
    · intro hne
      exact absurd (by decide : parentPath folderName = []) hne
    · intro _
      rfl

theorem portable_fileDisk : fileDisk.Portable := by
  intro q hq
  rw [isSome_lookup_file hq]
  exact portable_folderName

theorem portable_folderDisk : folderDisk.Portable := by
  intro q hq
  rcases isSome_lookup_folder hq with h | h
  · rw [h]
    exact portable_folderName
  · rw [h]
    exact portable_insideName

/-- Attachments need not be read. -/
theorem readable_attachments {disk : Disk} (q : OsString)
    (h : ∀ q, (disk.entries.lookup q).isSome → isMarkdown q = false) :
    Readable noExclusions disk q := by
  intro file hfile hnote
  have hfound : (disk.fileAt q).isSome := by
    rw [hfile]
    rfl
  rw [classify, h q (Disk.isSome_entry_of_fileAt hfound)] at hnote
  contradiction

theorem readable_fileDisk (q : OsString) : Readable noExclusions fileDisk q := by
  apply readable_attachments
  intro q hq
  rw [isSome_lookup_file hq]
  decide

theorem readable_folderDisk (q : OsString) : Readable noExclusions folderDisk q := by
  apply readable_attachments
  intro q hq
  rcases isSome_lookup_folder hq with rfl | rfl
  · decide
  · decide

theorem lexicalReady_none : LexicalReady none := by
  intro search h
  contradiction

theorem distinct_of_spelled (disk : Disk) (index : VaultIndex)
    (h : ∀ q, Spelled disk index q → q = folderName ∨ q = insideName) :
    DistinctSpellings source disk index := by
  intro p q hp hq hparent _
  rcases h p hp with rfl | rfl
  · rcases h q hq with rfl | rfl
    · rfl
    · exact absurd hparent (by decide)
  · rcases h q hq with rfl | rfl
    · exact absurd hparent (by decide)
    · rfl

/-- The cold build of the file. -/
theorem exists_fileIndex : ∃ index,
    Reachable plainSource noExclusions index ∧ index.stats.vaultSizeBytes = 1 ∧
      ∀ q, (index.held q).isSome ↔ q = folderName := by
  have hbuild : ((buildSync plainSource noExclusions (fun _ _ => .ok ())
      [⟨folderName, .ok "x".toList, ⟨1, none, none⟩⟩]).map fun index =>
        (trackedList index, index.stats.vaultSizeBytes)).toOption = some ([folderName], 1) := by
    decide +kernel
  cases hbuilt : buildSync plainSource noExclusions (fun _ _ => .ok ())
      [⟨folderName, .ok "x".toList, ⟨1, none, none⟩⟩] with
  | error error =>
      rw [hbuilt] at hbuild
      contradiction
  | ok index =>
      rw [hbuilt] at hbuild
      have hpair := Prod.mk.inj (Option.some.inj hbuild)
      refine ⟨index, .built portable_fileDisk ?_ hbuilt, hpair.2, ?_⟩
      · exact .of_eq rfl
      · intro q
        rw [isSome_held, ← mem_trackedList, hpair.1, List.mem_singleton]

theorem spelled_iff {disk : Disk} {q : OsString}
    (hdisk : ∀ q, (disk.entries.lookup q).isSome → q = folderName ∨ q = insideName)
    (hindex : ∀ q, (index.held q).isSome → q = folderName ∨ q = insideName)
    (h : Spelled disk index q) : q = folderName ∨ q = insideName := by
  rcases h with hfound | ⟨tracked, hheld, hstart⟩
  · exact hdisk q hfound
  · rcases hindex tracked hheld with rfl | rfl
    · have hself : pathPrefixes folderName = [folderName] := by decide
      rw [hself, List.mem_singleton] at hstart
      exact .inl hstart
    · have hboth : pathPrefixes insideName = [insideName, folderName] := by decide
      rw [hboth, List.mem_pair] at hstart
      exact hstart.symm

/-- An event for the new file of the folder leaves the folder itself tracked as a file. -/
theorem exists_staleIndex : ∃ index, Reachable plainSource noExclusions index ∧
    ∀ q, (index.held q).isSome ↔ q = folderName ∨ q = insideName := by
  rcases exists_fileIndex with ⟨index, hreachable, hsize, htracked⟩
  have hdistinct : DistinctSpellings plainSource folderDisk index :=
    distinct_of_spelled _ _ fun q hq => spelled_iff (fun q h => isSome_lookup_folder h)
      (fun q h => .inl ((htracked q).mp h)) hq
  have hnotHeld : ∀ q, startsWith q insideName = true → ¬(index.held q).isSome := by
    intro q hbelow hheld
    rw [(htracked q).mp hheld] at hbelow
    exact absurd hbelow (by decide)
  have hfile : (folderDisk.fileAt insideName).isSome := by decide +kernel
  have halone : ¬∃ q, q ≠ insideName ∧ startsWith q insideName = true ∧ (index.held q).isSome :=
    fun ⟨q, _, hbelow, hheld⟩ => hnotHeld q hbelow hheld
  rcases hreachable.sound.converged_iff portable_folderDisk portable_insideName hdistinct
    lexicalReady_none (fun q _ => readable_folderDisk q) false with ⟨next, dirty, hnext, hiff⟩
  have hconverged := hiff.mpr ⟨fun hshadowed => halone hshadowed.2.2,
    fun q hbelow hheld => absurd hheld (hnotHeld q hbelow)⟩
  have hadmitted : admittedBelow plainSource noExclusions folderDisk index insideName =
      [insideName] := by
    have hnone : index.held insideName = none :=
      Option.not_isSome_iff_eq_none.mp (hnotHeld insideName (by decide))
    have hfits : 1 + heldSize (diskHeld plainSource noExclusions folderDisk insideName) ≤ u64Max := by
      decide +kernel
    rw [admittedBelow, affectedPaths_of_file portable_folderDisk portable_insideName hfile halone,
      admittedPaths, hnone, hsize]
    exact if_pos hfits
  have hfound : (diskHeld plainSource noExclusions folderDisk insideName).isSome := by
    decide +kernel
  refine ⟨next, .event hreachable portable_folderDisk portable_insideName hnext, ?_⟩
  intro q
  by_cases hbelow : startsWith q insideName = true
  · rw [hconverged.below q hbelow, hadmitted]
    by_cases hq : q = insideName
    · rw [if_pos (List.mem_singleton.mpr hq), hq]
      exact iff_of_true hfound (.inr rfl)
    · rw [if_neg (mt List.mem_singleton.mp hq)]
      apply iff_of_false (by decide)
      rintro (rfl | rfl)
      · exact absurd hbelow (by decide)
      · exact hq rfl
  · rw [hconverged.outside q (Bool.eq_false_iff.mpr hbelow), htracked]
    apply (or_iff_left _).symm
    intro hq
    rw [hq] at hbelow
    exact hbelow (by decide)

/-- What was tracked below a folder stays when the folder becomes a file that is still tracked. -/
theorem stale_below_tracked_file : ∃ index next dirty,
    Reachable plainSource noExclusions index ∧ fileDisk.Portable ∧ Portable folderName ∧
      DistinctSpellings plainSource fileDisk index ∧
      (∀ q, startsWith q folderName = true → Readable noExclusions fileDisk q) ∧
      stageEvent plainSource fileDisk noExclusions none false folderName index =
        some (next, dirty) ∧
      ¬Converged plainSource noExclusions fileDisk folderName index next := by
  rcases exists_staleIndex with ⟨index, hreachable, htracked⟩
  have hdistinct : DistinctSpellings plainSource fileDisk index :=
    distinct_of_spelled _ _ fun q hq => spelled_iff (fun q h => .inl (isSome_lookup_file h))
      (fun q h => (htracked q).mp h) hq
  rcases hreachable.sound.converged_iff portable_fileDisk portable_folderName hdistinct
    lexicalReady_none (fun q _ => readable_fileDisk q) false with ⟨next, dirty, hnext, hiff⟩
  refine ⟨index, next, dirty, hreachable, portable_fileDisk, portable_folderName, hdistinct,
    fun q _ => readable_fileDisk q, hnext, ?_⟩
  intro hconverged
  apply (hiff.mp hconverged).1
  exact ⟨by decide +kernel, (htracked _).mpr (.inl rfl), insideName, by decide, by decide,
    (htracked _).mpr (.inr rfl)⟩

/-- A file event that finds nothing below its path converges. -/
theorem file_event_converges : ∃ index next dirty,
    stageEvent plainSource fileDisk noExclusions none false folderName index =
        some (next, dirty) ∧
      (Converged plainSource noExclusions fileDisk folderName index next ↔
        ¬Shadowed fileDisk index folderName ∧
          Replaceable plainSource noExclusions fileDisk index folderName) := by
  rcases exists_fileIndex with ⟨index, hreachable, -, htracked⟩
  have hdistinct : DistinctSpellings plainSource fileDisk index :=
    distinct_of_spelled _ _ fun q hq => spelled_iff (fun q h => .inl (isSome_lookup_file h))
      (fun q h => .inl ((htracked q).mp h)) hq
  exact ⟨index, event_converges_iff plainSource noExclusions hreachable portable_fileDisk
    portable_folderName hdistinct lexicalReady_none (fun q _ => readable_fileDisk q) false⟩

end ObsidianMcp
