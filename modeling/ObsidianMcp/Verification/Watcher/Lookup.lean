import ObsidianMcp.Library.Ranges
import ObsidianMcp.Model.WatchLookup
import ObsidianMcp.Verification.Index.ColdBuild
import ObsidianMcp.Verification.Watcher.Spellings

/-! # Exact lookup of watched paths -/

namespace ObsidianMcp

open Text VaultIndex

variable {source : NoteSource} {exclude : ExcludeSet} {index : VaultIndex} {path : OsString}
  {origin : VaultIndex.Origin} {placed : List Placement} {watch : WatchPaths}

/-! ## Statements -/

/-- The states that index operations on vault paths lead to. The watched paths are listed at any
time. -/
inductive Tracking (source : NoteSource) (exclude : ExcludeSet) : VaultIndex → Prop where
  | empty : Tracking source exclude VaultIndex.empty
  | built {files : List VaultFile} {indexContent : NoteMetadata → Text → Except VaultError Unit}
      {index : VaultIndex} (hdistinct : (files.map VaultFile.path).Nodup)
      (hportable : ∀ file ∈ files, Portable file.path)
      (hbuilt : buildSync source exclude indexContent files = .ok index) :
      Tracking source exclude index
  | call {index next : VaultIndex} (h : Tracking source exclude index) (operation : Operation)
      (hportable : ∀ path, operation.path = some path → Portable path)
      (hnext : operation.apply source exclude index = some next) : Tracking source exclude next
  | list {index : VaultIndex} (h : Tracking source exclude index) :
      Tracking source exclude (index.initWatchPaths source)

/-! ## Component order -/

theorem componentRank_injective {α : Type*} {bytes : List α → List UInt8}
    (h : Function.Injective bytes) : Function.Injective (componentRank bytes) := by
  have hbytes : Function.Injective fun name => (bytes name).map UInt8.toNat :=
    (List.map_injective_iff.mpr fun _ _ heq => UInt8.toNat_inj.mp heq).comp h
  intro a b heq
  cases a with
  | rootDir => cases b <;> simp_all [componentRank]
  | curDir => cases b <;> simp_all [componentRank]
  | parentDir => cases b <;> simp_all [componentRank]
  | normal name =>
      cases b with
      | rootDir => simp [componentRank] at heq
      | curDir => simp [componentRank] at heq
      | parentDir => simp [componentRank] at heq
      | normal other => rw [hbytes (List.cons.inj heq).2]

theorem foldedOrder_eq_iff {a b : Text} :
    foldedOrder a = foldedOrder b ↔ foldedComponents a = foldedComponents b :=
  (List.map_injective_iff.mpr (componentRank_injective utf8Bytes_injective)).eq_iff

theorem foldedOrder_prefix_iff {a b : Text} :
    foldedOrder a <+: foldedOrder b ↔ foldedComponents a <+: foldedComponents b := by
  constructor
  · intro h
    obtain ⟨l, hl, heq⟩ := List.prefix_map_iff.mp h
    rwa [List.map_injective_iff.mpr (componentRank_injective utf8Bytes_injective) heq]
  · exact fun h => h.map _

/-! ## Scanning -/

theorem nativeOrder_nil : nativeOrder [] = [] := by decide

theorem pairwise_spellings (watch : WatchPaths) :
    watch.spellings.Pairwise fun a b =>
      WatchPaths.spellingOrder a ≤ WatchPaths.spellingOrder b := by
  have h : watch.spellings.Pairwise fun a b =>
      decide (WatchPaths.spellingOrder a ≤ WatchPaths.spellingOrder b) = true := by
    apply List.pairwise_mergeSort
    · intro a b c hab hbc
      rw [decide_eq_true_eq] at hab hbc ⊢
      exact hab.trans hbc
    · intro a b
      rw [Bool.or_eq_true, decide_eq_true_eq, decide_eq_true_eq]
      exact le_total _ _
  exact h.imp fun hle => of_decide_eq_true hle

/-- The early stop loses nothing. -/
theorem matching_eq_filter (path : OsString) (descendants : Bool) (watch : WatchPaths) :
    watch.matching source path descendants =
      (watch.spellings.filter fun key =>
        if descendants then (foldedComponents (foldedPath source path)).isPrefixOf
          (foldedComponents key.1)
        else foldedComponents key.1 = foldedComponents (foldedPath source path)).map Prod.snd := by
  have hfirst : ∀ t : List (List ℕ), nativeOrder [] ≤ t := by
    rw [nativeOrder_nil]
    exact list_nil_le
  have hsorted := pairwise_spellings watch
  rw [WatchPaths.matching]
  congr 1
  cases descendants with
  | true =>
      apply scan_range hsorted hfirst (P := fun x => foldedOrder (foldedPath source path) <+: x)
      · intro key
        rw [if_pos rfl, List.isPrefixOf_iff_prefix]
        exact foldedOrder_prefix_iff.symm
      · exact fun x hx => hx
      · exact fun x y hlow hhigh hy => prefix_of_between hlow hhigh hy
  | false =>
      apply scan_range hsorted hfirst (P := fun x => x = foldedOrder (foldedPath source path))
      · intro key
        rw [if_neg Bool.false_ne_true, decide_eq_true_eq]
        exact foldedOrder_eq_iff.symm
      · rintro x rfl
        exact List.prefix_rfl
      · rintro x y hlow hhigh rfl
        exact le_antisymm hhigh hlow

/-! ## Tracked states -/

theorem trackedPaths_eq (h : Holds source origin placed index) :
    index.trackedPaths = (origin.after placed).paths := by
  ext p
  rw [Inventory.mem_paths, ← h.held, isSome_held, ← mem_trackedList, trackedList,
    VaultIndex.trackedPaths]
  simp [mem_sortedPaths]

/-- An operation on a hidden path only removes. -/
theorem VaultIndex.Holds.applyHidden (exclude : ExcludeSet) (h : Holds source origin placed index)
    {operation : Operation} (hoperation : operation.path = some path)
    (hpath : logicalSeparators path = path) (hhidden : isVisiblePath path = false) :
    ∃ next placed', operation.apply source exclude index = some next ∧
      Holds source origin placed' next := by
  obtain ⟨removed, hremoved, hholds⟩ := h.removeFile hpath
  cases operation with
  | observe other content stat lexical embeddingsEnabled =>
      obtain rfl : other = path := Option.some.inj hoperation
      obtain ⟨next, result, hnext, hfinal⟩ := hholds.finishLexical hpath
        (index.notes.lookup other).isSome (.ok none) lexical embeddingsEnabled
      refine ⟨next, _, ?_, hfinal⟩
      have hupdate : index.updateObservation source exclude other content stat =
          some (removed, .ok none) := by
        unfold updateObservation
        rw [hhidden, hremoved]
        rfl
      rw [Operation.apply, applyObservation, hupdate, Option.bind_some, finishRefresh, hnext]
      rfl
  | refresh other revision stat =>
      obtain rfl : other = path := Option.some.inj hoperation
      exact ⟨_, _, rfl, @Holds.refresh _ exclude _ _ _ _ h hpath revision stat⟩
  | remove other lexical =>
      obtain rfl : other = path := Option.some.inj hoperation
      refine ⟨removed, _, ?_, hholds⟩
      rw [Operation.apply]
      unfold removeProjection
      rw [hremoved]
      rfl
  | exclude other =>
      obtain rfl : other = path := Option.some.inj hoperation
      rw [Operation.apply, addExcludedFile, hpath]
      dsimp only
      by_cases hmem : other ∈ index.excludedNotePaths
      · rw [if_pos hmem]
        exact ⟨index, placed, rfl, h⟩
      · rw [if_neg hmem, hremoved, hhidden]
        exact ⟨removed, _, rfl, hholds⟩
  | beginBatch => contradiction
  | finishBatch => contradiction

/-- Every operation on a vault path succeeds. -/
theorem VaultIndex.Holds.applyPortable (exclude : ExcludeSet) (h : Holds source origin placed index)
    {operation : Operation} (hportable : ∀ path, operation.path = some path → Portable path) :
    ∃ next placed', operation.apply source exclude index = some next ∧
      Holds source origin placed' next := by
  by_cases hvisible : ∀ path, operation.path = some path → isVisiblePath path = true
  · have hplain : operation.Plain := by
      intro path hpath
      obtain ⟨names, hnames, rfl⟩ := hportable path hpath
      exact plain_textPath hnames ((isVisiblePath_textPath hnames).mp (hvisible _ hpath))
    obtain ⟨next, hnext, hholds⟩ := h.apply exclude hplain
    exact ⟨next, _, hnext, hholds⟩
  · simp only [not_forall] at hvisible
    obtain ⟨path, hpath, hhidden⟩ := hvisible
    exact h.applyHidden exclude hpath (hportable path hpath).logicalSeparators
      (Bool.eq_false_iff.mpr hhidden)

theorem Tracking.holds (h : Tracking source exclude index) :
    ∃ origin placed, Holds source origin placed index := by
  induction h with
  | empty => exact ⟨.empty, [], holds_empty⟩
  | built hdistinct hportable hbuilt => exact ⟨_, _, holds_built hdistinct hbuilt⟩
  | call h operation hportable hnext ih =>
      obtain ⟨origin, placed, hholds⟩ := ih
      obtain ⟨next, placed', hstep, hnextHolds⟩ := hholds.applyPortable exclude hportable
      rw [hstep, Option.some.injEq] at hnext
      exact ⟨origin, placed', hnext ▸ hnextHolds⟩
  | list h ih =>
      obtain ⟨origin, placed, hholds⟩ := ih
      exact ⟨origin, placed, hholds.initWatchPaths⟩

/-! ## Exactness -/

theorem nodup_matching {paths : Finset OsString}
    (hexact : Counts.Exact (watchOccurs source paths) watch) (query : OsString)
    (descendants : Bool) : (watch.matching source query descendants).Nodup := by
  have hkeys : watch.spellings.Nodup :=
    (List.mergeSort_perm _ _).nodup_iff.mpr watch.keys_nodup
  rw [matching_eq_filter]
  apply List.Nodup.map_on _ (hkeys.filter _)
  intro a ha b hb heq
  rw [List.mem_filter, WatchPaths.spellings, (List.mergeSort_perm _ _).mem_iff,
    mem_keys_iff hexact] at ha hb
  obtain ⟨⟨_, _, p, _, rfl⟩, -⟩ := ha
  obtain ⟨⟨_, _, q, _, rfl⟩, -⟩ := hb
  obtain rfl : p = q := heq
  rfl

theorem mem_matching_iff {paths : Finset OsString}
    (hexact : Counts.Exact (watchOccurs source paths) watch) {query native : OsString}
    {descendants : Bool} :
    native ∈ watch.matching source query descendants ↔
      (∃ tracked ∈ paths, native ∈ pathPrefixes tracked) ∧
        if descendants then foldedComponents (foldedPath source query) <+:
          foldedComponents (foldedPath source native)
        else foldedComponents (foldedPath source native) =
          foldedComponents (foldedPath source query) := by
  rw [matching_eq_filter, List.mem_map]
  constructor
  · rintro ⟨key, hkey, rfl⟩
    rw [List.mem_filter, WatchPaths.spellings, (List.mergeSort_perm _ _).mem_iff,
      mem_keys_iff hexact] at hkey
    obtain ⟨⟨tracked, htracked, p, hp, rfl⟩, hmatches⟩ := hkey
    refine ⟨⟨tracked, htracked, hp⟩, ?_⟩
    cases descendants with
    | true => exact List.isPrefixOf_iff_prefix.mp hmatches
    | false => exact of_decide_eq_true hmatches
  · rintro ⟨⟨tracked, htracked, hp⟩, hmatches⟩
    refine ⟨(foldedPath source native, native), ?_, rfl⟩
    rw [List.mem_filter, WatchPaths.spellings, (List.mergeSort_perm _ _).mem_iff,
      mem_keys_iff hexact]
    refine ⟨⟨tracked, htracked, native, hp, rfl⟩, ?_⟩
    cases descendants with
    | true => exact List.isPrefixOf_iff_prefix.mpr hmatches
    | false => exact decide_eq_true hmatches

/-- In every state of a run the watched paths count the prefixes of what is tracked, as if they were
listed afresh, and a lookup finds exactly the matching prefixes, each once. No operation fails. -/
theorem watch_lookup_exact (source : NoteSource) (exclude : ExcludeSet) (index : VaultIndex)
    (watch : WatchPaths) (h : Tracking source exclude index)
    (hwatch : index.watchPaths = some watch) :
    (∀ operation : Operation, (∀ path, operation.path = some path → Portable path) →
      (operation.apply source exclude index).isSome) ∧
    (∀ key, watch.lookup key = Counts.positive (watchOccurs source index.trackedPaths key)) ∧
    (∀ paths : List OsString, paths.Perm (index.notes.keys ++ index.excludedNotePaths.toList ++
      index.attachments.keys) → ∀ key, (listWatchPaths source paths).lookup key = watch.lookup key) ∧
    ∀ query descendants, (watch.matching source query descendants).Nodup ∧
      ∀ native, native ∈ watch.matching source query descendants ↔
        (∃ tracked ∈ index.trackedPaths, native ∈ pathPrefixes tracked) ∧
          if descendants then foldedComponents (foldedPath source query) <+:
            foldedComponents (foldedPath source native)
          else foldedComponents (foldedPath source native) =
            foldedComponents (foldedPath source query) := by
  obtain ⟨origin, placed, hholds⟩ := h.holds
  have hexact := hholds.watched watch hwatch
  rw [← trackedPaths_eq hholds] at hexact
  refine ⟨?_, fun key => hexact key, ?_, fun query descendants =>
    ⟨nodup_matching hexact query descendants, fun native => mem_matching_iff hexact⟩⟩
  · intro operation hportable
    obtain ⟨next, -, hnext, -⟩ := hholds.applyPortable exclude hportable
    rw [hnext]
    rfl
  intro paths hperm key
  have hlisted : (trackedList index).Perm paths := by
    refine List.Perm.trans ?_ hperm.symm
    exact ((List.Perm.refl _).append (Finset.sort_perm_toList _ _)).append_right _
  have hnodup := hlisted.nodup_iff.mp (nodup_trackedList hholds.consistent)
  have hpaths : paths.toFinset = index.trackedPaths := by
    ext p
    rw [List.mem_toFinset, hperm.mem_iff, VaultIndex.trackedPaths]
    simp
  rw [listWatchPaths, exact_insertAll hnodup key, hpaths, hexact key]

theorem portable_soleNote : Portable soleNote := by
  refine ⟨["a".toList, "b.md".toList], ?_, by decide⟩
  intro name hname
  rw [List.mem_pair] at hname
  obtain rfl | rfl := hname
  · exact ⟨by decide, by decide, by decide, by decide, by decide⟩
  · exact ⟨by decide, by decide, by decide, by decide, by decide⟩

/-- A note is tracked and the watched paths are listed. -/
theorem listed_note_exact : ∃ (index : VaultIndex) (watch : WatchPaths),
    index.watchPaths = some watch ∧
    (∀ key, watch.lookup key =
      Counts.positive (watchOccurs plainSource index.trackedPaths key)) ∧
    (watch.matching plainSource soleNote false).Nodup := by
  have hportable : ∀ path, (Operation.observe soleNote (some "x".toList) ⟨1, none, none⟩ none
      false).path = some path → Portable path := by
    intro path hpath
    rw [← Option.some.inj hpath]
    exact portable_soleNote
  obtain ⟨index, placed, hnext, -⟩ :=
    (@holds_empty plainSource).applyPortable noExclusions hportable
  obtain ⟨watch, hwatch⟩ := @initWatchPaths_some plainSource index
  have hexact := watch_lookup_exact plainSource noExclusions _ watch
    (.list (.call .empty _ hportable hnext)) hwatch
  exact ⟨_, watch, hwatch, hexact.2.1, (hexact.2.2.2 soleNote false).1⟩

end ObsidianMcp
