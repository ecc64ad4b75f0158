import ObsidianMcp.Verification.Watcher.Refresh

/-! # Watched spellings -/

namespace ObsidianMcp

open Text VaultIndex

variable {source : NoteSource} {exclude : ExcludeSet} {disk : Disk} {index : VaultIndex}
  {path : OsString} {origin : VaultIndex.Origin} {placed : List Placement}

/-! ## Listing the tracked paths -/

/-- The tracked paths, each once. -/
def trackedList (index : VaultIndex) : List OsString :=
  index.notes.keys ++ sortedPaths index.excludedNotePaths ++ index.attachments.keys

theorem mem_sortedPaths {paths : Finset OsString} : path ∈ sortedPaths paths ↔ path ∈ paths :=
  Finset.mem_sort _

theorem nodup_sortedPaths (paths : Finset OsString) : (sortedPaths paths).Nodup :=
  Finset.sort_nodup _ _

theorem mem_trackedList : path ∈ trackedList index ↔ (index.entryAt path).isSome := by
  rw [trackedList, List.mem_append, List.mem_append, mem_sortedPaths]
  cases hnote : index.notes.lookup path with
  | some note =>
      rw [entryAt_of_note hnote]
      refine iff_of_true (.inl (.inl ?_)) rfl
      exact AList.mem_keys.mp (AList.lookup_isSome.mp (by rw [hnote]; rfl))
  | none =>
      have hnotes : path ∉ index.notes.keys := AList.lookup_eq_none.mp hnote
      rw [entryAt_of_no_note hnote, or_iff_right hnotes]
      by_cases hmem : path ∈ index.excludedNotePaths
      · rw [if_pos hmem]
        exact iff_of_true (.inl hmem) rfl
      · rw [if_neg hmem, or_iff_right hmem, Option.isSome_map]
        exact AList.mem_keys.symm.trans AList.lookup_isSome.symm

theorem nodup_trackedList (h : Consistent source index) : (trackedList index).Nodup := by
  have hnote : ∀ {p : OsString}, p ∈ index.notes.keys → (index.notes.lookup p).isSome :=
    fun hp => AList.lookup_isSome.mpr (AList.mem_keys.mpr hp)
  rw [trackedList, List.nodup_append, List.nodup_append]
  refine ⟨⟨index.notes.keys_nodup, nodup_sortedPaths _, ?_⟩, index.attachments.keys_nodup, ?_⟩
  · intro p hp q hq heq
    rw [← heq, mem_sortedPaths] at hq
    have hsome := hnote hp
    rw [h.excluded_not_note p hq] at hsome
    contradiction
  · intro p hp q hq heq
    rw [← heq] at hq
    have hattachment := AList.lookup_isSome.mpr (AList.mem_keys.mpr hq)
    rcases List.mem_append.mp hp with hp | hp
    · rw [h.note_not_attachment p (hnote hp)] at hattachment
      contradiction
    · rw [h.excluded_not_attachment p (mem_sortedPaths.mp hp)] at hattachment
      contradiction

/-- Watching each path of a list once counts its spellings. -/
theorem exact_insertAll {paths : List OsString} (h : paths.Nodup) :
    Counts.Exact (watchOccurs source paths.toFinset)
      (paths.foldl (fun watch path => WatchPaths.insert source path watch) ∅) := by
  induction paths using List.reverseRecOn with
  | nil => exact Counts.exact_empty
  | append_singleton paths p ih =>
      rw [List.nodup_append] at h
      have hp : p ∉ paths.toFinset := by
        rw [List.mem_toFinset]
        intro hp
        exact h.2.2 p hp p (List.mem_singleton_self p) rfl
      rw [List.foldl_append, List.foldl_cons, List.foldl_nil, insert_eq_foldl]
      apply ((ih h.1).incrementAll (watchKeys source p)).congr
      intro key
      rw [← watchOccurs_insert hp]
      congr 1
      ext q
      rw [Finset.mem_insert, List.mem_toFinset, List.mem_toFinset, List.mem_append,
        List.mem_singleton, or_comm]

/-- Listing the watched paths changes nothing else. -/
theorem VaultIndex.Holds.initWatchPaths (h : Holds source origin placed index) :
    Holds source origin placed (index.initWatchPaths source) := by
  rw [VaultIndex.initWatchPaths]
  cases hwatch : index.watchPaths with
  | some watch => exact h
  | none =>
      have hexact := @exact_insertAll source _ (nodup_trackedList h.consistent)
      have hpaths : (trackedList index).toFinset = (origin.after placed).paths := by
        ext p
        rw [List.mem_toFinset, mem_trackedList, Inventory.mem_paths, h.entryAt, Option.isSome_map]
      rw [hpaths] at hexact
      exact {
        consistent := { h.consistent with
          watched := fun watch hsome key count hcount => by
            rw [← Option.some.inj hsome] at hcount
            have hpositive := (hexact key).symm.trans hcount
            have hvalue := Counts.getD_positive
              (watchOccurs source (origin.after placed).paths key)
            rw [hpositive, Option.getD_some] at hvalue
            rw [hvalue]
            exact Counts.positive_eq_some hpositive }
        held := h.held
        linkResolver := h.linkResolver
        watched := fun watch hsome => Option.some.inj hsome ▸ hexact }

/-! ## Watched prefixes -/

theorem mem_keys_iff {paths : Finset OsString} {watch : WatchPaths}
    (h : Counts.Exact (watchOccurs source paths) watch) {key : Text × OsString} :
    key ∈ watch.keys ↔ ∃ tracked ∈ paths, ∃ p ∈ pathPrefixes tracked, key = (foldedPath source p, p) := by
  have hpos : key ∈ watch.keys ↔ 0 < watchOccurs source paths key := by
    rw [← AList.mem_keys, ← AList.lookup_isSome, h key, Counts.positive]
    by_cases hzero : watchOccurs source paths key = 0
    · rw [if_pos hzero, hzero]
      exact iff_of_false (by decide) (Nat.lt_irrefl 0)
    · rw [if_neg hzero]
      exact iff_of_true rfl (Nat.pos_of_ne_zero hzero)
  rw [hpos, watchOccurs, Finset.sum_pos_iff]
  constructor
  · intro hsum
    rcases hsum with ⟨tracked, htracked, hcount⟩
    rw [Counts.occurrences_pos, watchKeys, List.mem_map] at hcount
    rcases hcount with ⟨p, hp, rfl⟩
    exact ⟨tracked, htracked, p, hp, rfl⟩
  · intro hmem
    rcases hmem with ⟨tracked, htracked, p, hp, rfl⟩
    refine ⟨tracked, htracked, ?_⟩
    rw [Counts.occurrences_pos, watchKeys]
    exact List.mem_map.mpr ⟨p, hp, rfl⟩

/-- The watched spellings of a key are the matching prefixes of tracked paths. -/
theorem mem_pathsMatching {paths : Finset OsString} {watch : WatchPaths}
    (h : Counts.Exact (watchOccurs source paths) watch) {base p : OsString} {descendants : Bool} :
    p ∈ watch.pathsMatching source base descendants ↔
      (∃ tracked ∈ paths, p ∈ pathPrefixes tracked) ∧
        if descendants then startsWithKey (foldedPath source p) (foldedPath source base) = true
        else foldedPath source p = foldedPath source base := by
  rw [WatchPaths.pathsMatching, List.mem_map]
  constructor
  · intro hmem
    rcases hmem with ⟨key, hkey, rfl⟩
    rw [List.mem_filter, (List.mergeSort_perm _ _).mem_iff, mem_keys_iff h] at hkey
    rcases hkey with ⟨⟨tracked, htracked, p, hp, rfl⟩, hmatches⟩
    refine ⟨⟨tracked, htracked, hp⟩, ?_⟩
    cases descendants with
    | true => exact hmatches
    | false => exact of_decide_eq_true hmatches
  · intro hmem
    rcases hmem with ⟨⟨tracked, htracked, hp⟩, hmatches⟩
    refine ⟨(foldedPath source p, p), ?_, rfl⟩
    rw [List.mem_filter, (List.mergeSort_perm _ _).mem_iff, mem_keys_iff h]
    refine ⟨⟨tracked, htracked, p, hp, rfl⟩, ?_⟩
    cases descendants with
    | true => exact hmatches
    | false => exact decide_eq_true hmatches

/-! ## What is tracked -/

/-- The index represents some placements, and what it tracks has a visible portable path. -/
structure Sound (source : NoteSource) (index : VaultIndex) : Prop where
  holds : ∃ origin placed, Holds source origin placed index
  portable : ∀ q, (index.held q).isSome → q ≠ [] ∧ Portable q ∧ isVisiblePath q = true

theorem isSome_held (index : VaultIndex) (q : OsString) :
    (index.held q).isSome = (index.entryAt q).isSome := by
  rw [VaultIndex.held, Option.isSome_map]

theorem Portable.logicalSeparators (h : Portable path) : logicalSeparators path = path := by
  rcases h with ⟨names, hnames, rfl⟩
  exact logicalSeparators_textPath hnames

theorem Portable.tracks (h : Portable path) (index : VaultIndex) :
    index.tracks path = (index.held path).isSome := by
  rw [tracks_eq_isSome h.logicalSeparators, isSome_held]

theorem Sound.initWatchPaths (h : Sound source index) :
    Sound source (index.initWatchPaths source) ∧
      ∀ q, (index.initWatchPaths source).held q = index.held q := by
  have hsame : ∀ q, (index.initWatchPaths source).held q = index.held q := by
    intro q
    rw [VaultIndex.initWatchPaths]
    cases index.watchPaths <;> rfl
  rcases h.holds with ⟨origin, placed, hholds⟩
  refine ⟨⟨⟨origin, placed, hholds.initWatchPaths⟩, ?_⟩, hsame⟩
  intro q hq
  rw [hsame] at hq
  exact h.portable q hq

/-- The watched spellings of an initialized index. -/
theorem Sound.watched (h : Sound source index) {watch : WatchPaths}
    (hwatch : index.watchPaths = some watch) :
    ∃ paths : Finset OsString, Counts.Exact (watchOccurs source paths) watch ∧
      ∀ q, q ∈ paths ↔ (index.held q).isSome := by
  rcases h.holds with ⟨origin, placed, hholds⟩
  refine ⟨_, hholds.watched watch hwatch, ?_⟩
  intro q
  rw [Inventory.mem_paths, hholds.held]

theorem initWatchPaths_some (index : VaultIndex) :
    ∃ watch, (index.initWatchPaths source).watchPaths = some watch := by
  rw [VaultIndex.initWatchPaths]
  cases hwatch : index.watchPaths with
  | some watch => exact ⟨watch, hwatch⟩
  | none => exact ⟨_, rfl⟩

end ObsidianMcp
