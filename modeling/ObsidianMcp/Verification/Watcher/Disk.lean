import ObsidianMcp.Verification.Watcher.Paths

/-! # What is found on disk -/

namespace ObsidianMcp.Disk

open Text

variable {source : NoteSource} {disk : Disk} {names before rest : List Text} {path : OsString}

theorem ok_bind {α β : Type} (a : α) (f : α → Except VaultError β) :
    (Except.ok a >>= f) = f a := rfl

/-- Every name on disk is portable. -/
def Portable (disk : Disk) : Prop :=
  ∀ path, (disk.entries.lookup path).isSome → ObsidianMcp.Portable path

/-- What is at a path. The vault itself is a folder. -/
def entryAt (path : OsString) (disk : Disk) : Option DiskEntry :=
  if path = [] then some .folder else disk.entries.lookup path

theorem lookup_nil (disk : Disk) : disk.entries.lookup [] = none := by
  cases h : disk.entries.lookup [] with
  | none => rfl
  | some entry =>
      have hnamed := disk.named [] (by rw [h]; rfl) [] (by decide)
      exact absurd rfl hnamed.1

theorem fileAt_eq (disk : Disk) (path : OsString) :
    disk.fileAt path =
      match disk.entryAt path with
      | some (.file content stat) => if isVisiblePath path then some ⟨path, content, stat⟩ else none
      | _ => none := by
  by_cases hnil : path = []
  · rw [fileAt, entryAt, if_pos hnil, hnil, lookup_nil]
  · rw [entryAt, if_neg hnil]
    rfl

theorem isSome_entry_of_fileAt (h : (disk.fileAt path).isSome) :
    (disk.entries.lookup path).isSome := by
  by_contra hnone
  rw [fileAt, Option.not_isSome_iff_eq_none.mp hnone] at h
  contradiction

theorem fileAt_of_hidden (h : isVisiblePath path = false) : disk.fileAt path = none := by
  rw [fileAt, h]
  cases disk.entries.lookup path with
  | none => rfl
  | some entry => cases entry <;> rfl

theorem exists_names (hdisk : disk.Portable) (h : (disk.entries.lookup path).isSome) :
    ∃ names, names ≠ [] ∧ PortableNames names ∧ path = textPath names := by
  rcases hdisk path h with ⟨names, hnames, rfl⟩
  refine ⟨names, ?_, hnames, rfl⟩
  intro hnil
  rw [hnil, textPath_nil, lookup_nil] at h
  contradiction

theorem path_of_fileAt {file : VaultIndex.VaultFile} (h : disk.fileAt path = some file) :
    file.path = path := by
  rw [fileAt] at h
  cases hentry : disk.entries.lookup path with
  | none =>
      rw [hentry] at h
      contradiction
  | some entry =>
      rw [hentry] at h
      cases entry with
      | folder => contradiction
      | link target => contradiction
      | special => contradiction
      | file content stat =>
          dsimp only at h
          by_cases hvisible : isVisiblePath path = true
          · rw [if_pos hvisible, Option.some.injEq] at h
            rw [← h]
          · rw [if_neg hvisible] at h
            contradiction

theorem fileAt_isSome (hdisk : disk.Portable) (h : (disk.fileAt path).isSome) :
    ∃ names content stat, names ≠ [] ∧ PortableNames names ∧ VisibleNames names ∧
      path = textPath names ∧ disk.entries.lookup path = some (.file content stat) := by
  rw [fileAt] at h
  cases hentry : disk.entries.lookup path with
  | none =>
      rw [hentry] at h
      contradiction
  | some entry =>
      rw [hentry] at h
      cases entry with
      | folder => contradiction
      | link target => contradiction
      | special => contradiction
      | file content stat =>
          dsimp only at h
          by_cases hvisible : isVisiblePath path = true
          · rcases exists_names hdisk (by rw [hentry]; rfl) with ⟨names, hne, hnames, rfl⟩
            exact ⟨names, content, stat, hne, hnames, (isVisiblePath_textPath hnames).mp hvisible,
              rfl, rfl⟩
          · rw [if_neg hvisible] at h
            contradiction

/-- The folders above an entry. -/
theorem folder_of_start (hnames : PortableNames names)
    (h : (disk.entries.lookup (textPath names)).isSome) {above : List Text} (hne : above ≠ [])
    (hstart : above <+: names) (hproper : above ≠ names) :
    disk.entries.lookup (textPath above) = some .folder := by
  induction names using List.reverseRecOn with
  | nil => exact absurd (List.prefix_nil.mp hstart) hne
  | append_singleton names name ih =>
      have hparent : PortableNames names := (portableNames_concat.mp hnames).1
      rcases List.prefix_concat_iff.mp hstart with heq | hstart
      · exact absurd heq hproper
      · have hne' : names ≠ [] := by
          intro hnil
          rw [hnil] at hstart
          exact hne (List.prefix_nil.mp hstart)
        have hfolder := disk.inFolder _ h
        rw [parentPath_textPath hnames, List.dropLast_concat] at hfolder
        have hfolder := hfolder (mt (textPath_eq_nil hparent).mp hne')
        by_cases heq : above = names
        · rw [heq]
          exact hfolder
        · exact ih hparent (by rw [hfolder]; rfl) hstart heq

/-! ## Opening folders -/

theorem openChildDir_folder {relative : OsString} (h : disk.entries.lookup path = some .folder) :
    disk.openChildDir source path relative = .ok () := by
  rw [openChildDir, h]

theorem skip_openChildDir {relative : OsString} {error : VaultError}
    (h : disk.openChildDir source path relative = .error error) : skipChangedEntry error = true := by
  rw [openChildDir] at h
  cases hentry : disk.entries.lookup path with
  | none =>
      rw [hentry] at h
      rw [← Except.error.inj h]
      rfl
  | some entry =>
      rw [hentry] at h
      cases entry with
      | folder => contradiction
      | file content stat =>
          rw [← Except.error.inj h]
          rfl
      | link target =>
          rw [← Except.error.inj h]
          rfl
      | special =>
          rw [← Except.error.inj h]
          rfl

theorem openNames_error_or_ok {relative : OsString} (hnames : PortableNames (before ++ rest)) :
    (∃ error, disk.openNames source relative (textPath before) (rest.map utf8Bytes) = .error error ∧
      skipChangedEntry error = true) ∨
    disk.openNames source relative (textPath before) (rest.map utf8Bytes) =
      .ok (textPath (before ++ rest)) := by
  induction rest generalizing before with
  | nil =>
      right
      rw [List.append_nil]
      rfl
  | cons name rest ih =>
      have hbefore : PortableNames before := hnames.mono (List.subset_append_left _ _)
      rw [List.map_cons, openNames, joinPath_textPath hbefore]
      cases hopen : disk.openChildDir source (textPath (before ++ [name])) relative with
      | error error => exact .inl ⟨error, rfl, skip_openChildDir hopen⟩
      | ok opened =>
          rw [List.append_cons before name rest] at hnames ⊢
          exact ih hnames

theorem openNames_ok {relative : OsString} (hnames : PortableNames (before ++ rest))
    (h : ∀ above, above ≠ [] → above <+: rest →
      disk.entries.lookup (textPath (before ++ above)) = some .folder) :
    disk.openNames source relative (textPath before) (rest.map utf8Bytes) =
      .ok (textPath (before ++ rest)) := by
  induction rest generalizing before with
  | nil =>
      rw [List.append_nil]
      rfl
  | cons name rest ih =>
      have hbefore : PortableNames before := hnames.mono (List.subset_append_left _ _)
      have hfirst := h [name] (List.cons_ne_nil _ _) (List.prefix_append [name] rest)
      rw [List.map_cons, openNames, joinPath_textPath hbefore, openChildDir_folder hfirst]
      rw [List.append_cons before name rest] at hnames ⊢
      apply ih hnames
      intro above hne hstart
      rw [← List.append_cons]
      apply h (name :: above) (List.cons_ne_nil _ _)
      exact (List.prefix_cons_inj name).mpr hstart

theorem openDirExact_eq (hnames : PortableNames names) :
    disk.openDirExact source (textPath names) =
      disk.openNames source (textPath names) (textPath []) (names.map utf8Bytes) := by
  rw [openDirExact, portableNative_textPath hnames, textPath_nil]
  exact congrArg _ (nativeNames_textPath hnames)

theorem openDirExact_ok (hnames : PortableNames names)
    (h : disk.entryAt (textPath names) = some .folder) :
    disk.openDirExact source (textPath names) = .ok (textPath names) := by
  rw [openDirExact_eq hnames, @openNames_ok _ _ [] _ _ hnames, List.nil_append]
  intro above hne hstart
  rw [List.nil_append]
  have hnil : names ≠ [] := by
    intro hnil
    rw [hnil] at hstart
    exact hne (List.prefix_nil.mp hstart)
  rw [entryAt, if_neg (mt (textPath_eq_nil hnames).mp hnil)] at h
  by_cases heq : above = names
  · rw [heq]
    exact h
  · exact folder_of_start hnames (by rw [h]; rfl) hne hstart heq

/-! ## Metadata -/

theorem entryMetadataExact_of_some (hnames : PortableNames names) {entry : DiskEntry}
    (h : disk.entryAt (textPath names) = some entry) :
    disk.entryMetadataExact source (textPath names) = .ok entry := by
  rw [entryAt] at h
  rw [entryMetadataExact]
  by_cases hnil : textPath names = []
  · rw [if_pos hnil] at h ⊢
    rw [Option.some.inj h]
  · rw [if_neg hnil] at h ⊢
    rcases List.eq_nil_or_concat' names with heq | ⟨parent, name, heq⟩
    · exact absurd ((textPath_eq_nil hnames).mpr heq) hnil
    · subst heq
      have hparent : PortableNames parent := (portableNames_concat.mp hnames).1
      have hfolder : disk.entryAt (textPath parent) = some .folder := by
        rw [entryAt]
        by_cases hroot : textPath parent = []
        · rw [if_pos hroot]
        · rw [if_neg hroot]
          apply folder_of_start hnames (by rw [h]; rfl)
            (mt (textPath_eq_nil hparent).mpr hroot) (List.prefix_append _ _)
          intro heq
          have hlength := congrArg List.length heq
          rw [List.length_append, List.length_singleton] at hlength
          omega
      rw [portableNative_textPath hnames, parentPath_textPath hnames, List.dropLast_concat,
        openDirExact_ok hparent hfolder, fileName_textPath hnames, ok_bind, ok_bind]
      rw [joinPath_textPath hparent, h]
      rfl

theorem entryMetadataExact_of_none (hnames : PortableNames names)
    (h : disk.entryAt (textPath names) = none) :
    ∃ error, disk.entryMetadataExact source (textPath names) = .error error ∧
      skipChangedEntry error = true := by
  rw [entryAt] at h
  rw [entryMetadataExact]
  by_cases hnil : textPath names = []
  · rw [if_pos hnil] at h
    contradiction
  · rw [if_neg hnil] at h ⊢
    rcases List.eq_nil_or_concat' names with heq | ⟨parent, name, heq⟩
    · exact absurd ((textPath_eq_nil hnames).mpr heq) hnil
    · subst heq
      have hparent : PortableNames parent := (portableNames_concat.mp hnames).1
      rw [portableNative_textPath hnames, parentPath_textPath hnames, List.dropLast_concat,
        openDirExact_eq hparent, fileName_textPath hnames, ok_bind]
      rcases @openNames_error_or_ok source disk [] _
        (textPath parent) hparent with ⟨error, herror, hskip⟩ | hok
      · exact ⟨error, by rw [herror]; rfl, hskip⟩
      · rw [hok, List.nil_append, ok_bind, joinPath_textPath hparent, h]
        exact ⟨_, rfl, rfl⟩

/-! ## Resolution -/

theorem lookupComponent_exact {dir : OsString} {name : Text} {entry : DiskEntry}
    (h : disk.entries.lookup (joinPath dir (utf8Bytes name)) = some entry) :
    disk.lookupComponent source dir (utf8Bytes name) = .ok (some (utf8Bytes name, entry)) := by
  rw [lookupComponent, OsString.toStr, fromUtf8_utf8Bytes]
  dsimp only
  rw [h]

/-- A physical spelling is resolved to itself. -/
theorem resolveNames_self {relative : OsString} (hnames : PortableNames (before ++ rest))
    (hfolders : ∀ above, above ≠ [] → above <+: rest → above ≠ rest →
      disk.entries.lookup (textPath (before ++ above)) = some .folder)
    (hleaf : rest ≠ [] → ∃ entry, disk.entries.lookup (textPath (before ++ rest)) = some entry ∧
      entry.isLink = false) :
    disk.resolveNames source relative (textPath before) (rest.map utf8Bytes) =
      .ok (textPath (before ++ rest)) := by
  induction rest generalizing before with
  | nil =>
      rw [List.append_nil] at hnames ⊢
      rw [List.map_nil, resolveNames, portableNative_textPath hnames]
  | cons name rest ih =>
      have hbefore : PortableNames before := hnames.mono (List.subset_append_left _ _)
      have hentry : ∃ entry, disk.entries.lookup (textPath (before ++ [name])) = some entry ∧
          entry.isLink = false ∧ (rest ≠ [] → entry = .folder) := by
        by_cases hlast : rest = []
        · rw [hlast] at hleaf
          rcases hleaf (List.cons_ne_nil _ _) with ⟨entry, hlookup, hlink⟩
          exact ⟨entry, hlookup, hlink, fun hne => absurd hlast hne⟩
        · refine ⟨.folder, ?_, rfl, fun _ => rfl⟩
          apply hfolders [name] (List.cons_ne_nil _ _) (List.prefix_append [name] rest)
          intro heq
          exact hlast (List.cons.inj heq).2.symm
      rcases hentry with ⟨entry, hlookup, hlink, hfolder⟩
      rw [List.append_cons before name rest] at hnames ⊢
      have hnext : disk.resolveNames source relative (textPath (before ++ [name]))
          (rest.map utf8Bytes) = .ok (textPath (before ++ [name] ++ rest)) := by
        apply ih hnames
        · intro above hne hstart hproper
          rw [← List.append_cons]
          apply hfolders (name :: above) (List.cons_ne_nil _ _)
            ((List.prefix_cons_inj name).mpr hstart)
          intro heq
          exact hproper (List.cons.inj heq).2
        · intro hne
          rw [← List.append_cons]
          exact hleaf (List.cons_ne_nil _ _)
      rw [List.map_cons, resolveNames,
        lookupComponent_exact ((congrArg disk.entries.lookup (joinPath_textPath hbefore)).trans hlookup),
        ok_bind]
      cases entry with
      | link target => contradiction
      | folder =>
          dsimp only
          rw [joinPath_textPath hbefore, openChildDir_folder hlookup, hnext]
          by_cases hlast : (!(rest.map utf8Bytes).isEmpty) = true
          · rw [if_pos hlast]
            rfl
          · rw [if_neg hlast]
      | file content stat =>
          have hlast : rest = [] := by
            by_contra hne
            exact absurd (hfolder hne) nofun
          rw [hlast] at hnext ⊢
          dsimp only
          rw [joinPath_textPath hbefore]
          exact hnext
      | special =>
          have hlast : rest = [] := by
            by_contra hne
            exact absurd (hfolder hne) nofun
          rw [hlast] at hnext ⊢
          dsimp only
          rw [joinPath_textPath hbefore]
          exact hnext

theorem resolveExisting_self (hnames : PortableNames names) {entry : DiskEntry}
    (h : disk.entryAt (textPath names) = some entry) (hlink : entry.isLink = false) :
    disk.resolveExisting source (textPath names) = .ok (textPath names) := by
  have hlookup : names ≠ [] → disk.entries.lookup (textPath names) = some entry := by
    intro hne
    rw [entryAt, if_neg (mt (textPath_eq_nil hnames).mp hne)] at h
    exact h
  rw [resolveExisting, normalizeRelative_textPath hnames, ok_bind, nativeNames_textPath hnames,
    ← textPath_nil]
  apply @resolveNames_self _ _ []
  · exact hnames
  · intro above hne hstart hproper
    apply folder_of_start hnames _ hne hstart hproper
    rw [hlookup fun hnil => hne (List.prefix_nil.mp (hnil ▸ hstart))]
    rfl
  · intro hne
    exact ⟨entry, hlookup hne, hlink⟩

/-! ## Walks -/

theorem mem_children (hdisk : disk.Portable) (hnames : PortableNames names) {name : OsString} :
    name ∈ disk.children (textPath names) ↔
      ∃ last, PortableNames (names ++ [last]) ∧ name = utf8Bytes last ∧
        (disk.entries.lookup (textPath (names ++ [last]))).isSome := by
  rw [children, List.mem_filterMap]
  constructor
  · intro h
    rcases h with ⟨path, hpath, hname⟩
    have hsome := AList.lookup_isSome.mpr (AList.mem_keys.mpr hpath)
    rcases exists_names hdisk hsome with ⟨entryNames, hne, hentry, rfl⟩
    rcases List.eq_nil_or_concat' entryNames with heq | ⟨parent, last, heq⟩
    · exact absurd heq hne
    · subst heq
      have hparent : PortableNames parent := (portableNames_concat.mp hentry).1
      rw [parentPath_textPath hentry, List.dropLast_concat, fileName_textPath hentry] at hname
      by_cases hsame : textPath parent = textPath names
      · rw [if_pos hsame, Option.some.injEq] at hname
        rw [(textPath_inj hparent hnames).mp hsame] at hentry hsome
        exact ⟨last, hentry, hname.symm, hsome⟩
      · rw [if_neg hsame] at hname
        contradiction
  · intro h
    rcases h with ⟨last, hentry, rfl, hsome⟩
    refine ⟨_, AList.mem_keys.mp (AList.lookup_isSome.mp hsome), ?_⟩
    rw [parentPath_textPath hentry, List.dropLast_concat, fileName_textPath hentry, if_pos rfl]

/-- A regular file that is at most a number of folders below another. -/
def FileBelow (disk : Disk) (names rest : List Text) (path : OsString) : Prop :=
  rest ≠ [] ∧ VisibleNames rest ∧ PortableNames (names ++ rest) ∧ path = textPath (names ++ rest) ∧
    ∃ content stat, disk.entries.lookup path = some (.file content stat)

theorem visitEntry_eq {below : OsString → List OsString} {last : Text}
    (hlast : PortableNames (names ++ [last])) :
    disk.visitEntry source below (textPath names) (utf8Bytes last) =
      if isVisiblePath (utf8Bytes last) = true then
        match disk.entries.lookup (textPath (names ++ [last])) with
        | some (.file _ _) => [textPath (names ++ [last])]
        | some .folder => below (textPath (names ++ [last]))
        | _ => []
      else [] := by
  rw [visitEntry, joinPath_textPath (portableNames_concat.mp hlast).1,
    portableNative_textPath hlast]
  by_cases hvisible : isVisiblePath (utf8Bytes last) = true
  · exact (if_neg (by simp [hvisible])).trans (if_pos hvisible).symm
  · rw [Bool.eq_false_iff.mpr hvisible, if_pos (by decide), if_neg (by decide)]

theorem mem_walk (hdisk : disk.Portable) (depth : ℕ) (hnames : PortableNames names) :
    path ∈ disk.walk source depth (textPath names) ↔
      ∃ rest, rest.length ≤ depth ∧ disk.FileBelow names rest path := by
  induction depth generalizing names with
  | zero =>
      rw [walk]
      refine iff_of_false List.not_mem_nil ?_
      intro h
      rcases h with ⟨rest, hlength, hbelow⟩
      exact hbelow.1 (List.eq_nil_of_length_eq_zero (Nat.le_zero.mp hlength))
  | succ depth ih =>
      rw [walk, List.mem_flatMap]
      constructor
      · intro h
        rcases h with ⟨name, hname, hpath⟩
        rcases (mem_children hdisk hnames).mp hname with ⟨last, hlast, rfl, hsome⟩
        have hlastName := portableNames_concat.mp hlast
        rw [visitEntry_eq hlast] at hpath
        by_cases hvisible : isVisiblePath (utf8Bytes last) = true
        · rw [if_pos hvisible] at hpath
          have hshown := (isVisiblePath_name hlastName.2).mp hvisible
          cases hentry : disk.entries.lookup (textPath (names ++ [last])) with
          | none =>
              rw [hentry] at hsome
              contradiction
          | some entry =>
              rw [hentry] at hpath
              cases entry with
              | link target => exact absurd hpath List.not_mem_nil
              | special => exact absurd hpath List.not_mem_nil
              | file content stat =>
                  have hpath := List.mem_singleton.mp hpath
                  refine ⟨[last], Nat.succ_le_succ (Nat.zero_le _), List.cons_ne_nil _ _, ?_, hlast,
                    hpath, content, stat, ?_⟩
                  · intro name hmem
                    rw [List.mem_singleton.mp hmem]
                    exact hshown
                  · rw [hpath]
                    exact hentry
              | folder =>
                  rcases (ih hlast).mp hpath with ⟨rest, hlength, -, hrest, hbelow, hfile⟩
                  rw [← List.append_cons] at hbelow hfile
                  refine ⟨last :: rest, Nat.succ_le_succ hlength, List.cons_ne_nil _ _, ?_, hbelow,
                    hfile⟩
                  intro name hmem
                  rcases List.mem_cons.mp hmem with heq | hmem
                  · rw [heq]
                    exact hshown
                  · exact hrest name hmem
        · rw [if_neg hvisible] at hpath
          exact absurd hpath List.not_mem_nil
      · intro h
        rcases h with ⟨rest, hlength, hne, hrest, hbelow, hpath, content, stat, hfile⟩
        cases rest with
        | nil => contradiction
        | cons last rest =>
            have hlast : PortableNames (names ++ [last]) := by
              rw [List.append_cons] at hbelow
              exact hbelow.mono (List.subset_append_left _ _)
            have hshown := (isVisiblePath_name (portableNames_concat.mp hlast).2).mpr
              (hrest last List.mem_cons_self)
            rw [hpath] at hfile
            by_cases hleaf : rest = []
            · rw [hleaf] at hfile hpath
              refine ⟨utf8Bytes last, (mem_children hdisk hnames).mpr
                ⟨last, hlast, rfl, by rw [hfile]; rfl⟩, ?_⟩
              rw [visitEntry_eq hlast, if_pos hshown, hfile]
              exact List.mem_singleton.mpr hpath
            · have hfolder : disk.entries.lookup (textPath (names ++ [last])) = some .folder := by
                apply folder_of_start hbelow (by rw [hfile]; rfl) (List.append_ne_nil_of_right_ne_nil _
                  (List.cons_ne_nil _ _))
                · rw [List.append_cons names last rest]
                  exact List.prefix_append _ _
                · intro heq
                  exact hleaf (List.cons.inj (List.append_cancel_left heq)).2.symm
              refine ⟨utf8Bytes last, (mem_children hdisk hnames).mpr
                ⟨last, hlast, rfl, by rw [hfolder]; rfl⟩, ?_⟩
              rw [visitEntry_eq hlast, if_pos hshown, hfolder]
              rw [List.append_cons] at hbelow hpath hfile
              exact (ih hlast).mpr ⟨rest, Nat.le_of_succ_le_succ hlength, hleaf,
                fun name hmem => hrest name (List.mem_cons_of_mem _ hmem), hbelow, hpath, content,
                stat, by rw [hpath]; exact hfile⟩

theorem length_le_depth (hne : names ≠ []) (hnames : PortableNames names)
    (h : (disk.entries.lookup (textPath names)).isSome) : names.length ≤ disk.depth := by
  have hmem := AList.mem_keys.mp (AList.lookup_isSome.mp h)
  have hle : ∀ lengths : List ℕ, ∀ n ∈ lengths, n ≤ lengths.foldr max 0 := by
    intro lengths n hn
    induction lengths with
    | nil => exact absurd hn List.not_mem_nil
    | cons first rest ih =>
        rcases List.mem_cons.mp hn with heq | hn
        · rw [heq]
          exact le_max_left _ _
        · exact (ih hn).trans (le_max_right _ _)
  apply hle
  refine List.mem_map.mpr ⟨_, hmem, ?_⟩
  rw [pathNames_textPath hne hnames, List.length_map]

/-- A visit finds the visible regular files below a folder. -/
theorem visitFiles_eq (hdisk : disk.Portable) (hnames : PortableNames names)
    (h : disk.entryAt (textPath names) = some .folder) :
    ∃ files, disk.visitFiles source (textPath names) = .ok files ∧
      ∀ path, path ∈ files ↔ ∃ rest, disk.FileBelow names rest path := by
  refine ⟨_, by rw [visitFiles, openDirExact_ok hnames h]; rfl, ?_⟩
  intro path
  rw [mem_walk hdisk disk.depth hnames]
  constructor
  · intro hmem
    rcases hmem with ⟨rest, -, hbelow⟩
    exact ⟨rest, hbelow⟩
  · intro hmem
    rcases hmem with ⟨rest, hbelow⟩
    refine ⟨rest, ?_, hbelow⟩
    rcases hbelow with ⟨hne, -, hall, rfl, content, stat, hfile⟩
    have hlength := length_le_depth (List.append_ne_nil_of_right_ne_nil _ hne) hall
      (by rw [hfile]; rfl)
    rw [List.length_append] at hlength
    omega

/-! ## Each file once -/

theorem children_nodup (hdisk : disk.Portable) (names : List Text) :
    (disk.children (textPath names)).Nodup := by
  rw [children, List.Nodup, List.pairwise_filterMap]
  have hkey : ∀ {key name : OsString}, key ∈ disk.entries.keys →
      (if parentPath key = textPath names then some (fileName key) else none) = some name →
        key = joinPath (textPath names) name := by
    intro key name hmem hname
    rcases exists_names hdisk (AList.lookup_isSome.mpr (AList.mem_keys.mpr hmem)) with
      ⟨keyNames, hne, hkey, rfl⟩
    rcases List.eq_nil_or_concat' keyNames with heq | ⟨parent, last, heq⟩
    · exact absurd heq hne
    · subst heq
      rw [parentPath_textPath hkey, List.dropLast_concat, fileName_textPath hkey] at hname
      by_cases hsame : textPath parent = textPath names
      · rw [if_pos hsame, Option.some.injEq] at hname
        rw [← hname, ← hsame, joinPath_textPath (portableNames_concat.mp hkey).1]
      · rw [if_neg hsame] at hname
        contradiction
  apply disk.entries.keys_nodup.imp_of_mem
  intro a b ha hb hne name hname name' hname' heq
  apply hne
  rw [hkey ha hname, hkey hb hname', heq]

theorem eq_of_mem_visitEntry {depth : ℕ} (hdisk : disk.Portable) {last : Text}
    (hlast : PortableNames (names ++ [last]))
    (h : path ∈ disk.visitEntry source (disk.walk source depth) (textPath names)
      (utf8Bytes last)) :
    ∃ rest, PortableNames (names ++ last :: rest) ∧ path = textPath (names ++ last :: rest) := by
  rw [visitEntry_eq hlast] at h
  by_cases hvisible : isVisiblePath (utf8Bytes last) = true
  · rw [if_pos hvisible] at h
    cases hentry : disk.entries.lookup (textPath (names ++ [last])) with
    | none =>
        rw [hentry] at h
        exact absurd h List.not_mem_nil
    | some entry =>
        rw [hentry] at h
        cases entry with
        | link target => exact absurd h List.not_mem_nil
        | special => exact absurd h List.not_mem_nil
        | file content stat => exact ⟨[], hlast, List.mem_singleton.mp h⟩
        | folder =>
            rcases (mem_walk hdisk depth hlast).mp h with ⟨rest, -, -, -, hall, rfl, -⟩
            rw [← List.append_cons] at hall ⊢
            exact ⟨rest, hall, rfl⟩
  · rw [if_neg hvisible] at h
    exact absurd h List.not_mem_nil

theorem walk_nodup (hdisk : disk.Portable) (depth : ℕ) (hnames : PortableNames names) :
    (disk.walk source depth (textPath names)).Nodup := by
  induction depth generalizing names with
  | zero => exact List.nodup_nil
  | succ depth ih =>
      rw [walk, List.nodup_flatMap]
      constructor
      · intro name hname
        rcases (mem_children hdisk hnames).mp hname with ⟨last, hlast, rfl, -⟩
        rw [visitEntry_eq hlast]
        by_cases hvisible : isVisiblePath (utf8Bytes last) = true
        · rw [if_pos hvisible]
          cases disk.entries.lookup (textPath (names ++ [last])) with
          | none => exact List.nodup_nil
          | some entry =>
              cases entry with
              | link target => exact List.nodup_nil
              | special => exact List.nodup_nil
              | file content stat => exact List.nodup_singleton _
              | folder => exact ih hlast
        · rw [if_neg hvisible]
          exact List.nodup_nil
      · apply (children_nodup hdisk names).imp_of_mem
        intro a b ha hb hne
        rw [Function.onFun, List.disjoint_left]
        intro q hqa hqb
        rcases (mem_children hdisk hnames).mp ha with ⟨last, hlast, rfl, -⟩
        rcases (mem_children hdisk hnames).mp hb with ⟨last', hlast', rfl, -⟩
        rcases eq_of_mem_visitEntry hdisk hlast hqa with ⟨rest, hall, hq⟩
        rcases eq_of_mem_visitEntry hdisk hlast' hqb with ⟨rest', hall', hq'⟩
        have heq := (textPath_inj hall hall').mp (hq.symm.trans hq')
        exact hne (congrArg utf8Bytes (List.cons.inj (List.append_cancel_left heq)).1)

/-- A cold build is given each visible regular file once. -/
theorem files_spec (hdisk : disk.Portable) :
    ((disk.files source).map VaultIndex.VaultFile.path).Nodup ∧
      ∀ file, file ∈ disk.files source ↔ disk.fileAt file.path = some file := by
  constructor
  · rw [files, List.Nodup, List.pairwise_map, List.pairwise_filterMap, ← textPath_nil]
    apply (walk_nodup hdisk disk.depth fun name hname => absurd hname List.not_mem_nil).imp
    intro a b hne file hfile file' hfile' heq
    rw [path_of_fileAt hfile, path_of_fileAt hfile'] at heq
    exact hne heq
  · intro file
    rw [files, List.mem_filterMap, ← textPath_nil]
    constructor
    · intro h
      rcases h with ⟨path, -, hfile⟩
      rw [path_of_fileAt hfile]
      exact hfile
    · intro h
      refine ⟨file.path, ?_, h⟩
      rcases fileAt_isSome hdisk (by rw [h]; rfl) with
        ⟨names, content, stat, hne, hnames, hvisible, hpath, hentry⟩
      apply (mem_walk hdisk disk.depth fun name hname => absurd hname List.not_mem_nil).mpr
      refine ⟨names, ?_, hne, hvisible, hnames, hpath, content, stat, hentry⟩
      rw [hpath] at hentry
      exact length_le_depth hne hnames (by rw [hentry]; rfl)

end ObsidianMcp.Disk
