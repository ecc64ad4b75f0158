import ObsidianMcp.Model.Watcher
import ObsidianMcp.Verification.Index.Observations

/-! # Portable paths

A portable path is a list of names that every platform spells alike. -/

namespace ObsidianMcp

open Text

/-- A name without separators that stands for an entry. -/
structure PortableName (name : Text) : Prop where
  ne_nil : name ≠ []
  ne_curDir : name ≠ ['.']
  ne_parentDir : name ≠ ['.', '.']
  slash : '/' ∉ name
  backslash : '\\' ∉ name

def PortableNames (names : List Text) : Prop :=
  ∀ name ∈ names, PortableName name

/-- The path with these names. -/
def textPath (names : List Text) : OsString :=
  utf8Bytes (List.intercalate ['/'] names)

/-- A path of portable names; the vault itself has none. -/
def Portable (path : OsString) : Prop :=
  ∃ names, PortableNames names ∧ path = textPath names

variable {names names' : List Text} {name : Text}

theorem PortableNames.mono (h : PortableNames names) (hsub : names' ⊆ names) :
    PortableNames names' :=
  fun name hname => h name (hsub hname)

theorem portableNames_concat :
    PortableNames (names ++ [name]) ↔ PortableNames names ∧ PortableName name := by
  rw [PortableNames, List.forall_mem_append, List.forall_mem_singleton]
  rfl

/-! ## Spelling -/

theorem utf8Bytes_append (s t : Text) : utf8Bytes (s ++ t) = utf8Bytes s ++ utf8Bytes t :=
  List.flatMap_append

theorem utf8Bytes_injective : Function.Injective utf8Bytes := by
  intro s t h
  have hread := congrArg fromUtf8 h
  rwa [fromUtf8_utf8Bytes, fromUtf8_utf8Bytes, Option.some.injEq] at hread

theorem utf8Bytes_eq_nil {t : Text} : utf8Bytes t = [] ↔ t = [] := by
  constructor
  · intro h
    exact utf8Bytes_injective (h.trans List.flatMap_nil.symm)
  · intro h
    rw [h]
    exact List.flatMap_nil

theorem utf8Bytes_slash : utf8Bytes ['/'] = [0x2F] := by decide

/-- The separator is no part of a longer character. -/
theorem eq_slash_of_mem_encode {c : Char} (h : 0x2F ∈ String.utf8EncodeChar c) : c = '/' := by
  have hbyte : ∀ n : ℕ, (0x2F : UInt8) = UInt8.ofNat n → n % 256 = 47 := by
    intro n hn
    have hnat := congrArg UInt8.toNat hn
    rw [UInt8.toNat_ofNat'] at hnat
    exact hnat.symm
  unfold String.utf8EncodeChar at h
  dsimp only at h
  by_cases h1 : c.val.toNat ≤ 127
  · rw [if_pos h1, List.mem_singleton] at h
    have hval := hbyte _ h
    apply Char.ext
    apply UInt32.toNat_inj.mp
    rw [Nat.mod_eq_of_lt (by omega)] at hval
    exact hval
  · rw [if_neg h1] at h
    by_cases h2 : c.val.toNat ≤ 2047
    · rw [if_pos h2] at h
      simp only [List.mem_cons, List.not_mem_nil, or_false] at h
      rcases h with h | h
      · have hval := hbyte _ h
        omega
      · have hval := hbyte _ h
        omega
    · rw [if_neg h2] at h
      by_cases h3 : c.val.toNat ≤ 65535
      · rw [if_pos h3] at h
        simp only [List.mem_cons, List.not_mem_nil, or_false] at h
        rcases h with h | h | h
        · have hval := hbyte _ h
          omega
        · have hval := hbyte _ h
          omega
        · have hval := hbyte _ h
          omega
      · rw [if_neg h3] at h
        simp only [List.mem_cons, List.not_mem_nil, or_false] at h
        rcases h with h | h | h | h
        · have hval := hbyte _ h
          omega
        · have hval := hbyte _ h
          omega
        · have hval := hbyte _ h
          omega
        · have hval := hbyte _ h
          omega

theorem slash_notMem_utf8Bytes (h : '/' ∉ name) : 0x2F ∉ utf8Bytes name := by
  intro hmem
  rcases List.mem_flatMap.mp hmem with ⟨c, hc, hslash⟩
  rw [eq_slash_of_mem_encode hslash] at hc
  exact h hc

theorem intercalate_concat {α : Type*} (sep : List α) {parts : List (List α)} (part : List α)
    (h : parts ≠ []) : sep.intercalate (parts ++ [part]) = sep.intercalate parts ++ sep ++ part := by
  induction parts with
  | nil => contradiction
  | cons first rest ih =>
      cases rest with
      | nil =>
          rw [List.singleton_append, List.intercalate_cons_cons, List.intercalate_singleton,
            List.intercalate_singleton]
      | cons second rest =>
          rw [List.cons_append, List.cons_append, List.intercalate_cons_cons, ← List.cons_append,
            ih (List.cons_ne_nil _ _), List.intercalate_cons_cons]
          simp only [List.append_assoc]

theorem textPath_eq_joinNames (names : List Text) :
    textPath names = joinNames (names.map utf8Bytes) := by
  induction names with
  | nil => rfl
  | cons first rest ih =>
      cases rest with
      | nil => rw [textPath, joinNames, List.map_singleton, List.intercalate_singleton,
          List.intercalate_singleton]
      | cons second rest =>
          rw [textPath, List.intercalate_cons_cons, utf8Bytes_append, utf8Bytes_append,
            utf8Bytes_slash, joinNames, List.map_cons, List.map_cons, List.intercalate_cons_cons,
            ← List.map_cons]
          exact congrArg (utf8Bytes first ++ [0x2F] ++ ·) ih

theorem textPath_nil : textPath [] = [] := by decide

theorem toStr_textPath (names : List Text) :
    (textPath names).toStr = some (List.intercalate ['/'] names) :=
  fromUtf8_utf8Bytes _

theorem pathNames_textPath (hne : names ≠ []) (h : PortableNames names) :
    pathNames (textPath names) = names.map utf8Bytes := by
  rw [textPath_eq_joinNames, pathNames, joinNames, List.splitOn_intercalate]
  · intro part hpart
    rcases List.mem_map.mp hpart with ⟨name, hname, rfl⟩
    exact slash_notMem_utf8Bytes (h name hname).slash
  · intro hnil
    exact hne (List.map_eq_nil_iff.mp hnil)

theorem nativeNames_textPath (h : PortableNames names) :
    nativeNames (textPath names) = names.map utf8Bytes := by
  by_cases hne : names = []
  · rw [hne, textPath_nil]
    rfl
  · rw [nativeNames, pathNames_textPath hne h, List.filter_eq_self]
    intro part hpart
    rcases List.mem_map.mp hpart with ⟨name, hname, rfl⟩
    rw [Bool.not_eq_true', List.isEmpty_eq_false_iff]
    exact mt utf8Bytes_eq_nil.mp (h name hname).ne_nil

theorem textPath_inj (h : PortableNames names) (h' : PortableNames names') :
    textPath names = textPath names' ↔ names = names' := by
  constructor
  · intro heq
    have hnames := congrArg nativeNames heq
    rw [nativeNames_textPath h, nativeNames_textPath h'] at hnames
    exact List.map_injective_iff.mpr utf8Bytes_injective hnames
  · intro heq
    rw [heq]

theorem textPath_eq_nil (h : PortableNames names) : textPath names = [] ↔ names = [] := by
  rw [← textPath_nil]
  exact textPath_inj h fun name hname => absurd hname List.not_mem_nil

theorem parentPath_textPath (h : PortableNames names) :
    parentPath (textPath names) = textPath names.dropLast := by
  rw [parentPath, nativeNames_textPath h, ← List.map_dropLast, textPath_eq_joinNames]

theorem fileName_textPath (h : PortableNames (names ++ [name])) :
    fileName (textPath (names ++ [name])) = utf8Bytes name := by
  rw [fileName, nativeNames_textPath h, List.map_append, List.map_singleton, List.getLast?_concat,
    Option.getD_some]

theorem joinPath_textPath (h : PortableNames names) :
    joinPath (textPath names) (utf8Bytes name) = textPath (names ++ [name]) := by
  by_cases hne : names = []
  · rw [hne, joinPath, if_pos textPath_nil, List.nil_append, textPath, List.intercalate_singleton]
  · rw [joinPath, if_neg (mt (textPath_eq_nil h).mp hne), textPath, textPath,
      intercalate_concat _ _ hne, utf8Bytes_append, utf8Bytes_append, utf8Bytes_slash,
      List.append_assoc, List.singleton_append]

theorem startsWith_textPath (h : PortableNames names) (h' : PortableNames names') :
    startsWith (textPath names) (textPath names') = true ↔ names' <+: names := by
  rw [startsWith, nativeNames_textPath h, nativeNames_textPath h', List.isPrefixOf_iff_prefix]
  constructor
  · intro hstart
    rw [List.prefix_iff_eq_take, List.length_map, ← List.map_take] at hstart
    rw [List.prefix_iff_eq_take]
    exact List.map_injective_iff.mpr utf8Bytes_injective hstart
  · intro hstart
    exact hstart.map utf8Bytes

theorem startsWith_self {path : OsString} (h : Portable path) : startsWith path path = true := by
  rcases h with ⟨names, hnames, rfl⟩
  exact (startsWith_textPath hnames hnames).mpr List.prefix_rfl

/-! ## Checks -/

variable {source : NoteSource}

theorem utf8Bytes_curDir : utf8Bytes ['.'] = curDirName := by decide

theorem utf8Bytes_parentDir : utf8Bytes ['.', '.'] = parentDirName := by decide

theorem head?_textPath_ne (h : PortableNames names) : (textPath names).head? ≠ some 0x2F := by
  intro hhead
  cases names with
  | nil =>
      rw [textPath_nil] at hhead
      contradiction
  | cons first rest =>
      have hfirst := h first List.mem_cons_self
      have hslash := slash_notMem_utf8Bytes hfirst.slash
      have hne := mt utf8Bytes_eq_nil.mp hfirst.ne_nil
      cases hbytes : utf8Bytes first with
      | nil => exact hne hbytes
      | cons byte bytes =>
          rw [hbytes, List.mem_cons, not_or] at hslash
          cases rest with
          | nil =>
              rw [textPath, List.intercalate_singleton, hbytes, List.head?_cons,
                Option.some.injEq] at hhead
              exact hslash.1 hhead.symm
          | cons second rest =>
              rw [textPath, List.intercalate_cons_cons, utf8Bytes_append, utf8Bytes_append, hbytes,
                List.cons_append, List.cons_append, List.head?_cons, Option.some.injEq] at hhead
              exact hslash.1 hhead.symm

theorem components_textPath (h : PortableNames names) :
    components (textPath names) = names.map fun name => .normal (utf8Bytes name) := by
  by_cases hne : names = []
  · rw [hne, textPath_nil]
    rfl
  · have hnames : ∀ name ∈ names, utf8Bytes name ≠ [] ∧ utf8Bytes name ≠ curDirName ∧
        utf8Bytes name ≠ parentDirName := by
      intro name hname
      have hportable := h name hname
      refine ⟨mt utf8Bytes_eq_nil.mp hportable.ne_nil, ?_, ?_⟩
      · rw [← utf8Bytes_curDir]
        exact fun heq => hportable.ne_curDir (utf8Bytes_injective heq)
      · rw [← utf8Bytes_parentDir]
        exact fun heq => hportable.ne_parentDir (utf8Bytes_injective heq)
    have hstart : (names.map utf8Bytes).head? ≠ some curDirName := by
      intro hhead
      rcases List.mem_map.mp (List.mem_of_mem_head? hhead) with ⟨name, hname, heq⟩
      exact (hnames name hname).2.1 heq
    rw [components, pathNames_textPath hne h]
    rw [if_neg (head?_textPath_ne h), if_neg hstart, List.nil_append, List.filterMap_map,
      ← List.filterMap_eq_map]
    apply List.filterMap_congr
    intro name hname
    have hname := hnames name hname
    rw [Function.comp_apply, if_neg (not_or.mpr ⟨hname.1, hname.2.1⟩), if_neg hname.2.2]
    rfl

theorem portableNative_textPath (h : PortableNames names) :
    portableNative source (textPath names) = .ok (textPath names) := by
  have hmap : ∀ path, (names.map fun name => Component.normal (utf8Bytes name)).mapM
      (portableName source path) = .ok (names.map utf8Bytes) := by
    intro path
    induction names with
    | nil => rfl
    | cons first rest ih =>
        have hfirst : portableName source path (.normal (utf8Bytes first)) =
            .ok (utf8Bytes first) := by
          rw [portableName, OsString.toStr, fromUtf8_utf8Bytes, Option.any_some]
          exact if_pos (decide_eq_true (h first List.mem_cons_self).backslash)
        rw [List.map_cons, List.mapM_cons, hfirst, ih (h.mono (List.subset_cons_self _ _))]
        rfl
  rw [portableNative, components_textPath h, hmap, textPath_eq_joinNames]
  rfl

theorem backslash_notMem_intercalate (h : PortableNames names) :
    '\\' ∉ List.intercalate ['/'] names := by
  induction names with
  | nil => exact List.not_mem_nil
  | cons first rest ih =>
      have hfirst := (h first List.mem_cons_self).backslash
      have hrest := ih (h.mono (List.subset_cons_self _ _))
      cases rest with
      | nil => rwa [List.intercalate_singleton]
      | cons second rest =>
          rw [List.intercalate_cons_cons, List.mem_append, List.mem_append, not_or, not_or]
          exact ⟨⟨hfirst, by decide⟩, hrest⟩

theorem foldlM_pushName (h : PortableNames names) (before : List Text) :
    names.foldlM VaultPath.pushName before = some (before ++ names) := by
  induction names generalizing before with
  | nil => rw [List.append_nil]; rfl
  | cons first rest ih =>
      have hfirst := h first List.mem_cons_self
      have hpush : VaultPath.pushName before first = some (before ++ [first]) := by
        rw [VaultPath.pushName, if_neg (not_or.mpr ⟨hfirst.ne_nil, hfirst.ne_curDir⟩),
          if_neg hfirst.ne_parentDir]
      rw [List.foldlM_cons, hpush, Option.bind_eq_bind, Option.bind_some,
        ih (h.mono (List.subset_cons_self _ _)), List.append_assoc, List.singleton_append]

theorem head?_intercalate_ne (h : PortableNames names) :
    (List.intercalate ['/'] names).head? ≠ some '/' := by
  intro hhead
  apply head?_textPath_ne h
  cases hjoined : List.intercalate ['/'] names with
  | nil =>
      rw [hjoined] at hhead
      contradiction
  | cons c rest =>
      rw [hjoined, List.head?_cons, Option.some.injEq] at hhead
      rw [textPath, hjoined, hhead, ← List.singleton_append, utf8Bytes_append, utf8Bytes_slash]
      rfl

theorem splitOn_intercalate_names (h : PortableNames names) (hne : names ≠ []) :
    (List.intercalate ['/'] names).splitOn '/' = names :=
  List.splitOn_intercalate '/' (fun name hname => (h name hname).slash) hne

theorem normalizeRelative_textPath (h : PortableNames names) :
    normalizeRelative (textPath names) = .ok (textPath names) := by
  have hsame : (List.intercalate ['/'] names).map (fun c => if c = '\\' then '/' else c) =
      List.intercalate ['/'] names := by
    refine (List.map_congr_left ?_).trans (List.map_id _)
    intro c hc
    exact if_neg fun heq : c = '\\' => backslash_notMem_intercalate h (heq ▸ hc)
  rw [normalizeRelative, toStr_textPath]
  dsimp only
  rw [hsame, if_neg (head?_intercalate_ne h)]
  by_cases hne : names = []
  · rw [hne]
    rfl
  · rw [splitOn_intercalate_names h hne, foldlM_pushName h]
    rfl

/-! ## Visibility -/

/-- No name is hidden. -/
def VisibleNames (names : List Text) : Prop :=
  ∀ name ∈ names, name.head? ≠ some '.'

theorem splitOnP_separators (h : PortableNames names) (hne : names ≠ []) :
    (List.intercalate ['/'] names).splitOnP (fun c => c = '/' || c = '\\') = names := by
  induction names with
  | nil => contradiction
  | cons first rest ih =>
      have hfirst := h first List.mem_cons_self
      have hseparators : ∀ c ∈ first, (decide (c = '/') || decide (c = '\\')) = false := by
        intro c hc
        rw [Bool.or_eq_false_iff, decide_eq_false_iff_not, decide_eq_false_iff_not]
        exact ⟨fun heq => hfirst.slash (heq ▸ hc), fun heq => hfirst.backslash (heq ▸ hc)⟩
      cases rest with
      | nil => rw [List.intercalate_singleton, List.splitOnP_eq_singleton hseparators]
      | cons second rest =>
          rw [List.intercalate_cons_cons, List.append_assoc, List.singleton_append,
            List.splitOnP_append_cons_of_forall_mem hseparators '/' (by decide),
            ih (h.mono (List.subset_cons_self _ _)) (List.cons_ne_nil _ _)]

theorem isVisiblePath_textPath (h : PortableNames names) :
    isVisiblePath (textPath names) = true ↔ VisibleNames names := by
  rw [isVisiblePath, toStr_textPath, Option.any_some]
  by_cases hne : names = []
  · rw [hne]
    exact iff_of_true rfl fun name hname => absurd hname List.not_mem_nil
  · rw [splitOnP_separators h hne, List.all_eq_true]
    simp only [decide_eq_true_eq]
    rfl

theorem isVisiblePath_name (h : PortableName name) :
    isVisiblePath (utf8Bytes name) = true ↔ name.head? ≠ some '.' := by
  have hone : PortableNames [name] := by
    intro other hother
    rw [List.mem_singleton.mp hother]
    exact h
  have hvisible := isVisiblePath_textPath hone
  rw [textPath, List.intercalate_singleton] at hvisible
  rw [hvisible, VisibleNames, List.forall_mem_singleton]

theorem plain_textPath (h : PortableNames names) (hvisible : VisibleNames names) :
    VaultIndex.Plain (textPath names) := by
  refine ⟨(isVisiblePath_textPath h).mpr hvisible, ?_⟩
  intro text htext
  rw [toStr_textPath, Option.some.injEq] at htext
  rw [← htext]
  exact backslash_notMem_intercalate h

theorem logicalSeparators_textPath (h : PortableNames names) :
    logicalSeparators (textPath names) = textPath names := by
  rw [logicalSeparators, toStr_textPath]
  exact if_neg (backslash_notMem_intercalate h)

/-! ## Prefixes and folded keys -/

theorem mem_pathPrefixes (h : PortableNames names) {path : OsString} :
    path ∈ pathPrefixes (textPath names) ↔
      ∃ above, above ≠ [] ∧ above <+: names ∧ path = textPath above := by
  by_cases hnil : names = []
  · have hnone : pathPrefixes [] = [] := by decide
    rw [hnil, textPath_nil, hnone]
    constructor
    · intro hmem
      exact absurd hmem List.not_mem_nil
    · intro hmem
      rcases hmem with ⟨above, hne, hstart, -⟩
      exact absurd (List.prefix_nil.mp hstart) hne
  · rw [pathPrefixes, pathNames_textPath hnil h, List.mem_filter, List.mem_map,
      Bool.not_eq_true', List.isEmpty_eq_false_iff]
    constructor
    · intro hmem
      rcases hmem with ⟨⟨parts, hparts, rfl⟩, hne⟩
      rw [List.mem_reverse, List.mem_inits, List.prefix_iff_eq_take, ← List.map_take] at hparts
      rw [hparts, ← textPath_eq_joinNames] at hne ⊢
      refine ⟨_, ?_, List.take_prefix _ _, rfl⟩
      intro hnil
      exact hne ((congrArg textPath hnil).trans textPath_nil)
    · intro hmem
      rcases hmem with ⟨above, hne, hstart, rfl⟩
      refine ⟨⟨above.map utf8Bytes, ?_, (textPath_eq_joinNames above).symm⟩, ?_⟩
      · rw [List.mem_reverse, List.mem_inits]
        exact hstart.map utf8Bytes
      · exact mt (textPath_eq_nil (h.mono hstart.subset)).mp hne

/-- The folded key of a name. -/
def foldedName (source : NoteSource) (name : Text) : Text :=
  (source.text.nfc name).flatMap source.upper

theorem foldedPath_textPath (names : List Text) :
    foldedPath source (textPath names) = List.intercalate ['/'] (names.map (foldedName source)) := by
  have hjoined : foldedPath source (textPath names) =
      foldedName source (List.intercalate ['/'] names) := by
    rw [foldedPath, PathText.toStringLossy, toStr_textPath, Option.getD_some, foldedName]
  rw [hjoined]
  clear hjoined
  induction names with
  | nil =>
      rw [List.map_nil, List.intercalate_nil, foldedName, (source.text.nfc_eq_nil []).mpr rfl]
      rfl
  | cons first rest ih =>
      cases rest with
      | nil => rw [List.map_singleton, List.intercalate_singleton, List.intercalate_singleton]
      | cons second rest =>
          rw [List.intercalate_cons_cons, List.map_cons, List.map_cons, List.intercalate_cons_cons,
            ← List.map_cons, ← ih, List.append_assoc, List.singleton_append, foldedName,
            source.text.nfc_slash, List.flatMap_append, List.flatMap_cons, source.upper_slash,
            List.append_assoc]
          rfl

theorem splitOn_intercalate_cons (parts : List Text) (part : Text) :
    ∃ tail, (List.intercalate ['/'] (part :: parts)).splitOn '/' = part.splitOn '/' ++ tail ∧
      tail = parts.flatMap fun part => part.splitOn '/' := by
  induction parts generalizing part with
  | nil => exact ⟨[], by rw [List.intercalate_singleton, List.append_nil], rfl⟩
  | cons second rest ih =>
      rcases ih second with ⟨tail, hsplit, htail⟩
      refine ⟨second.splitOn '/' ++ tail, ?_, ?_⟩
      · rw [List.intercalate_cons_cons, List.append_assoc, List.singleton_append,
          List.splitOn_append_cons_self, hsplit]
      · rw [htail, List.flatMap_cons]

/-- The key of a path starts with the keys of the folders above it. -/
theorem startsWithKey_of_start (h : names' <+: names) :
    startsWithKey (foldedPath source (textPath names)) (foldedPath source (textPath names')) =
      true := by
  rw [foldedPath_textPath, foldedPath_textPath, startsWithKey]
  rcases h with ⟨rest, rfl⟩
  cases names' with
  | nil => rfl
  | cons first above =>
      rcases splitOn_intercalate_cons (above.map (foldedName source)) (foldedName source first) with
        ⟨tail, hsplit, htail⟩
      rcases splitOn_intercalate_cons ((above ++ rest).map (foldedName source))
        (foldedName source first) with ⟨tail', hsplit', htail'⟩
      rw [List.cons_append, List.map_cons, List.map_cons, hsplit, hsplit', htail, htail',
        List.map_append, List.flatMap_append, Bool.or_eq_true, List.isPrefixOf_iff_prefix]
      right
      rw [← List.append_assoc]
      exact List.prefix_append _ _

end ObsidianMcp
