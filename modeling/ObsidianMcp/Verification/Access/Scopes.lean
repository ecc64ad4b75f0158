import ObsidianMcp.Model.Access

/-! # Read scopes

A grant admits its file, or what lies below its folder name by name. -/

namespace ObsidianMcp

open Text

variable {scope : ReadScope} {now : ℚ} {path : OsString} {allowed text : Text}

/-! ## Statements -/

/-- A path that spells visible names. -/
structure CleanPath (text : Text) : Prop where
  names : ∀ name ∈ text.splitOn '/', name ≠ [] ∧ name.head? ≠ some '.'
  backslash : '\\' ∉ text
  nul : '\x00' ∉ text

/-- A grant of a file admits that file, and a grant of a folder what is strictly below it. -/
def Grants (allowed text : Text) : Prop :=
  allowed.getLast? ≠ some '/' ∧ text = allowed ∨
    ∃ folder below, allowed = folder ++ ['/'] ∧ below ≠ [] ∧
      text.splitOn '/' = folder.splitOn '/' ++ below

/-! ## Clean paths -/

theorem isName_of_visible {name : Text} (hne : name ≠ []) (hhead : name.head? ≠ some '.') :
    Unix.IsName '.' name where
  ne_nil := hne
  ne_curDir := by
    rintro rfl
    simp at hhead
  ne_parentDir := by
    rintro rfl
    simp at hhead

theorem CleanPath.plainly (h : CleanPath text) : Unix.Plainly '/' '.' text := by
  intro name hname
  obtain ⟨hne, hhead⟩ := h.names name hname
  exact isName_of_visible hne hhead

theorem not_clean_of_double {s t : Text} : ¬CleanPath (s ++ '/' :: '/' :: t) := by
  intro h
  have hmem : [] ∈ (s ++ '/' :: '/' :: t).splitOn '/' := by
    rw [Unix.splitOn_append_sep, show '/' :: t = [] ++ '/' :: t from rfl, Unix.splitOn_append_sep]
    simp
  exact (h.names [] hmem).1 rfl

theorem normalizedText_iff : normalizedText text = true ↔ CleanPath text := by
  constructor
  · intro h
    simp only [normalizedText, Bool.and_eq_true, decide_eq_true_eq, Bool.not_eq_true',
      List.any_eq_false, Bool.or_eq_true, not_or] at h
    obtain ⟨⟨⟨⟨⟨-, hback⟩, hnul⟩, -⟩, hnames⟩, -⟩ := h
    refine ⟨?_, hback, hnul⟩
    intro name hname
    obtain ⟨hne, hhead⟩ := hnames name hname
    exact ⟨by simpa using hne, hhead⟩
  · intro h
    have hdouble : ¬"//".toList <:+: text := by
      rintro ⟨s, t, rfl⟩
      apply not_clean_of_double (s := s) (t := t)
      simpa using h
    simp only [normalizedText, h.plainly.components, Bool.and_eq_true, decide_eq_true_eq,
      Bool.not_eq_true', List.any_eq_false, Bool.or_eq_true, not_or]
    refine ⟨⟨⟨⟨⟨?_, h.backslash⟩, h.nul⟩, by simpa using hdouble⟩, ?_⟩, ?_⟩
    · simpa using h.plainly.ne_nil
    · intro name hname
      simpa using h.names name hname
    · simp [Unix.Component.isNormal]

theorem normalized_iff : normalized path = true ↔ ∃ text, path = utf8Bytes text ∧ CleanPath text := by
  simp [normalized, OsString.toStr, Option.any_eq_true, fromUtf8_eq_some, normalizedText_iff]

/-! ## Grants -/

/-- What a folder's prefix begins lies below the folder. -/
theorem folder_prefix_iff {folder : Text} :
    folder ++ ['/'] <+: text ↔
      ∃ below, below ≠ [] ∧ text.splitOn '/' = folder.splitOn '/' ++ below := by
  constructor
  · rintro ⟨rest, rfl⟩
    refine ⟨rest.splitOn '/', List.splitOn_ne_nil _ _, ?_⟩
    rw [List.append_assoc, List.singleton_append, Unix.splitOn_append_sep]
  · rintro ⟨below, hne, hsplit⟩
    have hbelow : ∀ name ∈ below, '/' ∉ name := by
      intro name hname
      apply not_mem_of_mem_splitOn (t := text)
      simp [hsplit, hname]
    refine ⟨List.intercalate ['/'] below, ?_⟩
    apply @Unix.splitOn_injective _ _ '/'
    rw [List.append_assoc, List.singleton_append, Unix.splitOn_append_sep, hsplit,
      List.splitOn_intercalate '/' hbelow hne]

theorem grants_iff :
    (if allowed.getLast? = some '/' then allowed.isPrefixOf text else decide (text = allowed)) =
      true ↔ Grants allowed text := by
  by_cases hlast : allowed.getLast? = some '/'
  · obtain ⟨folder, rfl⟩ := List.getLast?_eq_some_iff.mp hlast
    rw [if_pos hlast, List.isPrefixOf_iff_prefix, folder_prefix_iff, Grants]
    constructor
    · rintro ⟨below, hne, hsplit⟩
      exact .inr ⟨folder, below, rfl, hne, hsplit⟩
    · rintro (⟨hfile, -⟩ | ⟨other, below, heq, hne, hsplit⟩)
      · exact absurd hlast hfile
      · rw [List.append_cancel_right heq]
        exact ⟨below, hne, hsplit⟩
  · rw [if_neg hlast, decide_eq_true_eq, Grants]
    constructor
    · exact fun heq => .inl ⟨hlast, heq⟩
    · rintro (⟨-, heq⟩ | ⟨folder, below, rfl, -⟩)
      · exact heq
      · simp at hlast

/-- The paths that a scope admits. -/
theorem allowsPath_iff : scope.allowsPath path = true ↔
    ∃ text, path = utf8Bytes text ∧ CleanPath text ∧
      ∃ allowed ∈ scope.allowedPrefixes, Grants allowed text := by
  rw [ReadScope.allowsPath, Bool.and_eq_true, normalized_iff]
  constructor
  · rintro ⟨⟨text, rfl, hclean⟩, hany⟩
    simp only [OsString.toStr, fromUtf8_utf8Bytes, Option.any_some, List.any_eq_true] at hany
    obtain ⟨allowed, hmem, hallowed⟩ := hany
    exact ⟨text, rfl, hclean, allowed, hmem, grants_iff.mp hallowed⟩
  · rintro ⟨text, rfl, hclean, allowed, hmem, hallowed⟩
    refine ⟨⟨text, rfl, hclean⟩, ?_⟩
    simp only [OsString.toStr, fromUtf8_utf8Bytes, Option.any_some, List.any_eq_true]
    exact ⟨allowed, hmem, grants_iff.mpr hallowed⟩

/-! ## Valid prefixes -/

def rootNames : List Text :=
  ["Capture".toList, "Organize".toList, "Distill".toList, "Express".toList]

/-- A path in the namespace of a scope. -/
structure InScope (scope : ReadScope) (text : Text) : Prop where
  first : ∃ first ∈ rootNames, (text.splitOn '/').head? = some first ∧
    (scope.purpose = "conversation".toList → first ≠ "Capture".toList)
  scopeId : scope.scopeId ∈ text.splitOn '/'

theorem trimEndMatches_of_getLast?_ne {c : Char} {t : Text} (h : t.getLast? ≠ some c) :
    trimEndMatches c t = t := by
  rw [trimEndMatches, List.rdropWhile_eq_self_iff]
  intro hne
  simpa [List.getLast?_eq_some_getLast hne] using h

/-- The first name of a longer path is a folder. -/
theorem folder_prefix_of_head {first : Text} {rest : List Text}
    (hsplit : text.splitOn '/' = first :: rest) (hne : rest ≠ []) : first ++ ['/'] <+: text := by
  rw [folder_prefix_iff]
  refine ⟨rest, hne, ?_⟩
  have hfirst : '/' ∉ first := not_mem_of_mem_splitOn (t := text) (by simp [hsplit])
  rw [List.splitOn_eq_singleton hfirst, hsplit]
  rfl

/-- What `validate` checks of a prefix. -/
structure ValidPrefix (scope : ReadScope) (allowed path : Text) : Prop where
  clean : CleanPath path
  kind : allowed.getLast? = some '/' ∨ ".md".toList <:+ allowed
  scopeId : scope.scopeId ∈ path.splitOn '/'
  first : ∃ first ∈ rootNames, (path.splitOn '/').head? = some first
  capture : scope.purpose = "conversation".toList → ¬"Capture/".toList <+: allowed

theorem validPrefix_of_not_refused (h : scope.refusesPrefix allowed = false) :
    ValidPrefix scope allowed (trimEndMatches '/' allowed) := by
  rw [ReadScope.refusesPrefix] at h
  simp only [Bool.or_eq_false_iff, Bool.not_eq_false'] at h
  obtain ⟨⟨⟨⟨hclean, hkind⟩, hscope⟩, hfirst⟩, hcapture⟩ := h
  rw [normalizedText_iff] at hclean
  have hparts : (Unix.components '/' '.' (trimEndMatches '/' allowed)).map (Unix.Component.asOsStr '/' '.') =
      (trimEndMatches '/' allowed).splitOn '/' := by
    rw [hclean.plainly.components, List.map_map]
    exact List.map_id _
  rw [hparts] at hscope hfirst
  obtain ⟨first, hhead, hroot⟩ := (Option.any_eq_true _ _).mp hfirst
  refine ⟨hclean, ?_, by simpa using hscope, ⟨first, by simpa [rootNames] using hroot, hhead⟩, ?_⟩
  · by_cases hlast : allowed.getLast? = some '/'
    · exact .inl hlast
    · right
      simpa [hlast, List.isSuffixOf_iff_suffix] using hkind
  · intro hconversation hstart
    rw [List.isPrefixOf_iff_prefix.mpr hstart, Bool.true_and, decide_eq_false_iff_not] at hcapture
    exact hcapture hconversation

theorem ValidPrefix.inScope_file (h : ValidPrefix scope text text) (hlast : text.getLast? ≠ some '/') :
    InScope scope text := by
  obtain ⟨first, hroot, hhead⟩ := h.first
  refine ⟨⟨first, hroot, hhead, ?_⟩, h.scopeId⟩
  rintro hconversation rfl
  obtain ⟨rest, hsplit⟩ := List.head?_eq_some_iff.mp hhead
  by_cases hne : rest = []
  · -- a file called `Capture` is no note
    have heq := @List.intercalate_splitOn _ text _ _ '/'
    rw [hsplit, hne, List.intercalate_singleton] at heq
    have hsuffix := h.kind.resolve_left hlast
    rw [← heq] at hsuffix
    exact absurd hsuffix (by decide)
  · exact h.capture hconversation (folder_prefix_of_head hsplit hne)

theorem ValidPrefix.inScope_folder {folder : Text} {below : List Text}
    (h : ValidPrefix scope (folder ++ ['/']) folder)
    (hsplit : text.splitOn '/' = folder.splitOn '/' ++ below) : InScope scope text := by
  obtain ⟨first, hroot, hhead⟩ := h.first
  refine ⟨⟨first, hroot, by simp [hsplit, hhead], ?_⟩, by simp [hsplit, h.scopeId]⟩
  rintro hconversation rfl
  obtain ⟨rest, hfolder⟩ := List.head?_eq_some_iff.mp hhead
  apply h.capture hconversation
  have hcaptured : (folder ++ ['/']).splitOn '/' = "Capture".toList :: (rest ++ [[]]) := by
    rw [Unix.splitOn_append_sep, hfolder, List.splitOn_nil, List.cons_append]
  exact folder_prefix_of_head hcaptured (by simp)

/-- What a valid prefix admits lies in the scope. -/
theorem inScope_of_grants (hvalid : scope.refusesPrefix allowed = false) (hclean : CleanPath text)
    (hgrants : Grants allowed text) : InScope scope text := by
  have hprefix := validPrefix_of_not_refused hvalid
  obtain ⟨hfile, rfl⟩ | ⟨folder, below, rfl, -, hsplit⟩ := hgrants
  · rw [trimEndMatches_of_getLast?_ne hfile] at hprefix
    exact hprefix.inScope_file hfile
  · have hfolder : Unix.Plainly '/' '.' folder := by
      intro name hname
      apply hclean.plainly
      simp [hsplit, hname]
    have htrim : trimEndMatches '/' (folder ++ ['/']) = folder := by
      rw [trimEndMatches_append (by simp), trimEndMatches_of_getLast?_ne hfolder.getLast?_ne]
    rw [htrim] at hprefix
    exact hprefix.inScope_folder hsplit

theorem not_refused_of_validate (h : scope.validate now = .ok ()) :
    ∀ allowed ∈ scope.allowedPrefixes, scope.refusesPrefix allowed = false := by
  rw [ReadScope.validate] at h
  split_ifs at h with hfields hprefixes
  simpa using hprefixes

/-- A read scope is not escaped: what it admits is a clean path in the scope, granted as a file or
below a granted folder. -/
theorem ReadScope.allowsPath_confined (scope : ReadScope) (now : ℚ) (path : OsString)
    (hvalid : scope.validate now = .ok ()) (hallowed : scope.allowsPath path = true) :
    ∃ text, path = utf8Bytes text ∧ CleanPath text ∧ InScope scope text ∧
      ∃ allowed ∈ scope.allowedPrefixes, Grants allowed text := by
  obtain ⟨text, heq, hclean, allowed, hmem, hgrants⟩ := allowsPath_iff.mp hallowed
  exact ⟨text, heq, hclean,
    inScope_of_grants (not_refused_of_validate hvalid allowed hmem) hclean hgrants, allowed, hmem,
    hgrants⟩

/-- The notes and the index of one conversation. -/
def conversationScope : ReadScope where
  version := 1
  tenantId := "bloomer".toList
  starLabel := "bloom".toList
  workspaceId := "T1".toList
  audienceKind := "dm".toList
  audienceId := "U1".toList
  purpose := "conversation".toList
  scopeId := "slack-t1-dm-u1".toList
  expiresAt := .finite 4000000000
  allowedPrefixes :=
    ["Organize/Work/slack-t1-dm-u1/".toList, "Distill/slack-t1-dm-u1/index.md".toList]

theorem conversation_task_confined :
    ∃ text, utf8Bytes "Organize/Work/slack-t1-dm-u1/task.md".toList = utf8Bytes text ∧
      CleanPath text ∧ InScope conversationScope text ∧
      ∃ allowed ∈ conversationScope.allowedPrefixes, Grants allowed text :=
  ReadScope.allowsPath_confined conversationScope 1700000000
    (utf8Bytes "Organize/Work/slack-t1-dm-u1/task.md".toList) (by decide +kernel)
    (by decide +kernel)

end ObsidianMcp
