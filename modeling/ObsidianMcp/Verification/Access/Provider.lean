import ObsidianMcp.Verification.Access.Scopes

/-! # Provider inputs

What the embedding provider may see, and the one kind of list item that the scan overlooks. -/

namespace ObsidianMcp

open Text

variable {yaml : SerdeYaml} {path : OsString} {content line text scope : Text} {markers : List Char}

/-! ## Statements -/

/-- A list item, with any indentation, whose text starts with `[inferred` and a space. -/
def InferredItem (markers : List Char) (line : Text) : Prop :=
  ∃ indent marker gap space rest, (∀ c ∈ indent, isWhitespace c = true) ∧ marker ∈ markers ∧
    gap ≠ [] ∧ (∀ c ∈ gap, isWhitespace c = true) ∧ isWhitespace space = true ∧
    line = indent ++ marker :: (gap ++ ("[inferred".toList ++ space :: rest))

/-- The markers of Markdown list items. -/
def listMarkers : List Char := ['-', '*', '+']

/-- A path below the folders of an audience, or one of its two files. -/
def InAudience (scope text : Text) : Prop :=
  (∃ part ∈ ["Self".toList, "People".toList, "Work".toList, "Topics".toList], ∃ below, below ≠ [] ∧
      text.splitOn '/' = ["Organize".toList, part, scope] ++ below) ∨
    (∃ below, below ≠ [] ∧ text.splitOn '/' = ["Express".toList, "Skills".toList, scope] ++ below) ∨
    text.splitOn '/' = ["Distill".toList, scope, "brief.md".toList] ∨
    text.splitOn '/' = ["Distill".toList, scope, "index.md".toList]

/-- The origin that a frontmatter records, with the schema and the sensitivity it must have. -/
structure Origin (fm : Json) (tenant star workspace kind audience : Text) : Prop where
  tenantId : ReadScope.field "tenant_id".toList fm = some tenant
  starLabel : ReadScope.field "star_label".toList fm = some star
  workspaceId : ReadScope.field "workspace_id".toList fm = some workspace
  audienceKind : ReadScope.field "audience_kind".toList fm = some kind
  audienceId : ReadScope.field "audience_id".toList fm = some audience
  valid : ∀ value ∈ [tenant, star, workspace, audience], validId value = true
  kinds : kind = "channel".toList ∨ kind = "dm".toList
  schema : ReadScope.field "memory_schema".toList fm = some "slack-code/1".toList
  sensitivity : ReadScope.field "sensitivity".toList fm = some "normal".toList

/-- A Markdown note in the audience directory of its own origin. -/
def PrivatelyAdmitted (yaml : SerdeYaml) (path : OsString) (content : Text) : Prop :=
  ∃ fm tenant star workspace kind audience text, parseFrontmatter yaml content = .ok (some fm) ∧
    Origin fm tenant star workspace kind audience ∧ path = utf8Bytes text ∧ CleanPath text ∧
    (∃ stem name, (text.splitOn '/').getLast? = some name ∧ name = stem ++ ".md".toList ∧
      stem ≠ []) ∧
    InAudience (audienceScope workspace kind audience) text

/-! ## List items -/

theorem startsWithWhitespace_iff {t : Text} :
    startsWithWhitespace t = true ↔ ∃ space rest, isWhitespace space = true ∧ t = space :: rest := by
  cases t with
  | nil => simp [startsWithWhitespace]
  | cons c t => simp [startsWithWhitespace]

theorem trimStart_append {s t : Text} (hs : ∀ c ∈ s, isWhitespace c = true)
    (ht : ∀ c, t.head? = some c → isWhitespace c = false) : trimStart (s ++ t) = t := by
  rw [trimStart, List.dropWhile_append_of_pos hs]
  cases t with
  | nil => rfl
  | cons c t => exact List.dropWhile_cons_of_neg (by simp [ht c rfl])

theorem exists_trimStart (t : Text) :
    ∃ s, (∀ c ∈ s, isWhitespace c = true) ∧ t = s ++ trimStart t :=
  ⟨t.takeWhile isWhitespace, fun _ hc => List.mem_takeWhile_imp hc,
    List.takeWhile_append_dropWhile.symm⟩

/-- The scan finds the inferred items with the markers it looks for. -/
theorem isInferredItem_iff (hmarkers : ∀ c ∈ markers, isWhitespace c = false) :
    isInferredItem markers line = true ↔ InferredItem markers line := by
  constructor
  · intro h
    obtain ⟨indent, hindent, hline⟩ := exists_trimStart line
    rw [isInferredItem] at h
    cases htrim : trimStart line with
    | nil => simp [htrim] at h
    | cons marker rest =>
        simp only [htrim, Bool.and_eq_true, decide_eq_true_eq] at h
        obtain ⟨⟨hmarker, hspace⟩, htag⟩ := h
        obtain ⟨gap, hgap, hrest⟩ := exists_trimStart rest
        obtain ⟨tag, hstrip, htag⟩ := (Option.any_eq_true _ _).mp htag
        obtain ⟨space, after, hwhite, rfl⟩ := startsWithWhitespace_iff.mp htag
        rw [stripPrefix] at hstrip
        split_ifs at hstrip with hprefix
        obtain ⟨tail, htail⟩ := List.isPrefixOf_iff_prefix.mp hprefix
        have hafter : tail = space :: after := by
          rw [← htail, List.drop_left] at hstrip
          exact Option.some.inj hstrip
        refine ⟨indent, marker, gap, space, after, hindent, hmarker, ?_, hgap, hwhite, ?_⟩
        · rintro rfl
          -- the tag itself is no space
          rw [List.nil_append] at hrest
          rw [hrest, ← htail] at hspace
          exact absurd hspace (by simp [startsWithWhitespace]; decide)
        · rw [hline, htrim, hrest, ← htail, hafter]
  · rintro ⟨indent, marker, gap, space, rest, hindent, hmarker, hne, hgap, hspace, rfl⟩
    have htrim : trimStart (indent ++ marker :: (gap ++ ("[inferred".toList ++ space :: rest))) =
        marker :: (gap ++ ("[inferred".toList ++ space :: rest)) :=
      trimStart_append hindent fun c hc => by
        rw [← Option.some.inj hc]
        exact hmarkers marker hmarker
    have hinner : trimStart (gap ++ ("[inferred".toList ++ space :: rest)) =
        "[inferred".toList ++ space :: rest :=
      trimStart_append hgap fun c hc => by
        rw [← Option.some.inj hc]
        decide
    obtain ⟨first, others, rfl⟩ := List.exists_cons_of_ne_nil hne
    simp only [isInferredItem, htrim, hinner, Bool.and_eq_true, decide_eq_true_eq]
    refine ⟨⟨hmarker, ?_⟩, ?_⟩
    · simp [startsWithWhitespace, hgap]
    · rw [stripPrefix, if_pos (List.isPrefixOf_iff_prefix.mpr (List.prefix_append _ _)),
        List.drop_left]
      simp [startsWithWhitespace, hspace]

theorem inferredItem_append {others : List Char} :
    InferredItem (markers ++ others) line ↔
      InferredItem markers line ∨ InferredItem others line := by
  constructor
  · rintro ⟨indent, marker, gap, space, rest, hindent, hmarker, hline⟩
    obtain hmarker | hmarker := List.mem_append.mp hmarker
    · exact .inl ⟨indent, marker, gap, space, rest, hindent, hmarker, hline⟩
    · exact .inr ⟨indent, marker, gap, space, rest, hindent, hmarker, hline⟩
  · rintro (⟨indent, marker, gap, space, rest, hindent, hmarker, hline⟩ |
      ⟨indent, marker, gap, space, rest, hindent, hmarker, hline⟩)
    · exact ⟨indent, marker, gap, space, rest, hindent, List.mem_append_left _ hmarker, hline⟩
    · exact ⟨indent, marker, gap, space, rest, hindent, List.mem_append_right _ hmarker, hline⟩

/-! ## The audience directory -/

theorem slash_notMem_toLower {t : Text} (h : '/' ∉ t) : '/' ∉ t.map Char.toLower := by
  intro hmem
  obtain ⟨c, hc, heq⟩ := List.mem_map.mp hmem
  obtain hsame | ⟨hlow, -, hlower⟩ := toLower_cases c
  · rw [hsame] at heq
    exact h (heq ▸ hc)
  · rw [heq] at hlower
    have hslash : ('/' : Char).toNat = 47 := rfl
    omega

theorem slash_notMem_of_validId {value : Text} (h : validId value = true) : '/' ∉ value := by
  intro hmem
  simp only [validId, Bool.and_eq_true, List.all_eq_true] at h
  exact absurd (h.2 '/' hmem) (by decide)

theorem slash_notMem_audienceScope {workspace kind audience : Text}
    (hworkspace : validId workspace = true) (hkind : kind = "channel".toList ∨ kind = "dm".toList)
    (haudience : validId audience = true) : '/' ∉ audienceScope workspace kind audience := by
  have hmiddle : '/' ∉ kind := by
    obtain rfl | rfl := hkind
    · decide
    · decide
  have hfirst := slash_notMem_toLower (slash_notMem_of_validId hworkspace)
  have hlast := slash_notMem_toLower (slash_notMem_of_validId haudience)
  unfold audienceScope
  simp [hfirst, hlast, hmiddle]

theorem grants_folder_iff {folder : Text} {names : List Text} (hnames : folder.splitOn '/' = names) :
    Grants (folder ++ ['/']) text ↔ ∃ below, below ≠ [] ∧ text.splitOn '/' = names ++ below := by
  rw [Grants, ← hnames]
  constructor
  · rintro (⟨hlast, -⟩ | ⟨other, below, heq, hne, hsplit⟩)
    · simp at hlast
    · rw [List.append_cancel_right heq]
      exact ⟨below, hne, hsplit⟩
  · rintro ⟨below, hne, hsplit⟩
    exact .inr ⟨folder, below, rfl, hne, hsplit⟩

theorem grants_file_iff {file : Text} {names : List Text} (hlast : file.getLast? ≠ some '/')
    (hnames : file.splitOn '/' = names) : Grants file text ↔ text.splitOn '/' = names := by
  rw [Grants, ← hnames]
  constructor
  · rintro (⟨-, rfl⟩ | ⟨folder, below, rfl, -⟩)
    · rfl
    · simp at hlast
  · intro hsplit
    exact .inl ⟨hlast, Unix.splitOn_injective hsplit⟩

/-- The policy of an origin admits the audience's folders and files. -/
theorem sourcePolicy_grants_iff {tenant star workspace kind audience : Text}
    (hscope : '/' ∉ audienceScope workspace kind audience) :
    (∃ allowed ∈ (sourcePolicy tenant star workspace kind audience).allowedPrefixes,
      Grants allowed text) ↔ InAudience (audienceScope workspace kind audience) text := by
  have hself := List.splitOn_eq_singleton hscope
  have horganize : ∀ part ∈ ["Self".toList, "People".toList, "Work".toList, "Topics".toList],
      Grants ("Organize/".toList ++ part ++ '/' :: audienceScope workspace kind audience ++ ['/'])
        text ↔ ∃ below, below ≠ [] ∧ text.splitOn '/' =
          ["Organize".toList, part, audienceScope workspace kind audience] ++ below := by
    intro part hpart
    apply grants_folder_iff
    have hslash : part.splitOn '/' = [part] := by
      apply List.splitOn_eq_singleton
      simp only [List.mem_cons, List.not_mem_nil, or_false] at hpart
      obtain rfl | rfl | rfl | rfl := hpart <;> decide
    rw [Unix.splitOn_append_sep, hself, show "Organize/".toList = "Organize".toList ++ ['/'] by decide,
      List.append_assoc, List.singleton_append, Unix.splitOn_append_sep, hslash]
    rfl
  have hexpress : Grants ("Express/Skills/".toList ++ audienceScope workspace kind audience ++
      ['/']) text ↔ ∃ below, below ≠ [] ∧ text.splitOn '/' =
        ["Express".toList, "Skills".toList, audienceScope workspace kind audience] ++ below := by
    apply grants_folder_iff
    rw [show "Express/Skills/".toList = "Express".toList ++ '/' :: ("Skills".toList ++ ['/']) by
      decide, List.append_assoc, List.cons_append, Unix.splitOn_append_sep, List.append_assoc,
      List.singleton_append, Unix.splitOn_append_sep, hself]
    rfl
  have hdistill : ∀ name : Text, name.getLast? = some 'd' → '/' ∉ name →
      (Grants ("Distill/".toList ++ audienceScope workspace kind audience ++ '/' :: name) text ↔
        text.splitOn '/' = ["Distill".toList, audienceScope workspace kind audience, name]) := by
    intro name hlast hslash
    apply grants_file_iff
    · rw [List.getLast?_append, List.getLast?_cons, hlast]
      simp
    · rw [Unix.splitOn_append_sep, List.splitOn_eq_singleton hslash,
        show "Distill/".toList = "Distill".toList ++ ['/'] by decide, List.append_assoc,
        List.singleton_append, Unix.splitOn_append_sep, hself]
      rfl
  have hbrief := hdistill "brief.md".toList (by decide) (by decide)
  have hindex := hdistill "index.md".toList (by decide) (by decide)
  constructor
  · rintro ⟨allowed, hmem, hgrants⟩
    obtain hmem | hmem := List.mem_append.mp hmem
    · obtain ⟨part, hpart, rfl⟩ := List.mem_map.mp hmem
      exact .inl ⟨part, hpart, (horganize part hpart).mp hgrants⟩
    · right
      simp only [List.mem_cons, List.not_mem_nil, or_false] at hmem
      obtain rfl | rfl | rfl := hmem
      · exact .inl (hexpress.mp hgrants)
      · exact .inr (.inl (hbrief.mp hgrants))
      · exact .inr (.inr (hindex.mp hgrants))
  · rintro (⟨part, hpart, hbelow⟩ | hbelow | hfile | hfile)
    · exact ⟨_, List.mem_append_left _ (List.mem_map_of_mem hpart), (horganize part hpart).mpr hbelow⟩
    · exact ⟨_, List.mem_append_right _ List.mem_cons_self, hexpress.mpr hbelow⟩
    · exact ⟨_, List.mem_append_right _ (by simp), hbrief.mpr hfile⟩
    · exact ⟨_, List.mem_append_right _ (by simp), hindex.mpr hfile⟩

/-! ## Eligible notes -/

theorem extension_md_iff (h : CleanPath text) :
    Unix.extension '/' '.' text = some "md".toList ↔
      ∃ stem name, (text.splitOn '/').getLast? = some name ∧ name = stem ++ ".md".toList ∧
        stem ≠ [] := by
  have hlast := List.getLast?_eq_some_getLast (List.splitOn_ne_nil '/' text)
  have hcomponent : (Unix.components '/' '.' text).getLast? =
      some (.normal ((text.splitOn '/').getLast (List.splitOn_ne_nil '/' text))) := by
    rw [h.plainly.components, List.getLast?_map, hlast]
    rfl
  rw [Unix.extension_eq_some hcomponent, hlast]
  constructor
  · rintro ⟨-, stem, hne, hname⟩
    exact ⟨stem, _, rfl, hname, hne⟩
  · rintro ⟨stem, name, heq, hname, hne⟩
    refine ⟨by decide, stem, hne, ?_⟩
    rw [Option.some.inj heq]
    exact hname

theorem ite_false_eq_true {b x : Bool} :
    (if b = true then false else x) = true ↔ b = false ∧ x = true := by
  cases b <;> simp

/-- A valid origin with its schema is what the policy asks of a frontmatter. -/
theorem sourcePolicy_allowsFrontmatter {fm : Json} {tenant star workspace kind audience : Text}
    (htenant : ReadScope.field "tenant_id".toList fm = some tenant)
    (hstar : ReadScope.field "star_label".toList fm = some star)
    (hworkspace : ReadScope.field "workspace_id".toList fm = some workspace)
    (hkind : ReadScope.field "audience_kind".toList fm = some kind)
    (haudience : ReadScope.field "audience_id".toList fm = some audience) :
    (sourcePolicy tenant star workspace kind audience).allowsFrontmatter (some fm) = true ↔
      ReadScope.field "memory_schema".toList fm = some "slack-code/1".toList ∧
        ReadScope.field "sensitivity".toList fm = some "normal".toList := by
  unfold ReadScope.allowsFrontmatter
  dsimp only
  rw [ite_false_eq_true, Bool.or_eq_false_iff, decide_eq_false_iff_not, decide_eq_false_iff_not,
    not_not, not_not, List.all_eq_true, and_iff_left]
  intro entry hentry
  simp only [List.mem_cons, List.not_mem_nil, or_false] at hentry
  rw [decide_eq_true_eq]
  obtain rfl | rfl | rfl | rfl | rfl := hentry
  · exact htenant
  · exact hstar
  · exact hworkspace
  · exact hkind
  · exact haudience

/-- What is checked once the origin is read. -/
theorem eligible_of_origin {fm : Json} {tenant star workspace kind audience : Text}
    (hparse : parseFrontmatter yaml content = .ok (some fm))
    (htenant : ReadScope.field "tenant_id".toList fm = some tenant)
    (hstar : ReadScope.field "star_label".toList fm = some star)
    (hworkspace : ReadScope.field "workspace_id".toList fm = some workspace)
    (hkind : ReadScope.field "audience_kind".toList fm = some kind)
    (haudience : ReadScope.field "audience_id".toList fm = some audience) :
    privateSourceEligible yaml path content = true ↔
      (∀ value ∈ [tenant, star, workspace, audience], validId value = true) ∧
      (kind = "channel".toList ∨ kind = "dm".toList) ∧
      (∀ line ∈ textLines content, isInferredItem ['-', '*'] line = false) ∧
      path.toStr.any (fun text => Unix.extension '/' '.' text = some "md".toList) = true ∧
      (sourcePolicy tenant star workspace kind audience).allowsPath path = true ∧
      (sourcePolicy tenant star workspace kind audience).allowsFrontmatter (some fm) = true := by
  unfold privateSourceEligible
  rw [hparse]
  dsimp only
  rw [htenant, hstar, hworkspace, hkind, haudience]
  dsimp only
  rw [ite_false_eq_true, Bool.or_eq_false_iff, Bool.or_eq_false_iff, Bool.not_eq_false',
    List.all_eq_true, List.any_eq_false, decide_eq_false_iff_not, not_not, List.mem_pair,
    Bool.and_eq_true, Bool.and_eq_true, and_assoc, and_assoc, and_assoc]
  simp only [Bool.not_eq_true]

theorem field_eq_none_or {fm : Json} (key : Text) :
    ReadScope.field key fm = none ∨ ∃ value, ReadScope.field key fm = some value := by
  cases ReadScope.field key fm with
  | none => exact .inl rfl
  | some value => exact .inr ⟨value, rfl⟩

/-- An eligible note records where it comes from. -/
theorem exists_origin (h : privateSourceEligible yaml path content = true) :
    ∃ fm tenant star workspace kind audience, parseFrontmatter yaml content = .ok (some fm) ∧
      ReadScope.field "tenant_id".toList fm = some tenant ∧
      ReadScope.field "star_label".toList fm = some star ∧
      ReadScope.field "workspace_id".toList fm = some workspace ∧
      ReadScope.field "audience_kind".toList fm = some kind ∧
      ReadScope.field "audience_id".toList fm = some audience := by
  unfold privateSourceEligible at h
  split at h
  · next fm hparse =>
    split at h
    · next tenant star workspace kind audience htenant hstar hworkspace hkind haudience =>
      exact ⟨fm, tenant, star, workspace, kind, audience, hparse, htenant, hstar, hworkspace,
        hkind, haudience⟩
    · contradiction
  · contradiction

/-- The eligible notes: those admitted, without inferred items of the two markers looked for. -/
theorem privateSourceEligible_iff : privateSourceEligible yaml path content = true ↔
    PrivatelyAdmitted yaml path content ∧
      ∀ line ∈ textLines content, ¬InferredItem ['-', '*'] line := by
  have hscan : ∀ line, isInferredItem ['-', '*'] line = false ↔ ¬InferredItem ['-', '*'] line := by
    intro line
    rw [← isInferredItem_iff (not_of_all_not (by decide)), Bool.not_eq_true]
  constructor
  · intro h
    obtain ⟨fm, tenant, star, workspace, kind, audience, hparse, htenant, hstar, hworkspace, hkind,
      haudience⟩ := exists_origin h
    rw [eligible_of_origin hparse htenant hstar hworkspace hkind haudience,
      sourcePolicy_allowsFrontmatter htenant hstar hworkspace hkind haudience, allowsPath_iff] at h
    obtain ⟨hvalid, hkinds, hlines, hmd, ⟨text, rfl, hclean, hgrants⟩, hschema, hsensitivity⟩ := h
    refine ⟨⟨fm, tenant, star, workspace, kind, audience, text, hparse, ?_, rfl, hclean, ?_, ?_⟩,
      fun line hline => (hscan line).mp (hlines line hline)⟩
    · exact ⟨htenant, hstar, hworkspace, hkind, haudience, hvalid, hkinds, hschema, hsensitivity⟩
    · rw [OsString.toStr, fromUtf8_utf8Bytes, Option.any_some, decide_eq_true_eq] at hmd
      exact (extension_md_iff hclean).mp hmd
    · exact (sourcePolicy_grants_iff (slash_notMem_audienceScope (hvalid workspace (by simp)) hkinds
        (hvalid audience (by simp)))).mp hgrants
  · rintro ⟨⟨fm, tenant, star, workspace, kind, audience, text, hparse, horigin, rfl, hclean, hmd,
      haudience⟩, hlines⟩
    rw [eligible_of_origin hparse horigin.tenantId horigin.starLabel horigin.workspaceId
      horigin.audienceKind horigin.audienceId, sourcePolicy_allowsFrontmatter horigin.tenantId
      horigin.starLabel horigin.workspaceId horigin.audienceKind horigin.audienceId,
      allowsPath_iff]
    refine ⟨horigin.valid, horigin.kinds, fun line hline => (hscan line).mpr (hlines line hline),
      ?_, ⟨text, rfl, hclean, ?_⟩, horigin.schema, horigin.sensitivity⟩
    · rw [OsString.toStr, fromUtf8_utf8Bytes, Option.any_some, decide_eq_true_eq]
      exact (extension_md_iff hclean).mpr hmd
    · exact (sourcePolicy_grants_iff (slash_notMem_audienceScope
        (horigin.valid workspace (by simp)) horigin.kinds
        (horigin.valid audience (by simp)))).mpr haudience

/-- What reaches the provider is admitted by its own audience and without inferred items, exactly
when no note that passes the other checks has an inferred item marked with a plus sign. -/
theorem privateSourceEligible_never_inferred_iff (yaml : SerdeYaml) (path : OsString)
    (content : Text) :
    (privateSourceEligible yaml path content = true → PrivatelyAdmitted yaml path content ∧
        ∀ line ∈ textLines content, ¬InferredItem listMarkers line) ↔
      (PrivatelyAdmitted yaml path content →
        (∀ line ∈ textLines content, ¬InferredItem ['-', '*'] line) →
        ∀ line ∈ textLines content, ¬InferredItem ['+'] line) := by
  rw [privateSourceEligible_iff]
  have hsplit : ∀ line, InferredItem listMarkers line ↔
      InferredItem ['-', '*'] line ∨ InferredItem ['+'] line := fun line =>
    @inferredItem_append line ['-', '*'] ['+']
  constructor
  · intro h hadmitted hlines line hline hplus
    exact (h ⟨hadmitted, hlines⟩).2 line hline ((hsplit line).mpr (.inr hplus))
  · rintro h ⟨hadmitted, hlines⟩
    refine ⟨hadmitted, ?_⟩
    intro line hline hitem
    obtain hdash | hplus := (hsplit line).mp hitem
    · exact hlines line hline hdash
    · exact h hadmitted hlines line hline hplus

/-- The YAML reader on the frontmatter of one channel's notes. -/
def channelYaml : SerdeYaml where
  fromStrJson _ := .ok (.object [("audience_id".toList, .string "CA".toList),
    ("audience_kind".toList, .string "channel".toList),
    ("memory_schema".toList, .string "slack-code/1".toList),
    ("sensitivity".toList, .string "normal".toList),
    ("star_label".toList, .string "bloom".toList),
    ("tenant_id".toList, .string "bloomer".toList),
    ("workspace_id".toList, .string "T1".toList)])
  fromStrMapping _ := .error []
  fromStrValue _ := .error []
  toStringJson _ := .error []
  toStringMapping _ := .error []
  toStringValue _ := .error []
  displayNumber _ := []

def channelNote : Text :=
  List.intercalate ['\n'] (["---", "audience_id: CA", "audience_kind: channel",
    "memory_schema: slack-code/1", "sensitivity: normal", "star_label: bloom",
    "tenant_id: bloomer", "workspace_id: T1", "---",
    "+ [inferred 2026-11-06] uncertain"].map String.toList)

/-- An item with a plus sign is eligible. -/
theorem inferred_plus_item_eligible :
    privateSourceEligible channelYaml
        (utf8Bytes "Organize/Work/slack-t1-channel-ca/task.md".toList) channelNote = true ∧
      ∃ line ∈ textLines channelNote, InferredItem listMarkers line := by
  refine ⟨by decide +kernel, "+ [inferred 2026-11-06] uncertain".toList, by decide +kernel, ?_⟩
  exact (isInferredItem_iff (not_of_all_not (by decide))).mp (by decide +kernel)

end ObsidianMcp
