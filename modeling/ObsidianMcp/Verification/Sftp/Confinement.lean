import ObsidianMcp.Verification.Paths.Normalization
import ObsidianMcp.Verification.Sftp.Lookup

/-! # Remote resolution stays under the root -/

namespace ObsidianMcp.Sftp

open Text

variable {σ : Type} {root path relative : Text}

/-- A root that the server has named. -/
structure IsRoot (root : Text) : Prop where
  valid : validateAbsolute root = .ok ()
  trailing : root = ['/'] ∨ root.getLast? ≠ some '/'

/-- No component of a path is the current or the parent directory. -/
def DotFree (path : Text) : Prop :=
  ∀ name ∈ path.splitOn '/', name ≠ ['.'] ∧ name ≠ ['.', '.']

/-- What is before the separators of the paths below a root. -/
def rootStem (root : Text) : Text :=
  if root = ['/'] then [] else root

/-- A path is the root or continues it with a separator. -/
def Under (root path : Text) : Prop :=
  path = root ∨ ∃ rest, path = rootStem root ++ '/' :: rest

/-- A path has the components of the root, and more unless it is the root. -/
def Below (root path : Text) : Prop :=
  path = root ∨ ∃ names, names ≠ [] ∧
    path.splitOn '/' = (rootStem root).splitOn '/' ++ names

theorem Under.below (h : Under root path) : Below root path := by
  obtain h | ⟨rest, rfl⟩ := h
  · exact .inl h
  · exact .inr ⟨rest.splitOn '/', List.splitOn_ne_nil _ _, Unix.splitOn_append_sep _ _⟩

theorem stripPrefix_eq_some {p t s : Text} : stripPrefix p t = some s ↔ t = p ++ s := by
  rw [stripPrefix]
  constructor
  · intro h
    split_ifs at h with hprefix
    obtain ⟨rest, rfl⟩ := List.isPrefixOf_iff_prefix.mp hprefix
    simpa using h
  · rintro rfl
    simp

theorem validateAbsolute_ok : validateAbsolute path = .ok () ↔
    path.head? = some '/' ∧ path.any isControl = false ∧ '\\' ∉ path ∧ DotFree path := by
  rw [validateAbsolute]
  split_ifs with h
  · simp only [false_iff]
    rintro ⟨hhead, hcontrol, hback, hdots⟩
    obtain hne | hany | hmem | hdot := h
    · exact hne hhead
    · simp [hcontrol] at hany
    · exact hback hmem
    · obtain ⟨name, hname, heq⟩ := List.any_eq_true.mp hdot
      obtain rfl | rfl : name = ['.'] ∨ name = ['.', '.'] := by simpa using heq
      · exact (hdots _ hname).1 rfl
      · exact (hdots _ hname).2 rfl
  · simp only [not_or, ne_eq, not_not, Bool.not_eq_true] at h
    refine iff_of_true rfl ⟨h.1, h.2.1, h.2.2.1, fun name hname => ?_⟩
    have hdot := List.any_eq_false.mp h.2.2.2 name hname
    simpa using hdot

theorem dotFree_append {s t : Text} : DotFree (s ++ '/' :: t) ↔ DotFree s ∧ DotFree t := by
  simp only [DotFree, Unix.splitOn_append_sep, List.mem_append]
  constructor
  · intro h
    exact ⟨fun name hname => h name (.inl hname), fun name hname => h name (.inr hname)⟩
  · rintro ⟨hs, ht⟩ name (hname | hname)
    · exact hs name hname
    · exact ht name hname

theorem dotFree_nil : DotFree [] := by
  simp [DotFree]

/-! ## Absolute paths -/

theorem trimEnd_eq_self (h : path.getLast? ≠ some '/') : trimEndMatches '/' path = path := by
  rw [trimEndMatches, List.rdropWhile_eq_self_iff]
  intro hne
  rw [List.getLast?_eq_getLast_of_ne_nil hne, Ne, Option.some.injEq] at h
  simpa using h

theorem IsRoot.trimEnd (h : IsRoot root) : trimEndMatches '/' root = rootStem root := by
  rw [rootStem]
  split_ifs with hroot
  · rw [hroot]
    decide
  · obtain hslash | hlast := h.trailing
    · exact absurd hslash hroot
    · exact trimEnd_eq_self hlast

theorem IsRoot.ne_nil (h : IsRoot root) : root ≠ [] := by
  rintro rfl
  have hhead := (validateAbsolute_ok.mp h.valid).1
  simp at hhead

theorem IsRoot.absolute_eq (h : IsRoot root) :
    absolute root relative = if relative = [] then root else rootStem root ++ '/' :: relative := by
  rw [absolute, if_neg h.ne_nil, h.trimEnd]

theorem IsRoot.under_absolute (h : IsRoot root) : Under root (absolute root relative) := by
  rw [h.absolute_eq]
  split_ifs
  · exact .inl rfl
  · exact .inr ⟨relative, rfl⟩

theorem IsRoot.dotFree (h : IsRoot root) : DotFree root :=
  (validateAbsolute_ok.mp h.valid).2.2.2

theorem IsRoot.dotFree_stem (h : IsRoot root) : DotFree (rootStem root) := by
  rw [rootStem]
  split_ifs
  · exact dotFree_nil
  · exact h.dotFree

theorem IsRoot.dotFree_absolute (h : IsRoot root) (hrelative : DotFree relative) :
    DotFree (absolute root relative) := by
  rw [h.absolute_eq]
  split_ifs
  · exact h.dotFree
  · exact dotFree_append.mpr ⟨h.dotFree_stem, hrelative⟩

/-! ## Paths of the server -/

/-- An accepted path is the root, or the root's stem with the relative path behind it. -/
theorem IsRoot.relativeUnder_eq_ok (h : IsRoot root) : relativeUnder root path = .ok relative ↔
    validateAbsolute path = .ok () ∧ (path = root ∧ relative = [] ∨
      path ≠ root ∧ path = rootStem root ++ '/' :: relative) := by
  rw [relativeUnder]
  cases hvalid : validateAbsolute path with
  | error error => simp
  | ok =>
      simp only [true_and]
      by_cases hpath : path = root
      · simp [hpath, eq_comm]
      · simp only [hpath, if_false, false_and, false_or, not_false_eq_true, true_and, ne_eq]
        rw [h.trimEnd]
        by_cases hroot : root = ['/']
        · have hstem : rootStem root = [] := by rw [rootStem, if_pos hroot]
          rw [if_pos hroot, hstem, hroot]
          cases hstrip : stripPrefix ['/'] path with
          | none =>
              simp only [Option.bind_none, reduceCtorEq, List.nil_append, false_iff]
              intro heq
              have hsome := stripPrefix_eq_some.mpr (show path = ['/'] ++ relative from heq)
              simp [hstrip] at hsome
          | some s =>
              rw [stripPrefix_eq_some.mp hstrip]
              simp
        · simp only [hroot, if_false]
          cases hstrip : (stripPrefix (rootStem root) path).bind (stripPrefix ['/']) with
          | none =>
              simp only [reduceCtorEq, false_iff]
              rintro heq
              have hsome : (stripPrefix (rootStem root) path).bind (stripPrefix ['/']) =
                  some relative := by
                rw [stripPrefix_eq_some.mpr heq, Option.bind_some, stripPrefix_eq_some]
                rfl
              simp [hstrip] at hsome
          | some s =>
              obtain ⟨rest, hrest, hs⟩ := Option.bind_eq_some_iff.mp hstrip
              rw [stripPrefix_eq_some] at hrest hs
              rw [hrest, hs]
              simp

theorem IsRoot.under_of_relativeUnder (h : IsRoot root) (hpath : relativeUnder root path = .ok relative) :
    Under root path := by
  obtain ⟨-, ⟨heq, -⟩ | ⟨-, heq⟩⟩ := h.relativeUnder_eq_ok.mp hpath
  · exact .inl heq
  · exact .inr ⟨relative, heq⟩

theorem IsRoot.dotFree_of_relativeUnder (h : IsRoot root)
    (hpath : relativeUnder root path = .ok relative) : DotFree relative := by
  obtain ⟨hvalid, ⟨-, rfl⟩ | ⟨-, rfl⟩⟩ := h.relativeUnder_eq_ok.mp hpath
  · exact dotFree_nil
  · exact (dotFree_append.mp (validateAbsolute_ok.mp hvalid).2.2.2).2

/-- The relative path leads back to the path unless a separator at its end is lost. -/
theorem IsRoot.absolute_relativeUnder (h : IsRoot root)
    (hpath : relativeUnder root path = .ok relative)
    (htrailing : path = root ∨ path.getLast? ≠ some '/') : absolute root relative = path := by
  rw [h.absolute_eq]
  obtain ⟨-, ⟨rfl, rfl⟩ | ⟨hne, rfl⟩⟩ := h.relativeUnder_eq_ok.mp hpath
  · exact if_pos rfl
  · obtain heq | hlast := htrailing
    · exact absurd heq hne
    · rw [if_neg]
      rintro rfl
      simp at hlast

/-! ## Resolution -/

/-- Names of a path that stand for themselves. -/
def PlainNames (names : List Text) : Prop :=
  ∀ name ∈ names, '/' ∉ name ∧ name ≠ ['.'] ∧ name ≠ ['.', '.']

theorem dotFree_intercalate {names : List Text} (h : PlainNames names) :
    DotFree (List.intercalate ['/'] names) := by
  by_cases hne : names = []
  · rw [hne]
    exact dotFree_nil
  · rw [DotFree, List.splitOn_intercalate '/' (fun name hname => (h name hname).1) hne]
    exact fun name hname => (h name hname).2

theorem dotFree_joinRelative {actual : Text} {names : List Text} (hactual : DotFree actual)
    (h : PlainNames names) : DotFree (ReadBatch.joinRelative actual names) := by
  have hnames := dotFree_intercalate h
  rw [ReadBatch.joinRelative]
  generalize List.intercalate ['/'] names = rest at hnames
  cases actual with
  | nil =>
      cases rest with
      | nil => exact dotFree_nil
      | cons c rest => simpa using hnames
  | cons c actual =>
      cases rest with
      | nil => simpa using hactual
      | cons d rest => simpa using dotFree_append.mpr ⟨hactual, hnames⟩

/-- What every answered resolution has. -/
structure Confined (root : Text) (target : ResolvedPath) : Prop where
  under : Under root target.absolute
  dotFree : DotFree target.absolute
  agree : absolute root target.relative = target.absolute

theorem IsRoot.confined_resolved (h : IsRoot root) (hrelative : DotFree relative) :
    Confined root (resolved root relative) where
  under := h.under_absolute
  dotFree := h.dotFree_absolute hrelative
  agree := rfl

/-- Each name is replaced by what the server calls its target, and the server's path is accepted
below the root only. -/
theorem IsRoot.confined_resolveNames {u : Unicode} {server : Server σ} (h : IsRoot root)
    {allowMissing : Bool} {names : List Text} (hnames : PlainNames names) {actual : Text}
    (hactual : DotFree actual) {target : ResolvedPath} {s t : σ × ReadBatch}
    (hrun : ReadBatch.resolveNames u server root path allowMissing names actual s =
      .ok target t) : Confined root target := by
  induction names generalizing actual s with
  | nil =>
      rw [ReadBatch.resolveNames, estateM_pure, EStateM.Result.ok.injEq] at hrun
      rw [← hrun.1]
      exact h.confined_resolved hactual
  | cons name names ih =>
      rw [ReadBatch.resolveNames] at hrun
      simp only [estateM_bind_ok] at hrun
      obtain ⟨found, v, -, hrun⟩ := hrun
      cases found with
      | some entry =>
          simp only [estateM_bind_ok, raise_eq_ok] at hrun
          obtain ⟨path, w, -, next, x, ⟨hnext, rfl⟩, hrun⟩ := hrun
          exact ih (fun name hname => hnames name (List.mem_cons_of_mem _ hname))
            (h.dotFree_of_relativeUnder hnext) hrun
      | none =>
          simp only at hrun
          split_ifs at hrun with hmissing
          · rw [estateM_pure, EStateM.Result.ok.injEq] at hrun
            rw [← hrun.1]
            exact h.confined_resolved (dotFree_joinRelative hactual hnames)
          · simp at hrun

theorem plainNames_of_parse {text : Text} {requested : VaultPath}
    (h : VaultPath.parse text = .ok requested) :
    PlainNames ((requested.asStr.splitOn '/').filter fun s => !s.isEmpty) := by
  obtain ⟨-, -, names, hsteps, rfl⟩ := parse_eq_ok.mp h
  have hportable := portableNames_of_steps hsteps
  intro name hname
  obtain ⟨hname, hempty⟩ := List.mem_filter.mp hname
  refine ⟨not_mem_of_mem_splitOn hname, ?_⟩
  by_cases hne : names = []
  · subst hne
    obtain rfl : name = [] := by simpa using hname
    simp at hempty
  · rw [List.splitOn_intercalate '/' (fun name hname => (hportable name hname).slash) hne] at hname
    exact ⟨(hportable name hname).ne_curDir, (hportable name hname).ne_parentDir⟩

/-- Whatever the server answers, a resolved path is the root or lies below it; and the paths that
are accepted as the server's own lie below the root component by component. -/
theorem resolution_confined (root : Text) (hroot : IsRoot root) :
    (∀ {σ : Type} (u : Unicode) (server : Server σ) (path : OsString) (allowMissing : Bool)
        (target : ResolvedPath) (s t : σ × ReadBatch),
      ReadBatch.resolve u server root path allowMissing s = .ok target t → Confined root target) ∧
    (∀ path relative : Text, relativeUnder root path = .ok relative →
      Below root path ∧
        (path = root ∨ path.getLast? ≠ some '/' → absolute root relative = path)) := by
  refine ⟨?_, ?_⟩
  · intro σ u server path allowMissing target s t hrun
    rw [ReadBatch.resolve] at hrun
    simp only [estateM_bind_ok, raise_eq_ok] at hrun
    obtain ⟨-, v, -, text, w, ⟨-, rfl⟩, requested, x, ⟨hparse, rfl⟩, hrun⟩ := hrun
    exact hroot.confined_resolveNames (plainNames_of_parse hparse) dotFree_nil hrun
  · intro path relative hpath
    exact ⟨(hroot.under_of_relativeUnder hpath).below, hroot.absolute_relativeUnder hpath⟩

theorem findEntry_noteServer : ∃ next,
    ReadBatch.findEntry .basic noteServer "/v".toList "note.md".toList (false, {}) =
      .ok (some ("Note.md".toList, ⟨some .regularFile, some 4, none⟩)) (true, next) := by
  have hnative : nativeMatch noteServer (absolute "/v".toList "note.md".toList) false =
      .ok true false := rfl
  obtain ⟨next, hobserve⟩ := observe_noteServer
  obtain ⟨listing, names, hlist, hcached, hlists⟩ := ReadBatch.observed_lists hobserve
  rw [listDirectory_noteServer, EStateM.Result.ok.injEq] at hlist
  obtain ⟨rfl, -⟩ := hlist
  refine ⟨next, (ReadBatch.findEntry_refreshed hnative rfl).trans ?_⟩
  rw [hobserve]
  simp only
  rw [hcached, selectEntry_eq hlists (by decide)]
  rfl

theorem realpath_noteServer {path : Text} (h : byteLen path ≤ maxPacket / 4) (s : Bool) :
    Session.realpath noteServer path s = .ok path s := by
  rw [Session.realpath, estateM_bind, request, if_neg (not_lt.mpr h)]
  simp only [noteServer, OsString.toStr, fromUtf8_utf8Bytes]
  rfl

theorem resolve_noteServer : ∃ next,
    ReadBatch.resolve .basic noteServer "/v".toList (utf8Bytes "note.md".toList) false (false, {}) =
      .ok ⟨"/v/Note.md".toList, "Note.md".toList⟩ (true, next) := by
  obtain ⟨next, hfind⟩ := findEntry_noteServer
  have hroot : checkRoot noteServer "resolve".toList "/v".toList false = .ok () false := by
    rw [checkRoot, estateM_bind, realpath_noteServer (by decide)]
    rfl
  have htext : pathText (utf8Bytes "note.md".toList) = .ok "note.md".toList := by
    rw [pathText, OsString.toStr, fromUtf8_utf8Bytes]
  have hparse : VaultPath.parse "note.md".toList = .ok ⟨"note.md".toList⟩ := by decide
  have htarget : onServer (Session.realpath noteServer
      (absolute (absolute "/v".toList []) "Note.md".toList)) (true, next) =
        .ok "/v/Note.md".toList (true, next) := by
    rw [onServer, realpath_noteServer (by decide)]
    rfl
  refine ⟨next, ?_⟩
  have hnames : ReadBatch.resolveNames .basic noteServer "/v".toList "note.md".toList false
      ["note.md".toList] [] (false, {}) =
        .ok ⟨"/v/Note.md".toList, "Note.md".toList⟩ (true, next) := by
    rw [ReadBatch.resolveNames, estateM_bind_ok]
    refine ⟨_, _, hfind, ?_⟩
    simp only [estateM_bind_ok, raise_eq_ok]
    exact ⟨_, _, htarget, "Note.md".toList, (true, next), ⟨by decide, rfl⟩, rfl⟩
  rw [ReadBatch.resolve]
  simp only [estateM_bind_ok, raise_eq_ok]
  exact ⟨(), (false, {}), by rw [onServer, hroot], _, _, ⟨htext, rfl⟩, _, _, ⟨hparse, rfl⟩, hnames⟩

theorem note_confined :
    Confined "/v".toList ⟨"/v/Note.md".toList, "Note.md".toList⟩ ∧
      absolute "/v".toList "a/b.md".toList = "/v/a/b.md".toList := by
  have hroot : IsRoot "/v".toList := ⟨by decide, by decide⟩
  obtain ⟨next, hresolve⟩ := resolve_noteServer
  have hconfined := resolution_confined "/v".toList hroot
  exact ⟨hconfined.1 .basic noteServer _ false _ _ _ hresolve,
    (hconfined.2 "/v/a/b.md".toList "a/b.md".toList (by decide)).2 (by decide)⟩

end ObsidianMcp.Sftp
