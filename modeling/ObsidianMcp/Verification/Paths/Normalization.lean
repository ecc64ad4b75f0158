import ObsidianMcp.Model.NativePath
import ObsidianMcp.Model.PeriodicNotes
import ObsidianMcp.Verification.Watcher.Paths

/-! # Normalized vault paths

A path is a sequence of names and steps back. What both parsers keep of it is the names that no step
takes back. -/

namespace ObsidianMcp

open Text

variable {t a b : Text} {names before after : List Text}

/-! ## Statements -/

def ControlFree (t : Text) : Prop :=
  ∀ c ∈ t, isControl c = false

instance (t : Text) : Decidable (ControlFree t) :=
  List.decidableBAll _ t

/-- A text that spells portable names one after the other, none for the vault itself. -/
structure NormalText (t : Text) : Prop where
  names : t = [] ∨ ∀ name ∈ t.splitOn '/', name ≠ [] ∧ name ≠ ['.'] ∧ name ≠ ['.', '.']
  backslash : '\\' ∉ t
  leading : t.head? ≠ some '/'
  trailing : t.getLast? ≠ some '/'

/-- Up to some point a path has more steps back than names. -/
def Climbs (t : Text) : Prop :=
  ∃ front, front <+: (portableSeparators t).splitOn '/' ∧
    front.countP (fun name => name ≠ [] ∧ name ≠ ['.'] ∧ name ≠ ['.', '.']) <
      front.count ['.', '.']

/-- A path that is a folder or lies below it. -/
def WithinFolder (folder t : Text) : Prop :=
  folder = [] ∨ t = folder ∨ folder ++ ['/'] <+: t

/-! ## Steps -/

theorem pushName_skip {name : Text} (h : name = [] ∨ name = ['.']) (names : List Text) :
    VaultPath.pushName names name = some names := by
  rw [VaultPath.pushName, if_pos h]

theorem pushName_parent (names : List Text) : VaultPath.pushName names ['.', '.'] =
    if names = [] then none else some names.dropLast := by
  rw [VaultPath.pushName, if_neg (by decide), if_pos rfl]

theorem pushName_name {name : Text} (h : Unix.IsName '.' name) (names : List Text) :
    VaultPath.pushName names name = some (names ++ [name]) := by
  rw [VaultPath.pushName, if_neg (not_or.mpr ⟨h.ne_nil, h.ne_curDir⟩), if_neg h.ne_parentDir]

/-- A piece is passed over, a step back or a name. -/
theorem piece_cases (piece : Text) :
    (piece = [] ∨ piece = ['.']) ∨ piece = ['.', '.'] ∨ Unix.IsName '.' piece := by
  by_cases hskip : piece = [] ∨ piece = ['.']
  · exact .inl hskip
  · rw [not_or] at hskip
    by_cases hparent : piece = ['.', '.']
    · exact .inr (.inl hparent)
    · exact .inr (.inr ⟨hskip.1, hskip.2, hparent⟩)

theorem foldlM_cons_some {piece : Text} {pieces : List Text}
    (h : VaultPath.pushName before piece = some names) :
    (piece :: pieces).foldlM VaultPath.pushName before =
      pieces.foldlM VaultPath.pushName names := by
  rw [List.foldlM_cons, h]
  rfl

/-- Both parsers make the same steps. -/
theorem foldlM_pushComponent (path : Text) (pieces names : List Text) :
    (pieces.filterMap (Unix.Component.ofName '.')).foldlM (pushComponent path) names =
      match pieces.foldlM VaultPath.pushName names with
      | none => .error (.outsideVault path)
      | some names => .ok names := by
  induction pieces generalizing names with
  | nil => rfl
  | cons piece pieces ih =>
      obtain hskip | rfl | hname := piece_cases piece
      · rw [foldlM_cons_some (pushName_skip hskip names), List.filterMap_cons_none, ih]
        rw [Unix.Component.ofName, if_pos hskip]
      · have hcomponent : Unix.Component.ofName '.' ['.', '.'] = some .parentDir := by decide
        rw [List.filterMap_cons_some hcomponent, List.foldlM_cons, List.foldlM_cons,
          pushName_parent, pushComponent]
        by_cases hnil : names = []
        · rw [if_pos hnil, if_pos hnil]
          rfl
        · rw [if_neg hnil, if_neg hnil]
          exact ih names.dropLast
      · rw [foldlM_cons_some (pushName_name hname names), List.filterMap_cons_some hname.ofName,
          List.foldlM_cons, pushComponent]
        exact ih (names ++ [piece])

/-- The steps behind a folder never leave it. -/
theorem foldlM_pushName_append {pieces : List Text}
    (h : pieces.foldlM VaultPath.pushName names = some after) (folder : List Text) :
    pieces.foldlM VaultPath.pushName (folder ++ names) = some (folder ++ after) := by
  induction pieces generalizing names with
  | nil =>
      obtain rfl : names = after := Option.some.inj h
      rfl
  | cons piece pieces ih =>
      obtain hskip | rfl | hname := piece_cases piece
      · rw [foldlM_cons_some (pushName_skip hskip _)] at h ⊢
        exact ih h
      · by_cases hnil : names = []
        · rw [List.foldlM_cons, pushName_parent, if_pos hnil] at h
          contradiction
        · have hback := pushName_parent names
          rw [if_neg hnil] at hback
          rw [foldlM_cons_some hback] at h
          have hfolder : VaultPath.pushName (folder ++ names) ['.', '.'] =
              some (folder ++ names.dropLast) := by
            rw [pushName_parent, if_neg (by simp [hnil]), List.dropLast_append_of_ne_nil hnil]
          rw [foldlM_cons_some hfolder]
          exact ih h
      · rw [foldlM_cons_some (pushName_name hname _)] at h ⊢
        rw [List.append_assoc]
        exact ih h

/-- Every step back takes a name. -/
theorem length_of_foldlM_pushName {pieces : List Text}
    (h : pieces.foldlM VaultPath.pushName names = some after) :
    after.length + pieces.count ['.', '.'] = names.length +
      pieces.countP fun name => name ≠ [] ∧ name ≠ ['.'] ∧ name ≠ ['.', '.'] := by
  induction pieces generalizing names with
  | nil =>
      obtain rfl : names = after := Option.some.inj h
      simp
  | cons piece pieces ih =>
      obtain hskip | rfl | hname := piece_cases piece
      · rw [foldlM_cons_some (pushName_skip hskip _)] at h
        have hrest := ih h
        obtain rfl | rfl := hskip
        · simpa using hrest
        · simpa using hrest
      · by_cases hnil : names = []
        · rw [List.foldlM_cons, pushName_parent, if_pos hnil] at h
          contradiction
        · have hback := pushName_parent names
          rw [if_neg hnil] at hback
          rw [foldlM_cons_some hback] at h
          have hrest := ih h
          have hpos := List.length_pos_of_ne_nil hnil
          rw [List.length_dropLast] at hrest
          rw [List.count_cons_self, List.countP_cons_of_neg (by simp)]
          omega
      · rw [foldlM_cons_some (pushName_name hname _)] at h
        have hrest := ih h
        rw [List.length_append, List.length_singleton] at hrest
        rw [List.count_cons_of_ne hname.ne_parentDir, List.countP_cons_of_pos]
        · omega
        · simp [hname.ne_nil, hname.ne_curDir, hname.ne_parentDir]

/-- The names that are kept come from the path. -/
theorem mem_of_foldlM_pushName {pieces : List Text}
    (h : pieces.foldlM VaultPath.pushName names = some after) {name : Text} (hmem : name ∈ after) :
    name ∈ names ∨ name ∈ pieces ∧ Unix.IsName '.' name := by
  induction pieces generalizing names with
  | nil =>
      obtain rfl : names = after := Option.some.inj h
      exact .inl hmem
  | cons piece pieces ih =>
      obtain hskip | rfl | hname := piece_cases piece
      · rw [foldlM_cons_some (pushName_skip hskip _)] at h
        exact (ih h).imp_right fun hin => ⟨List.mem_cons_of_mem _ hin.1, hin.2⟩
      · by_cases hnil : names = []
        · rw [List.foldlM_cons, pushName_parent, if_pos hnil] at h
          contradiction
        · have hback := pushName_parent names
          rw [if_neg hnil] at hback
          rw [foldlM_cons_some hback] at h
          obtain hin | hin := ih h
          · exact .inl (List.dropLast_subset _ hin)
          · exact .inr ⟨List.mem_cons_of_mem _ hin.1, hin.2⟩
      · rw [foldlM_cons_some (pushName_name hname _)] at h
        obtain hin | hin := ih h
        · obtain hin | hin := List.mem_append.mp hin
          · exact .inl hin
          · rw [List.mem_singleton.mp hin]
            exact .inr ⟨List.mem_cons_self, hname⟩
        · exact .inr ⟨List.mem_cons_of_mem _ hin.1, hin.2⟩

/-! ## Parsing -/

/-- The steps of a path. -/
def pathSteps (t : Text) : List Text :=
  (portableSeparators t).splitOn '/'

theorem head?_portableSeparators :
    (portableSeparators t).head? = some '/' ↔ t.head? = some '/' ∨ t.head? = some '\\' := by
  cases t with
  | nil => simp [portableSeparators]
  | cons c t =>
      by_cases hc : c = '\\'
      · simp [portableSeparators, hc]
      · simp [portableSeparators, hc]

theorem backslash_notMem_portableSeparators (t : Text) : '\\' ∉ portableSeparators t := by
  intro hmem
  obtain ⟨c, -, heq⟩ := List.mem_map.mp hmem
  split_ifs at heq with hc
  · contradiction
  · exact hc heq

theorem parse_eq_ok {path : VaultPath} : VaultPath.parse t = .ok path ↔
    (portableSeparators t).head? ≠ some '/' ∧ ControlFree t ∧
      ∃ names, (pathSteps t).foldlM VaultPath.pushName [] = some names ∧
        path = ⟨List.intercalate ['/'] names⟩ := by
  rw [VaultPath.parse, Ne, head?_portableSeparators]
  by_cases hstart : t.head? = some '/' ∨ t.head? = some '\\' ∨ t.any isControl = true
  · rw [if_pos hstart]
    refine iff_of_false (by simp) ?_
    rintro ⟨hhead, hcontrol, -⟩
    obtain hslash | hback | hany := hstart
    · exact hhead (.inl hslash)
    · exact hhead (.inr hback)
    · obtain ⟨c, hc, hctl⟩ := List.any_eq_true.mp hany
      rw [hcontrol c hc] at hctl
      contradiction
  · rw [if_neg hstart]
    simp only [not_or, Bool.not_eq_true, List.any_eq_false] at hstart
    change (match (pathSteps t).foldlM VaultPath.pushName [] with
      | none => _
      | some names => _) = _ ↔ _
    rw [and_iff_right (not_or.mpr ⟨hstart.1, hstart.2.1⟩), and_iff_right]
    · cases (pathSteps t).foldlM VaultPath.pushName [] with
      | none => simp
      | some names => simp [eq_comm]
    · intro c hc
      simpa using hstart.2.2 c hc

/-- The walk over the components takes the steps of the path, unless it begins at the root. -/
theorem normalizeComponents_utf8Bytes (t : Text) : normalizeComponents (utf8Bytes t) =
    if (portableSeparators t).head? = some '/' then
      .error (.invalidPath ("absolute paths not allowed: ".toList ++ t))
    else
      match (pathSteps t).foldlM VaultPath.pushName [] with
      | none => .error (.outsideVault t)
      | some names => .ok (utf8Bytes (List.intercalate ['/'] names)) := by
  rw [normalizeComponents, OsString.toStr, fromUtf8_utf8Bytes]
  dsimp only
  rw [Unix.components, Unix.leadingComponent]
  by_cases hhead : (portableSeparators t).head? = some '/'
  · rw [if_pos hhead, if_pos hhead, List.singleton_append, List.foldlM_cons, pushComponent]
    rfl
  · rw [if_neg hhead, if_neg hhead]
    have hsame : (List.foldlM (pushComponent t) []
        ((if ((portableSeparators t).splitOn '/').head? = some ['.'] then [.curDir] else []) ++
          ((portableSeparators t).splitOn '/').filterMap (Unix.Component.ofName '.'))) =
        ((pathSteps t).filterMap (Unix.Component.ofName '.')).foldlM (pushComponent t) [] := by
      split_ifs
      · rfl
      · rfl
    rw [hsame, foldlM_pushComponent]
    cases (pathSteps t).foldlM VaultPath.pushName [] with
    | none => rfl
    | some names => rfl

/-- Splitting by hand is the walk over the components. -/
theorem normalizeRelative_eq_normalizeComponents (path : OsString) :
    normalizeRelative path = normalizeComponents path := by
  cases htext : path.toStr with
  | none => rw [normalizeRelative, normalizeComponents, htext]
  | some t =>
      obtain rfl := fromUtf8_eq_some.mp htext
      rw [normalizeComponents_utf8Bytes, normalizeRelative, htext]
      rfl

theorem normalizeComponents_eq_ok {path : OsString} :
    normalizeComponents (utf8Bytes t) = .ok path ↔ (portableSeparators t).head? ≠ some '/' ∧
      ∃ names, (pathSteps t).foldlM VaultPath.pushName [] = some names ∧
        path = utf8Bytes (List.intercalate ['/'] names) := by
  rw [normalizeComponents_utf8Bytes]
  by_cases hhead : (portableSeparators t).head? = some '/'
  · rw [if_pos hhead]
    exact iff_of_false (by simp) fun h => h.1 hhead
  · rw [if_neg hhead, and_iff_right hhead]
    cases (pathSteps t).foldlM VaultPath.pushName [] with
    | none => simp
    | some names => simp [eq_comm]

/-! ## What is kept -/

theorem portableNames_of_steps (h : (pathSteps t).foldlM VaultPath.pushName [] = some names) :
    PortableNames names := by
  intro name hname
  obtain hin | ⟨hin, hisName⟩ := mem_of_foldlM_pushName h hname
  · exact absurd hin List.not_mem_nil
  · exact {
      ne_nil := hisName.ne_nil
      ne_curDir := hisName.ne_curDir
      ne_parentDir := hisName.ne_parentDir
      slash := not_mem_of_mem_splitOn hin
      backslash := fun hback =>
        backslash_notMem_portableSeparators t (Unix.mem_of_mem_splitOn hin hback) }

theorem controlFree_intercalate (h : ∀ name ∈ names, ControlFree name) :
    ControlFree (List.intercalate ['/'] names) := by
  induction names with
  | nil => simp [ControlFree]
  | cons first rest ih =>
      have hfirst := h first List.mem_cons_self
      cases rest with
      | nil => rwa [List.intercalate_singleton]
      | cons second rest =>
          have hrest := ih fun name hname => h name (List.mem_cons_of_mem _ hname)
          rw [List.intercalate_cons_cons]
          intro c hc
          simp only [List.append_assoc, List.mem_append, List.mem_singleton] at hc
          obtain hc | rfl | hc := hc
          · exact hfirst c hc
          · decide
          · exact hrest c hc

theorem controlFree_of_steps (ht : ControlFree t)
    (h : (pathSteps t).foldlM VaultPath.pushName [] = some names) :
    ControlFree (List.intercalate ['/'] names) := by
  apply controlFree_intercalate
  intro name hname c hc
  obtain hin | ⟨hin, -⟩ := mem_of_foldlM_pushName h hname
  · exact absurd hin List.not_mem_nil
  · obtain ⟨d, hd, rfl⟩ := List.mem_map.mp (Unix.mem_of_mem_splitOn hin hc)
    split_ifs
    · decide
    · exact ht d hd

theorem portableSeparators_of_notMem (h : '\\' ∉ t) : portableSeparators t = t := by
  refine (List.map_congr_left ?_).trans (List.map_id _)
  intro c hc
  exact if_neg fun heq : c = '\\' => h (heq ▸ hc)

/-- The names of a spelling are read back. -/
theorem steps_intercalate (h : PortableNames names) :
    (pathSteps (List.intercalate ['/'] names)).foldlM VaultPath.pushName [] = some names := by
  rw [pathSteps, portableSeparators_of_notMem (backslash_notMem_intercalate h)]
  by_cases hne : names = []
  · rw [hne]
    rfl
  · rw [splitOn_intercalate_names h hne, foldlM_pushName h]
    rfl

theorem parse_intercalate (h : PortableNames names)
    (hcontrol : ControlFree (List.intercalate ['/'] names)) :
    VaultPath.parse (List.intercalate ['/'] names) = .ok ⟨List.intercalate ['/'] names⟩ := by
  rw [parse_eq_ok, portableSeparators_of_notMem (backslash_notMem_intercalate h)]
  exact ⟨head?_intercalate_ne h, hcontrol, names, steps_intercalate h, rfl⟩

theorem normalText_intercalate (h : PortableNames names) :
    NormalText (List.intercalate ['/'] names) := by
  by_cases hne : names = []
  · rw [hne]
    constructor <;> simp
  · have hplain : Unix.Plainly '/' '.' (List.intercalate ['/'] names) := by
      intro name hname
      rw [splitOn_intercalate_names h hne] at hname
      have hportable := h name hname
      exact ⟨hportable.ne_nil, hportable.ne_curDir, hportable.ne_parentDir⟩
    refine ⟨.inr ?_, backslash_notMem_intercalate h, head?_intercalate_ne h, hplain.getLast?_ne⟩
    intro name hname
    exact ⟨(hplain name hname).ne_nil, (hplain name hname).ne_curDir,
      (hplain name hname).ne_parentDir⟩

/-- A path that climbs above the root has no names left. -/
theorem steps_eq_none_of_climbs (h : Climbs t) :
    (pathSteps t).foldlM VaultPath.pushName [] = none := by
  obtain ⟨front, ⟨rest, hrest⟩, hcount⟩ := h
  rw [pathSteps, ← hrest, List.foldlM_append]
  cases hfront : front.foldlM VaultPath.pushName [] with
  | none => rfl
  | some names =>
      have hlength := length_of_foldlM_pushName hfront
      rw [List.length_nil] at hlength
      omega

/-! ## Joining -/

theorem intercalate_append (ha : names ≠ []) (hb : after ≠ []) :
    List.intercalate ['/'] (names ++ after) =
      List.intercalate ['/'] names ++ '/' :: List.intercalate ['/'] after := by
  induction names with
  | nil => contradiction
  | cons first rest ih =>
      cases rest with
      | nil =>
          rw [List.cons_append, List.nil_append, List.intercalate_cons_of_ne_nil hb,
            List.intercalate_singleton, List.append_assoc]
          rfl
      | cons second rest =>
          rw [List.cons_append, List.intercalate_cons_of_ne_nil (by simp), ih (by simp),
            List.intercalate_cons_cons]
          simp

theorem pathSteps_append (a b : Text) :
    pathSteps (a ++ '/' :: b) = pathSteps a ++ pathSteps b := by
  have hportable : portableSeparators (a ++ '/' :: b) =
      portableSeparators a ++ '/' :: portableSeparators b := by
    simp [portableSeparators]
  rw [pathSteps, hportable, Unix.splitOn_append_sep]
  rfl

/-- The steps of a joined path are those of its parts. -/
theorem foldlM_pathSteps_join (hb : (portableSeparators b).head? ≠ some '/') :
    (pathSteps (pathJoin a b)).foldlM VaultPath.pushName [] =
      ((pathSteps a).foldlM VaultPath.pushName []).bind fun names =>
        (pathSteps b).foldlM VaultPath.pushName names := by
  rw [Ne, head?_portableSeparators, not_or] at hb
  rw [pathJoin, if_neg hb.1]
  by_cases hnil : a = []
  · rw [if_pos (.inl hnil), hnil]
    rfl
  · by_cases hlast : a.getLast? = some '/'
    · obtain ⟨front, rfl⟩ := List.getLast?_eq_some_iff.mp hlast
      rw [if_pos (.inr hlast), List.append_assoc, List.singleton_append, pathSteps_append,
        pathSteps_append, List.foldlM_append, List.foldlM_append]
      cases (pathSteps front).foldlM VaultPath.pushName [] with
      | none => rfl
      | some names => rfl
    · rw [if_neg (not_or.mpr ⟨hnil, hlast⟩), pathSteps_append, List.foldlM_append]
      rfl

theorem controlFree_pathJoin (ha : ControlFree a) (hb : ControlFree b) :
    ControlFree (pathJoin a b) := by
  rw [pathJoin]
  split_ifs
  · exact hb
  · exact List.forall_mem_append.mpr ⟨ha, hb⟩
  · exact List.forall_mem_append.mpr ⟨ha, List.forall_mem_cons.mpr ⟨by decide, hb⟩⟩

theorem head?_portableSeparators_pathJoin (ha : (portableSeparators a).head? ≠ some '/')
    (hb : (portableSeparators b).head? ≠ some '/') :
    (portableSeparators (pathJoin a b)).head? ≠ some '/' := by
  rw [Ne, head?_portableSeparators] at ha hb ⊢
  rw [pathJoin, if_neg fun h => hb (.inl h)]
  cases a with
  | nil => simpa using hb
  | cons c a =>
      by_cases hlast : c :: a = [] ∨ (c :: a).getLast? = some '/'
      · rw [if_pos hlast]
        exact ha
      · rw [if_neg hlast]
        exact ha

theorem logicalJoin_eq_ok {joined : OsString} :
    logicalJoin (utf8Bytes a) (utf8Bytes b) = .ok joined ↔
      ∃ parent child, VaultPath.parse a = .ok parent ∧ VaultPath.parse b = .ok child ∧
        joined = utf8Bytes (if parent.asStr.isEmpty then child.asStr
          else if child.asStr.isEmpty then parent.asStr
          else parent.asStr ++ '/' :: child.asStr) := by
  unfold logicalJoin
  simp only [OsString.toStr, fromUtf8_utf8Bytes]
  cases VaultPath.parse a with
  | error error => simp [bind, Except.bind]
  | ok parent =>
      cases VaultPath.parse b with
      | error error => simp [bind, Except.bind]
      | ok child =>
          constructor
          · intro h
            exact ⟨parent, child, rfl, rfl, (Except.ok.inj h).symm⟩
          · rintro ⟨other, below, hparent, hchild, rfl⟩
            rw [← Except.ok.inj hparent, ← Except.ok.inj hchild]
            rfl

theorem intercalate_eq_nil (h : PortableNames names) :
    List.intercalate ['/'] names = [] ↔ names = [] := by
  constructor
  · intro hnil
    by_contra hne
    have hsplit := splitOn_intercalate_names h hne
    rw [hnil, List.splitOn_nil] at hsplit
    exact (h [] (by simp [← hsplit])).ne_nil rfl
  · rintro rfl
    rfl

/-- Joined spellings spell the joined names. -/
theorem joined_intercalate {parent child : List Text} (hparent : PortableNames parent)
    (hchild : PortableNames child) :
    (if (List.intercalate ['/'] parent).isEmpty then List.intercalate ['/'] child
      else if (List.intercalate ['/'] child).isEmpty then List.intercalate ['/'] parent
      else List.intercalate ['/'] parent ++ '/' :: List.intercalate ['/'] child) =
      List.intercalate ['/'] (parent ++ child) := by
  simp only [List.isEmpty_iff, intercalate_eq_nil hparent, intercalate_eq_nil hchild]
  split_ifs with hp hc
  · rw [hp, List.nil_append]
  · rw [hc, List.append_nil]
  · exact (intercalate_append hp hc).symm

/-- A joined path is what the two spellings joined parse to, and lies in the folder. -/
theorem logicalJoin_spec {parent child : VaultPath} (ha : VaultPath.parse a = .ok parent)
    (hb : VaultPath.parse b = .ok child) :
    ∃ joined, logicalJoin (utf8Bytes a) (utf8Bytes b) = .ok (utf8Bytes joined.asStr) ∧
      VaultPath.parse (pathJoin a b) = .ok joined ∧ WithinFolder parent.asStr joined.asStr := by
  obtain ⟨hheadA, hcontrolA, parentNames, hstepsA, rfl⟩ := parse_eq_ok.mp ha
  obtain ⟨hheadB, hcontrolB, childNames, hstepsB, rfl⟩ := parse_eq_ok.mp hb
  have hparent := portableNames_of_steps hstepsA
  have hchild := portableNames_of_steps hstepsB
  refine ⟨⟨List.intercalate ['/'] (parentNames ++ childNames)⟩, ?_, ?_, ?_⟩
  · rw [logicalJoin_eq_ok]
    exact ⟨_, _, ha, hb, by rw [joined_intercalate hparent hchild]⟩
  · rw [parse_eq_ok]
    refine ⟨head?_portableSeparators_pathJoin hheadA hheadB,
      controlFree_pathJoin hcontrolA hcontrolB, parentNames ++ childNames, ?_, rfl⟩
    rw [foldlM_pathSteps_join hheadB, hstepsA, Option.bind_some]
    simpa using foldlM_pushName_append hstepsB parentNames
  · by_cases hp : parentNames = []
    · exact .inl (by rw [hp]; rfl)
    · by_cases hc : childNames = []
      · exact .inr (.inl (by rw [hc, List.append_nil]))
      · right
        right
        dsimp only
        rw [intercalate_append hp hc]
        exact ⟨List.intercalate ['/'] childNames, by simp⟩

/-! ## Agreement -/

/-- The parsers agree on texts without control characters. What they accept is normal and read back
unchanged, and a path that climbs above the root is refused. Joined paths are those that the joined
spelling parses to. -/
theorem vaultPaths_normalized (t a b : Text) (ht : ControlFree t) :
    (((∃ error, VaultPath.parse t = .error error) ∧
        ∃ error, normalizeComponents (utf8Bytes t) = .error error) ∨
      ∃ path, VaultPath.parse t = .ok path ∧
        normalizeComponents (utf8Bytes t) = .ok (utf8Bytes path.asStr) ∧
        NormalText path.asStr ∧ VaultPath.parse path.asStr = .ok path ∧ ¬Climbs t) ∧
    ((∃ joined, logicalJoin (utf8Bytes a) (utf8Bytes b) = .ok joined) ↔
      (∃ parent, VaultPath.parse a = .ok parent) ∧ ∃ child, VaultPath.parse b = .ok child) ∧
    ∀ joined, logicalJoin (utf8Bytes a) (utf8Bytes b) = .ok joined →
      ∃ parent path, VaultPath.parse a = .ok parent ∧ VaultPath.parse (pathJoin a b) = .ok path ∧
        joined = utf8Bytes path.asStr ∧ WithinFolder parent.asStr path.asStr := by
  refine ⟨?_, ?_, ?_⟩
  · cases hparse : VaultPath.parse t with
    | ok path =>
        right
        obtain ⟨hhead, -, names, hsteps, rfl⟩ := parse_eq_ok.mp hparse
        have hnames := portableNames_of_steps hsteps
        refine ⟨_, rfl, ?_, normalText_intercalate hnames,
          parse_intercalate hnames (controlFree_of_steps ht hsteps), ?_⟩
        · exact normalizeComponents_eq_ok.mpr ⟨hhead, names, hsteps, rfl⟩
        · intro hclimbs
          rw [steps_eq_none_of_climbs hclimbs] at hsteps
          contradiction
    | error error =>
        left
        refine ⟨⟨error, rfl⟩, ?_⟩
        cases hnormal : normalizeComponents (utf8Bytes t) with
        | error other => exact ⟨other, rfl⟩
        | ok path =>
            obtain ⟨hhead, names, hsteps, -⟩ := normalizeComponents_eq_ok.mp hnormal
            rw [parse_eq_ok.mpr ⟨hhead, ht, names, hsteps, rfl⟩] at hparse
            contradiction
  · constructor
    · rintro ⟨joined, hjoined⟩
      obtain ⟨parent, child, hparent, hchild, -⟩ := logicalJoin_eq_ok.mp hjoined
      exact ⟨⟨parent, hparent⟩, child, hchild⟩
    · rintro ⟨⟨parent, hparent⟩, child, hchild⟩
      obtain ⟨joined, hjoined, -⟩ := logicalJoin_spec hparent hchild
      exact ⟨_, hjoined⟩
  · intro joined hjoined
    obtain ⟨parent, child, hparent, hchild, -⟩ := logicalJoin_eq_ok.mp hjoined
    obtain ⟨path, hpath, hparse, hwithin⟩ := logicalJoin_spec hparent hchild
    rw [hjoined, Except.ok.injEq] at hpath
    exact ⟨parent, path, hparent, hparse, hpath, hwithin⟩

theorem mixed_separators_normalized :
    ((∃ error, VaultPath.parse "a\\.//b/../c".toList = .error error) ∧
        ∃ error, normalizeComponents (utf8Bytes "a\\.//b/../c".toList) = .error error) ∨
      ∃ path, VaultPath.parse "a\\.//b/../c".toList = .ok path ∧
        normalizeComponents (utf8Bytes "a\\.//b/../c".toList) = .ok (utf8Bytes path.asStr) ∧
        NormalText path.asStr ∧ VaultPath.parse path.asStr = .ok path ∧
        ¬Climbs "a\\.//b/../c".toList :=
  (vaultPaths_normalized "a\\.//b/../c".toList "a".toList "b".toList (by decide +kernel)).1

end ObsidianMcp
