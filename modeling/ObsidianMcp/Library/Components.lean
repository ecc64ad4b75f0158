import Mathlib.Data.List.DropRight
import Mathlib.Tactic

/-! # Components of Unix paths

A path is a text over an alphabet with a separator and a dot. -/

namespace ObsidianMcp.Unix

variable {α : Type*}

/-- What a path consists of. -/
inductive Component (α : Type*) where
  | rootDir
  | curDir
  | parentDir
  | normal (name : List α)
  deriving DecidableEq

def Component.isNormal : Component α → Bool
  | normal _ => true
  | _ => false

variable [DecidableEq α] (sep dot : α)

/-- The text of a component. -/
def Component.asOsStr : Component α → List α
  | rootDir => [sep]
  | curDir => [dot]
  | parentDir => [dot, dot]
  | normal name => name

/-- What a name in a path stands for, if it stands for anything. -/
def Component.ofName (name : List α) : Option (Component α) :=
  if name = [] ∨ name = [dot] then none
  else if name = [dot, dot] then some .parentDir
  else some (.normal name)

/-- The component at the start of a path that is not a name. -/
def leadingComponent (path : List α) : List (Component α) :=
  if path.head? = some sep then [.rootDir]
  else if (path.splitOn sep).head? = some [dot] then [.curDir]
  else []

/-- The components of a path. Empty names and dots behind the start are passed over. -/
def components (path : List α) : List (Component α) :=
  leadingComponent sep dot path ++ (path.splitOn sep).filterMap (Component.ofName dot)

/-- The extension of the last name of a path. -/
def extension (path : List α) : Option (List α) :=
  match (components sep dot path).getLast? with
  | some (.normal name) =>
      if dot ∈ name ∧ (name.rdropWhile fun c => c ≠ dot).dropLast ≠ [] then
        some (name.rtakeWhile fun c => c ≠ dot)
      else none
  | _ => none

/-- A name that stands for itself. -/
structure IsName (name : List α) : Prop where
  ne_nil : name ≠ []
  ne_curDir : name ≠ [dot]
  ne_parentDir : name ≠ [dot, dot]

/-- A path that spells its names one after the other. -/
def Plainly (path : List α) : Prop :=
  ∀ name ∈ path.splitOn sep, IsName dot name

variable {sep dot} {path s t : List α} {name : List α} {names : List (List α)}

theorem IsName.ofName (h : IsName dot name) : Component.ofName dot name = some (.normal name) := by
  simp [Component.ofName, h.ne_nil, h.ne_curDir, h.ne_parentDir]

theorem ofName_eq_normal : Component.ofName dot s = some (.normal name) ↔
    s = name ∧ IsName dot name := by
  constructor
  · intro h
    rw [Component.ofName] at h
    split_ifs at h with hskip hparent
    · simp at h
    · rw [not_or] at hskip
      obtain rfl : s = name := by simpa using h
      exact ⟨rfl, hskip.1, hskip.2, hparent⟩
  · rintro ⟨rfl, h⟩
    exact h.ofName

/-! ## Splitting -/

theorem head?_splitOn_eq_nil (path : List α) :
    (path.splitOn sep).head? = some [] ↔ path = [] ∨ path.head? = some sep := by
  cases path with
  | nil => simp
  | cons c path =>
      rw [List.splitOn_cons_eq_if_modifyHead]
      by_cases hc : c = sep
      · simp [hc]
      · cases hsplit : path.splitOn sep with
        | nil => exact absurd hsplit (List.splitOn_ne_nil _ _)
        | cons first rest => simp [hc]

/-- The pieces of two texts around a separator. -/
theorem splitOn_append_sep (s t : List α) :
    (s ++ sep :: t).splitOn sep = s.splitOn sep ++ t.splitOn sep :=
  List.splitOn_append_cons_self s t

theorem splitOn_injective : Function.Injective (List.splitOn sep : List α → List (List α)) := by
  intro s t h
  rw [← @List.intercalate_splitOn _ s _ _ sep, h, List.intercalate_splitOn]

theorem mem_of_mem_splitOn {c : α} (h : name ∈ path.splitOn sep) (hc : c ∈ name) :
    c ∈ path := by
  rw [← @List.intercalate_splitOn _ path _ _ sep]
  obtain ⟨before, after, hsplit⟩ := List.append_of_mem h
  rw [hsplit]
  clear hsplit h
  induction before with
  | nil =>
      cases after with
      | nil => simpa using hc
      | cons next after => simp [hc]
  | cons first before ih =>
      rw [List.cons_append, List.intercalate_cons_of_ne_nil (by simp)]
      simp [ih]

/-! ## Plain paths -/

/-- A plain path consists of its names. -/
theorem Plainly.components (h : Plainly sep dot path) :
    components sep dot path = (path.splitOn sep).map .normal := by
  have hleading : leadingComponent sep dot path = [] := by
    obtain ⟨first, rest, hsplit⟩ := List.exists_cons_of_ne_nil (List.splitOn_ne_nil sep path)
    have hfirst : IsName dot first := h first (by simp [hsplit])
    have hhead : path.head? ≠ some sep := by
      intro hhead
      have hnil := (head?_splitOn_eq_nil path).mpr (.inr hhead)
      rw [hsplit, List.head?_cons, Option.some.injEq] at hnil
      exact hfirst.ne_nil hnil
    simp [leadingComponent, hhead, hsplit, hfirst.ne_curDir]
  have hnames : ∀ names : List (List α), (∀ name ∈ names, IsName dot name) →
      names.filterMap (Component.ofName dot) = names.map .normal := by
    intro names hnames
    induction names with
    | nil => rfl
    | cons name names ih =>
        have hname := hnames name List.mem_cons_self
        rw [List.filterMap_cons_some hname.ofName, List.map_cons,
          ih fun other hother => hnames other (List.mem_cons_of_mem _ hother)]
  rw [Unix.components, hleading, hnames _ h, List.nil_append]

theorem Plainly.ne_nil (h : Plainly sep dot path) : path ≠ [] := by
  rintro rfl
  exact (h [] (by simp)).ne_nil rfl

/-- A plain path ends in a name. -/
theorem Plainly.getLast?_ne (h : Plainly sep dot path) : path.getLast? ≠ some sep := by
  intro hlast
  obtain ⟨front, rfl⟩ := List.getLast?_eq_some_iff.mp hlast
  rw [Plainly, splitOn_append_sep] at h
  exact (h [] (by simp)).ne_nil rfl

theorem Plainly.append (hs : Plainly sep dot s) (ht : Plainly sep dot t) :
    Plainly sep dot (s ++ sep :: t) := by
  intro name hname
  rw [splitOn_append_sep, List.mem_append] at hname
  obtain hname | hname := hname
  · exact hs name hname
  · exact ht name hname

/-! ## Extensions -/

/-- The parts around the last dot. -/
theorem rdropWhile_append_dot {stem ext : List α} (hext : dot ∉ ext) :
    (stem ++ dot :: ext).rdropWhile (fun c => c ≠ dot) = stem ++ [dot] ∧
      (stem ++ dot :: ext).rtakeWhile (fun c => c ≠ dot) = ext := by
  induction ext using List.reverseRecOn with
  | nil => simp [List.rdropWhile_concat_neg, List.rtakeWhile_concat_neg]
  | append_singleton ext c ih =>
      rw [List.mem_append, List.mem_singleton, not_or] at hext
      obtain ⟨hdrop, htake⟩ := ih hext.1
      have hc : (fun c => decide (c ≠ dot)) c = true := by simpa using Ne.symm hext.2
      have happend : stem ++ dot :: (ext ++ [c]) = stem ++ dot :: ext ++ [c] := by simp
      rw [happend, List.rdropWhile_concat_pos (fun c => decide (c ≠ dot)) _ _ hc,
        List.rtakeWhile_concat_pos (fun c => decide (c ≠ dot)) _ _ hc, hdrop, htake]
      exact ⟨rfl, rfl⟩

/-- The extension is behind the last dot of a name, when this is not its first character. -/
theorem extension_eq_some {ext : List α}
    (hlast : (components sep dot path).getLast? = some (.normal name)) :
    extension sep dot path = some ext ↔
      dot ∉ ext ∧ ∃ stem, stem ≠ [] ∧ name = stem ++ dot :: ext := by
  rw [extension, hlast]
  dsimp only
  constructor
  · intro h
    split_ifs at h with hdot
    obtain ⟨hmem, hstem⟩ := hdot
    rw [Option.some.injEq] at h
    have hext : dot ∉ ext := by
      intro hin
      rw [← h] at hin
      simpa using List.mem_rtakeWhile_imp hin
    have hne : name.rdropWhile (fun c => c ≠ dot) ≠ [] := by
      rw [Ne, List.rdropWhile_eq_nil_iff]
      intro hall
      simpa using hall dot hmem
    have hend := List.rdropWhile_last_not _ _ hne
    have hsplit := List.dropLast_append_getLast hne
    rw [decide_eq_true_eq, not_not] at hend
    refine ⟨hext, _, hstem, ?_⟩
    rw [hend] at hsplit
    conv_lhs => rw [← List.rdropWhile_append_rtakeWhile (p := fun c => decide (c ≠ dot)) (l := name)]
    rw [h, ← hsplit]
    simp
  · rintro ⟨hext, stem, hstem, rfl⟩
    obtain ⟨hdrop, htake⟩ := @rdropWhile_append_dot _ _ dot stem ext hext
    rw [hdrop, htake, if_pos]
    simpa using hstem

end ObsidianMcp.Unix
