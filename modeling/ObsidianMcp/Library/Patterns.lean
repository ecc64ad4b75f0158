import ObsidianMcp.Library.Marks

/-! # Fixed-width patterns

Patterns of escaped characters and of groups of a fixed number of digits. A match is decided
position by position. -/

namespace ObsidianMcp

open Text

/-- A character, or a group of digits. -/
inductive Atom where
  | char (c : Char)
  | digits (n : ℕ)
  deriving DecidableEq

namespace Text

/-- The characters that have a meaning in patterns. -/
def isMeta (c : Char) : Bool :=
  c ∈ "\\.+*?()|[]\x7b\x7d^$#&-~".toList

/-- Escape all characters that have a meaning in patterns. -/
def escape (t : Text) : Text :=
  t.flatMap fun c => if isMeta c then ['\\', c] else [c]

end Text

/-- The spelling of an atom in a pattern. -/
def Atom.source : Atom → Text
  | char c => escape [c]
  | digits n =>
      if n = 1 then "(\\d)".toList
      else "(\\d\x7b".toList ++ Nat.toDigits 10 n ++ "\x7d)".toList

/-- The groups of a match of a whole text. -/
def matchAtoms (isDigit : Char → Bool) : List Atom → Text → Option (List Text)
  | [], [] => some []
  | [], _ :: _ => none
  | .char _ :: _, [] => none
  | .char c :: atoms, d :: t => if c = d then matchAtoms isDigit atoms t else none
  | .digits n :: atoms, t =>
      if n ≤ t.length ∧ (t.take n).all isDigit then
        (matchAtoms isDigit atoms (t.drop n)).map (t.take n :: ·)
      else none

/-- An engine for regular expressions: what an anchored fixed-width pattern captures. -/
structure RegexLibrary where
  isDigit : Char → Bool
  new : Text → Option (Text → Option (List Text))
  isDigit_ascii : ∀ c, c.isDigit = true → isDigit c = true
  new_atoms : ∀ atoms : List Atom,
    new ('^' :: atoms.flatMap Atom.source ++ ['$']) = some (matchAtoms isDigit atoms)

/-- A character of a kind. -/
def Atom.satisfies (p : Char → Bool) : Atom → Bool
  | char c => p c
  | digits _ => false

variable {isDigit : Char → Bool} {atoms : List Atom} {t : Text} {groups : List Text}

/-- A match has as many characters of a kind without digits as the pattern. -/
theorem countP_of_matchAtoms {p : Char → Bool} (hp : ∀ c, isDigit c = true → p c = false)
    (h : matchAtoms isDigit atoms t = some groups) :
    t.countP p = atoms.countP (Atom.satisfies p) := by
  induction atoms generalizing t groups with
  | nil =>
      cases t with
      | nil => rfl
      | cons d t => simp [matchAtoms] at h
  | cons atom atoms ih =>
      cases atom with
      | char c =>
          cases t with
          | nil => simp [matchAtoms] at h
          | cons d t =>
              rw [matchAtoms] at h
              split_ifs at h with heq
              subst heq
              rw [List.countP_cons, List.countP_cons, ih h, Atom.satisfies]
      | digits n =>
          rw [matchAtoms] at h
          split_ifs at h with hdigits
          obtain ⟨rest, hrest, -⟩ := Option.map_eq_some_iff.mp h
          have hnone : (t.take n).countP p = 0 := by
            rw [List.countP_eq_zero]
            intro c hc
            rw [hp c (List.all_eq_true.mp hdigits.2 c hc)]
            exact Bool.false_ne_true
          rw [← List.take_append_drop n t, List.countP_append, hnone, ih hrest, Nat.zero_add,
            List.countP_cons_of_neg]
          exact Bool.false_ne_true

/-! ## Marks as groups -/

variable {α : Type*} {value : α → Text} {width : α → ℕ}

/-- The atom of a piece. -/
def pieceAtom (width : α → ℕ) : Char ⊕ α → Atom
  | .inl c => .char c
  | .inr a => .digits (width a)

/-- Marks that are spelled in digits are captured in order. -/
theorem matchAtoms_spell {pieces : List (Char ⊕ α)}
    (hvalue : ∀ a, .inr a ∈ pieces → (value a).length = width a ∧ (value a).all isDigit = true) :
    matchAtoms isDigit (pieces.map (pieceAtom width)) (spell value pieces) =
      some ((pieces.filterMap Sum.getRight?).map value) := by
  induction pieces with
  | nil => rfl
  | cons piece pieces ih =>
      have hrest := ih fun a ha => hvalue a (List.mem_cons_of_mem _ ha)
      cases piece with
      | inl c => simpa [pieceAtom, matchAtoms, List.filterMap_cons] using hrest
      | inr a =>
          obtain ⟨hlength, hdigits⟩ := hvalue a List.mem_cons_self
          rw [List.map_cons, pieceAtom, matchAtoms, spell_inr, ← hlength, List.take_left,
            List.drop_left, if_pos ⟨by simp, hdigits⟩, hrest]
          rfl

theorem escape_cons (c : Char) (t : Text) : escape (c :: t) = escape [c] ++ escape t := by
  simp [escape]

/-- Escaping leaves the prefixes without meaning. -/
theorem prefix_escape_iff {s : Text} (hs : ∀ c ∈ s, isMeta c = false) :
    s <+: escape t ↔ s <+: t := by
  induction s generalizing t with
  | nil => simp
  | cons c s ih =>
      cases t with
      | nil => simp [escape]
      | cons d t =>
          have hc := hs c List.mem_cons_self
          rw [escape_cons, List.cons_prefix_cons, ← ih fun e he => hs e (List.mem_cons_of_mem _ he)]
          by_cases hd : isMeta d = true
          · have hne : c ≠ d := by
              rintro rfl
              rw [hc] at hd
              contradiction
            have hback : c ≠ '\\' := by
              rintro rfl
              simp [isMeta] at hc
            simp [escape, hd, hne, hback]
          · simp [escape, hd]

theorem escape_of_plain {s : Text} (hs : ∀ c ∈ s, isMeta c = false) : escape s = s := by
  induction s with
  | nil => rfl
  | cons c s ih =>
      rw [escape_cons, ih fun d hd => hs d (List.mem_cons_of_mem _ hd), escape,
        List.flatMap_singleton, if_neg (by simp [hs c List.mem_cons_self])]
      rfl

/-- Putting groups in for the marks of an escaped text is spelling its atoms. -/
theorem spell_scan_escape {pattern : α → Text} {kinds : List α} (h : Separate pattern kinds)
    (hplain : ∀ a ∈ kinds, ∀ c ∈ pattern a, isMeta c = false) (t : Text) :
    spell (fun a => (Atom.digits (width a)).source) (scan pattern kinds (escape t)) =
      ((scan pattern kinds t).map (pieceAtom width)).flatMap Atom.source := by
  induction t using h.scan_induction with
  | nil => rfl
  | mark a ha t ih =>
      have hescape : escape (pattern a ++ t) = pattern a ++ escape t := by
        rw [escape, List.flatMap_append, ← escape, ← escape, escape_of_plain (hplain a ha)]
      rw [hescape, h.scan_append ha, h.scan_append ha, spell_inr, ih, List.map_cons,
        List.flatMap_cons, pieceAtom]
  | char c t hnone ih =>
      have hstart : ∀ a ∈ kinds, ¬pattern a <+: escape (c :: t) := by
        intro a ha
        rw [prefix_escape_iff (hplain a ha)]
        exact hnone a ha
      rw [scan_cons_of_none hnone, List.map_cons, List.flatMap_cons, pieceAtom, Atom.source, ← ih]
      rw [escape_cons] at hstart ⊢
      by_cases hc : isMeta c = true
      · have hone : escape [c] = ['\\', c] := by simp [escape, hc]
        have hsecond : ∀ a ∈ kinds, ¬pattern a <+: c :: escape t := by
          intro a ha hprefix
          obtain ⟨d, u, hcons⟩ := List.exists_cons_of_ne_nil (h.nonempty a ha)
          rw [hcons] at hprefix
          obtain ⟨rfl, -⟩ := List.cons_prefix_cons.mp hprefix
          have hplain := hplain a ha d (by simp [hcons])
          rw [hc] at hplain
          contradiction
        rw [hone] at hstart ⊢
        exact (congrArg (spell _) (scan_cons_of_none hstart)).trans
          (congrArg ('\\' :: ·) (congrArg (spell _) (scan_cons_of_none hsecond)))
      · have hone : escape [c] = [c] := by simp [escape, hc]
        rw [hone] at hstart ⊢
        exact congrArg (spell _) (scan_cons_of_none hstart)

end ObsidianMcp
