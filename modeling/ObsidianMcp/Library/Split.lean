import ObsidianMcp.Library.Text

/-! # Splitting texts at a delimiter, and comparing them without ASCII case -/

namespace ObsidianMcp

namespace Text

/-- The pieces of a text between the occurrences of a delimiter, when `skip` characters of the
last occurrence are still to be passed over. -/
def splitFrom (delimiter : Text) : ℕ → Text → List Text
  | _, [] => [[]]
  | skip + 1, _ :: t => splitFrom delimiter skip t
  | 0, c :: t =>
      if delimiter.isPrefixOf (c :: t) then [] :: splitFrom delimiter (delimiter.length - 1) t
      else (splitFrom delimiter 0 t).modifyHead (c :: ·)

/-- The pieces of a text between the occurrences of a delimiter, from left to right. -/
def splitText (delimiter : Text) (t : Text) : List Text :=
  splitFrom delimiter 0 t

def eqIgnoreAsciiCase (s t : Text) : Bool :=
  s.map Char.toLower = t.map Char.toLower

/-- The first line of a text, without its terminator. -/
def firstLine (t : Text) : Option Text :=
  if t = [] then none
  else
    match find '\n' t with
    | none => some t
    | some n =>
        let line := takeBytes n t
        some (if line.getLast? = some '\r' then line.dropLast else line)

/-- The bytes of a text from one offset to another. -/
def slice (t : Text) (start stop : ℕ) : Text :=
  takeBytes (stop - start) (dropBytes start t)

def trimStart (t : Text) : Text :=
  t.dropWhile isWhitespace

/-! ## Pieces -/

theorem splitFrom_ne_nil (delimiter : Text) (skip : ℕ) (t : Text) :
    splitFrom delimiter skip t ≠ [] := by
  fun_induction splitFrom with
  | case1 => simp
  | case2 skip c t ih => exact ih
  | case3 => simp
  | case4 c t h ih =>
      cases hsplit : splitFrom delimiter 0 t with
      | nil => exact absurd hsplit ih
      | cons => simp

theorem splitFrom_length (delimiter s t : Text) :
    splitFrom delimiter s.length (s ++ t) = splitFrom delimiter 0 t := by
  induction s with
  | nil => rfl
  | cons c s ih => exact ih

theorem splitText_of_not_infix {delimiter t : Text} (h : ¬delimiter <:+: t) :
    splitText delimiter t = [t] := by
  rw [splitText]
  induction t with
  | nil => rfl
  | cons c t ih =>
      have hprefix : delimiter.isPrefixOf (c :: t) = false := by
        by_contra hp
        rw [Bool.not_eq_false] at hp
        exact h (List.isPrefixOf_iff_prefix.mp hp).isInfix
      have htail : ¬delimiter <:+: t := fun hi => h (hi.trans (List.suffix_cons c t).isInfix)
      rw [splitFrom, hprefix, if_neg Bool.false_ne_true, ih htail, List.modifyHead_cons]

/-- The last piece of a text with an occurrence lies behind one. -/
theorem splitText_of_infix {delimiter t : Text} (hne : delimiter ≠ [])
    (h : delimiter <:+: t) :
    ∃ front first pieces last, splitText delimiter t = first :: (pieces ++ [last]) ∧
      t = front ++ delimiter ++ last := by
  have hlen : ∀ n, ∀ t : Text, t.length ≤ n → delimiter <:+: t →
      ∃ front first pieces last, splitText delimiter t = first :: (pieces ++ [last]) ∧
        t = front ++ delimiter ++ last := by
    intro n
    induction n with
    | zero =>
        intro t ht hi
        rw [List.length_eq_zero_iff.mp (Nat.le_zero.mp ht)] at hi
        exact absurd (List.infix_nil.mp hi) hne
    | succ n ih =>
        intro t ht hi
        cases t with
        | nil => exact absurd (List.infix_nil.mp hi) hne
        | cons c t =>
            rw [List.length_cons] at ht
            by_cases hprefix : delimiter.isPrefixOf (c :: t) = true
            · rcases List.isPrefixOf_iff_prefix.mp hprefix with ⟨rest, hrest⟩
              have hsplit : splitText delimiter (c :: t) = [] :: splitText delimiter rest := by
                rw [splitText, splitFrom, hprefix, if_pos rfl]
                cases delimiter with
                | nil => exact absurd rfl hne
                | cons d delimiter =>
                    rw [List.cons_append, List.cons.injEq] at hrest
                    rw [← hrest.2]
                    exact congrArg _ (splitFrom_length _ delimiter rest)
              by_cases hrestinfix : delimiter <:+: rest
              · have hshort : rest.length ≤ n := by
                  have hsum := congrArg List.length hrest
                  rw [List.length_append, List.length_cons] at hsum
                  have hpos := List.length_pos_of_ne_nil hne
                  omega
                rcases ih rest hshort hrestinfix with ⟨front, first, pieces, last, hs, heq⟩
                refine ⟨delimiter ++ front, [], first :: pieces, last, ?_, ?_⟩
                · rw [hsplit, hs, List.cons_append]
                · rw [← hrest, List.append_assoc, List.append_assoc,
                    List.append_cancel_left_eq, heq, List.append_assoc]
              · refine ⟨[], [], [], rest, ?_, ?_⟩
                · rw [hsplit, splitText_of_not_infix hrestinfix]
                  rfl
                · rw [List.nil_append, hrest]
            · have htail : delimiter <:+: t := by
                rcases List.infix_cons_iff.mp hi with hp | hi
                · exact absurd (List.isPrefixOf_iff_prefix.mpr hp) hprefix
                · exact hi
              rcases ih t (by omega) htail with ⟨front, first, pieces, last, hs, heq⟩
              refine ⟨c :: front, c :: first, pieces, last, ?_, ?_⟩
              · rw [splitText] at hs
                rw [splitText, splitFrom, if_neg hprefix, hs, List.modifyHead_cons]
              · rw [heq]
                rfl
  exact hlen t.length t le_rfl h

/-! ## Lines -/

theorem not_mem_of_mem_splitOn {sep : Char} {t line : Text} (h : line ∈ t.splitOn sep) :
    sep ∉ line := by
  induction t generalizing line with
  | nil =>
      rw [List.splitOn_nil, List.mem_singleton] at h
      simp [h]
  | cons c t ih =>
      rw [List.splitOn_cons_eq_if_modifyHead] at h
      by_cases hc : c = sep
      · rw [if_pos (beq_iff_eq.mpr hc)] at h
        rcases List.mem_cons.mp h with rfl | h
        · simp
        · exact ih h
      · rw [if_neg (by simpa using hc)] at h
        cases hsplit : t.splitOn sep with
        | nil => exact absurd hsplit (List.splitOn_ne_nil sep t)
        | cons first lines =>
            rw [hsplit, List.modifyHead_cons] at h
            rcases List.mem_cons.mp h with rfl | h
            · rw [List.mem_cons, not_or]
              exact ⟨Ne.symm hc, ih (by simp [hsplit])⟩
            · exact ih (by simp [hsplit, h])

/-- Where a line stands in its text. -/
theorem eq_of_splitOn {sep : Char} {t line : Text} {before after : List Text}
    (h : t.splitOn sep = before ++ line :: after) :
    ∃ rest, t = before.flatMap (fun l => l ++ [sep]) ++ (line ++ rest) := by
  have hlines : ∀ before : List Text,
      [sep].intercalate (before ++ line :: after) =
        before.flatMap (fun l => l ++ [sep]) ++ [sep].intercalate (line :: after) := by
    intro before
    induction before with
    | nil => rfl
    | cons l before ih =>
        rw [List.cons_append, List.intercalate_cons_of_ne_nil (by simp), ih]
        simp
  have htail : ∃ rest, [sep].intercalate (line :: after) = line ++ rest := by
    cases after with
    | nil => exact ⟨[], by simp⟩
    | cons l after => exact ⟨_, by rw [List.intercalate_cons_cons, List.append_assoc]⟩
  rcases htail with ⟨rest, hrest⟩
  exact ⟨rest, by rw [← @List.intercalate_splitOn _ t _ _ sep, h, hlines, hrest]⟩

/-! ## Trimming -/

theorem rdropWhile_append_of_exists {p : Char → Bool} {s t : Text} (h : ∃ c ∈ t, p c = false) :
    (s ++ t).rdropWhile p = s ++ t.rdropWhile p := by
  induction t using List.reverseRecOn with
  | nil => simp at h
  | append_singleton t d ih =>
      by_cases hd : p d = true
      · rw [← List.append_assoc, List.rdropWhile_concat_pos _ _ _ hd,
          List.rdropWhile_concat_pos _ _ _ hd]
        apply ih
        rcases h with ⟨c, hc, hp⟩
        rcases List.mem_append.mp hc with hc | hc
        · exact ⟨c, hc, hp⟩
        · rw [List.mem_singleton.mp hc, hd] at hp
          contradiction
      · rw [← List.append_assoc, List.rdropWhile_concat_neg _ _ _ hd,
          List.rdropWhile_concat_neg _ _ _ hd, List.append_assoc]

theorem rdropWhile_append_of_all {p : Char → Bool} {s t : Text} (h : ∀ c ∈ t, p c) :
    (s ++ t).rdropWhile p = s.rdropWhile p := by
  induction t using List.reverseRecOn with
  | nil => rw [List.append_nil]
  | append_singleton t d ih =>
      rw [← List.append_assoc, List.rdropWhile_concat_pos _ _ _ (h d (by simp))]
      exact ih fun c hc => h c (by simp [hc])

theorem trim_rdropWhile (t : Text) : trim (t.rdropWhile isWhitespace) = trim t := by
  have hall : ∀ c ∈ t.rtakeWhile isWhitespace, isWhitespace c := fun c => List.mem_rtakeWhile_imp
  have hsplit := List.rdropWhile_append_rtakeWhile (p := isWhitespace) (l := t)
  generalize t.rdropWhile isWhitespace = front at hsplit
  rw [← hsplit, trim, trim, List.dropWhile_append]
  by_cases hnil : front.dropWhile isWhitespace = []
  · simp only [hnil, List.isEmpty_nil, if_true, List.dropWhile_eq_nil_iff.mpr hall]
  · rw [if_neg (by simpa using hnil), rdropWhile_append_of_all hall]

/-- Trimming the front leaves the length of what the end is trimmed to, or less. -/
theorem length_trim_le (t : Text) : (trim t).length ≤ (t.rdropWhile isWhitespace).length := by
  have hsplit := List.takeWhile_append_dropWhile (p := isWhitespace) (l := t)
  by_cases h : ∃ c ∈ t.dropWhile isWhitespace, isWhitespace c = false
  · have hlen := congrArg List.length (rdropWhile_append_of_exists (s := t.takeWhile isWhitespace) h)
    rw [hsplit, List.length_append] at hlen
    rw [trim]
    omega
  · have hall : ∀ c ∈ t.dropWhile isWhitespace, isWhitespace c := by simpa using h
    have hnil : trim t = [] := List.rdropWhile_eq_nil_iff.mpr hall
    simp [hnil]

/-! ## Comparison without case -/

theorem eqIgnoreAsciiCase_iff {s t : Text} :
    eqIgnoreAsciiCase s t = true ↔ s.map Char.toLower = t.map Char.toLower := by
  simp [eqIgnoreAsciiCase]

theorem eqIgnoreAsciiCase_refl (t : Text) : eqIgnoreAsciiCase t t = true :=
  eqIgnoreAsciiCase_iff.mpr rfl

theorem eqIgnoreAsciiCase_comm {s t : Text} :
    eqIgnoreAsciiCase s t = true ↔ eqIgnoreAsciiCase t s = true := by
  rw [eqIgnoreAsciiCase_iff, eqIgnoreAsciiCase_iff, eq_comm]

theorem eqIgnoreAsciiCase_trans {s t r : Text} (h : eqIgnoreAsciiCase s t = true)
    (h' : eqIgnoreAsciiCase t r = true) : eqIgnoreAsciiCase s r = true := by
  rw [eqIgnoreAsciiCase_iff] at *
  rw [h, h']

theorem length_eq_of_eqIgnoreAsciiCase {s t : Text} (h : eqIgnoreAsciiCase s t = true) :
    s.length = t.length := by
  have hlen := congrArg List.length (eqIgnoreAsciiCase_iff.mp h)
  rwa [List.length_map, List.length_map] at hlen

theorem isWhitespace_of_printable {c : Char} (h : 0x20 < c.toNat ∧ c.toNat < 0x7F) :
    isWhitespace c = false := by
  simp only [isWhitespace, Bool.or_eq_false_iff, Bool.and_eq_false_iff, decide_eq_false_iff_not,
    beq_eq_false_iff_ne]
  omega

/-- Only the capital letters change, by the distance of the alphabets. -/
theorem toLower_cases (c : Char) :
    c.toLower = c ∨ 65 ≤ c.toNat ∧ c.toNat ≤ 90 ∧ c.toLower.toNat = c.toNat + 32 := by
  by_cases h : c.toLower = c
  · exact .inl h
  · right
    unfold Char.toLower at h ⊢
    split
    · rename_i hc
      have hbounds : 65 ≤ c.toNat ∧ c.toNat ≤ 90 := hc
      have hval : (c.val + 32).toNat = c.toNat + 32 := by
        rw [UInt32.toNat_add]
        have h32 : (32 : UInt32).toNat = 32 := rfl
        have hnat : c.val.toNat = c.toNat := rfl
        omega
      exact ⟨hbounds.1, hbounds.2, hval⟩
    · rename_i hc
      exact absurd (dif_neg hc) h

theorem isWhitespace_toLower (c : Char) : isWhitespace c.toLower = isWhitespace c := by
  obtain h | ⟨hlow, hhigh, hlower⟩ := toLower_cases c
  · rw [h]
  · rw [isWhitespace_of_printable (by omega), isWhitespace_of_printable (by omega)]

theorem trim_map_toLower (t : Text) : trim (t.map Char.toLower) = (trim t).map Char.toLower := by
  have hdrop : ∀ t : Text, (t.map Char.toLower).dropWhile isWhitespace =
      (t.dropWhile isWhitespace).map Char.toLower := by
    intro t
    induction t with
    | nil => rfl
    | cons c t ih =>
        rw [List.map_cons, List.dropWhile_cons, List.dropWhile_cons, isWhitespace_toLower, ih]
        split <;> rfl
  rw [trim, trim, hdrop, List.rdropWhile, ← List.map_reverse, hdrop, ← List.map_reverse,
    List.rdropWhile]

theorem length_trim_eq {s t : Text} (h : eqIgnoreAsciiCase s t = true) :
    (trim s).length = (trim t).length := by
  rw [← List.length_map Char.toLower, ← trim_map_toLower, eqIgnoreAsciiCase_iff.mp h,
    trim_map_toLower, List.length_map]

end Text

end ObsidianMcp
