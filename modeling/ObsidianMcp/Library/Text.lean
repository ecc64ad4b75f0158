import Mathlib.Data.List.DropRight
import Mathlib.Tactic

/-! # UTF-8 text addressed by byte offsets

A text is the list of its characters, so it is valid UTF-8 by construction. Offsets
count bytes: every position named below is the length of some prefix. -/

namespace ObsidianMcp

abbrev Text := List Char

namespace Text

instance lawfulBEq : LawfulBEq Text := inferInstance

/-- The number of bytes in the UTF-8 encoding. -/
def byteLen : Text → ℕ
  | [] => 0
  | c :: t => c.utf8Size + byteLen t

/-- The text from byte offset `n` on. -/
def dropBytes : ℕ → Text → Text
  | 0, t => t
  | _ + 1, [] => []
  | n + 1, c :: t => dropBytes (n + 1 - c.utf8Size) t

/-- The text before byte offset `n`. -/
def takeBytes : ℕ → Text → Text
  | 0, _ => []
  | _ + 1, [] => []
  | n + 1, c :: t => c :: takeBytes (n + 1 - c.utf8Size) t

/-- The byte offset of the first occurrence of a character. -/
def find (c : Char) : Text → Option ℕ
  | [] => none
  | d :: t => if d = c then some 0 else (find c t).map (d.utf8Size + ·)

theorem not_of_all_not {p : Char → Bool} {t : Text} (h : (t.all fun c => !p c) = true) :
    ∀ c ∈ t, p c = false := by
  simpa using h

/-! ## Byte offsets of prefixes -/

@[simp] theorem byteLen_nil : byteLen [] = 0 := rfl

@[simp] theorem byteLen_cons (c : Char) (t : Text) :
    byteLen (c :: t) = c.utf8Size + byteLen t := rfl

@[simp] theorem byteLen_append (s t : Text) : byteLen (s ++ t) = byteLen s + byteLen t := by
  induction s with
  | nil => simp
  | cons c s ih => simp [ih, Nat.add_assoc]

theorem byteLen_eq_zero {t : Text} : byteLen t = 0 ↔ t = [] := by
  cases t with
  | nil => simp
  | cons c t => simp [(Char.utf8Size_pos c).ne']

@[simp] theorem dropBytes_zero (t : Text) : dropBytes 0 t = t := by
  cases t <;> rfl

@[simp] theorem dropBytes_nil (n : ℕ) : dropBytes n [] = [] := by
  cases n <;> rfl

@[simp] theorem takeBytes_zero (t : Text) : takeBytes 0 t = [] := by
  cases t <;> rfl

@[simp] theorem takeBytes_nil (n : ℕ) : takeBytes n [] = [] := by
  cases n <;> rfl

theorem dropBytes_cons_add (c : Char) (n : ℕ) (t : Text) :
    dropBytes (c.utf8Size + n) (c :: t) = dropBytes n t := by
  obtain ⟨m, hm⟩ := Nat.exists_eq_add_of_lt (Char.utf8Size_pos c)
  rw [Nat.zero_add] at hm
  rw [hm, Nat.add_right_comm, dropBytes, hm]
  congr 1
  omega

theorem takeBytes_cons_add (c : Char) (n : ℕ) (t : Text) :
    takeBytes (c.utf8Size + n) (c :: t) = c :: takeBytes n t := by
  obtain ⟨m, hm⟩ := Nat.exists_eq_add_of_lt (Char.utf8Size_pos c)
  rw [Nat.zero_add] at hm
  rw [hm, Nat.add_right_comm, takeBytes, hm]
  congr 2
  omega

/-- Dropping further bytes after a whole prefix drops them from the rest. -/
theorem dropBytes_append_add (s t : Text) (n : ℕ) :
    dropBytes (byteLen s + n) (s ++ t) = dropBytes n t := by
  induction s with
  | nil => simp
  | cons c s ih => rw [byteLen_cons, Nat.add_assoc, List.cons_append, dropBytes_cons_add, ih]

theorem takeBytes_append_add (s t : Text) (n : ℕ) :
    takeBytes (byteLen s + n) (s ++ t) = s ++ takeBytes n t := by
  induction s with
  | nil => simp
  | cons c s ih =>
      rw [byteLen_cons, Nat.add_assoc, List.cons_append, takeBytes_cons_add, ih,
        List.cons_append]

@[simp] theorem dropBytes_append (s t : Text) : dropBytes (byteLen s) (s ++ t) = t := by
  simpa using dropBytes_append_add s t 0

@[simp] theorem takeBytes_append (s t : Text) : takeBytes (byteLen s) (s ++ t) = s := by
  simpa using takeBytes_append_add s t 0

@[simp] theorem dropBytes_byteLen (t : Text) : dropBytes (byteLen t) t = [] := by
  simpa using dropBytes_append t []

/-- A line and its line feed are one byte longer than the line. -/
theorem dropBytes_line (l rest : Text) :
    dropBytes (byteLen l + 1) (l ++ '\n' :: rest) = rest := by
  rw [dropBytes_append_add]
  exact (dropBytes_cons_add '\n' 0 rest).trans (dropBytes_zero rest)

theorem length_dropBytes_le (n : ℕ) (t : Text) : (dropBytes n t).length ≤ t.length := by
  fun_induction dropBytes with
  | case1 t => exact le_rfl
  | case2 n => exact le_rfl
  | case3 n c t ih => exact ih.trans (Nat.le_succ _)

/-! ## Finding a character -/

theorem find_eq_none {c : Char} {t : Text} : find c t = none ↔ c ∉ t := by
  induction t with
  | nil => simp [find]
  | cons d t ih =>
      by_cases h : d = c
      · simp [find, h]
      · simp [find, h, ih, Ne.symm h]

/-- The first occurrence splits the text into a part without the character and the
part that starts with it. -/
theorem find_eq_some {c : Char} {t : Text} {n : ℕ} :
    find c t = some n ↔ ∃ s rest, t = s ++ c :: rest ∧ c ∉ s ∧ n = byteLen s := by
  induction t generalizing n with
  | nil => simp [find]
  | cons d t ih =>
      by_cases h : d = c
      · subst d
        constructor
        · intro hn
          simp only [find, if_true, Option.some.injEq] at hn
          exact ⟨[], t, rfl, by simp, by simp [← hn]⟩
        · rintro ⟨s, rest, ht, hs, rfl⟩
          cases s with
          | nil => simp [find]
          | cons e s =>
              obtain ⟨rfl, -⟩ := List.cons.inj ht
              simp at hs
      · simp only [find, h, if_false, Option.map_eq_some_iff]
        constructor
        · rintro ⟨m, hm, rfl⟩
          obtain ⟨s, rest, rfl, hs, rfl⟩ := ih.mp hm
          exact ⟨d :: s, rest, rfl, by simp [hs, Ne.symm h], rfl⟩
        · rintro ⟨s, rest, ht, hs, rfl⟩
          cases s with
          | nil =>
              obtain ⟨rfl, -⟩ := List.cons.inj ht
              exact absurd rfl h
          | cons e s =>
              obtain ⟨rfl, rfl⟩ := List.cons.inj ht
              exact ⟨byteLen s, ih.mpr ⟨s, rest, rfl, fun hc => hs (by simp [hc]), rfl⟩, rfl⟩

theorem find_append_cons {c : Char} {s : Text} (hs : c ∉ s) (rest : Text) :
    find c (s ++ c :: rest) = some (byteLen s) :=
  find_eq_some.mpr ⟨s, rest, rfl, hs, rfl⟩

/-- A text with an occurrence gets strictly shorter when it is dropped. -/
theorem length_dropBytes_find {c : Char} {t : Text} {n : ℕ} (h : find c t = some n) :
    (dropBytes (n + 1) t).length < t.length := by
  obtain ⟨s, rest, rfl, -, rfl⟩ := find_eq_some.mp h
  rw [dropBytes_append_add]
  have hdrop := length_dropBytes_le (1 - c.utf8Size) rest
  simp only [dropBytes, Nat.zero_add, List.length_append, List.length_cons]
  omega

/-! ## Whitespace and trimming -/

/-- The Unicode `White_Space` property. -/
def isWhitespace (c : Char) : Bool :=
  let n := c.toNat
  (9 ≤ n && n ≤ 13) || n == 0x20 || n == 0x85 || n == 0xA0 || n == 0x1680 ||
    (0x2000 ≤ n && n ≤ 0x200A) || n == 0x2028 || n == 0x2029 || n == 0x202F ||
    n == 0x205F || n == 0x3000

/-- The text without leading and trailing whitespace. -/
def trim (t : Text) : Text :=
  (t.dropWhile isWhitespace).rdropWhile isWhitespace

/-- The text without any trailing repetition of one character. -/
def trimEndMatches (c : Char) (t : Text) : Text :=
  t.rdropWhile (· == c)

/-- The text after a prefix, if it has that prefix. -/
def stripPrefix (p t : Text) : Option Text :=
  if p.isPrefixOf t then some (t.drop p.length) else none

theorem trim_eq_nil {t : Text} : trim t = [] ↔ ∀ c ∈ t, isWhitespace c = true := by
  rw [trim, List.rdropWhile_eq_nil_iff]
  constructor
  · intro h c hc
    by_contra hw
    have hmem : c ∈ t.dropWhile isWhitespace := by
      rcases List.mem_append.mp ((List.takeWhile_append_dropWhile (p := isWhitespace)).symm ▸ hc :
        c ∈ t.takeWhile isWhitespace ++ t.dropWhile isWhitespace) with htake | hdrop
      · exact absurd (List.mem_takeWhile_imp htake) hw
      · exact hdrop
    exact hw (h c hmem)
  · intro h c hc
    exact h c ((List.dropWhile_suffix isWhitespace).subset hc)

theorem trimEndMatches_append {c : Char} {t s : Text} (hs : ∀ d ∈ s, d = c) :
    trimEndMatches c (t ++ s) = trimEndMatches c t := by
  induction s using List.reverseRecOn with
  | nil => simp
  | append_singleton s d ih =>
      have hd : d = c := hs d (by simp)
      rw [trimEndMatches, ← List.append_assoc, List.rdropWhile_concat_pos _ _ _ (by simp [hd])]
      exact ih (fun e he => hs e (by simp [he]))

end Text

end ObsidianMcp
