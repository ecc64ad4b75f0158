import ObsidianMcp.Library.Text

/-! # Context-dependent lower-casing and Unicode composition

The tables are parameters with the properties of their ASCII part. A capital sigma is lowered by
the characters around it; every other character by its own mapping. -/

namespace ObsidianMcp

/-- Whether `c` is the ASCII letter `small` in either case. -/
def isLetter (small : Char) (c : Char) : Bool :=
  c = small || c = small.toUpper

/-- Character tables for case conversion and a composition of texts. -/
structure Unicode where
  lower : Char → Text
  isCased : Char → Bool
  isCaseIgnorable : Char → Bool
  nfc : Text → Text
  lower_ne_nil : ∀ c, lower c ≠ []
  lower_dot : lower '.' = ['.']
  lower_slash : lower '/' = ['/']
  lower_m : ∀ c, isLetter 'm' c → lower c = ['m']
  lower_d : ∀ c, isLetter 'd' c → lower c = ['d']
  eq_dot : ∀ c, '.' ∈ lower c → c = '.'
  eq_slash : ∀ c, '/' ∈ lower c → c = '/'
  letter_m : ∀ c, 'm' ∈ lower c → isLetter 'm' c
  letter_d : ∀ c, 'd' ∈ lower c → isLetter 'd' c
  ignorable_dot : isCaseIgnorable '.' = true
  ignorable_slash : isCaseIgnorable '/' = false
  cased_slash : isCased '/' = false
  ignorable_sigma : isCaseIgnorable 'Σ' = false
  cased_sigma : isCased 'Σ' = true
  ignorable_m : ∀ c, isLetter 'm' c → isCaseIgnorable c = false
  cased_m : ∀ c, isLetter 'm' c → isCased c = true
  /-- ASCII characters never compose with what precedes them. -/
  nfc_concat : ∀ t c, c.toNat < 128 → nfc (t ++ [c]) = nfc t ++ [c]
  /-- No character decomposes into a dot, an `m` or a `d`. -/
  nfc_last : ∀ t s c, c = '.' ∨ isLetter 'm' c ∨ isLetter 'd' c → nfc t = s ++ [c] →
    ∃ r, t = r ++ [c]
  nfc_slash : ∀ s t, nfc (s ++ '/' :: t) = nfc s ++ '/' :: nfc t
  slash_of_nfc : ∀ t, '/' ∈ nfc t → '/' ∈ t
  nfc_eq_nil : ∀ t, nfc t = [] ↔ t = []

namespace Unicode

variable (u : Unicode)

def ignorableThenCased (t : Text) : Bool :=
  (t.dropWhile u.isCaseIgnorable).head?.any u.isCased

/-- A capital sigma becomes a final sigma at the end of a word. -/
def lowerSigma (before after : Text) : Char :=
  if u.ignorableThenCased before && !u.ignorableThenCased after then 'ς' else 'σ'

/-- The lower case of a text between two others; the text before is given backwards. -/
def lowerIn (before after : Text) : Text → Text
  | [] => []
  | c :: rest =>
      (if c = 'Σ' then [u.lowerSigma before (rest ++ after)] else u.lower c) ++
        lowerIn (c :: before) after rest

def toLowercase (t : Text) : Text :=
  u.lowerIn [] [] t

/-- The text ends with `.md` in any case. -/
def EndsWithMd (t : Text) : Prop :=
  ∃ r m d, t = r ++ ['.', m, d] ∧ isLetter 'm' m ∧ isLetter 'd' d

/-- The text ends with a capital sigma, up to ignorable characters, that ends a word. -/
def EndsWithFinalSigma (t : Text) : Prop :=
  ∃ s r, t = s ++ 'Σ' :: r ∧ (∀ c ∈ r, u.isCaseIgnorable c) ∧ u.ignorableThenCased s.reverse

variable {u}

theorem lowerIn_append (before after s t : Text) :
    u.lowerIn before after (s ++ t) =
      u.lowerIn before (t ++ after) s ++ u.lowerIn (s.reverse ++ before) after t := by
  induction s generalizing before with
  | nil => rfl
  | cons c s ih =>
      simp only [List.cons_append, lowerIn, ih, List.append_assoc, List.reverse_cons,
        List.nil_append]

/-! ## Contexts -/

theorem ignorableThenCased_of_all {t s : Text} (h : ∀ c ∈ t, u.isCaseIgnorable c) :
    u.ignorableThenCased (t ++ s) = u.ignorableThenCased s := by
  induction t with
  | nil => rfl
  | cons c t ih =>
      have hc : u.isCaseIgnorable c = true := h c List.mem_cons_self
      rw [ignorableThenCased, List.cons_append, List.dropWhile_cons_of_pos hc]
      exact ih fun d hd => h d (List.mem_cons_of_mem _ hd)

theorem ignorableThenCased_of_exists {t : Text} (h : ∃ c ∈ t, u.isCaseIgnorable c = false)
    (s : Text) : u.ignorableThenCased (t ++ s) = u.ignorableThenCased t := by
  induction t with
  | nil => simp at h
  | cons c t ih =>
      by_cases hc : u.isCaseIgnorable c = true
      · have hrest : ∃ c ∈ t, u.isCaseIgnorable c = false := by
          rcases h with ⟨d, hd, hign⟩
          rcases List.mem_cons.mp hd with rfl | hd
          · rw [hc] at hign
            contradiction
          · exact ⟨d, hd, hign⟩
        simpa only [ignorableThenCased, List.cons_append, List.dropWhile_cons_of_pos hc] using
          ih hrest
      · simp only [ignorableThenCased, List.cons_append, List.dropWhile_cons_of_neg hc,
          List.head?_cons]

theorem ignorableThenCased_slash (t s : Text) :
    u.ignorableThenCased (t ++ '/' :: s) = u.ignorableThenCased t := by
  by_cases h : ∃ c ∈ t, u.isCaseIgnorable c = false
  · exact ignorableThenCased_of_exists h _
  · have hall : ∀ c ∈ t, u.isCaseIgnorable c := by simpa using h
    have hslash : u.ignorableThenCased ('/' :: s) = false := by
      simp [ignorableThenCased, u.ignorable_slash, u.cased_slash]
    have hnil : u.ignorableThenCased (t ++ []) = false := by
      rw [ignorableThenCased_of_all hall]
      rfl
    rw [ignorableThenCased_of_all hall, hslash]
    simpa using hnil.symm

/-- Only the context of the sigmas matters to the lower case of a text. -/
theorem lowerIn_congr {before before' after after' t : Text}
    (h : ∀ s r, t = s ++ 'Σ' :: r →
      u.lowerSigma (s.reverse ++ before) (r ++ after) =
        u.lowerSigma (s.reverse ++ before') (r ++ after')) :
    u.lowerIn before after t = u.lowerIn before' after' t := by
  induction t generalizing before before' with
  | nil => rfl
  | cons c t ih =>
      have htail : u.lowerIn (c :: before) after t = u.lowerIn (c :: before') after' t := by
        apply ih
        intro s r hs
        simpa using h (c :: s) r (by rw [hs, List.cons_append])
      rw [lowerIn, lowerIn, htail]
      by_cases hc : c = 'Σ'
      · have hsigma := h [] t (by rw [hc]; rfl)
        simp only [List.reverse_nil, List.nil_append] at hsigma
        simp only [hc, if_true, hsigma]
      · simp only [hc, if_false]

/-- Lower-casing treats the two sides of a slash apart. -/
theorem toLowercase_slash (s t : Text) :
    u.toLowercase (s ++ '/' :: t) = u.toLowercase s ++ '/' :: u.toLowercase t := by
  have hleft : u.lowerIn [] ('/' :: t ++ []) s = u.lowerIn [] [] s := by
    apply lowerIn_congr
    intro a r _
    simp only [lowerSigma, List.append_nil, ignorableThenCased_slash]
  have hright : u.lowerIn ('/' :: (s.reverse ++ [])) [] t = u.lowerIn [] [] t := by
    apply lowerIn_congr
    intro a r _
    simp only [lowerSigma, List.append_nil, ignorableThenCased_slash]
  rw [toLowercase, lowerIn_append, hleft, lowerIn, if_neg (by decide), u.lower_slash, hright]
  rfl

/-! ## The `.md` suffix -/

/-- What `.md` becomes behind a text. -/
theorem lowerIn_md {m d : Char} (hm : isLetter 'm' m) (hd : isLetter 'd' d) (before : Text) :
    u.lowerIn before [] ['.', m, d] = ['.', 'm', 'd'] := by
  have hmsigma : m ≠ 'Σ' := by
    intro h
    rw [h] at hm
    exact absurd hm (by decide)
  have hdsigma : d ≠ 'Σ' := by
    intro h
    rw [h] at hd
    exact absurd hd (by decide)
  simp only [lowerIn, if_neg hmsigma, if_neg hdsigma, if_neg (show ('.' : Char) ≠ 'Σ' by decide),
    u.lower_dot, u.lower_m m hm, u.lower_d d hd]
  rfl

theorem ignorableThenCased_md {m d : Char} (hm : isLetter 'm' m) :
    u.ignorableThenCased ['.', m, d] = true := by
  simp [ignorableThenCased, u.ignorable_dot, u.ignorable_m m hm,
    u.cased_m m hm]

/-- Without a final sigma the suffix leaves the rest of the lower case alone. -/
theorem toLowercase_md {m d : Char} (hm : isLetter 'm' m) (hd : isLetter 'd' d) {t : Text}
    (ht : ¬u.EndsWithFinalSigma t) :
    u.toLowercase (t ++ ['.', m, d]) = u.toLowercase t ++ ['.', 'm', 'd'] := by
  have hleft : u.lowerIn [] (['.', m, d] ++ []) t = u.lowerIn [] [] t := by
    apply lowerIn_congr
    intro s r hs
    simp only [lowerSigma, List.append_nil]
    by_cases hr : ∃ c ∈ r, u.isCaseIgnorable c = false
    · rw [ignorableThenCased_of_exists hr]
    · have hall : ∀ c ∈ r, u.isCaseIgnorable c := by simpa using hr
      have hbefore : u.ignorableThenCased s.reverse = false := by
        by_contra h
        exact ht ⟨s, r, hs, hall, by simpa using h⟩
      rw [hbefore, Bool.false_and, Bool.false_and]
  rw [toLowercase, lowerIn_append, hleft, lowerIn_md hm hd]
  rfl

/-- With a final sigma it does not. -/
theorem toLowercase_md_ne {m d : Char} (hm : isLetter 'm' m) {t : Text}
    (ht : u.EndsWithFinalSigma t) (w : Text) :
    u.toLowercase (t ++ ['.', m, d]) ≠ u.toLowercase t ++ w := by
  rcases ht with ⟨s, r, rfl, hr, hs⟩
  have hprefix : ∀ x, u.lowerIn [] ('Σ' :: x ++ []) s = u.lowerIn [] ['Σ'] s := by
    intro x
    apply lowerIn_congr
    intro a b _
    have hsigma : ∀ y, u.ignorableThenCased (b ++ 'Σ' :: y) =
        u.ignorableThenCased (b ++ ['Σ']) := by
      intro y
      have hex : ∃ c ∈ b ++ ['Σ'], u.isCaseIgnorable c = false :=
        ⟨'Σ', by simp, u.ignorable_sigma⟩
      simpa using ignorableThenCased_of_exists hex y
    simp only [lowerSigma, List.append_nil, hsigma]
  have hend : u.ignorableThenCased r = false := by
    have hnil := ignorableThenCased_of_all (s := []) hr
    rw [List.append_nil] at hnil
    rw [hnil]
    rfl
  have hmd : u.ignorableThenCased (r ++ ['.', m, d]) = true := by
    rw [ignorableThenCased_of_all hr, ignorableThenCased_md hm]
  intro h
  have hlong : u.toLowercase ((s ++ 'Σ' :: r) ++ ['.', m, d]) =
      u.lowerIn [] ['Σ'] s ++ 'σ' :: u.lowerIn ('Σ' :: (s.reverse ++ [])) [] (r ++ ['.', m, d]) := by
    rw [toLowercase, List.append_assoc, lowerIn_append, List.cons_append, hprefix, lowerIn]
    simp only [if_true, lowerSigma, List.append_nil, hmd, Bool.not_true, Bool.and_false,
      Bool.false_eq_true, if_false, List.singleton_append]
  have hshort : u.toLowercase (s ++ 'Σ' :: r) =
      u.lowerIn [] ['Σ'] s ++ 'ς' :: u.lowerIn ('Σ' :: (s.reverse ++ [])) [] r := by
    rw [toLowercase, lowerIn_append, hprefix, lowerIn]
    simp only [if_true, lowerSigma, List.append_nil, hs, hend, Bool.not_false, Bool.and_self,
      List.singleton_append]
  rw [hlong, hshort, List.append_assoc, List.append_cancel_left_eq, List.cons_append,
    List.cons.injEq] at h
  exact absurd h.1 (by decide)

/-- The last character of a lower case comes from the last character. -/
theorem exists_concat_of_lowerIn {before after t s : Text} {x : Char}
    (h : u.lowerIn before after t = s ++ [x]) :
    ∃ r c, t = r ++ [c] ∧ u.lowerIn before (c :: after) r ++
      (if c = 'Σ' then [u.lowerSigma (r.reverse ++ before) after] else u.lower c) = s ++ [x] := by
  rcases List.eq_nil_or_concat t with rfl | ⟨r, c, rfl⟩
  · simp [lowerIn] at h
  · refine ⟨r, c, List.concat_eq_append, ?_⟩
    rw [List.concat_eq_append, lowerIn_append] at h
    simpa [lowerIn] using h

/-! ## A part of the tables -/

/-- Capital letters of the basic Latin and Greek blocks. -/
def isBasicUpper (c : Char) : Bool :=
  (0x41 ≤ c.toNat && c.toNat ≤ 0x5A) || (0x391 ≤ c.toNat && c.toNat ≤ 0x3A9)

def isBasicLower (c : Char) : Bool :=
  (0x61 ≤ c.toNat && c.toNat ≤ 0x7A) || (0x3B1 ≤ c.toNat && c.toNat ≤ 0x3C9)

def basicLower (c : Char) : Text :=
  if isBasicUpper c then [Char.ofNat (c.toNat + 32)] else [c]

theorem toNat_ofNat_add {c : Char} (h : isBasicUpper c = true) :
    (Char.ofNat (c.toNat + 32)).toNat = c.toNat + 32 := by
  have hbound : c.toNat ≤ 0x3A9 := by
    simp only [isBasicUpper, Bool.or_eq_true, Bool.and_eq_true, decide_eq_true_eq] at h
    omega
  rw [Char.ofNat, dif_pos (.inl (by omega))]
  rfl

theorem of_mem_basicLower {c x : Char} (h : x ∈ basicLower c) :
    c = x ∨ isBasicUpper c = true ∧ x.toNat = c.toNat + 32 := by
  rw [basicLower] at h
  by_cases hc : isBasicUpper c = true
  · rw [if_pos hc, List.mem_singleton] at h
    exact .inr ⟨hc, by rw [h, toNat_ofNat_add hc]⟩
  · rw [if_neg hc, List.mem_singleton] at h
    exact .inl h.symm

theorem eq_or_eq_of_isLetter {small c : Char} (h : isLetter small c = true) :
    c = small ∨ c = small.toUpper := by
  simpa [isLetter] using h

/-- A character below the capital letters is only the lower case of itself. -/
theorem eq_of_mem_basicLower {c x : Char} (hx : x.toNat < 0x61) (h : x ∈ basicLower c) :
    c = x := by
  rcases of_mem_basicLower h with rfl | ⟨hc, hnat⟩
  · rfl
  · simp only [isBasicUpper, Bool.or_eq_true, Bool.and_eq_true, decide_eq_true_eq] at hc
    omega

/-- The tables on the basic Latin and Greek letters, for texts that are composed already. -/
def basic : Unicode where
  lower := basicLower
  isCased c := isBasicUpper c || isBasicLower c
  isCaseIgnorable c := c = '.' || c = '\''
  nfc t := t
  lower_ne_nil c := by
    unfold basicLower
    split <;> simp
  lower_dot := by decide
  lower_slash := by decide
  lower_m c h := by rcases eq_or_eq_of_isLetter h with rfl | rfl <;> decide
  lower_d c h := by rcases eq_or_eq_of_isLetter h with rfl | rfl <;> decide
  eq_dot c h := eq_of_mem_basicLower (by decide) h
  eq_slash c h := eq_of_mem_basicLower (by decide) h
  letter_m c h := by
    rcases of_mem_basicLower h with rfl | ⟨-, hnat⟩
    · decide
    · have hc : c = 'M' := by
        apply Char.toNat_inj.mp
        have hcode : 'm'.toNat = 'M'.toNat + 32 := by decide
        omega
      rw [hc]
      decide
  letter_d c h := by
    rcases of_mem_basicLower h with rfl | ⟨-, hnat⟩
    · decide
    · have hc : c = 'D' := by
        apply Char.toNat_inj.mp
        have hcode : 'd'.toNat = 'D'.toNat + 32 := by decide
        omega
      rw [hc]
      decide
  ignorable_dot := by decide
  ignorable_slash := by decide
  cased_slash := by decide
  ignorable_sigma := by decide
  cased_sigma := by decide
  ignorable_m c h := by rcases eq_or_eq_of_isLetter h with rfl | rfl <;> decide
  cased_m c h := by rcases eq_or_eq_of_isLetter h with rfl | rfl <;> decide
  nfc_concat _ _ _ := rfl
  nfc_last _ s _ _ h := ⟨s, h⟩
  nfc_slash _ _ := rfl
  slash_of_nfc _ h := h
  nfc_eq_nil _ := Iff.rfl

end Unicode

end ObsidianMcp
