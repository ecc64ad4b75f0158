import ObsidianMcp.Library.Replace

/-! # Marks in a text

A scan finds the marks of a text from the left. Replacing one mark after the other is replacing
all that the scan finds, when no mark begins inside another or inside what replaces it. -/

namespace ObsidianMcp.Text

variable {α : Type*} {p q r s t u : Text}

/-- A text that never begins inside another, whatever follows. -/
def NeverIn (p s : Text) : Prop :=
  ∀ u ∈ s.tails, u ≠ [] → ¬u <+: p ∧ ¬p <+: u

instance (p s : Text) : Decidable (NeverIn p s) :=
  inferInstanceAs (Decidable (∀ u ∈ s.tails, _))

theorem neverIn_nil (p : Text) : NeverIn p [] := by
  intro u hu hne
  simp_all

theorem NeverIn.tail {c : Char} (h : NeverIn p (c :: s)) : NeverIn p s := by
  intro u hu
  exact h u (by simp [List.tails, hu])

theorem NeverIn.not_isPrefix (h : NeverIn p s) (hs : s ≠ []) (t : Text) : ¬p <+: s ++ t := by
  intro hp
  obtain ⟨hsp, hps⟩ := h s (by simp) hs
  rcases List.prefix_or_prefix_of_prefix hp (List.prefix_append s t) with hle | hle
  · exact hps hle
  · exact hsp hle

/-- A text whose first character is missing never begins. -/
theorem neverIn_of_not_mem {c : Char} (hs : c ∉ s) : NeverIn (c :: p) s := by
  intro u hu hne
  cases u with
  | nil => contradiction
  | cons d u =>
      have hd : d ∈ s := ((List.mem_tails _ _).mp hu).subset List.mem_cons_self
      have hdc : d ≠ c := fun heq => hs (heq ▸ hd)
      refine ⟨?_, ?_⟩
      · intro hprefix
        exact hdc (List.cons_prefix_cons.mp hprefix).1
      · intro hprefix
        exact hdc (List.cons_prefix_cons.mp hprefix).1.symm

theorem NeverIn.suffix (h : NeverIn p s) (hu : u <:+ s) : NeverIn p u := by
  intro w hw
  exact h w ((List.mem_tails _ _).mpr (((List.mem_tails _ _).mp hw).trans hu))

theorem NeverIn.infix_append (h : NeverIn p s) (t : Text) : p <:+: s ++ t ↔ p <:+: t := by
  induction s with
  | nil => rfl
  | cons c s ih =>
      rw [List.cons_append, List.infix_cons_iff, ih h.tail, or_iff_right]
      exact h.not_isPrefix (by simp) t

/-! ## Replacing -/

theorem replace_cons_of_ne {c : Char} (h : ¬p <+: c :: t) :
    replace p r (c :: t) = c :: replace p r t := by
  rw [replace, replaceFrom, if_neg]
  · rfl
  · rwa [List.isPrefixOf_iff_prefix]

/-- A text is passed over where the pattern never begins. -/
theorem replace_append_of_neverIn (h : NeverIn p s) (t : Text) :
    replace p r (s ++ t) = s ++ replace p r t := by
  induction s with
  | nil => rfl
  | cons c s ih =>
      rw [List.cons_append, replace_cons_of_ne, ih h.tail, List.cons_append]
      exact h.not_isPrefix (by simp) t

/-- Replacing creates no occurrence of a text without the characters that come in. -/
theorem prefix_of_prefix_replace {d : Char} (hd : d ∉ q) (hp : p ≠ [])
    (h : q <+: replace p (d :: r) t) : q <+: t := by
  induction q generalizing t with
  | nil => exact List.nil_prefix
  | cons c q ih =>
      rw [List.mem_cons, not_or] at hd
      by_cases hprefix : p <+: t
      · obtain ⟨rest, rfl⟩ := hprefix
        rw [replace_pattern p _ _ hp, List.cons_append] at h
        exact absurd (List.cons_prefix_cons.mp h).1.symm hd.1
      · cases t with
        | nil =>
            rw [replace_nil] at h
            simp at h
        | cons e t =>
            rw [replace_cons_of_ne hprefix] at h
            obtain ⟨rfl, hrest⟩ := List.cons_prefix_cons.mp h
            exact List.cons_prefix_cons.mpr ⟨rfl, ih hd.2 hrest⟩

/-! ## Scanning -/

/-- The characters and the marks of a text, when `skip` characters belong to the last mark. -/
def scanFrom (pattern : α → Text) (kinds : List α) : ℕ → Text → List (Char ⊕ α)
  | _, [] => []
  | skip + 1, _ :: t => scanFrom pattern kinds skip t
  | 0, c :: t =>
      match kinds.find? fun a => (pattern a).isPrefixOf (c :: t) with
      | some a => .inr a :: scanFrom pattern kinds ((pattern a).length - 1) t
      | none => .inl c :: scanFrom pattern kinds 0 t

def scan (pattern : α → Text) (kinds : List α) (t : Text) : List (Char ⊕ α) :=
  scanFrom pattern kinds 0 t

/-- The text of characters and marks. -/
def spell (value : α → Text) (pieces : List (Char ⊕ α)) : Text :=
  pieces.flatMap (Sum.elim (fun c => [c]) value)

/-- Replace the marks of one kind after the other. -/
def replaceEach (pattern value : α → Text) (kinds : List α) (t : Text) : Text :=
  kinds.foldl (fun t a => replace (pattern a) (value a) t) t

/-- No mark begins inside another. -/
structure Separate (pattern : α → Text) (kinds : List α) : Prop where
  nonempty : ∀ a ∈ kinds, pattern a ≠ []
  neverIn : ∀ a ∈ kinds, ∀ b ∈ kinds, a = b ∨ NeverIn (pattern a) (pattern b)

/-- The values can be put in one after the other: no later mark begins inside a value or has its
first character. -/
def Inert (pattern value : α → Text) (kinds : List α) : Prop :=
  kinds.Pairwise fun a b => NeverIn (pattern b) (value a) ∧
    ∃ d rest, value a = d :: rest ∧ d ∉ pattern b

variable {pattern value value' : α → Text} {kinds : List α} {a : α} {pieces : List (Char ⊕ α)}

@[simp] theorem spell_nil (value : α → Text) : spell value [] = [] := rfl

@[simp] theorem spell_inl (value : α → Text) (c : Char) (pieces : List (Char ⊕ α)) :
    spell value (.inl c :: pieces) = c :: spell value pieces := rfl

@[simp] theorem spell_inr (value : α → Text) (a : α) (pieces : List (Char ⊕ α)) :
    spell value (.inr a :: pieces) = value a ++ spell value pieces := rfl

@[simp] theorem spell_append (value : α → Text) (pieces later : List (Char ⊕ α)) :
    spell value (pieces ++ later) = spell value pieces ++ spell value later :=
  List.flatMap_append

@[simp] theorem scan_nil (pattern : α → Text) (kinds : List α) : scan pattern kinds [] = [] := rfl

theorem scanFrom_drop (pattern : α → Text) (kinds : List α) (n : ℕ) (t : Text) :
    scanFrom pattern kinds n t = scan pattern kinds (t.drop n) := by
  induction n generalizing t with
  | zero => rfl
  | succ n ih =>
      cases t with
      | nil => rfl
      | cons c t => exact ih t

theorem scan_cons_of_none {c : Char} (h : ∀ a ∈ kinds, ¬pattern a <+: c :: t) :
    scan pattern kinds (c :: t) = .inl c :: scan pattern kinds t := by
  have hnone : (kinds.find? fun a => (pattern a).isPrefixOf (c :: t)) = none := by
    rw [List.find?_eq_none]
    intro a ha
    rw [List.isPrefixOf_iff_prefix]
    exact h a ha
  rw [scan, scanFrom, hnone]
  rfl

theorem scan_append_of_neverIn (h : ∀ a ∈ kinds, NeverIn (pattern a) s) (t : Text) :
    scan pattern kinds (s ++ t) = s.map .inl ++ scan pattern kinds t := by
  induction s with
  | nil => rfl
  | cons c s ih =>
      rw [List.cons_append, scan_cons_of_none, ih, List.map_cons, List.cons_append]
      · exact fun a ha => (h a ha).tail
      · exact fun a ha => (h a ha).not_isPrefix (by simp) t

@[simp] theorem spell_map_inl (value : α → Text) (s : Text) :
    spell value (s.map .inl) = s := by
  induction s with
  | nil => rfl
  | cons c s ih => rw [List.map_cons, spell_inl, ih]

theorem Separate.tail {kinds : List α} (h : Separate pattern (a :: kinds)) :
    Separate pattern kinds where
  nonempty b hb := h.nonempty b (List.mem_cons_of_mem _ hb)
  neverIn b hb c hc := h.neverIn b (List.mem_cons_of_mem _ hb) c (List.mem_cons_of_mem _ hc)

/-- Of separate marks, one begins at a position. -/
theorem Separate.eq_of_prefix (h : Separate pattern kinds) {b : α} (ha : a ∈ kinds)
    (hb : b ∈ kinds) (hat : pattern a <+: t) (hbt : pattern b <+: t) : a = b := by
  obtain rfl | hnever := h.neverIn a ha b hb
  · rfl
  · obtain ⟨rest, rfl⟩ := hbt
    exact absurd hat (hnever.not_isPrefix (h.nonempty b hb) rest)

/-- The mark that begins at a position is found. -/
theorem Separate.scan_append (h : Separate pattern kinds) (ha : a ∈ kinds) (t : Text) :
    scan pattern kinds (pattern a ++ t) = .inr a :: scan pattern kinds t := by
  have hfind : (kinds.find? fun b => (pattern b).isPrefixOf (pattern a ++ t)) = some a := by
    cases hfind : kinds.find? fun b => (pattern b).isPrefixOf (pattern a ++ t) with
    | none =>
        rw [List.find?_eq_none] at hfind
        have hself := hfind a ha
        rw [List.isPrefixOf_iff_prefix] at hself
        exact absurd (List.prefix_append _ _) hself
    | some found =>
        have hprefix := List.find?_some hfind
        rw [List.isPrefixOf_iff_prefix] at hprefix
        rw [h.eq_of_prefix (List.mem_of_find?_eq_some hfind) ha hprefix (List.prefix_append _ _)]
  obtain ⟨c, rest, hcons⟩ := List.exists_cons_of_ne_nil (h.nonempty a ha)
  rw [hcons, List.cons_append] at hfind ⊢
  rw [scan, scanFrom, hfind]
  dsimp only
  rw [scanFrom_drop, hcons, List.length_cons, Nat.add_sub_cancel, List.drop_left]

/-- A scan by cases: the text ends, a mark begins, or a character does not begin a mark. -/
theorem Separate.scan_induction (h : Separate pattern kinds) {motive : Text → Prop} (t : Text)
    (nil : motive []) (mark : ∀ a ∈ kinds, ∀ t, motive t → motive (pattern a ++ t))
    (char : ∀ c t, (∀ a ∈ kinds, ¬pattern a <+: c :: t) → motive t → motive (c :: t)) :
    motive t := by
  induction hn : t.length using Nat.strong_induction_on generalizing t with
  | _ n ih =>
      subst hn
      cases t with
      | nil => exact nil
      | cons c t =>
          by_cases hsome : ∃ a ∈ kinds, pattern a <+: c :: t
          · obtain ⟨a, ha, rest, hrest⟩ := hsome
            have hpos := List.length_pos_of_ne_nil (h.nonempty a ha)
            have hlength := congrArg List.length hrest
            rw [List.length_append] at hlength
            rw [← hrest]
            exact mark a ha rest (ih rest.length (by omega) rest rfl)
          · simp only [not_exists, not_and] at hsome
            exact char c t hsome (ih t.length (by simp) t rfl)

/-- The marks spelled out are the text. -/
theorem Separate.spell_scan (h : Separate pattern kinds) (t : Text) :
    spell pattern (scan pattern kinds t) = t := by
  induction t using h.scan_induction with
  | nil => rfl
  | mark a ha t ih => rw [h.scan_append ha, spell_inr, ih]
  | char c t hnone ih => rw [scan_cons_of_none hnone, spell_inl, ih]

/-- The marks that are found are of the kinds looked for. -/
theorem Separate.mem_kinds (h : Separate pattern kinds) (ha : .inr a ∈ scan pattern kinds t) :
    a ∈ kinds := by
  induction t using h.scan_induction with
  | nil => simp at ha
  | mark b hb t ih =>
      rw [h.scan_append hb, List.mem_cons] at ha
      obtain heq | ha := ha
      · rwa [Sum.inr.inj heq]
      · exact ih ha
  | char c t hnone ih =>
      rw [scan_cons_of_none hnone, List.mem_cons] at ha
      exact ih (ha.resolve_left (by simp))

/-- Replacing the marks of the first kind, and then what a scan for the others finds. -/
theorem Separate.spell_scan_replace (h : Separate pattern (a :: kinds)) (hmem : a ∉ kinds)
    (hinert : ∀ b ∈ kinds, NeverIn (pattern b) (value a) ∧
      ∃ d rest, value a = d :: rest ∧ d ∉ pattern b) (t : Text) :
    spell value (scan pattern kinds (replace (pattern a) (value a) t)) =
      spell value (scan pattern (a :: kinds) t) := by
  induction t using h.scan_induction with
  | nil => rfl
  | mark b hb t ih =>
      rw [h.scan_append hb, spell_inr, ← ih]
      obtain rfl | hb' := List.mem_cons.mp hb
      · rw [replace_pattern _ _ _ (h.nonempty b hb),
          scan_append_of_neverIn fun c hc => (hinert c hc).1, spell_append, spell_map_inl]
      · have hne : a ≠ b := fun heq => hmem (heq ▸ hb')
        have hnever := (h.neverIn a List.mem_cons_self b hb).resolve_left hne
        rw [replace_append_of_neverIn hnever, h.tail.scan_append hb', spell_inr]
  | char c t hnone ih =>
      rw [scan_cons_of_none hnone, spell_inl, ← ih]
      have hcons := replace_cons_of_ne (r := value a) (hnone a List.mem_cons_self)
      rw [hcons, scan_cons_of_none, spell_inl]
      intro b hb hprefix
      obtain ⟨d, rest, hvalue, hd⟩ := (hinert b hb).2
      rw [← hcons, hvalue] at hprefix
      exact hnone b (List.mem_cons_of_mem _ hb)
        (prefix_of_prefix_replace hd (h.nonempty a List.mem_cons_self) hprefix)

/-- Replacing one kind after the other is replacing all that a scan finds. -/
theorem Separate.replaceEach_eq (h : Separate pattern kinds) (hnodup : kinds.Nodup)
    (hinert : Inert pattern value kinds) (t : Text) :
    replaceEach pattern value kinds t = spell value (scan pattern kinds t) := by
  induction kinds generalizing t with
  | nil =>
      have hall : ∀ t : Text, spell value (scan pattern [] t) = t := by
        intro t
        induction t with
        | nil => rfl
        | cons c t ih => rw [scan_cons_of_none (by simp), spell_inl, ih]
      exact (hall t).symm
  | cons a kinds ih =>
      rw [Inert, List.pairwise_cons] at hinert
      rw [List.nodup_cons] at hnodup
      rw [replaceEach, List.foldl_cons, ← replaceEach, ih h.tail hnodup.2 hinert.2]
      exact h.spell_scan_replace hnodup.1 hinert.1 t

/-! ## What is spelled out -/

/-- What begins a text with other values begins this one, unless a changed value takes part. -/
theorem prefix_spell_of_prefix_spell
    (hvalue : ∀ a, .inr a ∈ pieces → value a = value' a ∨ NeverIn (value a) u)
    (hu : u <+: spell value pieces) : u <+: spell value' pieces := by
  induction pieces generalizing u with
  | nil => exact hu
  | cons piece pieces ih =>
      cases piece with
      | inl c =>
          cases u with
          | nil => exact List.nil_prefix
          | cons d u =>
              obtain ⟨rfl, hrest⟩ := List.cons_prefix_cons.mp hu
              refine List.cons_prefix_cons.mpr ⟨rfl, ih ?_ hrest⟩
              intro a ha
              exact (hvalue a (List.mem_cons_of_mem _ ha)).imp_right NeverIn.tail
      | inr a =>
          rw [spell_inr] at hu ⊢
          obtain hsame | hnever := hvalue a List.mem_cons_self
          · rw [hsame] at hu
            rcases List.prefix_or_prefix_of_prefix hu (List.prefix_append _ _) with hle | hle
            · exact hle.trans (List.prefix_append _ _)
            · obtain ⟨w, rfl⟩ := hle
              rw [List.prefix_append_right_inj] at hu ⊢
              apply ih _ hu
              intro b hb
              exact (hvalue b (List.mem_cons_of_mem _ hb)).imp_right
                fun hnever => hnever.suffix (List.suffix_append _ _)
          · by_cases hempty : u = []
            · rw [hempty]
              exact List.nil_prefix
            · obtain ⟨hleft, hright⟩ := hnever u (by simp) hempty
              rcases List.prefix_or_prefix_of_prefix hu (List.prefix_append (value a) _) with
                hle | hle
              · exact absurd hle hleft
              · exact absurd hle hright

/-- A mark is found if and only if it occurs. -/
theorem Separate.mem_scan_iff (h : Separate pattern kinds) (ha : a ∈ kinds) :
    .inr a ∈ scan pattern kinds t ↔ pattern a <:+: t := by
  induction t using h.scan_induction with
  | nil => simp [h.nonempty a ha]
  | mark b hb t ih =>
      rw [h.scan_append hb, List.mem_cons]
      obtain rfl | hnever := h.neverIn a ha b hb
      · exact iff_of_true (.inl rfl) (List.prefix_append _ _).isInfix
      · rw [hnever.infix_append, or_iff_right]
        · exact ih
        · intro heq
          rw [Sum.inr.inj heq] at hnever
          exact hnever.not_isPrefix (h.nonempty b hb) [] (by simp)
  | char c t hnone ih =>
      rw [scan_cons_of_none hnone, List.mem_cons, List.infix_cons_iff, or_iff_right (by simp),
        or_iff_right (hnone a ha)]
      exact ih

/-- The scan of what other marks spell finds the marks that they spell. -/
theorem Separate.scan_spell {β : Type*} {pattern' : β → Text} {kinds' : List β}
    (h : Separate pattern kinds) (h' : Separate pattern' kinds') {next : α → β}
    (hspelled : ∀ a ∈ kinds, next a ∈ kinds' ∧ value a = pattern' (next a))
    (hnever : ∀ b ∈ kinds', ∀ a ∈ kinds, value a = pattern a ∨ NeverIn (value a) (pattern' b).tail)
    (habsent : ∀ b ∈ kinds', pattern' b <:+: t → ∃ a ∈ kinds, pattern a = pattern' b) :
    scan pattern' kinds' (spell value (scan pattern kinds t)) =
      (scan pattern kinds t).map (Sum.map id next) := by
  induction t using h.scan_induction with
  | nil => rfl
  | mark a ha t ih =>
      rw [h.scan_append ha, spell_inr, (hspelled a ha).2, h'.scan_append (hspelled a ha).1, ih,
        List.map_cons]
      · rfl
      · intro b hb hin
        exact habsent b hb (hin.trans (List.suffix_append _ _).isInfix)
  | char c t hnone ih =>
      rw [scan_cons_of_none hnone, spell_inl, scan_cons_of_none, ih, List.map_cons]
      · rfl
      · intro b hb hin
        exact habsent b hb (hin.trans (List.suffix_cons _ _).isInfix)
      · intro b hb hprefix
        obtain ⟨d, w, hcons⟩ := List.exists_cons_of_ne_nil (h'.nonempty b hb)
        rw [hcons] at hprefix
        obtain ⟨rfl, hw⟩ := List.cons_prefix_cons.mp hprefix
        have hstart : pattern' b <+: d :: t := by
          rw [hcons]
          refine List.cons_prefix_cons.mpr ⟨rfl, ?_⟩
          rw [← h.spell_scan t]
          refine prefix_spell_of_prefix_spell ?_ hw
          intro a ha
          simpa [hcons] using hnever b hb a (h.mem_kinds ha)
        obtain ⟨a, ha, heq⟩ := habsent b hb hstart.isInfix
        exact hnone a ha (heq ▸ hstart)

/-! ## Foreign values -/

/-- No mark begins inside a value, and no value begins inside a mark. -/
def Foreign (pattern value : α → Text) (kinds : List α) : Prop :=
  ∀ a ∈ kinds, ∃ d rest, value a = d :: rest ∧
    ∀ b ∈ kinds, d ∉ pattern b ∧ NeverIn (pattern b) (value a)

theorem Foreign.inert (h : Foreign pattern value kinds) : Inert pattern value kinds := by
  apply List.pairwise_of_forall_mem_list
  intro a ha b hb
  obtain ⟨d, rest, hvalue, hforeign⟩ := h a ha
  exact ⟨(hforeign b hb).2, d, rest, hvalue, (hforeign b hb).1⟩

/-- No mark is left when all that a scan finds has a foreign value. -/
theorem Separate.not_infix_spell_scan (h : Separate pattern kinds)
    (hforeign : Foreign pattern value kinds) (ha : a ∈ kinds) (t : Text) :
    ¬pattern a <:+: spell value (scan pattern kinds t) := by
  induction t using h.scan_induction with
  | nil => simp [h.nonempty a ha]
  | mark b hb t ih =>
      obtain ⟨d, rest, -, hvalue⟩ := hforeign b hb
      rw [h.scan_append hb, spell_inr, (hvalue a ha).2.infix_append]
      exact ih
  | char c t hnone ih =>
      rw [scan_cons_of_none hnone, spell_inl, List.infix_cons_iff, not_or]
      refine ⟨?_, ih⟩
      intro hprefix
      apply hnone a ha
      rw [← h.spell_scan t]
      refine @prefix_spell_of_prefix_spell _ _ _ _ (.inl c :: scan pattern kinds t) ?_ hprefix
      intro b hb
      obtain ⟨d, rest, hvalue, hother⟩ :=
        hforeign b (h.mem_kinds ((List.mem_cons.mp hb).resolve_left (by simp)))
      rw [hvalue]
      exact .inr (neverIn_of_not_mem (hother a ha).1)

/-- A scan finds the marks that are spelled out, when with their values no mark is left. -/
theorem Separate.scan_spell_eq (h : Separate pattern kinds)
    (hoverlap : ∀ a ∈ kinds, ∀ b ∈ kinds, NeverIn (pattern a) (pattern b).tail)
    (hmem : ∀ a, .inr a ∈ pieces → a ∈ kinds)
    (hnone : ∀ a ∈ kinds, ¬pattern a <:+: spell value pieces) :
    scan pattern kinds (spell pattern pieces) = pieces := by
  induction pieces with
  | nil => rfl
  | cons piece pieces ih =>
      have hmem' : ∀ a, .inr a ∈ pieces → a ∈ kinds :=
        fun a ha => hmem a (List.mem_cons_of_mem _ ha)
      cases piece with
      | inl c =>
          have hrest : ∀ a ∈ kinds, ¬pattern a <:+: spell value pieces := fun a ha hin =>
            hnone a ha (hin.trans (List.suffix_cons _ _).isInfix)
          rw [spell_inl, scan_cons_of_none, ih hmem' hrest]
          intro a ha hprefix
          obtain ⟨d, w, hcons⟩ := List.exists_cons_of_ne_nil (h.nonempty a ha)
          rw [hcons] at hprefix
          obtain ⟨rfl, hw⟩ := List.cons_prefix_cons.mp hprefix
          apply hnone a ha
          rw [hcons, spell_inl]
          apply List.IsPrefix.isInfix
          refine List.cons_prefix_cons.mpr ⟨rfl, prefix_spell_of_prefix_spell ?_ hw⟩
          intro b hb
          have hnever := hoverlap b (hmem' b hb) a ha
          rw [hcons] at hnever
          exact .inr hnever
      | inr a =>
          have hrest : ∀ b ∈ kinds, ¬pattern b <:+: spell value pieces := fun b hb hin =>
            hnone b hb (hin.trans (List.suffix_append _ _).isInfix)
          rw [spell_inr, h.scan_append (hmem a List.mem_cons_self), ih hmem' hrest]

/-- A text that no value begins is copied. -/
theorem Separate.eq_of_spell_scan_append (h : Separate pattern kinds)
    (hvalue : ∀ a ∈ kinds, ∃ d rest, value a = d :: rest ∧ d ∉ u) (hlength : s.length = u.length)
    {w : Text} (heq : spell value (scan pattern kinds (s ++ t)) = u ++ w) : s = u := by
  induction s generalizing u with
  | nil => exact (List.length_eq_zero_iff.mp hlength.symm).symm
  | cons c s ih =>
      cases u with
      | nil => simp at hlength
      | cons e u =>
          by_cases hsome : ∃ a ∈ kinds, pattern a <+: c :: s ++ t
          · obtain ⟨a, ha, rest, hrest⟩ := hsome
            obtain ⟨d, tail, hd, hnot⟩ := hvalue a ha
            rw [← hrest, h.scan_append ha, spell_inr, hd] at heq
            rw [List.cons_append, List.cons_append, List.cons.injEq] at heq
            exact absurd (by simp [heq.1]) hnot
          · simp only [not_exists, not_and, List.cons_append] at hsome
            rw [List.cons_append, scan_cons_of_none hsome, spell_inl, List.cons_append,
              List.cons.injEq] at heq
            rw [heq.1, ih _ (by simpa using hlength) heq.2]
            intro a ha
            obtain ⟨d, rest, hd, hnot⟩ := hvalue a ha
            exact ⟨d, rest, hd, fun hmem => hnot (List.mem_cons_of_mem _ hmem)⟩

/-- Behind a common text, texts of one length that come out equal are equal. -/
theorem Separate.eq_of_spell_scan_eq (h : Separate pattern kinds)
    (hvalue : ∀ a ∈ kinds, ∃ d rest, value a = d :: rest ∧ d ∉ u ∧ ∀ b ∈ kinds, d ∉ pattern b)
    (hnever : ∀ a ∈ kinds, NeverIn (pattern a) u ∧ NeverIn u (pattern a))
    (hlength : s.length = u.length) {before w : Text}
    (heq : spell value (scan pattern kinds (before ++ (u ++ w))) =
      spell value (scan pattern kinds (before ++ (s ++ t)))) : s = u := by
  induction hn : before.length using Nat.strong_induction_on generalizing before with
  | _ n ih =>
      subst hn
      cases before with
      | nil =>
          rw [List.nil_append, List.nil_append,
            scan_append_of_neverIn fun a ha => (hnever a ha).1, spell_append,
            spell_map_inl] at heq
          refine h.eq_of_spell_scan_append ?_ hlength heq.symm
          intro a ha
          obtain ⟨d, rest, hd, hnot, -⟩ := hvalue a ha
          exact ⟨d, rest, hd, hnot⟩
      | cons c before =>
          by_cases hleft : ∃ a ∈ kinds, pattern a <+: c :: before ++ (u ++ w)
          · obtain ⟨a, ha, hprefix⟩ := hleft
            rcases List.prefix_or_prefix_of_prefix hprefix (List.prefix_append _ _) with
              hle | hle
            · obtain ⟨rest, hrest⟩ := hle
              rw [← hrest, List.append_assoc, List.append_assoc, h.scan_append ha,
                h.scan_append ha, spell_inr, spell_inr, List.append_cancel_left_eq] at heq
              have hpos := List.length_pos_of_ne_nil (h.nonempty a ha)
              have hsum := congrArg List.length hrest
              rw [List.length_append] at hsum
              exact ih rest.length (by omega) heq rfl
            · obtain ⟨rest, hrest⟩ := hle
              rw [← hrest, List.prefix_append_right_inj] at hprefix
              by_cases hempty : rest = []
              · rw [hempty, List.append_nil] at hrest
                rw [hrest, h.scan_append ha, h.scan_append ha, spell_inr, spell_inr,
                  List.append_cancel_left_eq] at heq
                exact @ih 0 (by simp) [] heq rfl
              · obtain ⟨hnot, hnot'⟩ := (hnever a ha).2 rest
                  ((List.mem_tails _ _).mpr ⟨_, hrest⟩) hempty
                rcases List.prefix_or_prefix_of_prefix hprefix (List.prefix_append u w) with
                  hle | hle
                · exact absurd hle hnot
                · exact absurd hle hnot'
          · simp only [not_exists, not_and, List.cons_append] at hleft
            rw [List.cons_append, scan_cons_of_none hleft, spell_inl] at heq
            by_cases hright : ∃ a ∈ kinds, pattern a <+: c :: before ++ (s ++ t)
            · obtain ⟨a, ha, rest, hrest⟩ := hright
              obtain ⟨d, tail, hd, -, hnot⟩ := hvalue a ha
              rw [← hrest, h.scan_append ha, spell_inr, hd, List.cons_append,
                List.cons.injEq] at heq
              obtain ⟨e, text, htext⟩ := List.exists_cons_of_ne_nil (h.nonempty a ha)
              rw [htext, List.cons_append, List.cons_append, List.cons.injEq] at hrest
              exact absurd (by simp [htext, hrest.1, heq.1]) (hnot a ha)
            · simp only [not_exists, not_and, List.cons_append] at hright
              rw [List.cons_append, scan_cons_of_none hright, spell_inl, List.cons.injEq] at heq
              exact ih before.length (by simp) heq.2 rfl

/-! ## Marks by accident -/

/-- Spell out the marks that are not kept. -/
def spellOnly (value : α → Text) (keep : α → Bool) (pieces : List (Char ⊕ α)) :
    List (Char ⊕ α) :=
  pieces.flatMap fun piece =>
    match piece with
    | .inl c => [.inl c]
    | .inr a => if keep a then [.inr a] else (value a).map .inl

theorem spell_spellOnly (value value' : α → Text) (keep : α → Bool) (pieces : List (Char ⊕ α)) :
    spell value' (spellOnly value keep pieces) =
      spell (fun a => if keep a then value' a else value a) pieces := by
  induction pieces with
  | nil => rfl
  | cons piece pieces ih =>
      rw [spellOnly, List.flatMap_cons, ← spellOnly, spell_append, ih]
      cases piece with
      | inl c => rfl
      | inr a =>
          by_cases ha : keep a = true
          · simp [ha]
          · simp [ha]

theorem spellOnly_of_keep {keep : α → Bool} (h : ∀ a, .inr a ∈ pieces → keep a = true) :
    spellOnly value keep pieces = pieces := by
  induction pieces with
  | nil => rfl
  | cons piece pieces ih =>
      rw [spellOnly, List.flatMap_cons, ← spellOnly,
        ih fun a ha => h a (List.mem_cons_of_mem _ ha)]
      cases piece with
      | inl c => rfl
      | inr a => simp [h a List.mem_cons_self]

theorem mem_spellOnly {keep : α → Bool} (h : .inr a ∈ spellOnly value keep pieces) :
    .inr a ∈ pieces ∧ keep a = true := by
  obtain ⟨piece, hpiece, ha⟩ := List.mem_flatMap.mp h
  cases piece with
  | inl c => simp at ha
  | inr b =>
      dsimp only at ha
      split_ifs at ha with hkeep
      · rw [List.mem_singleton] at ha
        rw [Sum.inr.inj ha]
        exact ⟨hpiece, hkeep⟩
      · simp at ha

theorem spell_map {β : Type*} (value : β → Text) (f : α → β) (pieces : List (Char ⊕ α)) :
    spell value (pieces.map (Sum.map id f)) = spell (fun a => value (f a)) pieces := by
  induction pieces with
  | nil => rfl
  | cons piece pieces ih =>
      cases piece with
      | inl c => simp [ih]
      | inr a => simp [ih]

theorem spell_congr (h : ∀ a, .inr a ∈ pieces → value a = value' a) :
    spell value pieces = spell value' pieces := by
  induction pieces with
  | nil => rfl
  | cons piece pieces ih =>
      have hrest := ih fun a ha => h a (List.mem_cons_of_mem _ ha)
      cases piece with
      | inl c => rw [spell_inl, spell_inl, hrest]
      | inr a => rw [spell_inr, spell_inr, hrest, h a List.mem_cons_self]

/-- What begins with characters only is spelled out by characters. -/
theorem exists_of_prefix_spell (hnever : ∀ a, .inr a ∈ pieces → NeverIn (value a) u)
    (hu : u <+: spell value pieces) : ∃ rest, pieces = u.map .inl ++ rest := by
  induction u generalizing pieces with
  | nil => exact ⟨pieces, rfl⟩
  | cons d u ih =>
      cases pieces with
      | nil => simp at hu
      | cons piece pieces =>
          cases piece with
          | inl c =>
              obtain ⟨rfl, hrest⟩ := List.cons_prefix_cons.mp hu
              obtain ⟨rest, rfl⟩ :=
                ih (fun a ha => (hnever a (List.mem_cons_of_mem _ ha)).tail) hrest
              exact ⟨rest, rfl⟩
          | inr a =>
              obtain ⟨hleft, hright⟩ := hnever a List.mem_cons_self (d :: u) (by simp) (by simp)
              rcases List.prefix_or_prefix_of_prefix hu (List.prefix_append (value a) _) with
                hle | hle
              · exact absurd hle hleft
              · exact absurd hle hright

/-- Of the marks that a scan finds, some are spelled by characters. -/
theorem Separate.exists_accidental (h : Separate pattern kinds)
    (hoverlap : ∀ a ∈ kinds, ∀ b ∈ kinds, NeverIn (pattern a) (pattern b).tail)
    (hmem : ∀ a, .inr a ∈ pieces → a ∈ kinds) :
    ∃ found : List (Char ⊕ α × Bool),
      scan pattern kinds (spell pattern pieces) = found.map (Sum.map id Prod.fst) ∧
      pieces = (spellOnly (fun a => pattern a.1) Prod.snd found).map (Sum.map id Prod.fst) := by
  induction hn : pieces.length using Nat.strong_induction_on generalizing pieces with
  | _ n ih =>
      subst hn
      cases pieces with
      | nil => exact ⟨[], rfl, rfl⟩
      | cons piece pieces =>
          have hmem' : ∀ a, .inr a ∈ pieces → a ∈ kinds :=
            fun a ha => hmem a (List.mem_cons_of_mem _ ha)
          cases piece with
          | inr a =>
              obtain ⟨found, hscan, hpieces⟩ := ih pieces.length (by simp) hmem' rfl
              refine ⟨.inr (a, true) :: found, ?_, ?_⟩
              · rw [spell_inr, h.scan_append (hmem a List.mem_cons_self), hscan]
                rfl
              · conv_lhs => rw [hpieces]
                rfl
          | inl c =>
              by_cases hsome : ∃ a ∈ kinds, pattern a <+: spell pattern (.inl c :: pieces)
              · obtain ⟨a, ha, hprefix⟩ := hsome
                obtain ⟨d, w, hcons⟩ := List.exists_cons_of_ne_nil (h.nonempty a ha)
                rw [hcons] at hprefix
                obtain ⟨rfl, hw⟩ := List.cons_prefix_cons.mp hprefix
                have hnever : ∀ b, .inr b ∈ pieces → NeverIn (pattern b) w := by
                  intro b hb
                  have hnever := hoverlap b (hmem' b hb) a ha
                  rwa [hcons] at hnever
                obtain ⟨rest, rfl⟩ := exists_of_prefix_spell hnever hw
                have hmem'' : ∀ b, .inr b ∈ rest → b ∈ kinds :=
                  fun b hb => hmem' b (List.mem_append_right _ hb)
                obtain ⟨found, hscan, hpieces⟩ :=
                  ih rest.length (by simp) hmem'' rfl
                refine ⟨.inr (a, false) :: found, ?_, ?_⟩
                · have hspell : spell pattern (.inl d :: (w.map .inl ++ rest)) =
                      pattern a ++ spell pattern rest := by
                    rw [hcons, spell_inl, spell_append, spell_map_inl, List.cons_append]
                  rw [hspell, h.scan_append ha, hscan]
                  rfl
                · conv_lhs => rw [hpieces]
                  rw [spellOnly, spellOnly, List.flatMap_cons]
                  simp [hcons, Function.comp_def]
              · rw [not_exists] at hsome
                simp only [not_and] at hsome
                obtain ⟨found, hscan, hpieces⟩ := ih pieces.length (by simp) hmem' rfl
                refine ⟨.inl c :: found, ?_, ?_⟩
                · rw [spell_inl] at hsome ⊢
                  rw [scan_cons_of_none hsome, hscan]
                  rfl
                · conv_lhs => rw [hpieces]
                  rfl

/-! ## Counting -/

/-- The number of marks of some kinds. -/
def marksOf (which : α → Bool) (pieces : List (Char ⊕ α)) : ℕ :=
  pieces.countP (Sum.elim (fun _ => false) which)

/-- What a change of some values does to the number of characters of a kind. -/
theorem countP_spell {p : Char → Bool} {which : α → Bool} {k k' : ℕ}
    (hsame : ∀ a, .inr a ∈ pieces → which a = false → value a = value' a)
    (hchanged : ∀ a, .inr a ∈ pieces → which a = true →
      (value a).countP p = k ∧ (value' a).countP p = k') :
    (spell value pieces).countP p + marksOf which pieces * k' =
      (spell value' pieces).countP p + marksOf which pieces * k := by
  induction pieces with
  | nil => simp [marksOf]
  | cons piece pieces ih =>
      have hrest := ih (fun a ha => hsame a (List.mem_cons_of_mem _ ha))
        (fun a ha => hchanged a (List.mem_cons_of_mem _ ha))
      cases piece with
      | inl c =>
          rw [spell_inl, spell_inl, List.countP_cons, List.countP_cons, marksOf,
            List.countP_cons_of_neg (by simp), ← marksOf]
          omega
      | inr a =>
          rw [spell_inr, spell_inr, List.countP_append, List.countP_append]
          cases ha : which a with
          | false =>
              rw [hsame a List.mem_cons_self ha, marksOf, List.countP_cons_of_neg (by simp [ha]),
                ← marksOf]
              omega
          | true =>
              obtain ⟨hk, hk'⟩ := hchanged a List.mem_cons_self ha
              rw [hk, hk', marksOf, List.countP_cons_of_pos (by simp [ha]), ← marksOf,
                Nat.succ_mul, Nat.succ_mul]
              omega

/-! ## First occurrences -/

/-- The position of the first occurrence of a text. -/
def findText (p : Text) : Text → Option ℕ
  | [] => if p = [] then some 0 else none
  | c :: t => if p.isPrefixOf (c :: t) then some 0 else (findText p t).map (· + 1)

/-- The position of the first mark of a kind. -/
def firstMark [DecidableEq α] (pattern : α → Text) (a : α) : List (Char ⊕ α) → Option ℕ
  | [] => none
  | .inl _ :: pieces => (firstMark pattern a pieces).map (· + 1)
  | .inr b :: pieces =>
      if b = a then some 0 else (firstMark pattern a pieces).map (· + (pattern b).length)

theorem findText_append_of_neverIn (h : NeverIn p s) (t : Text) :
    findText p (s ++ t) = (findText p t).map (· + s.length) := by
  induction s with
  | nil => simp
  | cons c s ih =>
      rw [List.cons_append, findText, if_neg, ih h.tail, Option.map_map]
      · congr 1
      · rw [List.isPrefixOf_iff_prefix]
        exact h.not_isPrefix (by simp) t

/-- The first occurrence of a mark is the first one that a scan finds. -/
theorem Separate.findText_eq [DecidableEq α] (h : Separate pattern kinds) (ha : a ∈ kinds)
    (t : Text) : findText (pattern a) t = firstMark pattern a (scan pattern kinds t) := by
  induction t using h.scan_induction with
  | nil => simp [findText, firstMark, h.nonempty a ha]
  | mark b hb t ih =>
      rw [h.scan_append hb, firstMark]
      by_cases heq : b = a
      · subst heq
        obtain ⟨c, w, hcons⟩ := List.exists_cons_of_ne_nil (h.nonempty b hb)
        rw [if_pos rfl, hcons, List.cons_append, findText, if_pos]
        rw [List.isPrefixOf_iff_prefix, ← List.cons_append]
        exact List.prefix_append _ _
      · rw [if_neg heq, ← ih]
        exact findText_append_of_neverIn
          ((h.neverIn a ha b hb).resolve_left fun hvalue => heq hvalue.symm) t
  | char c t hnone ih =>
      rw [scan_cons_of_none hnone, firstMark, findText, if_neg, ih]
      rw [List.isPrefixOf_iff_prefix]
      exact hnone a ha

end ObsidianMcp.Text
