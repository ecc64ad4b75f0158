import Mathlib.Data.List.MinMax
import ObsidianMcp.Model.Periodic

/-! # The translation of date formats

Literals are replaced by numbered marks and put back one number after the other. The result is the
one-pass translation unless the text between two literals reads like an earlier number. -/

namespace ObsidianMcp

open Text

/-! ## Statements -/

/-- The longest token that a text starts with. -/
def longestToken (t : Text) : Option (Text × Text) :=
  (tokenMap.filter fun entry => entry.1.isPrefixOf t).argmax fun entry => entry.1.length

/-- Where a scan stands: outside brackets, with the rest of a token still to pass, or inside. -/
inductive Scan where
  | outside (skip : ℕ)
  | inside
  deriving DecidableEq

/-- The one-pass translation. -/
def onePass : Scan → Text → Text
  | _, [] => []
  | .outside (skip + 1), _ :: t => onePass (.outside skip) t
  | .outside 0, c :: t =>
      if c = '[' then onePass .inside t
      else
        match longestToken (c :: t) with
        | some (token, chrono) => chrono ++ onePass (.outside (token.length - 1)) t
        | none => escapePercent c ++ onePass (.outside 0) t
  | .inside, c :: t =>
      if c = ']' then onePass (.outside 0) t else escapePercent c ++ onePass .inside t

mutual

/-- The text before the first literal, and the literals with the texts that follow them. -/
def outside : Text → Text × List (Text × Text)
  | [] => ([], [])
  | c :: t =>
      if c = '[' then
        let (literal, following, pieces) := inside t
        ([], (literal, following) :: pieces)
      else
        let (before, pieces) := outside t
        (c :: before, pieces)

/-- The rest of a literal, the text that follows it, and the other literals. -/
def inside : Text → Text × Text × List (Text × Text)
  | [] => ([], [], [])
  | c :: t =>
      if c = ']' then ([], outside t)
      else
        let (literal, pieces) := inside t
        (c :: literal, pieces)

end

/-- No text between two literals is the number of an earlier literal, its `S` tokens left out. -/
def Unambiguous (momentFormat : Text) : Prop :=
  ∀ i k piece, (outside momentFormat).2[i]? = some piece →
    i + 1 < (outside momentFormat).2.length → k < i →
      piece.2.filter (fun c => c ≠ 'S') ≠ displayNat k

/-! ## Tokens -/

theorem tokenMap_sorted :
    tokenMap.Pairwise fun a b => b.1.length ≤ a.1.length := by
  decide

/-- Tokens are letters, and only that of `S` translates to nothing or to a digit. -/
theorem tokenMap_sane : ∀ entry ∈ tokenMap,
    entry.1 ≠ [] ∧ (∀ c ∈ entry.1, c.isAlpha = true) ∧ '\x00' ∉ entry.2 ∧
      (entry.1.head? = some 'S' → entry = ("S".toList, [])) ∧
      (entry.1.head? ≠ some 'S' → entry.2.head?.any (fun c => !c.isDigit) = true) := by
  have hname : ∀ entry ∈ tokenMap, entry.1 ≠ [] := by decide
  have halpha : (tokenMap.all fun entry => entry.1.all Char.isAlpha) = true := by decide
  have hnull : ∀ entry ∈ tokenMap, '\x00' ∉ entry.2 := by decide
  have hfraction : ∀ entry ∈ tokenMap, entry.1.head? = some 'S' → entry = ("S".toList, []) := by
    decide
  have hvalue : ∀ entry ∈ tokenMap,
      entry.1.head? ≠ some 'S' → entry.2.head?.any (fun c => !c.isDigit) = true := by
    decide
  intro entry hentry
  exact ⟨hname entry hentry, List.all_eq_true.mp (List.all_eq_true.mp halpha entry hentry),
    hnull entry hentry, hfraction entry hentry, hvalue entry hentry⟩

theorem argmax_filter_eq_find? {α : Type*} {f : α → ℕ} {p : α → Bool} {l : List α}
    (h : l.Pairwise fun a b => f b ≤ f a) : (l.filter p).argmax f = l.find? p := by
  induction l with
  | nil => rfl
  | cons a l ih =>
      rw [List.pairwise_cons] at h
      by_cases ha : p a = true
      · rw [List.filter_cons_of_pos ha, List.find?_cons_of_pos ha, List.argmax_cons]
        cases hmax : (l.filter p).argmax f with
        | none => rfl
        | some b =>
            have hb := (List.mem_filter.mp (List.argmax_mem hmax)).1
            exact if_neg (Nat.not_lt.mpr (h.1 b hb))
      · rw [List.filter_cons_of_neg ha, List.find?_cons_of_neg ha, ih h.2]

/-- The first token of the table that matches is the longest. -/
theorem tokenAt_eq_longestToken (t : Text) : tokenAt t = longestToken t :=
  (argmax_filter_eq_find? tokenMap_sorted).symm

variable {c : Char} {s t : Text}

theorem tokenAt_eq_some {entry : Text × Text} (h : tokenAt t = some entry) :
    entry ∈ tokenMap ∧ entry.1 <+: t := by
  have hprefix := List.find?_some h
  exact ⟨List.mem_of_find?_eq_some h, List.isPrefixOf_iff_prefix.mp hprefix⟩

theorem prefix_append_cons {token : Text} (hc : c ∉ token) :
    token <+: s ++ c :: t ↔ token <+: s := by
  induction token generalizing s with
  | nil => simp
  | cons d token ih =>
      rw [List.mem_cons, not_or] at hc
      cases s with
      | nil => simp [Ne.symm hc.1]
      | cons e s => rw [List.cons_append, List.cons_prefix_cons, List.cons_prefix_cons, ih hc.2]

/-- Tokens end at every character that is no letter. -/
theorem tokenAt_append (hc : c.isAlpha = false) (s t : Text) :
    tokenAt (s ++ c :: t) = tokenAt s := by
  apply List.find?_congr
  intro entry hentry
  have hnot : c ∉ entry.1 := by
    intro hmem
    rw [(tokenMap_sane entry hentry).2.1 c hmem] at hc
    contradiction
  rw [Bool.eq_iff_iff, List.isPrefixOf_iff_prefix, List.isPrefixOf_iff_prefix,
    prefix_append_cons hnot]

theorem tokenAt_cons_eq_none (hc : c.isAlpha = false) (t : Text) : tokenAt (c :: t) = none := by
  have hnil : tokenAt [] = none := by decide
  rw [← List.nil_append (c :: t), tokenAt_append hc, hnil]

theorem translateFrom_plain (hc : c.isAlpha = false) (hpercent : c ≠ '%') (t : Text) :
    translateFrom 0 (c :: t) = c :: translateFrom 0 t := by
  rw [translateFrom, tokenAt_cons_eq_none hc]
  exact congrArg (· ++ translateFrom 0 t) (if_neg hpercent)

theorem translateFrom_append (hc : c.isAlpha = false) {n : ℕ} (hn : n ≤ s.length) (t : Text) :
    translateFrom n (s ++ c :: t) = translateFrom n s ++ translateFrom 0 (c :: t) := by
  induction s generalizing n with
  | nil =>
      rw [Nat.le_zero.mp hn]
      rfl
  | cons d s ih =>
      cases n with
      | succ n => exact ih (Nat.le_of_succ_le_succ hn)
      | zero =>
          have htoken := tokenAt_append hc (d :: s) t
          rw [List.cons_append] at htoken
          rw [List.cons_append, translateFrom, translateFrom, htoken]
          cases hfound : tokenAt (d :: s) with
          | none =>
              dsimp only
              rw [ih (Nat.zero_le _), List.append_assoc]
          | some entry =>
              have hlength := (tokenAt_eq_some hfound).2.length_le
              rw [List.length_cons] at hlength
              dsimp only
              rw [ih (by omega), List.append_assoc]

theorem escapePercent_plain (hc : c ≠ '\x00') : '\x00' ∉ escapePercent c := by
  unfold escapePercent
  by_cases hpercent : c = '%'
  · rw [if_pos hpercent]
    decide
  · rw [if_neg hpercent, List.mem_singleton]
    exact Ne.symm hc

theorem escaped_plain (ht : '\x00' ∉ t) : '\x00' ∉ t.flatMap escapePercent := by
  rw [List.mem_flatMap]
  intro h
  rcases h with ⟨c, hc, hmem⟩
  exact escapePercent_plain (fun heq => ht (heq ▸ hc)) hmem

theorem translateFrom_null (n : ℕ) (ht : '\x00' ∉ t) : '\x00' ∉ translateFrom n t := by
  induction t generalizing n with
  | nil =>
      rw [translateFrom]
      exact ht
  | cons c t ih =>
      rw [List.mem_cons, not_or] at ht
      cases n with
      | succ n => exact ih n ht.2
      | zero =>
          rw [translateFrom]
          cases hfound : tokenAt (c :: t) with
          | none =>
              dsimp only
              rw [List.mem_append, not_or]
              exact ⟨escapePercent_plain (Ne.symm ht.1), ih 0 ht.2⟩
          | some entry =>
              dsimp only
              rw [List.mem_append, not_or]
              exact ⟨(tokenMap_sane entry (tokenAt_eq_some hfound).1).2.2.1, ih _ ht.2⟩

theorem isAlpha_of_tokenAt {entry : Text × Text} (h : tokenAt (c :: t) = some entry) :
    c.isAlpha = true ∧ entry.1.head? = some c := by
  have hentry := tokenAt_eq_some h
  have hsane := tokenMap_sane entry hentry.1
  cases htoken : entry.1 with
  | nil => exact absurd htoken hsane.1
  | cons d token =>
      rw [htoken, List.cons_prefix_cons] at hentry
      rw [List.head?_cons, hentry.2.1]
      refine ⟨?_, rfl⟩
      rw [← hentry.2.1]
      exact hsane.2.1 d (by rw [htoken]; exact List.mem_cons_self)

theorem not_isAlpha_of_isDigit (h : c.isDigit = true) : c.isAlpha = false := by
  have hdigit : 48 ≤ c.val.toNat ∧ c.val.toNat ≤ 57 := Char.isDigit_iff_toNat.mp h
  change ((decide (c.val ≥ 'A'.val ∧ c.val ≤ 'Z'.val)) ||
    (decide (c.val ≥ 'a'.val) && decide (c.val ≤ 'z'.val))) = false
  simp only [ge_iff_le, UInt32.le_iff_toNat_le, Bool.or_eq_false_iff, Bool.and_eq_false_iff,
    decide_eq_false_iff_not]
  change ¬(65 ≤ c.val.toNat ∧ c.val.toNat ≤ 90) ∧ (¬97 ≤ c.val.toNat ∨ ¬c.val.toNat ≤ 122)
  omega

/-- Only digits and `S` tokens translate to digits. -/
theorem translateFrom_eq_digits {digits : Text} (h : ∀ c ∈ digits, c.isDigit = true) :
    translateFrom 0 t = digits ↔ t.filter (fun c => c ≠ 'S') = digits := by
  induction t generalizing digits with
  | nil => rw [translateFrom, List.filter_nil]
  | cons c t ih =>
      have hstart : ∀ {d : Char} {rest : Text}, d.isDigit = false → ¬d :: rest = digits := by
        intro d rest hd heq
        have hdigit := h d (by rw [← heq]; exact List.mem_cons_self)
        rw [hd] at hdigit
        contradiction
      rw [translateFrom]
      cases hfound : tokenAt (c :: t) with
      | none =>
          have hc : c ≠ 'S' := by
            intro hc
            have hmem : ("S".toList, []) ∈ tokenMap := by decide
            apply List.find?_eq_none.mp hfound _ hmem
            rw [hc, List.isPrefixOf_iff_prefix]
            exact ⟨t, rfl⟩
          dsimp only
          rw [List.filter_cons_of_pos (by simpa using hc)]
          cases hdigit : c.isDigit with
          | false =>
              refine iff_of_false ?_ (hstart hdigit)
              unfold escapePercent
              by_cases hpercent : c = '%'
              · rw [if_pos hpercent]
                exact hstart rfl
              · rw [if_neg hpercent]
                exact hstart hdigit
          | true =>
              have hpercent : c ≠ '%' := by
                intro heq
                rw [heq] at hdigit
                contradiction
              rw [escapePercent, if_neg hpercent, List.singleton_append]
              cases digits with
              | nil => simp
              | cons d digits =>
                  rw [List.cons.injEq, List.cons.injEq,
                    ih fun e he => h e (List.mem_cons_of_mem _ he)]
      | some entry =>
          have hsane := tokenMap_sane entry (tokenAt_eq_some hfound).1
          have hletter := isAlpha_of_tokenAt hfound
          dsimp only
          by_cases hc : c = 'S'
          · have hentry := hsane.2.2.2.1 (by rw [hletter.2, hc])
            rw [hentry, hc, List.filter_cons_of_neg (by decide)]
            exact ih h
          · rw [List.filter_cons_of_pos (by simpa using hc)]
            have hnot := hsane.2.2.2.2 (by
              rw [hletter.2, ne_eq, Option.some.injEq]
              exact hc)
            refine iff_of_false ?_ (hstart ?_)
            · cases hreplacement : entry.2 with
              | nil =>
                  rw [hreplacement] at hnot
                  contradiction
              | cons d rest =>
                  rw [hreplacement, List.head?_cons, Option.any_some, Bool.not_eq_true'] at hnot
                  exact hstart hnot
            · cases hdigit : c.isDigit with
              | false => rfl
              | true =>
                  rw [not_isAlpha_of_isDigit hdigit] at hletter
                  exact absurd hletter.1 (by decide)

/-! ## Pieces -/

/-- The translation of the literals and of the texts that follow them. -/
def rendered : List (Text × Text) → Text
  | [] => []
  | (literal, following) :: pieces =>
      literal.flatMap escapePercent ++ translateFrom 0 following ++ rendered pieces

theorem eq_outside (t : Text) :
    t = (outside t).1 ∨ ∃ rest, t = (outside t).1 ++ '[' :: rest := by
  induction t with
  | nil => exact .inl rfl
  | cons c t ih =>
      rw [outside]
      by_cases hc : c = '['
      · rw [if_pos hc, hc]
        exact .inr ⟨t, rfl⟩
      · rw [if_neg hc]
        dsimp only
        rcases ih with heq | ⟨rest, heq⟩
        · exact .inl (congrArg (c :: ·) heq)
        · exact .inr ⟨rest, congrArg (c :: ·) heq⟩

theorem tokenAt_outside (c : Char) (t : Text) :
    tokenAt (c :: t) = tokenAt (c :: (outside t).1) := by
  rcases eq_outside t with heq | ⟨rest, heq⟩
  · rw [← heq]
  · have htoken := tokenAt_append (c := '[') (by decide) (c :: (outside t).1) rest
    rwa [List.cons_append, ← heq] at htoken

/-- The one-pass translation translates the pieces. -/
theorem onePass_pieces (t : Text) :
    (∀ n ≤ (outside t).1.length, onePass (.outside n) t =
      translateFrom n (outside t).1 ++ rendered (outside t).2) ∧
    onePass .inside t = (inside t).1.flatMap escapePercent ++
      translateFrom 0 (inside t).2.1 ++ rendered (inside t).2.2 := by
  induction t with
  | nil =>
      constructor
      · intro n hn
        rw [onePass, outside, translateFrom, rendered]
        rfl
      · rw [onePass, inside, translateFrom, rendered]
        rfl
  | cons c t ih =>
      constructor
      · intro n hn
        rw [outside] at hn ⊢
        by_cases hc : c = '['
        · rw [if_pos hc] at hn ⊢
          rw [Nat.le_zero.mp hn, onePass, if_pos hc, ih.2]
          rfl
        · rw [if_neg hc] at hn ⊢
          dsimp only at hn ⊢
          cases n with
          | succ n =>
              rw [onePass, translateFrom]
              exact ih.1 n (Nat.le_of_succ_le_succ hn)
          | zero =>
              rw [onePass, if_neg hc, translateFrom, ← tokenAt_eq_longestToken,
                tokenAt_outside]
              cases hfound : tokenAt (c :: (outside t).1) with
              | none =>
                  dsimp only
                  rw [ih.1 0 (Nat.zero_le _), List.append_assoc]
              | some entry =>
                  have hlength := (tokenAt_eq_some hfound).2.length_le
                  rw [List.length_cons] at hlength
                  dsimp only
                  rw [ih.1 _ (by omega), List.append_assoc]
      · rw [inside, onePass]
        by_cases hc : c = ']'
        · rw [if_pos hc, if_pos hc, ih.1 0 (Nat.zero_le _)]
          rfl
        · rw [if_neg hc, if_neg hc, ih.2]
          dsimp only
          rw [List.flatMap_cons]
          simp only [List.append_assoc]

/-- The marked texts that follow the literals. -/
def marked : ℕ → List (Text × Text) → Text
  | _, [] => []
  | idx, (_, following) :: pieces => placeholder idx ++ following ++ marked (idx + 1) pieces

theorem preprocess_pieces (t : Text) : ∀ literals preprocessed,
    preprocess none literals preprocessed t =
      (preprocessed ++ (outside t).1 ++ marked literals.length (outside t).2,
        literals ++ (outside t).2.map Prod.fst) ∧
    ∀ literal, preprocess (some literal) literals preprocessed t =
      (preprocessed ++ placeholder literals.length ++ (inside t).2.1 ++
          marked (literals.length + 1) (inside t).2.2,
        literals ++ (literal ++ (inside t).1) :: (inside t).2.2.map Prod.fst) := by
  induction t with
  | nil =>
      intro literals preprocessed
      constructor
      · simp [preprocess, outside, marked]
      · intro literal
        simp [preprocess, inside, marked]
  | cons c t ih =>
      intro literals preprocessed
      constructor
      · rw [preprocess, outside]
        by_cases hc : c = '['
        · rw [if_pos hc, if_pos hc, (ih _ _).2]
          simp [marked]
        · rw [if_neg hc, if_neg hc, (ih _ _).1]
          simp
      · intro literal
        rw [preprocess, inside]
        by_cases hc : c = ']'
        · rw [if_pos hc, if_pos hc, (ih _ _).1]
          simp
        · rw [if_neg hc, if_neg hc, (ih _ _).2]
          simp

/-! ## Marks -/

/-- The marks and the translated texts, as segments between null characters. -/
def segments : ℕ → List (Text × Text) → List Text
  | _, [] => []
  | idx, (_, following) :: pieces =>
      displayNat idx :: translateFrom 0 following :: segments (idx + 1) pieces

/-- No text that another literal follows translates to the number of an earlier literal. -/
def Clean : ℕ → List (Text × Text) → Prop
  | _, [] => True
  | idx, _ :: pieces =>
      (∀ piece ∈ pieces.dropLast, translateFrom 0 piece.2 ≠ displayNat idx) ∧ Clean (idx + 1) pieces

/-- One round of the loop that puts the literals back. -/
def restore (result : Text) (entry : Text × ℕ) : Text :=
  replace (placeholder entry.2) (entry.1.flatMap escapePercent) result

theorem displayNat_isDigit {idx : ℕ} (h : c ∈ displayNat idx) : c.isDigit = true :=
  Nat.isDigit_of_mem_toDigits (by decide) (by decide) h

theorem displayNat_injective {i j : ℕ} (h : displayNat i = displayNat j) : i = j := by
  rw [displayNat, displayNat] at h
  rw [← @Nat.ofDigitChars_ten_toDigits i, h, Nat.ofDigitChars_ten_toDigits]

theorem displayNat_null (idx : ℕ) : '\x00' ∉ displayNat idx := by
  intro h
  exact absurd (displayNat_isDigit h) (by decide)

theorem translateFrom_placeholder (idx : ℕ) (t : Text) :
    translateFrom 0 (placeholder idx ++ t) = placeholder idx ++ translateFrom 0 t := by
  have hdigits : ∀ digits : Text, (∀ c ∈ digits, c.isDigit = true) → ∀ t,
      translateFrom 0 (digits ++ t) = digits ++ translateFrom 0 t := by
    intro digits h t
    induction digits with
    | nil => rfl
    | cons c digits ih =>
        have hc := h c List.mem_cons_self
        have hpercent : c ≠ '%' := by
          intro heq
          rw [heq] at hc
          contradiction
        rw [List.cons_append, translateFrom_plain (not_isAlpha_of_isDigit hc) hpercent,
          ih fun d hd => h d (List.mem_cons_of_mem _ hd)]
        rfl
  rw [placeholder, List.cons_append, List.cons_append, List.append_assoc, List.cons_append,
    translateFrom_plain rfl (by decide), hdigits _ fun c => displayNat_isDigit, List.nil_append,
    translateFrom_plain rfl (by decide)]
  simp

/-- The translation keeps the marks and translates the texts between them. -/
theorem translateFrom_marked (s : Text) (idx : ℕ) (pieces : List (Text × Text)) :
    translateFrom 0 (s ++ marked idx pieces) =
      joinOn '\x00' (translateFrom 0 s) (segments idx pieces) := by
  induction pieces generalizing s idx with
  | nil => rw [marked, segments, List.append_nil, joinOn]
  | cons piece pieces ih =>
      have hhead : ∀ t, translateFrom 0 (s ++ (placeholder idx ++ t)) =
          translateFrom 0 s ++ (placeholder idx ++ translateFrom 0 t) := by
        intro t
        rw [← translateFrom_placeholder]
        exact translateFrom_append rfl (Nat.zero_le _) _
      rw [marked, segments, List.append_assoc, hhead, ih, joinOn, joinOn, placeholder]
      simp

theorem segments_plain {idx : ℕ} {pieces : List (Text × Text)}
    (h : ∀ piece ∈ pieces, '\x00' ∉ piece.2) : ∀ t ∈ segments idx pieces, '\x00' ∉ t := by
  induction pieces generalizing idx with
  | nil =>
      intro t ht
      contradiction
  | cons piece pieces ih =>
      intro t ht
      rw [segments, List.mem_cons, List.mem_cons] at ht
      rcases ht with rfl | rfl | ht
      · exact displayNat_null idx
      · exact translateFrom_null 0 (h piece List.mem_cons_self)
      · exact ih (fun p hp => h p (List.mem_cons_of_mem _ hp)) t ht

/-- Restoring one literal merges segments. -/
theorem restore_joinOn {literal : Text} {idx : ℕ} {rest : List Text} (hs : '\x00' ∉ s)
    (hrest : ∀ t ∈ rest, '\x00' ∉ t) :
    restore (joinOn '\x00' s rest) (literal, idx) =
      joinOn '\x00' (mergeOn (displayNat idx) (literal.flatMap escapePercent) s rest).1
        (mergeOn (displayNat idx) (literal.flatMap escapePercent) s rest).2 :=
  replace_joinOn (displayNat_null idx) [] hs hrest

/-- The first mark gives way to its literal. -/
theorem mergeOn_segments (idx : ℕ) (replacement s : Text) (piece : Text × Text)
    (pieces : List (Text × Text)) :
    mergeOn (displayNat idx) replacement s (segments idx (piece :: pieces)) =
      mergeOn (displayNat idx) replacement (s ++ replacement ++ translateFrom 0 piece.2)
        (segments (idx + 1) pieces) := by
  rw [segments, mergeOn, if_pos rfl]

theorem clean_segments {idx k : ℕ} {pieces : List (Text × Text)} (hk : k < idx)
    (h : ∀ piece ∈ pieces.dropLast, translateFrom 0 piece.2 ≠ displayNat k) :
    ∀ t ∈ (segments idx pieces).dropLast, t ≠ displayNat k := by
  induction pieces generalizing idx with
  | nil =>
      intro t ht
      contradiction
  | cons piece pieces ih =>
      have hmark : displayNat idx ≠ displayNat k :=
        fun heq => (Nat.ne_of_lt hk) (displayNat_injective heq).symm
      cases pieces with
      | nil =>
          intro t ht
          rw [segments, segments, List.dropLast_cons_cons, List.dropLast_singleton,
            List.mem_singleton] at ht
          rwa [ht]
      | cons piece' pieces =>
          intro t ht
          rw [List.dropLast_cons_cons] at h
          rw [segments, segments, List.dropLast_cons_cons, List.dropLast_cons_cons, List.mem_cons,
            List.mem_cons, ← segments] at ht
          rcases ht with rfl | rfl | ht
          · exact hmark
          · exact h piece List.mem_cons_self
          · exact ih (Nat.lt_succ_of_lt hk) (fun p hp => h p (List.mem_cons_of_mem _ hp)) t ht

/-- Clean pieces are restored to their translation. -/
theorem restore_clean {idx : ℕ} {pieces : List (Text × Text)} (hclean : Clean idx pieces)
    (hs : '\x00' ∉ s) (hplain : ∀ piece ∈ pieces, '\x00' ∉ piece.1 ∧ '\x00' ∉ piece.2) :
    ((pieces.map Prod.fst).zipIdx idx).foldl restore (joinOn '\x00' s (segments idx pieces)) =
      s ++ rendered pieces := by
  induction pieces generalizing idx s with
  | nil => rw [segments, joinOn, rendered, List.append_nil]; rfl
  | cons piece pieces ih =>
      have hpiece := hplain piece List.mem_cons_self
      have hlater : ∀ piece ∈ pieces, '\x00' ∉ piece.1 ∧ '\x00' ∉ piece.2 :=
        fun p hp => hplain p (List.mem_cons_of_mem _ hp)
      have hjoined : '\x00' ∉ s ++ piece.1.flatMap escapePercent ++ translateFrom 0 piece.2 := by
        rw [List.mem_append, List.mem_append, not_or, not_or]
        exact ⟨⟨hs, escaped_plain hpiece.1⟩, translateFrom_null 0 hpiece.2⟩
      rw [List.map_cons, List.zipIdx_cons, List.foldl_cons,
        restore_joinOn hs (segments_plain fun p hp => (hplain p hp).2), mergeOn_segments,
        mergeOn_of_ne (clean_segments (Nat.lt_succ_self idx) hclean.1), ih hclean.2 hjoined hlater,
        rendered]
      simp only [List.append_assoc]

/-! ## Lost marks -/

/-- A segment that is the number of none of twelve literals. -/
def Lost (t : Text) : Prop :=
  2 ≤ t.length ∧ t ≠ displayNat 10 ∧ t ≠ displayNat 11

/-- Every other segment is not empty. -/
def Nonblank : List Text → Prop
  | [] => True
  | [_] => False
  | mark :: _ :: rest => mark ≠ [] ∧ Nonblank rest

/-- One of every other segment is lost. -/
def HasLost : List Text → Prop
  | mark :: _ :: rest => Lost mark ∨ HasLost rest
  | _ => False

variable {idx k : ℕ} {replacement : Text} {pieces : List (Text × Text)}

theorem Lost.ne (h : Lost t) (hk : k < 12) : t ≠ displayNat k := by
  intro heq
  have hlength : ∀ n < 10, (displayNat n).length = 1 := by decide
  by_cases hten : k < 10
  · have htwo := h.1
    rw [heq, hlength k hten] at htwo
    contradiction
  · rcases Nat.lt_or_eq_of_le (Nat.le_of_lt_succ hk) with hlt | rfl
    · have hk : k = 10 := by omega
      rw [hk] at heq
      exact h.2.1 heq
    · exact h.2.2 heq

theorem lost_of_length (h : 2 < t.length) : Lost t := by
  have hten : (displayNat 10).length = 2 := by decide
  have heleven : (displayNat 11).length = 2 := by decide
  refine ⟨Nat.le_of_lt h, ?_, ?_⟩
  · intro heq
    rw [heq, hten] at h
    contradiction
  · intro heq
    rw [heq, heleven] at h
    contradiction

theorem Lost.append (h : Lost s) (ht : t ≠ []) : Lost (s ++ replacement ++ t) := by
  apply lost_of_length
  have hs := h.1
  have hlength := List.length_pos_of_ne_nil ht
  rw [List.length_append, List.length_append]
  omega

theorem Lost.prepend (h : Lost t) (hs : s ≠ []) : Lost (s ++ replacement ++ t) := by
  apply lost_of_length
  have ht := h.1
  have hlength := List.length_pos_of_ne_nil hs
  rw [List.length_append, List.length_append]
  omega

theorem append_eq_pair {x y : Char} (hs : s ≠ []) (ht : t ≠ [])
    (h : s ++ replacement ++ t = [x, y]) : s = [x] ∧ t = [y] := by
  have hslength := List.length_pos_of_ne_nil hs
  have htlength := List.length_pos_of_ne_nil ht
  have hlength := congrArg List.length h
  simp only [List.length_append, List.length_cons, List.length_nil] at hlength
  have hreplacement : replacement = [] := List.length_eq_zero_iff.mp (by omega)
  rcases List.length_eq_one_iff.mp (show s.length = 1 by omega) with ⟨a, rfl⟩
  rcases List.length_eq_one_iff.mp (show t.length = 1 by omega) with ⟨b, rfl⟩
  rw [hreplacement] at h
  simpa using h

/-- The numbers of two literals are lost when the text between them is taken for a mark. -/
theorem lost_marks (h : 0 < idx) :
    Lost (displayNat idx ++ replacement ++ displayNat (idx + 1)) := by
  have hs : displayNat idx ≠ [] := Nat.toDigits_ne_nil
  have ht : displayNat (idx + 1) ≠ [] := Nat.toDigits_ne_nil
  refine ⟨?_, ?_, ?_⟩
  · have hslength := List.length_pos_of_ne_nil hs
    have htlength := List.length_pos_of_ne_nil ht
    rw [List.length_append, List.length_append]
    omega
  · intro heq
    have hpair := append_eq_pair hs ht (heq.trans (show displayNat 10 = ['1', '0'] by decide))
    have hzero := displayNat_injective
      (hpair.2.trans (show ['0'] = displayNat 0 by decide))
    omega
  · intro heq
    have hpair := append_eq_pair hs ht (heq.trans (show displayNat 11 = ['1', '1'] by decide))
    have hone := displayNat_injective
      (hpair.2.trans (show ['1'] = displayNat 1 by decide))
    omega

/-- A round keeps the marks not empty and what is lost lost. -/
theorem mergeOn_lost (hk : k < 12) (replacement : Text) (rest : List Text) :
    (∀ s, Nonblank rest →
      Nonblank (mergeOn (displayNat k) replacement s rest).2 ∧
        (HasLost rest → HasLost (mergeOn (displayNat k) replacement s rest).2)) ∧
    ∀ mark t, mark ≠ [] → Nonblank rest → ∃ mark' t' rest',
      mergeOn (displayNat k) replacement mark (t :: rest) = (mark', t' :: rest') ∧
        mark' ≠ [] ∧ Nonblank rest' ∧ (Lost mark ∨ HasLost rest → Lost mark' ∨ HasLost rest') := by
  induction rest using List.twoStepInduction with
  | nil => exact ⟨fun s h => ⟨h, id⟩, fun mark t hmark h => ⟨mark, t, [], rfl, hmark, h, id⟩⟩
  | singleton t => exact ⟨fun s h => h.elim, fun mark t hmark h => h.elim⟩
  | cons_cons mark t rest ih _ =>
      have hround : ∀ s, Nonblank (mark :: t :: rest) →
          Nonblank (mergeOn (displayNat k) replacement s (mark :: t :: rest)).2 ∧
            (HasLost (mark :: t :: rest) →
              HasLost (mergeOn (displayNat k) replacement s (mark :: t :: rest)).2) := by
        intro s h
        rw [mergeOn]
        by_cases hmark : mark = displayNat k
        · rw [if_pos hmark]
          have hrest := ih.1 (s ++ replacement ++ t) h.2
          refine ⟨hrest.1, fun hlost => hrest.2 ?_⟩
          exact hlost.resolve_left fun hl => hl.ne hk hmark
        · rw [if_neg hmark]
          rcases ih.2 mark t h.1 h.2 with ⟨mark', t', rest', heq, hne, hrest, hlost⟩
          rw [heq]
          exact ⟨⟨hne, hrest⟩, hlost⟩
      refine ⟨hround, ?_⟩
      intro first s hfirst h
      rw [mergeOn]
      by_cases hs : s = displayNat k
      · rw [if_pos hs]
        have hne : first ++ replacement ++ mark ≠ [] := by
          simp [hfirst]
        rcases ih.2 (first ++ replacement ++ mark) t hne h.2 with
          ⟨mark', t', rest', heq, hne', hrest, hlost⟩
        refine ⟨mark', t', rest', heq, hne', hrest, fun hany => hlost ?_⟩
        rcases hany with hl | hl | hl
        · exact .inl (hl.append h.1)
        · exact .inl (hl.prepend hfirst)
        · exact .inr hl
      · rw [if_neg hs]
        have hlater := hround s h
        exact ⟨first, _, _, rfl, hfirst, hlater.1, fun hany => hany.imp_right hlater.2⟩

theorem segments_nonblank (idx : ℕ) (pieces : List (Text × Text)) :
    Nonblank (segments idx pieces) := by
  induction pieces generalizing idx with
  | nil => trivial
  | cons piece pieces ih => exact ⟨Nat.toDigits_ne_nil, ih (idx + 1)⟩

/-- A text that is taken for a mark loses the marks beside it. -/
theorem mergeOn_ambiguous (hk : k < idx) (hbound : k < 12)
    (h : ∃ piece ∈ pieces.dropLast, translateFrom 0 piece.2 = displayNat k) (s : Text) :
    Nonblank (mergeOn (displayNat k) replacement s (segments idx pieces)).2 ∧
      HasLost (mergeOn (displayNat k) replacement s (segments idx pieces)).2 := by
  induction pieces generalizing idx s with
  | nil =>
      rcases h with ⟨piece, hpiece, -⟩
      contradiction
  | cons piece pieces ih =>
      cases pieces with
      | nil =>
          rcases h with ⟨piece, hpiece, -⟩
          contradiction
      | cons piece' pieces =>
          have hmark : displayNat idx ≠ displayNat k :=
            fun heq => (Nat.ne_of_lt hk) (displayNat_injective heq).symm
          rw [segments, segments, mergeOn, if_neg hmark, mergeOn]
          by_cases hpiece : translateFrom 0 piece.2 = displayNat k
          · rw [if_pos hpiece]
            have hlost : Lost (displayNat idx ++ replacement ++ displayNat (idx + 1)) :=
              lost_marks (Nat.zero_lt_of_lt hk)
            have hne : displayNat idx ++ replacement ++ displayNat (idx + 1) ≠ [] :=
              List.ne_nil_of_length_pos (Nat.lt_of_lt_of_le Nat.zero_lt_two hlost.1)
            rcases (mergeOn_lost hbound replacement (segments (idx + 1 + 1) pieces)).2 _
                (translateFrom 0 piece'.2) hne (segments_nonblank _ _) with
              ⟨mark', t', rest', heq, hne', hrest, hkept⟩
            rw [heq]
            exact ⟨⟨hne', hrest⟩, hkept (.inl hlost)⟩
          · rw [if_neg hpiece]
            rw [List.dropLast_cons_cons] at h
            have hlater : ∃ piece ∈ (piece' :: pieces).dropLast,
                translateFrom 0 piece.2 = displayNat k := by
              rcases h with ⟨other, hother, heq⟩
              rcases List.mem_cons.mp hother with rfl | hother
              · exact absurd heq hpiece
              · exact ⟨other, hother, heq⟩
            have hrest := ih (Nat.lt_succ_of_lt hk) hlater (translateFrom 0 piece.2)
            rw [segments] at hrest
            exact ⟨⟨Nat.toDigits_ne_nil, hrest.1⟩, .inr hrest.2⟩

theorem mergeOn_plain {mark : Text} {rest : List Text} (hreplacement : '\x00' ∉ replacement)
    (hs : '\x00' ∉ s) (hrest : ∀ t ∈ rest, '\x00' ∉ t) :
    '\x00' ∉ (mergeOn mark replacement s rest).1 ∧
      ∀ t ∈ (mergeOn mark replacement s rest).2, '\x00' ∉ t := by
  induction rest using List.twoStepInduction generalizing s with
  | nil => exact ⟨hs, hrest⟩
  | singleton t => exact ⟨hs, hrest⟩
  | cons_cons t u rest ih ih' =>
      have ht := hrest t List.mem_cons_self
      have hu := hrest u (List.mem_cons_of_mem _ List.mem_cons_self)
      rw [mergeOn]
      by_cases hmark : t = mark
      · rw [if_pos hmark]
        apply ih
        · rw [List.mem_append, List.mem_append, not_or, not_or]
          exact ⟨⟨hs, hreplacement⟩, hu⟩
        · exact fun v hv => hrest v (List.mem_cons_of_mem _ (List.mem_cons_of_mem _ hv))
      · rw [if_neg hmark]
        have hlater := ih' u ht fun v hv => hrest v (List.mem_cons_of_mem _ hv)
        refine ⟨hs, ?_⟩
        intro v hv
        rcases List.mem_cons.mp hv with rfl | hv
        · exact hlater.1
        · exact hlater.2 v hv

/-- Once a mark is lost, null characters stay. -/
theorem restore_lost {entries : List (Text × ℕ)} {rest : List Text}
    (hentries : ∀ entry ∈ entries, entry.2 < 12 ∧ '\x00' ∉ entry.1) (hs : '\x00' ∉ s)
    (hrest : ∀ t ∈ rest, '\x00' ∉ t) (hnonblank : Nonblank rest) (hlost : HasLost rest) :
    '\x00' ∈ entries.foldl restore (joinOn '\x00' s rest) := by
  induction entries generalizing s rest with
  | nil =>
      apply mem_joinOn
      intro hnil
      rw [hnil] at hlost
      exact hlost
  | cons entry entries ih =>
      have hentry := hentries entry List.mem_cons_self
      have hround := (mergeOn_lost hentry.1 (entry.1.flatMap escapePercent) rest).1 s hnonblank
      have hplain := @mergeOn_plain _ _ (displayNat entry.2) _ (escaped_plain hentry.2) hs hrest
      rw [List.foldl_cons, restore_joinOn hs hrest]
      exact ih (fun e he => hentries e (List.mem_cons_of_mem _ he)) hplain.1 hplain.2 hround.1
        (hround.2 hlost)

theorem zipIdx_bound {literals : List Text} {entry : Text × ℕ} (h : entry ∈ literals.zipIdx idx) :
    entry.2 < idx + literals.length ∧ entry.1 ∈ literals := by
  rcases List.mem_zipIdx h with ⟨-, hlt, heq⟩
  refine ⟨hlt, ?_⟩
  rw [heq]
  exact List.getElem_mem _

/-- Pieces that are not clean leave null characters, when the literals are few. -/
theorem restore_unclean (hclean : ¬Clean idx pieces) (hbound : idx + pieces.length ≤ 12)
    (hs : '\x00' ∉ s) (hplain : ∀ piece ∈ pieces, '\x00' ∉ piece.1 ∧ '\x00' ∉ piece.2) :
    '\x00' ∈ ((pieces.map Prod.fst).zipIdx idx).foldl restore
      (joinOn '\x00' s (segments idx pieces)) := by
  induction pieces generalizing idx s with
  | nil => exact absurd trivial hclean
  | cons piece pieces ih =>
      rw [List.length_cons] at hbound
      have hpiece := hplain piece List.mem_cons_self
      have hlater : ∀ piece ∈ pieces, '\x00' ∉ piece.1 ∧ '\x00' ∉ piece.2 :=
        fun p hp => hplain p (List.mem_cons_of_mem _ hp)
      have hsegments : ∀ t ∈ segments (idx + 1) pieces, '\x00' ∉ t :=
        segments_plain fun p hp => (hlater p hp).2
      have hjoined : '\x00' ∉ s ++ piece.1.flatMap escapePercent ++ translateFrom 0 piece.2 := by
        rw [List.mem_append, List.mem_append, not_or, not_or]
        exact ⟨⟨hs, escaped_plain hpiece.1⟩, translateFrom_null 0 hpiece.2⟩
      rw [List.map_cons, List.zipIdx_cons, List.foldl_cons,
        restore_joinOn hs (segments_plain fun p hp => (hplain p hp).2), mergeOn_segments]
      by_cases hfirst : ∀ piece ∈ pieces.dropLast, translateFrom 0 piece.2 ≠ displayNat idx
      · rw [mergeOn_of_ne (clean_segments (Nat.lt_succ_self idx) hfirst)]
        exact ih (fun h => hclean ⟨hfirst, h⟩) (by omega) hjoined hlater
      · simp only [not_forall, not_not, exists_prop] at hfirst
        have hlost := @mergeOn_ambiguous _ _ (piece.1.flatMap escapePercent) _
          (Nat.lt_succ_self idx) (by omega) hfirst
          (s ++ piece.1.flatMap escapePercent ++ translateFrom 0 piece.2)
        have hmerged := @mergeOn_plain _ _ (displayNat idx) _ (escaped_plain hpiece.1) hjoined
          hsegments
        apply restore_lost _ hmerged.1 hmerged.2 hlost.1 hlost.2
        intro entry hentry
        have hbounds := zipIdx_bound hentry
        rw [List.length_map] at hbounds
        refine ⟨by omega, ?_⟩
        rcases List.mem_map.mp hbounds.2 with ⟨p, hp, heq⟩
        rw [← heq]
        exact (hlater p hp).1

/-! ## The translation -/

theorem pieces_plain (t : Text) (ht : '\x00' ∉ t) :
    ('\x00' ∉ (outside t).1 ∧ ∀ piece ∈ (outside t).2, '\x00' ∉ piece.1 ∧ '\x00' ∉ piece.2) ∧
      '\x00' ∉ (inside t).1 ∧ '\x00' ∉ (inside t).2.1 ∧
        ∀ piece ∈ (inside t).2.2, '\x00' ∉ piece.1 ∧ '\x00' ∉ piece.2 := by
  induction t with
  | nil => simp [outside, inside]
  | cons c t ih =>
      rw [List.mem_cons, not_or] at ht
      have hrest := ih ht.2
      rw [outside, inside]
      constructor
      · by_cases hc : c = '['
        · rw [if_pos hc]
          refine ⟨List.not_mem_nil, ?_⟩
          intro piece hpiece
          rcases List.mem_cons.mp hpiece with rfl | hpiece
          · exact ⟨hrest.2.1, hrest.2.2.1⟩
          · exact hrest.2.2.2 piece hpiece
        · rw [if_neg hc]
          exact ⟨by simp [ht.1, hrest.1.1], hrest.1.2⟩
      · by_cases hc : c = ']'
        · rw [if_pos hc]
          exact ⟨List.not_mem_nil, hrest.1⟩
        · rw [if_neg hc]
          exact ⟨by simp [ht.1, hrest.2.1], hrest.2.2⟩

theorem onePass_null (h : '\x00' ∉ t) : '\x00' ∉ onePass (.outside 0) t := by
  have hplain := (pieces_plain t h).1
  rw [(onePass_pieces t).1 0 (Nat.zero_le _), List.mem_append, not_or]
  refine ⟨translateFrom_null 0 hplain.1, ?_⟩
  generalize (outside t).2 = pieces at hplain
  induction pieces with
  | nil => exact List.not_mem_nil
  | cons piece pieces ih =>
      have hpiece := hplain.2 piece List.mem_cons_self
      rw [rendered, List.mem_append, List.mem_append, not_or, not_or]
      exact ⟨⟨escaped_plain hpiece.1, translateFrom_null 0 hpiece.2⟩,
        ih ⟨hplain.1, fun p hp => hplain.2 p (List.mem_cons_of_mem _ hp)⟩⟩

theorem momentjsToChrono_pieces (t : Text) :
    momentjsToChrono t = (((outside t).2.map Prod.fst).zipIdx 0).foldl restore
      (joinOn '\x00' (translateFrom 0 (outside t).1) (segments 0 (outside t).2)) := by
  rw [momentjsToChrono, ((preprocess_pieces t) [] []).1, ← translateFrom_marked]
  rfl

theorem clean_iff : Clean idx pieces ↔ ∀ i k piece, pieces[i]? = some piece →
    i + 1 < pieces.length → k < i →
      piece.2.filter (fun c => c ≠ 'S') ≠ displayNat (idx + k) := by
  induction pieces generalizing idx with
  | nil => simp [Clean]
  | cons piece pieces ih =>
      have hdigits : ∀ k (p : Text × Text), translateFrom 0 p.2 = displayNat k ↔
          p.2.filter (fun c => c ≠ 'S') = displayNat k :=
        fun k p => translateFrom_eq_digits fun c => displayNat_isDigit
      rw [Clean, ih]
      constructor
      · intro h i k other hother hi hk
        cases i with
        | zero => exact absurd hk (Nat.not_lt_zero k)
        | succ i =>
            rw [List.getElem?_cons_succ] at hother
            rw [List.length_cons] at hi
            cases k with
            | zero =>
                have hmem : other ∈ pieces.dropLast := by
                  apply List.mem_of_getElem? (i := i)
                  rw [List.getElem?_dropLast, if_pos (by omega), hother]
                rw [ne_eq, ← hdigits]
                exact h.1 other hmem
            | succ k =>
                have hlater := h.2 i k other hother (by omega) (by omega)
                rwa [Nat.add_right_comm] at hlater
      · intro h
        constructor
        · intro other hother
          rcases List.mem_iff_getElem?.mp hother with ⟨i, hi⟩
          rw [List.getElem?_dropLast] at hi
          by_cases hlt : i < pieces.length - 1
          · rw [if_pos hlt] at hi
            have hsame := h (i + 1) 0 other hi (by rw [List.length_cons]; omega) (Nat.succ_pos i)
            rwa [ne_eq, hdigits]
          · rw [if_neg hlt] at hi
            contradiction
        · intro i k other hother hi hk
          have hlater := h (i + 1) (k + 1) other hother (by rw [List.length_cons]; omega)
            (Nat.succ_lt_succ hk)
          rwa [← Nat.add_assoc, Nat.add_right_comm] at hlater

/-- The translation is that of one pass when no text between two literals reads like the number of
an earlier literal; with at most twelve literals, only then. -/
theorem momentjsToChrono_eq_onePass (momentFormat : Text) (h : '\x00' ∉ momentFormat) :
    (Unambiguous momentFormat → momentjsToChrono momentFormat = onePass (.outside 0) momentFormat) ∧
      ((outside momentFormat).2.length ≤ 12 →
        (momentjsToChrono momentFormat = onePass (.outside 0) momentFormat ↔
          Unambiguous momentFormat)) := by
  have hplain := (pieces_plain momentFormat h).1
  have hs := translateFrom_null 0 hplain.1
  have hclean : Unambiguous momentFormat ↔ Clean 0 (outside momentFormat).2 := by
    rw [clean_iff, Unambiguous]
    simp only [Nat.zero_add]
  have hsound : Unambiguous momentFormat →
      momentjsToChrono momentFormat = onePass (.outside 0) momentFormat := by
    intro hunambiguous
    rw [momentjsToChrono_pieces, restore_clean (hclean.mp hunambiguous) hs hplain.2,
      (onePass_pieces momentFormat).1 0 (Nat.zero_le _)]
  refine ⟨hsound, ?_⟩
  intro hfew
  refine ⟨?_, hsound⟩
  intro heq
  by_contra hambiguous
  have hnull := restore_unclean (mt hclean.mpr hambiguous) (by omega) hs hplain.2
  rw [← momentjsToChrono_pieces, heq] at hnull
  exact onePass_null h hnull

/-- Two neighbouring literals and a digit. -/
theorem digit_between_literals :
    momentjsToChrono "[a][b]0[c]".toList ≠ onePass (.outside 0) "[a][b]0[c]".toList := by
  decide +kernel

theorem weekly_format :
    momentjsToChrono "gggg-[W]ww[%]".toList = "%G-W%V%%".toList ∧
      momentjsToChrono "gggg-[W]ww[%]".toList = onePass (.outside 0) "gggg-[W]ww[%]".toList := by
  refine ⟨by decide +kernel, ?_⟩
  apply (momentjsToChrono_eq_onePass "gggg-[W]ww[%]".toList (by decide +kernel)).1
  intro i k piece _ hi hk
  have hlength : (outside "gggg-[W]ww[%]".toList).2.length = 2 := by decide +kernel
  omega

end ObsidianMcp
