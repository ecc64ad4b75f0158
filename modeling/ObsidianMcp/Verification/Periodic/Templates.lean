import ObsidianMcp.Model.PeriodicNotes
import ObsidianMcp.Verification.Periodic.Formats

/-! # Template expansion

Four passes fill in a template, each over what the earlier ones have put in. -/

namespace ObsidianMcp

open Text

variable {chrono : Chrono} {date : NaiveDate} {title : Text} {now : TimeOfDay} {content t : Text}

/-! ## Statements -/

inductive Placeholder where
  | title
  | date
  | time
  deriving DecidableEq

def Placeholder.text : Placeholder → Text
  | .title => "\x7b\x7btitle\x7d\x7d".toList
  | .date => "\x7b\x7bdate\x7d\x7d".toList
  | .time => "\x7b\x7btime\x7d\x7d".toList

/-- A date as `YYYY-MM-DD`. -/
def NaiveDate.text (date : NaiveDate) : Text :=
  yearText date.year ++ '-' :: padded 2 date.month ++ '-' :: padded 2 date.day

def placeholderValue (date : NaiveDate) (title : Text) (now : TimeOfDay) : Placeholder → Text
  | .title => title
  | .date => date.text
  | .time => now.text

/-- The characters and placeholders of a template, its dates with a format filled in, when `skip`
characters belong to the last placeholder. -/
def templatePieces (chrono : Chrono) (date : NaiveDate) :
    ℕ → Text → Except VaultError (List (Char ⊕ Placeholder))
  | _, [] => .ok []
  | skip + 1, _ :: t => templatePieces chrono date skip t
  | 0, c :: t =>
      match dateFormatAt (c :: t) with
      | some format => do
          let formatted ← formatDate chrono date format
          let rest ← templatePieces chrono date (format.length + 8) t
          return formatted.map .inl ++ rest
      | none =>
          match [Placeholder.title, .date, .time].find? fun a => a.text.isPrefixOf (c :: t) with
          | some a => (templatePieces chrono date (a.text.length - 1) t).map (.inr a :: ·)
          | none => (templatePieces chrono date 0 t).map (.inl c :: ·)

/-- Every placeholder of the template itself gives way to its value. -/
def substituteTemplate (chrono : Chrono) (content : Text) (date : NaiveDate) (title : Text)
    (now : TimeOfDay) : Except VaultError Text :=
  (templatePieces chrono date 0 content).map (spell (placeholderValue date title now))

/-- With the dates that have a format filled in, the template shows `title` placeholders only where
it has them. -/
def NoTitleByAccident (pieces : List (Char ⊕ Placeholder)) : Prop :=
  scan Placeholder.text [.title] (spell Placeholder.text pieces) =
    spellOnly Placeholder.text (· = .title) pieces

/-- The filled-in text has no placeholder for a date or a time, and the title placeholders that a
pass finds are those of the template or stay as they are. -/
def PassesAgree (title : Text) (filled : Text) (pieces : List (Char ⊕ Placeholder)) : Prop :=
  ¬Placeholder.date.text <:+: filled ∧ ¬Placeholder.time.text <:+: filled ∧
    (title = Placeholder.title.text ∨ NoTitleByAccident pieces)

/-! ## Placeholders -/

theorem separate_placeholders (kinds : List Placeholder) : Separate Placeholder.text kinds := by
  constructor
  · intro a _
    cases a <;> decide
  · intro a _ b _
    cases a <;> cases b <;> decide

theorem placeholder_overlap (a b : Placeholder) : NeverIn a.text b.text.tail := by
  cases a <;> cases b <;> decide

theorem dateFormatAt_eq_none (h : ¬"\x7b\x7bdate:".toList <+: t) : dateFormatAt t = none := by
  rw [dateFormatAt, stripPrefix, if_neg]
  · rfl
  · rwa [List.isPrefixOf_iff_prefix]

theorem expandDates_drop (n : ℕ) (t : Text) :
    expandDates chrono date n t = expandDates chrono date 0 (t.drop n) := by
  induction n generalizing t with
  | zero => rfl
  | succ n ih =>
      cases t with
      | nil => rfl
      | cons c t => exact ih t

theorem templatePieces_drop (n : ℕ) (t : Text) :
    templatePieces chrono date n t = templatePieces chrono date 0 (t.drop n) := by
  induction n generalizing t with
  | zero => rfl
  | succ n ih =>
      cases t with
      | nil => rfl
      | cons c t => exact ih t

theorem expandDates_append {s : Text} (h : NeverIn "\x7b\x7bdate:".toList s) (t : Text) :
    expandDates chrono date 0 (s ++ t) = (expandDates chrono date 0 t).map (s ++ ·) := by
  induction s with
  | nil =>
      rw [List.nil_append]
      cases expandDates chrono date 0 t with
      | error error => rfl
      | ok result => rfl
  | cons c s ih =>
      have hnone := dateFormatAt_eq_none (h.not_isPrefix (by simp) t)
      rw [List.cons_append] at hnone ⊢
      rw [expandDates, hnone, ih h.tail]
      cases expandDates chrono date 0 t with
      | error error => rfl
      | ok result => rfl

/-- The first pass spells the placeholders of the template. -/
theorem expandDates_eq (t : Text) :
    expandDates chrono date 0 t =
      (templatePieces chrono date 0 t).map (spell Placeholder.text) := by
  induction hn : t.length using Nat.strong_induction_on generalizing t with
  | _ n ih =>
      subst hn
      cases t with
      | nil => rfl
      | cons c t =>
          cases hformat : dateFormatAt (c :: t) with
          | some format =>
              rw [expandDates, templatePieces, hformat]
              dsimp only
              rw [expandDates_drop, templatePieces_drop, ih _ (by simp) _ rfl]
              cases formatDate chrono date format with
              | error error => rfl
              | ok formatted =>
                  cases templatePieces chrono date 0 (t.drop (format.length + 8)) with
                  | error error => rfl
                  | ok rest => simp [bind, Except.bind, pure, Except.pure, Except.map]
          | none =>
              rw [templatePieces, hformat]
              dsimp only
              cases hfind : [Placeholder.title, .date, .time].find?
                  fun a => a.text.isPrefixOf (c :: t) with
              | none =>
                  rw [expandDates, hformat]
                  dsimp only
                  rw [ih t.length (by simp) t rfl]
                  cases templatePieces chrono date 0 t with
                  | error error => rfl
                  | ok rest => rfl
              | some a =>
                  have hprefix := List.find?_some hfind
                  rw [List.isPrefixOf_iff_prefix] at hprefix
                  obtain ⟨rest, hrest⟩ := hprefix
                  have hnever : NeverIn "\x7b\x7bdate:".toList a.text := by
                    cases a <;> decide
                  have hlength : 0 < a.text.length := by
                    cases a <;> decide
                  have hdrop : t.drop (a.text.length - 1) = rest := by
                    have hall : (c :: t).drop a.text.length = rest := by
                      rw [← hrest, List.drop_left]
                    rw [← hall]
                    obtain ⟨n, hn⟩ := Nat.exists_eq_succ_of_ne_zero hlength.ne'
                    rw [hn]
                    rfl
                  dsimp only
                  rw [templatePieces_drop, hdrop, ← hrest, expandDates_append hnever,
                    ih rest.length _ rest rfl]
                  · cases templatePieces chrono date 0 rest with
                    | error error => rfl
                    | ok pieces => rfl
                  · rw [← hrest, List.length_append]
                    omega

/-! ## Values -/

theorem isDigit_of_mem_padded {width n : ℕ} {c : Char} (h : c ∈ padded width n) :
    c.isDigit = true := by
  obtain h | h := List.mem_append.mp h
  · rw [List.eq_of_mem_replicate h]
    decide
  · exact displayNat_isDigit h

/-- The characters of dates and times. -/
def isValueChar (c : Char) : Bool :=
  c.isDigit || c = '-' || c = '+' || c = ':'

theorem isValueChar_padded {width n : ℕ} {c : Char} (h : c ∈ padded width n) :
    isValueChar c = true := by
  simp [isValueChar, isDigit_of_mem_padded h]

theorem exists_digit_padded (width n : ℕ) : ∃ c ∈ padded width n, c.isDigit = true := by
  obtain ⟨c, rest, hcons⟩ := List.exists_cons_of_ne_nil (@Nat.toDigits_ne_nil n 10)
  have hc : c ∈ padded width n := by
    simp [padded, displayNat, hcons]
  exact ⟨c, hc, isDigit_of_mem_padded hc⟩

theorem isValueChar_yearText {year : ℤ} {c : Char} (h : c ∈ yearText year) :
    isValueChar c = true := by
  rw [yearText] at h
  split_ifs at h
  · exact isValueChar_padded h
  · obtain rfl | h := List.mem_cons.mp h
    · decide
    · exact isValueChar_padded h
  · obtain rfl | h := List.mem_cons.mp h
    · decide
    · exact isValueChar_padded h

/-- Dates and times are spelled with digits and signs. -/
theorem isValueChar_value {a : Placeholder} (ha : a ≠ .title) {c : Char}
    (h : c ∈ placeholderValue date title now a) : isValueChar c = true := by
  cases a with
  | title => contradiction
  | date =>
      simp only [placeholderValue, NaiveDate.text, List.append_assoc, List.cons_append,
        List.mem_append, List.mem_cons] at h
      obtain h | rfl | h | rfl | h := h
      · exact isValueChar_yearText h
      · decide
      · exact isValueChar_padded h
      · decide
      · exact isValueChar_padded h
  | time =>
      simp only [placeholderValue, TimeOfDay.text, List.mem_append, List.mem_cons] at h
      obtain h | rfl | h := h
      · exact isValueChar_padded h
      · decide
      · exact isValueChar_padded h

theorem exists_digit_value (date : NaiveDate) (title : Text) (now : TimeOfDay) {a : Placeholder}
    (ha : a ≠ .title) :
    ∃ c ∈ placeholderValue date title now a, c.isDigit = true := by
  cases a with
  | title => contradiction
  | date =>
      obtain ⟨c, hc, hdigit⟩ := exists_digit_padded 2 date.day
      exact ⟨c, by simp [placeholderValue, NaiveDate.text, hc], hdigit⟩
  | time =>
      obtain ⟨c, hc, hdigit⟩ := exists_digit_padded 2 now.hour
      exact ⟨c, by simp [placeholderValue, TimeOfDay.text, hc], hdigit⟩

theorem not_isValueChar_text (a : Placeholder) : ∀ c ∈ a.text, isValueChar c = false := by
  apply not_of_all_not
  cases a <;> decide

/-- The kinds of the last two passes. -/
def dateKinds : List Placeholder := [.date, .time]

theorem foreign_values (date : NaiveDate) (title : Text) (now : TimeOfDay) :
    Foreign Placeholder.text (placeholderValue date title now) dateKinds := by
  intro a ha
  have hne : a ≠ .title := by
    rintro rfl
    simp [dateKinds] at ha
  obtain ⟨c, hc, -⟩ := exists_digit_value date title now hne
  obtain ⟨d, rest, hcons⟩ := List.exists_cons_of_ne_nil (List.ne_nil_of_mem hc)
  refine ⟨d, rest, hcons, ?_⟩
  intro b _
  have hnot : ∀ e ∈ b.text, e ∉ placeholderValue date title now a := by
    intro e he hmem
    have hfalse := not_isValueChar_text b e he
    rw [isValueChar_value hne hmem] at hfalse
    contradiction
  refine ⟨fun hd => hnot d hd (by simp [hcons]), ?_⟩
  obtain ⟨e, text, htext⟩ := List.exists_cons_of_ne_nil
    ((separate_placeholders [b]).nonempty b (by simp))
  rw [htext]
  exact neverIn_of_not_mem (hnot e (by simp [htext]))

theorem formatDate_iso (chrono : Chrono) (date : NaiveDate) :
    formatDate chrono date "YYYY-MM-DD".toList = .ok date.text := by
  have htranslated : momentjsToChrono "YYYY-MM-DD".toList = "%Y-%m-%d".toList := by
    decide +kernel
  have hformat : chrono.format date "%Y-%m-%d".toList = some date.text := by
    change chrono.format date ['%', 'Y', '-', '%', 'm', '-', '%', 'd'] = _
    rw [chrono.format_year, chrono.format_char _ _ _ (by decide), chrono.format_month,
      chrono.format_char _ _ _ (by decide), chrono.format_day, chrono.format_nil]
    simp [NaiveDate.text]
  have hplain : ¬quarterPlaceholder <:+: date.text := by
    intro hin
    have hmem : '\x01' ∈ placeholderValue date [] ⟨0, 0, by decide, by decide⟩ .date :=
      hin.subset (by decide)
    have htrue := isValueChar_value (by decide) hmem
    contradiction
  rw [formatDate, htranslated, hformat]
  simp only [if_neg hplain]

/-! ## Passes -/

/-- The last three passes. -/
def passes (date : NaiveDate) (title : Text) (now : TimeOfDay) (t : Text) : Text :=
  replace Placeholder.time.text now.text
    (replace Placeholder.date.text date.text (replace Placeholder.title.text title t))

theorem expandTemplateString_eq :
    expandTemplateString chrono content date title now =
      (templatePieces chrono date 0 content).map fun pieces =>
        passes date title now (spell Placeholder.text pieces) := by
  rw [expandTemplateString, expandDates_eq, formatDate_iso]
  cases templatePieces chrono date 0 content with
  | error error => rfl
  | ok pieces => rfl

/-- The passes over titles, and over dates and times, put in what a scan finds. -/
theorem passes_eq (date : NaiveDate) (title : Text) (now : TimeOfDay) (t : Text) :
    passes date title now t =
      spell (placeholderValue date title now) (scan Placeholder.text dateKinds
        (spell (placeholderValue date title now) (scan Placeholder.text [.title] t))) := by
  have hinert : Inert Placeholder.text (placeholderValue date title now) [.title] :=
    List.pairwise_singleton _ _
  rw [← (separate_placeholders [.title]).replaceEach_eq (by decide) hinert]
  exact (separate_placeholders dateKinds).replaceEach_eq (by decide)
    (foreign_values date title now).inert (replace Placeholder.title.text title t)

/-! ## When the passes agree -/

/-- The text after the titles of the template, and only these, are filled in. -/
def titled (title : Text) : Placeholder → Text
  | .title => title
  | a => a.text

/-- When the filled-in text has no placeholder for a date or a time, the last two passes fill in
those of the template. -/
theorem scan_titled {pieces : List (Char ⊕ Placeholder)}
    (hnone : ∀ a ∈ dateKinds, ¬a.text <:+: spell (placeholderValue date title now) pieces) :
    spell (placeholderValue date title now)
      (scan Placeholder.text dateKinds (spell (titled title) pieces)) =
        spell (placeholderValue date title now) pieces := by
  let rest := spellOnly (placeholderValue date title now) (fun a => a ≠ .title) pieces
  have htitled : spell (titled title) pieces = spell Placeholder.text rest := by
    rw [spell_spellOnly]
    congr 1
    funext a
    cases a <;> rfl
  have hfilled : spell (placeholderValue date title now) rest =
      spell (placeholderValue date title now) pieces := by
    rw [spell_spellOnly]
    congr 1
    funext a
    cases a <;> rfl
  have hmem : ∀ a, .inr a ∈ rest → a ∈ dateKinds := by
    intro a ha
    have hkept := (mem_spellOnly ha).2
    cases a with
    | title => simp at hkept
    | date => decide
    | time => decide
  rw [htitled, ← hfilled, (separate_placeholders dateKinds).scan_spell_eq
    (fun a _ b _ => placeholder_overlap a b) hmem]
  intro a ha
  rw [hfilled]
  exact hnone a ha

/-- The titles that the pass over titles fills in. -/
theorem spell_scan_title {pieces : List (Char ⊕ Placeholder)}
    (h : title = Placeholder.title.text ∨ NoTitleByAccident pieces) :
    spell (placeholderValue date title now)
      (scan Placeholder.text [.title] (spell Placeholder.text pieces)) =
        spell (titled title) pieces := by
  obtain rfl | h := h
  · have hself : ∀ t, spell (placeholderValue date Placeholder.title.text now)
        (scan Placeholder.text [.title] t) = t := by
      intro t
      have hseparate := separate_placeholders [.title]
      induction t using hseparate.scan_induction with
      | nil => rfl
      | mark a ha t ih =>
          rw [hseparate.scan_append ha, spell_inr, ih, List.mem_singleton.mp ha]
          rfl
      | char c t hnone ih => rw [scan_cons_of_none hnone, spell_inl, ih]
    rw [hself]
    congr 1
    funext a
    cases a <;> rfl
  · rw [h, spell_spellOnly]
    congr 1
    funext a
    cases a <;> rfl

/-! ## When they do not -/

/-- What a pass over dates and times makes of a text. -/
def dated (date : NaiveDate) (title : Text) (now : TimeOfDay) (t : Text) : Text :=
  spell (placeholderValue date title now) (scan Placeholder.text dateKinds t)

/-- How many placeholders of a kind the pass over dates and times finds. -/
def found (a : Placeholder) (t : Text) : ℕ :=
  marksOf (· = a) (scan Placeholder.text dateKinds t)

/-- The characters of a kind after the pass over dates and times. -/
theorem countP_dated (date : NaiveDate) (title : Text) (now : TimeOfDay) (p : Char → Bool)
    (t : Text) :
    (dated date title now t).countP p + found .date t * Placeholder.date.text.countP p +
        found .time t * Placeholder.time.text.countP p =
      t.countP p + found .date t * date.text.countP p + found .time t * now.text.countP p := by
  let half : Placeholder → Text := fun a => if a = .date then date.text else a.text
  have hmem : ∀ a, .inr a ∈ scan Placeholder.text dateKinds t → a = .date ∨ a = .time := by
    intro a ha
    simpa [dateKinds] using (separate_placeholders dateKinds).mem_kinds ha
  have htimes := @countP_spell _ (placeholderValue date title now) half
    (scan Placeholder.text dateKinds t) p (· = .time) (now.text.countP p)
    (Placeholder.time.text.countP p)
    (by
      intro a ha hne
      obtain rfl | rfl := hmem a ha
      · rfl
      · simp at hne)
    (by
      intro a _ heq
      rw [of_decide_eq_true heq]
      exact ⟨rfl, rfl⟩)
  have hdates := @countP_spell _ half Placeholder.text
    (scan Placeholder.text dateKinds t) p (· = .date) (date.text.countP p)
    (Placeholder.date.text.countP p)
    (by
      intro a _ hne
      exact if_neg (of_decide_eq_false hne))
    (by
      intro a _ heq
      rw [of_decide_eq_true heq]
      exact ⟨rfl, rfl⟩)
  rw [(separate_placeholders dateKinds).spell_scan] at hdates
  rw [dated, found, found]
  omega

theorem countP_value_eq_zero {p : Char → Bool} (hp : ∀ c, isValueChar c = true → p c = false)
    {a : Placeholder} (ha : a ≠ .title) :
    (placeholderValue date title now a).countP p = 0 := by
  rw [List.countP_eq_zero]
  intro c hc
  rw [hp c (isValueChar_value ha hc)]
  exact Bool.false_ne_true

theorem not_isValueChar_letter {d : Char} (hd : isValueChar d = false) (c : Char)
    (hc : isValueChar c = true) : (c == d) = false := by
  rw [beq_eq_false_iff_ne]
  rintro rfl
  rw [hd] at hc
  contradiction

theorem count_value_eq_zero (date : NaiveDate) (title : Text) (now : TimeOfDay) {d : Char}
    (hd : isValueChar d = false) {a : Placeholder} (ha : a ≠ .title) :
    (placeholderValue date title now a).count d = 0 :=
  countP_value_eq_zero (not_isValueChar_letter hd) ha

/-- A letter counts the placeholders that the pass over dates and times finds. -/
theorem count_dated (date : NaiveDate) (title : Text) (now : TimeOfDay) {d : Char}
    (hd : isValueChar d = false) (t : Text) :
    (dated date title now t).count d + found .date t * Placeholder.date.text.count d +
        found .time t * Placeholder.time.text.count d = t.count d := by
  have hcount := countP_dated date title now (· == d) t
  have hdate : date.text.countP (· == d) = 0 :=
    count_value_eq_zero date title now hd (a := .date) (by decide)
  have htime : now.text.countP (· == d) = 0 :=
    count_value_eq_zero date title now hd (a := .time) (by decide)
  rw [hdate, htime] at hcount
  simpa [List.count] using hcount

theorem countP_isDigit_pos (date : NaiveDate) (title : Text) (now : TimeOfDay) {a : Placeholder}
    (ha : a ≠ .title) : 0 < (placeholderValue date title now a).countP Char.isDigit := by
  rw [List.countP_pos_iff]
  exact exists_digit_value date title now ha

/-- Titles that leave the same text after the last passes wherever a title is found by accident
are as long as the placeholder. -/
theorem length_title_of_dated_eq {a b : Text} {accidents : ℕ} (hpos : 0 < accidents)
    (hcount : ∀ p : Char → Bool, a.countP p + accidents * Placeholder.title.text.countP p =
      b.countP p + accidents * title.countP p)
    (heq : dated date title now a = dated date title now b) :
    title.length = Placeholder.title.text.length := by
  -- the letters `d` and `m` tell dates and times
  have hdates : found .date a = found .date b + accidents * title.count 'd' := by
    have ha := count_dated date title now (show isValueChar 'd' = false by decide) a
    have hb := count_dated date title now (show isValueChar 'd' = false by decide) b
    have hd : a.count 'd' + accidents * 0 = b.count 'd' + accidents * title.count 'd' :=
      hcount (· == 'd')
    rw [show Placeholder.date.text.count 'd' = 1 by decide,
      show Placeholder.time.text.count 'd' = 0 by decide] at ha hb
    rw [heq] at ha
    omega
  have htimes : found .time a = found .time b + accidents * title.count 'm' := by
    have ha := count_dated date title now (show isValueChar 'm' = false by decide) a
    have hb := count_dated date title now (show isValueChar 'm' = false by decide) b
    have hm : a.count 'm' + accidents * 0 = b.count 'm' + accidents * title.count 'm' :=
      hcount (· == 'm')
    rw [show Placeholder.date.text.count 'm' = 0 by decide,
      show Placeholder.time.text.count 'm' = 1 by decide] at ha hb
    rw [heq] at ha
    omega
  -- every value has a digit, so the title has neither letter
  have hdigits : accidents * title.count 'd' * date.text.countP Char.isDigit = 0 ∧
      accidents * title.count 'm' * now.text.countP Char.isDigit = 0 := by
    have ha := countP_dated date title now Char.isDigit a
    have hb := countP_dated date title now Char.isDigit b
    have hg := hcount Char.isDigit
    rw [show Placeholder.date.text.countP Char.isDigit = 0 by decide,
      show Placeholder.time.text.countP Char.isDigit = 0 by decide] at ha hb
    rw [show Placeholder.title.text.countP Char.isDigit = 0 by decide] at hg
    rw [heq, hdates, htimes] at ha
    simp only [Nat.add_mul] at ha
    omega
  have hdate : found .date a = found .date b := by
    have hvalue : 0 < date.text.countP Char.isDigit :=
      countP_isDigit_pos date title now (a := .date) (by decide)
    have hzero := (Nat.mul_eq_zero.mp hdigits.1).resolve_right hvalue.ne'
    omega
  have htime : found .time a = found .time b := by
    have hvalue : 0 < now.text.countP Char.isDigit :=
      countP_isDigit_pos date title now (a := .time) (by decide)
    have hzero := (Nat.mul_eq_zero.mp hdigits.2).resolve_right hvalue.ne'
    omega
  have ha := countP_dated date title now (fun _ => true) a
  have hb := countP_dated date title now (fun _ => true) b
  have hlength := hcount fun _ => true
  simp only [List.countP_true] at ha hb hlength
  rw [heq, hdate, htime] at ha
  apply Nat.eq_of_mul_eq_mul_left hpos
  omega

theorem eq_title_of_mem {found : List (Char ⊕ Placeholder × Bool)}
    (hscan : scan Placeholder.text [.title] t = found.map (Sum.map id Prod.fst))
    {a : Placeholder × Bool} (ha : .inr a ∈ found) : a.1 = .title := by
  have hmem : .inr a.1 ∈ scan Placeholder.text [.title] t := by
    rw [hscan]
    exact List.mem_map.mpr ⟨_, ha, rfl⟩
  exact List.mem_singleton.mp ((separate_placeholders [.title]).mem_kinds hmem)

/-- The titles that the pass puts in by accident, when the template itself has another text there,
give that text. -/
theorem title_eq_of_accident {found : List (Char ⊕ Placeholder × Bool)}
    (htitle : ∀ a, .inr a ∈ found → a.1 = .title) {a : Placeholder × Bool} (ha : .inr a ∈ found)
    (haccident : a.2 = false)
    (heq : dated date title now (spell (fun m => placeholderValue date title now m.1) found) =
      dated date title now (spell (fun m =>
        if m.2 then placeholderValue date title now m.1 else m.1.text) found)) :
    title = Placeholder.title.text := by
  -- the title is as long as the placeholder
  have hlength : title.length = Placeholder.title.text.length := by
    refine @length_title_of_dated_eq _ _ _ _ _ (marksOf (fun m => !m.2) found) ?_ ?_ heq
    · rw [marksOf, List.countP_pos_iff]
      exact ⟨_, ha, by simp [haccident]⟩
    · intro p
      apply countP_spell
      · intro m _ hm
        simp_all
      · intro m hm hfalse
        have hm : m.1 = .title := htitle m hm
        simp_all only [Bool.not_eq_true']
        exact ⟨rfl, by simp⟩
  -- before the first accident both texts agree
  cases hfind : found.find? (Sum.elim (fun _ => false) fun m => !m.2) with
  | none =>
      rw [List.find?_eq_none] at hfind
      have hnot := hfind _ ha
      simp [haccident] at hnot
  | some first =>
      obtain ⟨hfirst, before, after, rfl, hbefore⟩ := List.find?_eq_some_iff_append.mp hfind
      cases first with
      | inl c => simp at hfirst
      | inr m =>
          have hm : m.1 = .title := htitle m (by simp)
          have hsame : spell (fun m => if m.2 then placeholderValue date title now m.1
              else m.1.text) before =
                spell (fun m => placeholderValue date title now m.1) before := by
            apply spell_congr
            intro b hb
            have hkept := hbefore _ hb
            simp_all
          have hfalse : m.2 = false := by simpa using hfirst
          rw [spell_append, spell_append, spell_inr, spell_inr, hsame, hfalse, hm] at heq
          apply (separate_placeholders dateKinds).eq_of_spell_scan_eq _ _ hlength heq.symm
          · intro b hb
            obtain ⟨d, rest, hvalue, hforeign⟩ := foreign_values date title now b hb
            have hne : b ≠ .title := by
              rintro rfl
              simp [dateKinds] at hb
            refine ⟨d, rest, hvalue, ?_, fun b hb => (hforeign b hb).1⟩
            intro hd
            have hfalse := not_isValueChar_text .title d hd
            rw [isValueChar_value hne (by rw [hvalue]; simp)] at hfalse
            contradiction
          · decide

/-- The passes give the substituted template only when they agree. -/
theorem passesAgree_of_eq {pieces : List (Char ⊕ Placeholder)}
    (h : passes date title now (spell Placeholder.text pieces) =
      spell (placeholderValue date title now) pieces) :
    PassesAgree title (spell (placeholderValue date title now) pieces) pieces := by
  have hnone : ∀ a ∈ dateKinds, ¬a.text <:+: spell (placeholderValue date title now) pieces := by
    intro a ha
    rw [← h, passes_eq]
    exact (separate_placeholders dateKinds).not_infix_spell_scan
      (foreign_values date title now) ha _
  refine ⟨hnone .date (by decide), hnone .time (by decide), ?_⟩
  have hmem : ∀ a, .inr a ∈ spellOnly Placeholder.text (· = .title) pieces → a ∈ [.title] := by
    intro a ha
    simpa using (mem_spellOnly ha).2
  obtain ⟨found, hscan, hpieces⟩ := (separate_placeholders [.title]).exists_accidental
    (fun a _ b _ => placeholder_overlap a b) hmem
  rw [spell_spellOnly] at hscan
  simp only [ite_self] at hscan
  by_cases haccident : ∃ a, .inr a ∈ found ∧ a.2 = false
  · obtain ⟨a, ha, hfalse⟩ := haccident
    left
    apply @title_eq_of_accident date title now found (fun _ => eq_title_of_mem hscan) a ha hfalse
    have htitled : spell (titled title) pieces = spell (fun m =>
        if m.2 then placeholderValue date title now m.1 else m.1.text) found := by
      have hkept := congrArg (spell (placeholderValue date title now)) hpieces
      rw [spell_spellOnly, spell_map, spell_spellOnly] at hkept
      rw [← hkept]
      congr 1
      funext a
      cases a <;> rfl
    rw [← htitled, ← spell_map (placeholderValue date title now), ← hscan, dated, ← passes_eq, h]
    exact (scan_titled hnone).symm
  · right
    rw [NoTitleByAccident, hscan, hpieces, spellOnly_of_keep]
    intro a ha
    by_contra hfalse
    exact haccident ⟨a, ha, by simpa using hfalse⟩

theorem passes_iff {pieces : List (Char ⊕ Placeholder)} :
    passes date title now (spell Placeholder.text pieces) =
        spell (placeholderValue date title now) pieces ↔
      PassesAgree title (spell (placeholderValue date title now) pieces) pieces := by
  constructor
  · exact passesAgree_of_eq
  · rintro ⟨hdate, htime, htitle⟩
    have hnone : ∀ a ∈ dateKinds,
        ¬a.text <:+: spell (placeholderValue date title now) pieces := by
      intro a ha
      obtain rfl | rfl : a = .date ∨ a = .time := by simpa [dateKinds] using ha
      · exact hdate
      · exact htime
    rw [passes_eq, spell_scan_title htitle]
    exact scan_titled hnone

/-! ## Expansion -/

/-- Expansion substitutes the placeholders of the template, exactly when its passes agree. -/
theorem expandTemplateString_eq_substitute_iff (chrono : Chrono) (content : Text)
    (date : NaiveDate) (title : Text) (now : TimeOfDay) :
    expandTemplateString chrono content date title now =
        substituteTemplate chrono content date title now ↔
      ∀ pieces, templatePieces chrono date 0 content = .ok pieces →
        PassesAgree title (spell (placeholderValue date title now) pieces) pieces := by
  rw [expandTemplateString_eq, substituteTemplate]
  cases templatePieces chrono date 0 content with
  | error error => simp [Except.map]
  | ok pieces => simp [Except.map, passes_iff]

/-- A title that reads like a placeholder becomes a date. -/
theorem title_rewritten :
    expandTemplateString Chrono.numeric "# {{title}}".toList
        ⟨2024, 1, 15, by decide⟩ "{{date}}".toList ⟨9, 30, by decide, by decide⟩ =
          .ok "# 2024-01-15".toList ∧
      substituteTemplate Chrono.numeric "# {{title}}".toList
        ⟨2024, 1, 15, by decide⟩ "{{date}}".toList ⟨9, 30, by decide, by decide⟩ =
          .ok "# {{date}}".toList := by
  constructor <;> decide +kernel

end ObsidianMcp
