import ObsidianMcp.Model.Source
import ObsidianMcp.Verification.Headings.Sections

/-! # The outline of a note

The stack of open sections finds the nearest earlier heading of a smaller level, and each section
runs to the next heading of the same or a smaller level. -/

namespace ObsidianMcp

open Text

variable {content : Text} {headings : List HeadingPos} {stack : List ℕ}

/-- The nearest heading before an ordinal whose level is smaller. -/
def nearestParent (headings : List HeadingPos) (ordinal level : ℕ) : Option ℕ :=
  (List.range ordinal).reverse.find? fun earlier => levelAt headings earlier < level

/-- Where the first heading of a list that closes a section of a level starts. -/
def closedBy (content : Text) (level : ℕ) (later : List HeadingPos) : ℕ :=
  ((later.find? fun heading => heading.level ≤ level).map HeadingPos.offset).getD (byteLen content)

/-- The end of the section of an ordinal. -/
def sectionStop (content : Text) (headings : List HeadingPos) (ordinal level : ℕ) : ℕ :=
  closedBy content level (headings.drop (ordinal + 1))

theorem levelAt_of_getElem? {ordinal : ℕ} {heading : HeadingPos}
    (h : headings[ordinal]? = some heading) : levelAt headings ordinal = heading.level := by
  simp [levelAt, h]

/-! ## One heading -/

/-- The sections that a heading leaves open. -/
theorem closeSections_fst (heading : HeadingPos) (stack sectionEnds : List ℕ) :
    (closeSections headings heading stack sectionEnds).1 =
      stack.dropWhile fun previous => heading.level ≤ levelAt headings previous := by
  induction stack generalizing sectionEnds with
  | nil => simp [closeSections]
  | cons previous stack ih =>
      by_cases h : levelAt headings previous < heading.level
      · simp [closeSections, h]
      · simp [closeSections, h, ih, Nat.le_of_not_lt h]

/-- The sections that a heading closes end where it starts. -/
theorem closeSections_snd (heading : HeadingPos) (stack sectionEnds : List ℕ) :
    (closeSections headings heading stack sectionEnds).2 =
      (stack.takeWhile fun previous => heading.level ≤ levelAt headings previous).foldl
        (fun ends previous => ends.set previous heading.offset) sectionEnds := by
  induction stack generalizing sectionEnds with
  | nil => simp [closeSections]
  | cons previous stack ih =>
      by_cases h : levelAt headings previous < heading.level
      · simp [closeSections, h]
      · simp [closeSections, h, ih, Nat.le_of_not_lt h]

theorem length_foldl_set (stop : ℕ) (closed sectionEnds : List ℕ) :
    (closed.foldl (fun ends previous => ends.set previous stop) sectionEnds).length =
      sectionEnds.length := by
  induction closed generalizing sectionEnds with
  | nil => rfl
  | cons previous closed ih => simp [ih]

theorem getElem?_foldl_set (stop : ℕ) (closed sectionEnds : List ℕ) {ordinal : ℕ}
    (hordinal : ordinal < sectionEnds.length) :
    (closed.foldl (fun ends previous => ends.set previous stop) sectionEnds)[ordinal]? =
      if ordinal ∈ closed then some stop else sectionEnds[ordinal]? := by
  induction closed generalizing sectionEnds with
  | nil => simp
  | cons previous closed ih =>
      rw [List.foldl_cons, ih _ (by simpa using hordinal)]
      by_cases hmem : ordinal ∈ closed
      · simp [hmem]
      · by_cases heq : ordinal = previous
        · subst heq
          simp [hmem, hordinal]
        · simp [hmem, heq, List.getElem?_set_ne (Ne.symm heq)]

/-! ## The open sections -/

/-- The sections open before an ordinal, the innermost one first. -/
structure Open (headings : List HeadingPos) (ordinal : ℕ) (stack : List ℕ) : Prop where
  descending : stack.Pairwise fun inner outer => outer < inner
  mem : ∀ earlier, earlier ∈ stack ↔ earlier < ordinal ∧
    ∀ between, earlier < between → between < ordinal →
      levelAt headings earlier < levelAt headings between

/-- An outer open section has a smaller level. -/
theorem Open.levels {ordinal : ℕ} (hopen : Open headings ordinal stack) :
    stack.Pairwise fun inner outer => levelAt headings outer < levelAt headings inner := by
  apply hopen.descending.imp_of_mem
  intro inner outer hinner houter hlt
  exact ((hopen.mem outer).mp houter).2 inner hlt ((hopen.mem inner).mp hinner).1

/-- The sections at the inner end are the ones that reach a level. -/
theorem mem_takeWhile_level {level earlier : ℕ}
    (hlevels : stack.Pairwise fun inner outer => levelAt headings outer < levelAt headings inner) :
    earlier ∈ stack.takeWhile (fun previous => level ≤ levelAt headings previous) ↔
      earlier ∈ stack ∧ level ≤ levelAt headings earlier := by
  induction stack with
  | nil => simp
  | cons previous stack ih =>
      obtain ⟨hhead, hlevels⟩ := List.pairwise_cons.mp hlevels
      by_cases h : level ≤ levelAt headings previous
      · simp only [h, decide_true, List.takeWhile_cons_of_pos, List.mem_cons, ih hlevels]
        constructor
        · rintro (rfl | hmem)
          · exact ⟨.inl rfl, h⟩
          · exact ⟨.inr hmem.1, hmem.2⟩
        · rintro ⟨rfl | hmem, hle⟩
          · exact .inl rfl
          · exact .inr ⟨hmem, hle⟩
      · simp only [h, decide_false, Bool.false_eq_true, not_false_eq_true,
          List.takeWhile_cons_of_neg, List.not_mem_nil, List.mem_cons, false_iff, not_and]
        rintro (rfl | hmem)
        · exact h
        · have := hhead earlier hmem
          omega

/-- The sections at the outer end are the ones below a level. -/
theorem mem_dropWhile_level {level earlier : ℕ}
    (hlevels : stack.Pairwise fun inner outer => levelAt headings outer < levelAt headings inner) :
    earlier ∈ stack.dropWhile (fun previous => level ≤ levelAt headings previous) ↔
      earlier ∈ stack ∧ levelAt headings earlier < level := by
  induction stack with
  | nil => simp
  | cons previous stack ih =>
      obtain ⟨hhead, hlevels⟩ := List.pairwise_cons.mp hlevels
      by_cases h : level ≤ levelAt headings previous
      · simp only [h, decide_true, List.dropWhile_cons_of_pos, ih hlevels, List.mem_cons]
        constructor
        · rintro ⟨hmem, hlt⟩
          exact ⟨.inr hmem, hlt⟩
        · rintro ⟨rfl | hmem, hlt⟩
          · omega
          · exact ⟨hmem, hlt⟩
      · simp only [h, decide_false, Bool.false_eq_true, not_false_eq_true,
          List.dropWhile_cons_of_neg, List.mem_cons]
        constructor
        · rintro (rfl | hmem)
          · exact ⟨.inl rfl, by omega⟩
          · have := hhead earlier hmem
            exact ⟨.inr hmem, by omega⟩
        · rintro ⟨hmem, -⟩
          exact hmem

/-- A heading closes the sections of its level and opens its own. -/
theorem Open.step {ordinal : ℕ} {heading : HeadingPos} (hopen : Open headings ordinal stack)
    (hheading : headings[ordinal]? = some heading) :
    Open headings (ordinal + 1)
      (ordinal :: stack.dropWhile fun previous => heading.level ≤ levelAt headings previous) := by
  have hlevel := levelAt_of_getElem? hheading
  constructor
  · refine List.pairwise_cons.mpr ⟨?_, hopen.descending.sublist (List.dropWhile_sublist _)⟩
    intro earlier hmem
    exact ((hopen.mem earlier).mp ((mem_dropWhile_level hopen.levels).mp hmem).1).1
  · intro earlier
    rw [List.mem_cons, mem_dropWhile_level hopen.levels, hopen.mem]
    constructor
    · rintro (rfl | ⟨⟨hlt, hbetween⟩, hbelow⟩)
      · exact ⟨by omega, by intros; omega⟩
      · refine ⟨by omega, fun between hafter hbefore => ?_⟩
        by_cases heq : between = ordinal
        · rwa [heq, hlevel]
        · exact hbetween between hafter (by omega)
    · rintro ⟨hlt, hbetween⟩
      by_cases heq : earlier = ordinal
      · exact .inl heq
      · refine .inr ⟨⟨by omega, fun between hafter hbefore => hbetween between hafter (by omega)⟩, ?_⟩
        rw [← hlevel]
        exact hbetween ordinal (by omega) (by omega)

theorem nearestParent_succ (ordinal level : ℕ) :
    nearestParent headings (ordinal + 1) level =
      if levelAt headings ordinal < level then some ordinal
      else nearestParent headings ordinal level := by
  by_cases h : levelAt headings ordinal < level
  · simp [nearestParent, List.range_succ, h]
  · simp [nearestParent, List.range_succ, h]

/-- All headings between the nearest parent and the ordinal have the level or a greater one. -/
theorem nearestParent_eq_some {ordinal level parent : ℕ} :
    nearestParent headings ordinal level = some parent ↔
      parent < ordinal ∧ levelAt headings parent < level ∧
        ∀ between, parent < between → between < ordinal → level ≤ levelAt headings between := by
  induction ordinal with
  | zero => simp [nearestParent]
  | succ ordinal ih =>
      rw [nearestParent_succ]
      by_cases h : levelAt headings ordinal < level
      · rw [if_pos h, Option.some.injEq]
        constructor
        · rintro rfl
          exact ⟨by omega, h, by intros; omega⟩
        · rintro ⟨hlt, -, hbetween⟩
          by_contra hne
          have := hbetween ordinal (by omega) (by omega)
          omega
      · rw [if_neg h, ih]
        constructor
        · rintro ⟨hlt, hlevel, hbetween⟩
          refine ⟨by omega, hlevel, fun between hafter hbefore => ?_⟩
          by_cases heq : between = ordinal
          · rw [heq]
            omega
          · exact hbetween between hafter (by omega)
        · rintro ⟨hlt, hlevel, hbetween⟩
          have hne : parent ≠ ordinal := by
            rintro rfl
            exact h hlevel
          exact ⟨by omega, hlevel, fun between hafter hbefore => hbetween between hafter (by omega)⟩

theorem nearestParent_eq_none {ordinal level : ℕ} :
    nearestParent headings ordinal level = none ↔
      ∀ earlier, earlier < ordinal → level ≤ levelAt headings earlier := by
  simp [nearestParent]

/-- The innermost section that a heading leaves open is its parent. -/
theorem Open.parent {ordinal : ℕ} (hopen : Open headings ordinal stack) (level : ℕ) :
    (stack.dropWhile fun previous => level ≤ levelAt headings previous).head? =
      nearestParent headings ordinal level := by
  have hmem := @mem_dropWhile_level headings stack level
  have hlevels := hopen.levels.sublist
    (List.dropWhile_sublist (fun previous => level ≤ levelAt headings previous))
  cases hparent : nearestParent headings ordinal level with
  | none =>
      rw [List.head?_eq_none_iff, List.eq_nil_iff_forall_not_mem]
      intro earlier hin
      have hin := (hmem hopen.levels).mp hin
      have := nearestParent_eq_none.mp hparent earlier ((hopen.mem earlier).mp hin.1).1
      omega
  | some parent =>
      obtain ⟨hlt, hlevel, hbetween⟩ := nearestParent_eq_some.mp hparent
      have hin : parent ∈ stack.dropWhile fun previous => level ≤ levelAt headings previous := by
        refine (hmem hopen.levels).mpr ⟨(hopen.mem parent).mpr ⟨hlt, ?_⟩, hlevel⟩
        intro between hafter hbefore
        exact hlevel.trans_le (hbetween between hafter hbefore)
      cases hrest : stack.dropWhile fun previous => level ≤ levelAt headings previous with
      | nil => simp [hrest] at hin
      | cons inner outer =>
          have hinner : inner ∈ inner :: outer := List.mem_cons_self
          rw [← hrest, hmem hopen.levels] at hinner
          rw [hrest] at hin hlevels
          rcases List.mem_cons.mp hin with rfl | hin
          · rfl
          · -- an inner section above the parent would be a nearer one
            have hdescending := hopen.descending.sublist
              (List.dropWhile_sublist (fun previous => level ≤ levelAt headings previous))
            rw [hrest] at hdescending
            have hnear := hbetween inner ((List.pairwise_cons.mp hdescending).1 parent hin)
              ((hopen.mem inner).mp hinner.1).1
            omega

/-! ## The loop -/

/-- What the loop has found out before an ordinal. -/
structure Outlined (content : Text) (headings : List HeadingPos) (ordinal : ℕ) (stack : List ℕ)
    (parents : List (Option ℕ)) (sectionEnds : List ℕ) : Prop where
  opened : Open headings ordinal stack
  lengths : parents.length = headings.length ∧ sectionEnds.length = headings.length
  parents : ∀ earlier, earlier < ordinal →
    parents[earlier]? = some (nearestParent headings earlier (levelAt headings earlier))
  ends : ∀ other, other < headings.length → sectionEnds[other]? =
    some (sectionStop content (headings.take ordinal) other (levelAt headings other))

theorem outlined_start (content : Text) (headings : List HeadingPos) :
    Outlined content headings 0 [] (List.replicate headings.length none)
      (List.replicate headings.length (byteLen content)) := by
  constructor
  · exact ⟨List.Pairwise.nil, by simp⟩
  · simp
  · simp
  · intro other hother
    simp [sectionStop, closedBy, hother]

/-- The headings between two ordinals. -/
theorem mem_drop_take {first last : ℕ} {heading : HeadingPos} :
    heading ∈ (headings.take last).drop (first + 1) ↔
      ∃ between, first < between ∧ between < last ∧ headings[between]? = some heading := by
  rw [List.mem_iff_getElem?]
  constructor
  · rintro ⟨n, hn⟩
    rw [List.getElem?_drop, List.getElem?_take] at hn
    split at hn
    · exact ⟨first + 1 + n, by omega, ‹_›, hn⟩
    · contradiction
  · rintro ⟨between, hafter, hbefore, hheading⟩
    refine ⟨between - (first + 1), ?_⟩
    rw [List.getElem?_drop, List.getElem?_take, if_pos (by omega),
      Nat.add_sub_cancel' (by omega), hheading]

theorem Open.mem_iff {ordinal earlier : ℕ} (hopen : Open headings ordinal stack)
    (hordinal : ordinal ≤ headings.length) (hlt : earlier < ordinal) :
    earlier ∈ stack ↔ ∀ heading ∈ (headings.take ordinal).drop (earlier + 1),
      levelAt headings earlier < heading.level := by
  rw [hopen.mem]
  constructor
  · rintro ⟨-, hbetween⟩ heading hmem
    obtain ⟨between, hafter, hbefore, hheading⟩ := mem_drop_take.mp hmem
    rw [← levelAt_of_getElem? hheading]
    exact hbetween between hafter hbefore
  · intro hall
    refine ⟨hlt, fun between hafter hbefore => ?_⟩
    have hheading := List.getElem?_eq_getElem (hbefore.trans_le hordinal)
    rw [levelAt_of_getElem? hheading]
    exact hall _ (mem_drop_take.mpr ⟨between, hafter, hbefore, hheading⟩)

/-- One more heading ends the sections which nothing has closed so far. -/
theorem sectionStop_take_succ {ordinal other : ℕ} {heading : HeadingPos}
    (hopen : Open headings ordinal stack) (hheading : headings[ordinal]? = some heading) :
    sectionStop content (headings.take (ordinal + 1)) other (levelAt headings other) =
      if other ∈ stack ∧ heading.level ≤ levelAt headings other then heading.offset
      else sectionStop content (headings.take ordinal) other (levelAt headings other) := by
  have hlength : ordinal < headings.length := (List.getElem?_eq_some_iff.mp hheading).1
  have htake : headings.take (ordinal + 1) = headings.take ordinal ++ [heading] := by
    rw [List.take_add_one, hheading]
    rfl
  by_cases hlt : other < ordinal
  · rw [sectionStop, sectionStop, htake, List.drop_append_of_le_length (by simp; omega), closedBy,
      closedBy, List.find?_append]
    cases hfind : ((headings.take ordinal).drop (other + 1)).find? fun heading =>
        heading.level ≤ levelAt headings other with
    | some closing =>
        have hclosed : other ∉ stack := by
          rw [hopen.mem_iff hlength.le hlt]
          intro hall
          have hle := List.find?_some hfind
          have := hall closing (List.mem_of_find?_eq_some hfind)
          simp only [decide_eq_true_eq] at hle
          omega
        simp [hclosed]
    | none =>
        have hmem : other ∈ stack := by
          rw [hopen.mem_iff hlength.le hlt]
          intro heading hin
          have := List.find?_eq_none.mp hfind heading hin
          simpa using this
        by_cases hle : heading.level ≤ levelAt headings other
        · simp [hmem, hle]
        · simp [hmem, hle]
  · have hclosed : other ∉ stack := by
      intro hmem
      exact hlt ((hopen.mem other).mp hmem).1
    rw [if_neg (by simp [hclosed]), sectionStop, sectionStop, List.drop_eq_nil_of_le (by simp; omega),
      List.drop_eq_nil_of_le (by simp; omega)]

/-- The invariant survives a heading. -/
theorem Outlined.step {ordinal : ℕ} {parents : List (Option ℕ)} {sectionEnds : List ℕ}
    {heading : HeadingPos} (h : Outlined content headings ordinal stack parents sectionEnds)
    (hheading : headings[ordinal]? = some heading) :
    Outlined content headings (ordinal + 1)
      (ordinal :: (closeSections headings heading stack sectionEnds).1)
      (parents.set ordinal (closeSections headings heading stack sectionEnds).1.head?)
      (closeSections headings heading stack sectionEnds).2 := by
  have hlength : ordinal < headings.length := (List.getElem?_eq_some_iff.mp hheading).1
  have hlevel := levelAt_of_getElem? hheading
  rw [closeSections_fst, closeSections_snd, h.opened.parent]
  constructor
  · exact h.opened.step hheading
  · rw [List.length_set, length_foldl_set]
    exact h.lengths
  · intro earlier hlt
    by_cases heq : earlier = ordinal
    · rw [heq, hlevel, List.getElem?_set_self (h.lengths.1 ▸ hlength)]
    · rw [List.getElem?_set_ne (Ne.symm heq)]
      exact h.parents earlier (by omega)
  · intro other hother
    rw [getElem?_foldl_set _ _ _ (h.lengths.2 ▸ hother), h.ends other hother,
      sectionStop_take_succ h.opened hheading]
    by_cases hmem : other ∈ stack ∧ heading.level ≤ levelAt headings other
    · rw [if_pos ((mem_takeWhile_level h.opened.levels).mpr hmem), if_pos hmem]
    · rw [if_neg (fun hin => hmem ((mem_takeWhile_level h.opened.levels).mp hin)), if_neg hmem]

/-- The invariant survives the loop. -/
theorem Outlined.run {before rest : List HeadingPos} {parents : List (Option ℕ)}
    {sectionEnds : List ℕ} (hsplit : headings = before ++ rest)
    (h : Outlined content headings before.length stack parents sectionEnds) :
    ∃ final, Outlined content headings headings.length final
      (outlineFrom headings before.length rest stack parents sectionEnds).1
      (outlineFrom headings before.length rest stack parents sectionEnds).2 := by
  induction rest generalizing before stack parents sectionEnds with
  | nil =>
      rw [List.append_nil] at hsplit
      refine ⟨stack, ?_⟩
      simp only [outlineFrom, hsplit] at h ⊢
      exact h
  | cons heading rest ih =>
      have hheading : headings[before.length]? = some heading := by simp [hsplit]
      have hstep := h.step hheading
      have hlength : (before ++ [heading]).length = before.length + 1 := by simp
      rw [← hlength] at hstep
      have hfinal := ih (by simp [hsplit]) hstep
      rw [hlength] at hfinal
      exact hfinal

/-- The parent of each heading and the end of its section. -/
theorem outline_spec (content : Text) (headings : List HeadingPos) {ordinal : ℕ}
    {heading : HeadingPos} (hheading : headings[ordinal]? = some heading) :
    (outline content headings).1[ordinal]? = some (nearestParent headings ordinal heading.level) ∧
      (outline content headings).2[ordinal]? =
        some (sectionStop content headings ordinal heading.level) := by
  have hlength : ordinal < headings.length := (List.getElem?_eq_some_iff.mp hheading).1
  obtain ⟨stack, h⟩ : ∃ stack, Outlined content headings headings.length stack
      (outline content headings).1 (outline content headings).2 :=
    Outlined.run (List.nil_append headings).symm (outlined_start content headings)
  have hends := h.ends ordinal hlength
  rw [List.take_length] at hends
  rw [← levelAt_of_getElem? hheading]
  exact ⟨h.parents ordinal hlength, hends⟩

/-- The records of a note by the nearest parents and the section ends. -/
theorem headingRecords_eq (content : Text) (headings : List HeadingPos) :
    headingRecords content headings = headings.zipIdx.map fun entry =>
      headingRecord entry.2 entry.1 (nearestParent headings entry.2 entry.1.level)
        (sectionStop content headings entry.2 entry.1.level) := by
  rw [headingRecords]
  apply List.map_congr_left
  intro entry hmem
  obtain ⟨hparent, hstop⟩ := outline_spec content headings (List.mem_zipIdx_iff_getElem?.mp hmem)
  change headingRecord entry.2 entry.1 ((outline content headings).1[entry.2]?.getD none)
    ((outline content headings).2[entry.2]?.getD 0) = _
  rw [hparent, hstop]
  rfl

/-! ## Nested sections -/

/-- A section is closed inside of what comes after it. -/
theorem closedBy_mem (content : Text) (level : ℕ) (later : List HeadingPos) :
    closedBy content level later = byteLen content ∨
      ∃ heading ∈ later, closedBy content level later = heading.offset := by
  cases hfind : later.find? fun heading => heading.level ≤ level with
  | none => exact .inl (by simp [closedBy, hfind])
  | some heading =>
      exact .inr ⟨heading, List.mem_of_find?_eq_some hfind, by simp [closedBy, hfind]⟩

/-- A section of a smaller level reaches at least as far. -/
theorem closedBy_mono {later : List HeadingPos} {low high : ℕ} (hlevel : low ≤ high)
    (hbound : ∀ heading ∈ later, heading.offset ≤ byteLen content)
    (hsorted : later.Pairwise fun a b => a.offset ≤ b.offset) :
    closedBy content high later ≤ closedBy content low later := by
  induction later with
  | nil => exact le_rfl
  | cons heading later ih =>
      obtain ⟨hhead, hsorted⟩ := List.pairwise_cons.mp hsorted
      have hrest := ih (fun heading hmem => hbound heading (List.mem_cons_of_mem _ hmem)) hsorted
      by_cases hhigh : heading.level ≤ high
      · have hclosed : closedBy content high (heading :: later) = heading.offset := by
          simp [closedBy, hhigh]
        rw [hclosed]
        rcases closedBy_mem content low (heading :: later) with hend | ⟨other, hmem, hother⟩
        · exact hend ▸ hbound heading List.mem_cons_self
        · rw [hother]
          rcases List.mem_cons.mp hmem with rfl | hmem
          · exact le_rfl
          · exact hhead other hmem
      · have hlow : ¬heading.level ≤ low := fun h => hhigh (h.trans hlevel)
        simpa [closedBy, hlow, hhigh] using hrest

/-- The headings before the next section of a level do not close a section of it. -/
theorem closedBy_append {before later : List HeadingPos} {level : ℕ}
    (hbefore : ∀ heading ∈ before, level < heading.level) :
    closedBy content level (before ++ later) = closedBy content level later := by
  have hnone : before.find? (fun heading => heading.level ≤ level) = none := by
    simpa using hbefore
  simp [closedBy, hnone]

/-- Headings of a content start in order and inside of it. -/
theorem Ordered.offsets (h : Ordered content headings) :
    (∀ heading ∈ headings, heading.offset ≤ byteLen content) ∧
      headings.Pairwise fun a b => a.offset ≤ b.offset := by
  constructor
  · intro heading hmem
    have := h.ranges heading hmem
    omega
  · apply h.disjoint.imp_of_mem
    intro a b ha hb hab
    have := h.ranges a ha
    omega

/-- A section lies in the section of its parent. -/
theorem section_nested (h : Ordered content headings) {ordinal parent : ℕ}
    {heading outer : HeadingPos} (hheading : headings[ordinal]? = some heading)
    (houter : headings[parent]? = some outer)
    (hparent : nearestParent headings ordinal heading.level = some parent) :
    outer.offset ≤ heading.offset ∧
      sectionStop content headings ordinal heading.level ≤
        sectionStop content headings parent outer.level := by
  obtain ⟨hlt, hlevel, hbetween⟩ := nearestParent_eq_some.mp hparent
  rw [levelAt_of_getElem? houter] at hlevel
  obtain ⟨hbound, hsorted⟩ := h.offsets
  have hlength : ordinal < headings.length := (List.getElem?_eq_some_iff.mp hheading).1
  constructor
  · have hsame := List.pairwise_iff_getElem.mp hsorted parent ordinal (hlt.trans hlength) hlength hlt
    rwa [(List.getElem?_eq_some_iff.mp houter).2, (List.getElem?_eq_some_iff.mp hheading).2] at hsame
  · have hsplit : headings.drop (parent + 1) =
        (headings.take (ordinal + 1)).drop (parent + 1) ++ headings.drop (ordinal + 1) := by
      rw [← List.drop_append_of_le_length (by simp; omega), List.take_append_drop]
    rw [sectionStop, sectionStop, hsplit, closedBy_append]
    · exact closedBy_mono hlevel.le
        (fun heading hmem => hbound heading (List.mem_of_mem_drop hmem))
        (hsorted.sublist (List.drop_sublist _ _))
    · intro other hmem
      obtain ⟨between, hafter, hbefore, hother⟩ := mem_drop_take.mp hmem
      by_cases heq : between = ordinal
      · rw [heq, hheading, Option.some.injEq] at hother
        exact hother ▸ hlevel
      · have := hbetween between hafter (by omega)
        rw [levelAt_of_getElem? hother] at this
        omega

end ObsidianMcp
