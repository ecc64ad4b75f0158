import ObsidianMcp.Model.EmbeddingChunks
import ObsidianMcp.Model.Patch
import ObsidianMcp.Verification.Source.Outline

/-! # The sections of the chunks

The array of open headings holds what the growing stack of the heading pages holds, so both end a
section where the search for a patched section ends it. -/

namespace ObsidianMcp.Chunks

open Text

variable {headings : List HeadingPos} {slots : Vector ℕ 6} {len index : ℕ} {heading : HeadingPos}

/-- Headings of a content in the order of their offsets. -/
structure InOrder (content : Text) (headings : List HeadingPos) : Prop where
  levels : ∀ heading ∈ headings, 1 ≤ heading.level ∧ heading.level ≤ 6
  sorted : headings.Pairwise fun a b => a.offset < b.offset
  bounded : ∀ heading ∈ headings, heading.offset ≤ byteLen content

/-! ## The array -/

/-- The first slots of the array, the last one first. -/
def openSlots (slots : Vector ℕ 6) (len : ℕ) : List ℕ :=
  (slots.toList.take len).reverse

theorem openSlots_zero : openSlots slots 0 = [] := rfl

theorem openSlots_succ (hlen : len < 6) : openSlots slots (len + 1) = slots[len] :: openSlots slots len := by
  have hget : slots.toList[len]? = some slots[len] := by simp [hlen]
  rw [openSlots, List.take_add_one, hget, List.reverse_append]
  rfl

theorem length_openSlots (hlen : len ≤ 6) : (openSlots slots len).length = len := by
  simp [openSlots, hlen]

theorem closeHeadings_succ {level top : ℕ} {previous : HeadingPos} (htop : slots[len]? = some top)
    (hprevious : headings[top]? = some previous) :
    closeHeadings headings slots level (len + 1) =
      if level ≤ previous.level then closeHeadings headings slots level len else .ok (len + 1) := by
  rw [closeHeadings, htop]
  change (orPanic headings[top]? >>= _) = _
  rw [hprevious]
  rfl

theorem closeSubtrees_succ {top stop : ℕ} {previous : HeadingPos} {ends : List ℕ}
    (htop : slots[len]? = some top) (hprevious : headings[top]? = some previous)
    (hend : ends[top]? = some stop) :
    closeSubtrees headings slots heading (len + 1) ends =
      if heading.level ≤ previous.level then
        closeSubtrees headings slots heading len (ends.set top heading.offset)
      else .ok (len + 1, ends) := by
  rw [closeSubtrees, htop]
  change (orPanic headings[top]? >>= _) = _
  rw [hprevious]
  change (if heading.level ≤ previous.level then orPanic ends[top]? >>= _ else _) = _
  rw [hend]
  rfl

/-- The headings of a higher level are closed. -/
theorem closeHeadings_eq {level : ℕ} (hlen : len ≤ 6)
    (hmem : ∀ i ∈ openSlots slots len, i < headings.length) :
    ∃ rest, closeHeadings headings slots level len = .ok rest ∧ rest ≤ len ∧
      openSlots slots rest =
        (openSlots slots len).dropWhile fun previous => level ≤ levelAt headings previous := by
  induction len with
  | zero => exact ⟨0, rfl, le_rfl, rfl⟩
  | succ len ih =>
      rw [openSlots_succ (by omega)] at hmem ⊢
      obtain ⟨htop, hmem⟩ := List.forall_mem_cons.mp hmem
      have hget : slots[len]? = some slots[len] := by simp
      have hprevious := List.getElem?_eq_getElem htop
      have hlevel := levelAt_of_getElem? hprevious
      rw [closeHeadings_succ hget hprevious]
      by_cases hle : level ≤ headings[slots[len]].level
      · obtain ⟨rest, hrest, hle', hslots⟩ := ih (by omega) hmem
        rw [if_pos hle, List.dropWhile_cons_of_pos (by simpa [hlevel] using hle)]
        exact ⟨rest, hrest, by omega, hslots⟩
      · rw [if_neg hle, List.dropWhile_cons_of_neg (by simpa [hlevel] using hle)]
        exact ⟨len + 1, rfl, le_rfl, openSlots_succ (by omega)⟩

/-- The loop that also ends the closed sections ends them as the heading pages do. -/
theorem closeSubtrees_eq {ends : List ℕ} (hlen : len ≤ 6)
    (hmem : ∀ i ∈ openSlots slots len, i < headings.length)
    (hends : ends.length = headings.length) :
    ∃ rest, closeHeadings headings slots heading.level len = .ok rest ∧
      closeSubtrees headings slots heading len ends =
        .ok (rest, (closeSections headings heading (openSlots slots len) ends).2) := by
  induction len generalizing ends with
  | zero => exact ⟨0, rfl, rfl⟩
  | succ len ih =>
      rw [openSlots_succ (by omega)] at hmem ⊢
      obtain ⟨htop, hmem⟩ := List.forall_mem_cons.mp hmem
      have hget : slots[len]? = some slots[len] := by simp
      have hprevious := List.getElem?_eq_getElem htop
      have hlevel := levelAt_of_getElem? hprevious
      have hend := List.getElem?_eq_getElem (hends.symm ▸ htop)
      rw [closeHeadings_succ hget hprevious, closeSubtrees_succ hget hprevious hend, closeSections,
        hlevel]
      by_cases hle : heading.level ≤ headings[slots[len]].level
      · obtain ⟨rest, hrest, hsubtrees⟩ :=
          @ih (ends.set slots[len] heading.offset) (by omega) hmem (by simpa using hends)
        rw [if_pos hle, if_pos hle, if_neg (by omega)]
        exact ⟨rest, hrest, hsubtrees⟩
      · rw [if_neg hle, if_neg hle, if_pos (by omega)]
        exact ⟨len + 1, rfl, rfl⟩

/-- A new heading comes behind the ones in front of its slot. -/
theorem pushHeading_eq (hlen : len < 6) :
    ∃ stack, pushHeading slots len index = .ok stack ∧ stack.len = len + 1 ∧
      stack.indices.reverse = index :: openSlots slots len := by
  refine ⟨_, by rw [pushHeading, dif_pos hlen], rfl, ?_⟩
  change openSlots (slots.set len index hlen) (len + 1) = _
  rw [openSlots_succ hlen, Vector.getElem_set_self, openSlots, openSlots, Vector.toList_set,
    List.take_set_of_le le_rfl]

/-! ## The open headings -/

/-- Open headings have different levels, so there are no more of them than levels. -/
theorem length_le_level {stack : List ℕ} {level : ℕ}
    (hstack : stack.Pairwise fun inner outer => levelAt headings outer < levelAt headings inner)
    (hpos : ∀ i ∈ stack, 1 ≤ levelAt headings i) (hlt : ∀ i ∈ stack, levelAt headings i < level)
    (hlevel : 1 ≤ level) : stack.length < level := by
  induction stack generalizing level with
  | nil => exact hlevel
  | cons inner stack ih =>
      obtain ⟨hhead, htail⟩ := List.pairwise_cons.mp hstack
      have hinner := hpos inner List.mem_cons_self
      have hrest := ih htail (fun i hi => hpos i (List.mem_cons_of_mem _ hi)) hhead hinner
      have := hlt inner List.mem_cons_self
      rw [List.length_cons]
      omega

theorem Open.lt_length {stack : List ℕ} (hopen : Open headings index stack)
    (hindex : index ≤ headings.length) : ∀ i ∈ stack, i < headings.length := by
  intro i hi
  have := ((hopen.mem i).mp hi).1
  omega

theorem one_le_levelAt (hlevels : ∀ heading ∈ headings, 1 ≤ heading.level ∧ heading.level ≤ 6)
    {i : ℕ} (hi : i < headings.length) : 1 ≤ levelAt headings i ∧ levelAt headings i ≤ 6 := by
  rw [levelAt_of_getElem? (List.getElem?_eq_getElem hi)]
  exact hlevels _ (List.getElem_mem hi)

/-- The array has room for every heading, and behind it the open headings are those of the growing
stack. -/
theorem enterHeading_eq (hlevels : ∀ heading ∈ headings, 1 ≤ heading.level ∧ heading.level ≤ 6)
    {stack : HeadingStack} (hopen : Open headings index stack.indices.reverse)
    (hheading : headings[index]? = some heading) :
    ∃ rest next, closeHeadings headings stack.slots heading.level stack.len = .ok rest ∧
      pushHeading stack.slots rest index = .ok next ∧
      enterHeading headings stack index heading = .ok next ∧
      next.indices.reverse = index ::
        stack.indices.reverse.dropWhile fun previous => heading.level ≤ levelAt headings previous := by
  have hlength : index < headings.length := (List.getElem?_eq_some_iff.mp hheading).1
  have hlevel := hlevels heading (List.mem_of_getElem? hheading)
  have hbound := Open.lt_length hopen hlength.le
  obtain ⟨rest, hrest, hle, hslots⟩ := @closeHeadings_eq headings stack.slots stack.len heading.level
    stack.len_le hbound
  have hroom : rest < 6 := by
    have hshort : (openSlots stack.slots rest).length < heading.level := by
      rw [hslots]
      refine @length_le_level headings _ _
        (hopen.levels.sublist (List.dropWhile_sublist _)) ?_ ?_ hlevel.1
      · intro i hi
        exact (one_le_levelAt hlevels (hbound i ((List.dropWhile_sublist _).subset hi))).1
      · intro i hi
        exact ((mem_dropWhile_level hopen.levels).mp hi).2
    rw [length_openSlots (hle.trans stack.len_le)] at hshort
    omega
  obtain ⟨next, hnext, -, hindices⟩ := @pushHeading_eq stack.slots rest index hroom
  refine ⟨rest, next, hrest, hnext, ?_, by rw [hindices, hslots]; rfl⟩
  rw [enterHeading, hrest]
  exact hnext

/-! ## The two loops -/

/-- The stack behind the first headings. -/
def stackAfter (headings : List HeadingPos) : ℕ → Except Failure HeadingStack
  | 0 => .ok .empty
  | count + 1 => do
      let stack ← stackAfter headings count
      let heading ← orPanic headings[count]?
      enterHeading headings stack count heading

theorem stackAfter_succ {stack : HeadingStack} (hstack : stackAfter headings index = .ok stack)
    (hheading : headings[index]? = some heading) :
    stackAfter headings (index + 1) = enterHeading headings stack index heading := by
  rw [stackAfter, hstack, hheading]
  rfl

/-- Every stack can be built, and it holds the open headings. -/
theorem stackAfter_open (hlevels : ∀ heading ∈ headings, 1 ≤ heading.level ∧ heading.level ≤ 6)
    (hindex : index ≤ headings.length) :
    ∃ stack, stackAfter headings index = .ok stack ∧ Open headings index stack.indices.reverse := by
  induction index with
  | zero => exact ⟨.empty, rfl, ⟨List.Pairwise.nil, by simp [HeadingStack.indices, HeadingStack.empty]⟩⟩
  | succ index ih =>
      obtain ⟨stack, hstack, hopen⟩ := ih (by omega)
      have hheading := List.getElem?_eq_getElem (show index < headings.length by omega)
      obtain ⟨-, next, -, -, henter, hindices⟩ := enterHeading_eq hlevels hopen hheading
      refine ⟨next, (stackAfter_succ hstack hheading).trans henter, ?_⟩
      rw [hindices]
      exact hopen.step hheading

/-- The first loop goes through the stacks of the second one, and ends the sections as the heading
pages do. -/
theorem subtreeEndsFrom_eq (hlevels : ∀ heading ∈ headings, 1 ≤ heading.level ∧ heading.level ≤ 6)
    {before rest : List HeadingPos} (hsplit : headings = before ++ rest) {stack : HeadingStack}
    {ends : List ℕ} (parents : List (Option ℕ))
    (hstack : stackAfter headings before.length = .ok stack)
    (hopen : Open headings before.length stack.indices.reverse)
    (hends : ends.length = headings.length) :
    ∃ final, stackAfter headings headings.length = .ok final ∧
      subtreeEndsFrom headings before.length rest stack ends =
        .ok (final,
          (outlineFrom headings before.length rest stack.indices.reverse parents ends).2) := by
  induction rest generalizing before stack ends parents with
  | nil =>
      rw [List.append_nil] at hsplit
      exact ⟨stack, by rw [hsplit] at hstack ⊢; exact hstack, rfl⟩
  | cons heading rest ih =>
      have hheading : headings[before.length]? = some heading := by simp [hsplit]
      have hlength : before.length < headings.length := (List.getElem?_eq_some_iff.mp hheading).1
      obtain ⟨len, next, hclose, hpush, henter, hindices⟩ := enterHeading_eq hlevels hopen hheading
      obtain ⟨len', hclose', hsubtrees⟩ := @closeSubtrees_eq _ _ _ heading _ stack.len_le
        (Open.lt_length hopen hlength.le) hends
      obtain rfl : len' = len := by simpa [hclose'] using hclose
      have hnext := (stackAfter_succ hstack hheading).trans henter
      have hopen' : Open headings (before.length + 1) next.indices.reverse := by
        rw [hindices]
        exact hopen.step hheading
      have hlong : (before ++ [heading]).length = before.length + 1 := by simp
      have hsections : closeSections headings heading stack.indices.reverse ends =
          (next.indices.reverse.tail,
            (closeSections headings heading (openSlots stack.slots stack.len) ends).2) := by
        refine Prod.ext ?_ rfl
        rw [closeSections_fst, hindices, List.tail_cons]
      have hsplit' : headings = (before ++ [heading]) ++ rest := by simp [hsplit]
      have hends' : (closeSections headings heading (openSlots stack.slots stack.len) ends).2.length =
          headings.length := by rw [closeSections_snd, length_foldl_set, hends]
      rw [← hlong] at hnext hopen'
      obtain ⟨final, hfinal, hrun⟩ := ih hsplit'
        (parents.set before.length next.indices.reverse.tail.head?) hnext hopen' hends'
      refine ⟨final, hfinal, ?_⟩
      rw [hlong] at hrun
      rw [subtreeEndsFrom, hsubtrees, outlineFrom, hsections]
      change (pushHeading stack.slots len' before.length >>= _) = _
      rw [hpush]
      change subtreeEndsFrom headings (before.length + 1) rest next _ = _
      rw [hrun, hindices, List.tail_cons]

theorem subtreeEnds_eq (hlevels : ∀ heading ∈ headings, 1 ≤ heading.level ∧ heading.level ≤ 6)
    (content : Text) :
    subtreeEnds headings (byteLen content) = .ok (outline content headings).2 := by
  obtain ⟨stack, hstack, hopen⟩ := stackAfter_open hlevels (Nat.zero_le _)
  obtain rfl : HeadingStack.empty = stack := Except.ok.inj hstack
  obtain ⟨final, -, hrun⟩ := subtreeEndsFrom_eq hlevels (List.nil_append headings).symm
    (List.replicate headings.length none) hstack hopen
    (List.length_replicate (n := headings.length) (a := byteLen content))
  change (subtreeEndsFrom headings ([] : List HeadingPos).length headings .empty _).map _ = _
  rw [hrun]
  rfl

/-! ## Ancestors -/

/-- The headings that a heading is nested in. -/
def Ancestor (headings : List HeadingPos) : ℕ → ℕ → Prop :=
  Relation.TransGen fun child parent =>
    nearestParent headings child (levelAt headings child) = some parent

/-- A heading in front stays open just when no heading up to an index closes it. -/
def StaysOpen (headings : List HeadingPos) (index earlier : ℕ) : Prop :=
  earlier < index ∧ ∀ between, earlier < between → between ≤ index →
    levelAt headings earlier < levelAt headings between

theorem StaysOpen.of_parent {parent : ℕ}
    (hparent : nearestParent headings index (levelAt headings index) = some parent) :
    StaysOpen headings index parent := by
  obtain ⟨hlt, hlevel, hbetween⟩ := nearestParent_eq_some.mp hparent
  refine ⟨hlt, fun between hafter hbefore => ?_⟩
  obtain hbefore | rfl := Nat.lt_or_eq_of_le hbefore
  · exact hlevel.trans_le (hbetween between hafter hbefore)
  · exact hlevel

theorem StaysOpen.trans {middle earlier : ℕ} (hmiddle : StaysOpen headings index middle)
    (hearlier : StaysOpen headings middle earlier) : StaysOpen headings index earlier := by
  refine ⟨hearlier.1.trans hmiddle.1, fun between hafter hbefore => ?_⟩
  by_cases hle : between ≤ middle
  · exact hearlier.2 between hafter hle
  · exact (hearlier.2 middle hearlier.1 le_rfl).trans (hmiddle.2 between (by omega) hbefore)

/-- The headings that stay open are the ancestors. -/
theorem staysOpen_iff {earlier : ℕ} :
    StaysOpen headings index earlier ↔ Ancestor headings index earlier := by
  constructor
  · intro h
    induction index using Nat.strong_induction_on with
    | h index ih =>
        have hlevel := h.2 index h.1 le_rfl
        cases hparent : nearestParent headings index (levelAt headings index) with
        | none => exact absurd (nearestParent_eq_none.mp hparent earlier h.1) (by omega)
        | some parent =>
            obtain ⟨hlt, -, hbetween⟩ := nearestParent_eq_some.mp hparent
            have hle : earlier ≤ parent := by
              by_contra hgt
              exact absurd (hbetween earlier (by omega) h.1) (by omega)
            obtain hbefore | rfl := Nat.lt_or_eq_of_le hle
            · refine Relation.TransGen.head hparent (ih parent hlt ⟨hbefore, ?_⟩)
              intro between hafter hbefore
              exact h.2 between hafter (by omega)
            · exact Relation.TransGen.single hparent
  · intro h
    induction h with
    | single hparent => exact .of_parent hparent
    | tail _ hparent ih => exact ih.trans (.of_parent hparent)

/-- Behind a heading, the heading and its ancestors are open. -/
theorem Open.mem_iff_ancestor {stack : List ℕ} (hopen : Open headings (index + 1) stack) {other : ℕ} :
    other ∈ stack ↔ other = index ∨ Ancestor headings index other := by
  rw [hopen.mem, ← staysOpen_iff, StaysOpen]
  constructor
  · rintro ⟨hlt, hbetween⟩
    by_cases heq : other = index
    · exact .inl heq
    · exact .inr ⟨by omega, fun between hafter hbefore => hbetween between hafter (by omega)⟩
  · rintro (rfl | ⟨hlt, hbetween⟩)
    · exact ⟨by omega, by intros; omega⟩
    · exact ⟨by omega, fun between hafter hbefore => hbetween between hafter (by omega)⟩

/-! ## The search -/

/-- The search for the next heading of a level skips the headings up to a heading. -/
theorem find?_section (hsorted : headings.Pairwise fun a b => a.offset < b.offset)
    (hheading : headings[index]? = some heading) :
    (headings.find? fun next => heading.offset < next.offset && next.level ≤ heading.level) =
      (headings.drop (index + 1)).find? fun next => next.level ≤ heading.level := by
  obtain ⟨hlength, hget⟩ := List.getElem?_eq_some_iff.mp hheading
  have hsplit : headings = headings.take index ++ heading :: headings.drop (index + 1) := by
    rw [← hget, ← List.drop_eq_getElem_cons hlength, List.take_append_drop]
  have hpairs := hsplit ▸ hsorted
  obtain ⟨-, hrest, hcross⟩ := List.pairwise_append.mp hpairs
  have hbefore : (headings.take index).find? (fun next =>
      heading.offset < next.offset && next.level ≤ heading.level) = none := by
    rw [List.find?_eq_none]
    intro next hmem
    have := hcross next hmem heading List.mem_cons_self
    simp only [Bool.and_eq_true, decide_eq_true_eq]
    omega
  have hbehind : ∀ next ∈ headings.drop (index + 1), heading.offset < next.offset :=
    (List.pairwise_cons.mp hrest).1
  have hafter : (headings.drop (index + 1)).find? (fun next =>
      heading.offset < next.offset && next.level ≤ heading.level) =
        (headings.drop (index + 1)).find? fun next => next.level ≤ heading.level := by
    refine List.find?_congr fun next hmem => ?_
    simp [hbehind next hmem]
  rw [hsplit, List.find?_append, hbefore, List.find?_cons_of_neg (by simp), ← hsplit]
  exact hafter

theorem closedBy_le {content : Text} {later : List HeadingPos} (level : ℕ)
    (hbound : ∀ heading ∈ later, heading.offset ≤ byteLen content) :
    closedBy content level later ≤ byteLen content := by
  obtain hend | ⟨heading, hmem, hoffset⟩ := closedBy_mem content level later
  · exact hend.le
  · exact hoffset ▸ hbound heading hmem

/-- A heading that a single segment selects. -/
theorem mem_of_selectHeading {content segment : Text} {search : HeadingSearch}
    (h : selectHeading content headings search segment = some heading) : heading ∈ headings := by
  rw [selectHeading, Option.or_eq_some_iff] at h
  obtain h | ⟨-, h⟩ := h
  · exact List.mem_of_find?_eq_some h
  · exact List.mem_of_find?_eq_some h

/-- A target of one segment is patched up to where the section of its heading ends. -/
theorem resolveHeadingRange_single {content target path segment : Text}
    (hheadings : InOrder content headings) (hsegments : splitText "::".toList target = [segment])
    (hselect : selectHeading content headings ⟨0, byteLen content, 0⟩ segment = some heading)
    (hheading : headings[index]? = some heading) :
    resolveHeadingRange content headings target path =
      .ok (heading.endOffset, sectionStop content headings index heading.level) := by
  have hbound : ∀ next ∈ headings.drop (index + 1), next.offset ≤ byteLen content :=
    fun next hmem => hheadings.bounded next (List.mem_of_mem_drop hmem)
  have hstep : resolveHeadingStep content headings target path ⟨0, byteLen content, 0⟩ segment =
      .ok (HeadingSearch.enter content headings heading ⟨0, byteLen content, 0⟩) := by
    rw [resolveHeadingStep, hselect]
  rw [resolveHeadingRange, hsegments, List.foldlM_cons, hstep]
  change Except.ok (heading.endOffset, min _ (byteLen content)) = _
  rw [find?_section hheadings.sorted hheading]
  exact congrArg (fun stop => Except.ok (heading.endOffset, stop))
    (min_eq_left (closedBy_le heading.level hbound))

/-! ## The headings of a body -/

/-- The body starts with its first heading. -/
theorem bodyHeadings_eq (hsorted : headings.Pairwise fun a b => a.offset < b.offset)
    (bodyStart : ℕ) : Preparation.bodyHeadings headings bodyStart =
      headings.dropWhile fun heading => heading.offset < bodyStart := by
  have hpartition : headings.Pairwise fun a b =>
      decide (b.offset < bodyStart) = true → decide (a.offset < bodyStart) = true := by
    refine hsorted.imp fun {a b} hab => ?_
    simp only [decide_eq_true_eq]
    omega
  have hdrop := @List.drop_left _ (headings.takeWhile fun heading => heading.offset < bodyStart)
    (headings.dropWhile fun heading => heading.offset < bodyStart)
  rw [List.takeWhile_append_dropWhile] at hdrop
  rw [Preparation.bodyHeadings, BinarySearch.partitionPoint_eq hpartition, hdrop]

/-- What the array holds behind a heading. -/
structure HeadingStack.Lists (headings : List HeadingPos) (index : ℕ) (stack : HeadingStack) :
    Prop where
  len_le : stack.len ≤ 6
  levels : (stack.indices.map (levelAt headings)).Pairwise (· < ·)
  ancestors : ∀ other, other ∈ stack.indices ↔ other = index ∨ Ancestor headings index other

theorem stackLists_of_open {stack : HeadingStack}
    (hopen : Open headings (index + 1) stack.indices.reverse) : stack.Lists headings index := by
  refine ⟨stack.len_le, ?_, fun other => ?_⟩
  · have hpairs := List.pairwise_reverse.mp hopen.levels
    rw [List.pairwise_map]
    exact hpairs
  · rw [← List.mem_reverse]
    exact Open.mem_iff_ancestor hopen

theorem stackAfter_lists (hlevels : ∀ heading ∈ headings, 1 ≤ heading.level ∧ heading.level ≤ 6)
    (hindex : index < headings.length) :
    ∃ stack, stackAfter headings (index + 1) = .ok stack ∧ stack.Lists headings index := by
  obtain ⟨stack, hstack, hopen⟩ := stackAfter_open hlevels (show index + 1 ≤ headings.length from hindex)
  exact ⟨stack, hstack, stackLists_of_open hopen⟩

/-- The chunks of a body, the heading pages and the patches of a heading end its section at the next
heading of the same or a smaller level, and the array of open headings lists the ancestors. -/
theorem section_ends_agree {content : Text} {headings : List HeadingPos}
    (hheadings : InOrder content headings) (bodyStart : ℕ) :
    (∃ first, Preparation.bodyHeadings headings bodyStart = headings.drop first ∧
      ∃ ends, subtreeEnds (headings.drop first) (byteLen content) = .ok ends ∧
        ends.length = (headings.drop first).length ∧
        ∀ index heading, headings[first + index]? = some heading →
          ends[index]? = some (sectionStop content headings (first + index) heading.level)) ∧
      (∀ index heading, headings[index]? = some heading → (outline content headings).2[index]? =
        some (sectionStop content headings index heading.level)) ∧
      (∀ target path segment heading, splitText "::".toList target = [segment] →
        selectHeading content headings ⟨0, byteLen content, 0⟩ segment = some heading →
        ∃ index, headings[index]? = some heading ∧
          resolveHeadingRange content headings target path =
            .ok (heading.endOffset, sectionStop content headings index heading.level)) ∧
      (∀ index, index < (Preparation.bodyHeadings headings bodyStart).length →
        ∃ stack, stackAfter (Preparation.bodyHeadings headings bodyStart) (index + 1) = .ok stack ∧
          stack.Lists (Preparation.bodyHeadings headings bodyStart) index) := by
  have hbody : ∀ heading ∈ Preparation.bodyHeadings headings bodyStart,
      1 ≤ heading.level ∧ heading.level ≤ 6 :=
    fun heading hmem => hheadings.levels heading (List.mem_of_mem_drop hmem)
  refine ⟨⟨_, rfl, _, subtreeEnds_eq hbody content, ?_, ?_⟩, ?_, ?_, ?_⟩
  · obtain ⟨stack, h⟩ := Outlined.run (List.nil_append (Preparation.bodyHeadings headings bodyStart)).symm
      (outlined_start content (Preparation.bodyHeadings headings bodyStart))
    exact h.lengths.2
  · intro index heading hheading
    obtain ⟨-, hstop⟩ := outline_spec content (Preparation.bodyHeadings headings bodyStart)
      (List.getElem?_drop.trans hheading)
    rw [hstop, sectionStop, sectionStop, Preparation.bodyHeadings, List.drop_drop, Nat.add_assoc]
  · intro index heading hheading
    exact (outline_spec content headings hheading).2
  · intro target path segment heading hsegments hselect
    obtain ⟨index, hheading⟩ := List.mem_iff_getElem?.mp (mem_of_selectHeading hselect)
    exact ⟨index, hheading, resolveHeadingRange_single hheadings hsegments hselect hheading⟩
  · intro index hindex
    exact stackAfter_lists hbody hindex

/-- An outline that skips a level. -/
def skippingHeadings : List HeadingPos :=
  [⟨1, ['a'], 0, 0, 4⟩, ⟨3, ['b'], 1, 6, 10⟩, ⟨2, ['c'], 2, 12, 16⟩, ⟨1, ['d'], 3, 18, 22⟩]

theorem section_ends_skippingHeadings :
    (∃ ends, subtreeEnds (Preparation.bodyHeadings skippingHeadings 0) 24 = .ok ends ∧
      ends.length = (Preparation.bodyHeadings skippingHeadings 0).length) ∧
      (outline (List.replicate 24 'x') skippingHeadings).2[1]? = some 12 := by
  have hinOrder : InOrder (List.replicate 24 'x') skippingHeadings :=
    ⟨by decide, by simp [skippingHeadings], by decide⟩
  obtain ⟨⟨first, hfirst, ends, hends, hlength, -⟩, hstops, -, -⟩ := section_ends_agree hinOrder 0
  refine ⟨⟨ends, ?_, ?_⟩, (hstops 1 _ rfl).trans (by decide)⟩
  · rw [hfirst]
    exact hends
  · rw [hfirst, hlength]

end ObsidianMcp.Chunks
