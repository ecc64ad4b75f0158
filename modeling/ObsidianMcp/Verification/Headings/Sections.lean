import ObsidianMcp.Model.Patch

/-! # Reading and patching a section

`findHeadingRange` reads a section and `resolveHeadingRange` patches it. They keep one search
window, except that the first may select the current heading again. -/

namespace ObsidianMcp

open Text

/-- Headings of a content in order. -/
structure Ordered (content : Text) (headings : List HeadingPos) : Prop where
  levels : ∀ h ∈ headings, 1 ≤ h.level ∧ h.level ≤ 6
  ranges : ∀ h ∈ headings, h.offset < h.endOffset ∧ h.endOffset ≤ byteLen content
  disjoint : headings.Pairwise fun a b => a.endOffset ≤ b.offset

/-- Every heading that a target selects has the segment as its text. -/
def MatchesByText (content : Text) (headings : List HeadingPos) : HeadingSearch → List Text → Prop
  | _, [] => True
  | search, segment :: segments =>
      ∀ heading, selectHeading content headings search segment = some heading →
        eqIgnoreAsciiCase heading.text (trim segment) ∧
          MatchesByText content headings (search.enter content headings heading) segments

/-- The walk of `resolveHeadingRange` over the segments of a target. -/
def resolveHeadingSegments (content : Text) (headings : List HeadingPos) (target path : Text)
    (segments : List Text) : Except VaultError (ℕ × ℕ) :=
  (segments.foldlM (resolveHeadingStep content headings target path)
    ⟨0, byteLen content, 0⟩).map fun search => (search.afterHeading, search.searchEnd)

/-- Reading and patching select one heading and one section end. -/
def SameSection (content : Text) (headings : List HeadingPos) (target path : Text)
    (segments : List Text) : Prop :=
  ∃ heading ∈ headings, ∃ sectionEnd,
    findHeadingSegments content headings segments = some (heading.offset, sectionEnd) ∧
      resolveHeadingSegments content headings target path segments =
        .ok (heading.endOffset, sectionEnd)

/-- Segments that name one text. -/
def sameName (a b : Text) : Bool :=
  eqIgnoreAsciiCase (trim a) (trim b)

/-! ## First matches -/

theorem find?_of_imp {α : Type*} {p q : α → Bool} {l : List α} {x : α}
    (himp : ∀ y ∈ l, p y → q y) (hx : l.find? q = some x) (hp : p x) : l.find? p = some x := by
  induction l with
  | nil => simp at hx
  | cons y l ih =>
      by_cases hq : q y = true
      · rw [List.find?_cons_of_pos hq, Option.some.injEq] at hx
        rw [hx, List.find?_cons_of_pos hp]
      · rw [List.find?_cons_of_neg hq] at hx
        have hnp : ¬p y = true := fun h => hq (himp y List.mem_cons_self h)
        rw [List.find?_cons_of_neg hnp]
        exact ih (fun z hz => himp z (List.mem_cons_of_mem _ hz)) hx

variable {content : Text} {headings : List HeadingPos} {target path : Text}

theorem Ordered.endOffset_le {a b : HeadingPos} (h : Ordered content headings)
    (ha : a ∈ headings) (hb : b ∈ headings) (hlt : a.offset < b.offset) :
    a.endOffset ≤ b.offset := by
  rcases List.append_of_mem ha with ⟨front, rest, rfl⟩
  have hdisjoint := List.pairwise_append.mp h.disjoint
  rcases List.mem_append.mp hb with hb | hb
  · have hle := hdisjoint.2.2 b hb a List.mem_cons_self
    have hrange := (h.ranges b (List.mem_append_left _ hb)).1
    omega
  · rcases List.mem_cons.mp hb with rfl | hb
    · omega
    · exact (List.pairwise_cons.mp hdisjoint.2.1).1 b hb

theorem Ordered.eq_of_offset_eq {a b : HeadingPos} (h : Ordered content headings)
    (ha : a ∈ headings) (hb : b ∈ headings) (heq : a.offset = b.offset) : a = b := by
  rcases List.append_of_mem ha with ⟨front, rest, rfl⟩
  have hdisjoint := List.pairwise_append.mp h.disjoint
  have hrange := h.ranges a ha
  rcases List.mem_append.mp hb with hmem | hmem
  · have hle := hdisjoint.2.2 b hmem a List.mem_cons_self
    have hrange' := h.ranges b hb
    omega
  · rcases List.mem_cons.mp hmem with rfl | hmem
    · rfl
    · have hle := (List.pairwise_cons.mp hdisjoint.2.1).1 b hmem
      omega

/-- The next heading that ends a section is the first of its level or above behind it. -/
theorem find?_behind {front rest : List HeadingPos} {heading : HeadingPos}
    (h : Ordered content (front ++ heading :: rest)) :
    (front ++ heading :: rest).find?
        (fun next => heading.offset < next.offset && next.level ≤ heading.level) =
      rest.find? fun next => next.level ≤ heading.level := by
  have hdisjoint := List.pairwise_append.mp h.disjoint
  have hfront : (front.find? fun next =>
      heading.offset < next.offset && next.level ≤ heading.level) = none := by
    apply List.find?_eq_none.mpr
    intro next hnext
    have hle := hdisjoint.2.2 next hnext heading List.mem_cons_self
    have hrange := (h.ranges next (List.mem_append_left _ hnext)).1
    have hnot : ¬heading.offset < next.offset := by omega
    simp [hnot]
  have hrest : ∀ next ∈ rest, heading.offset < next.offset := by
    intro next hnext
    have hle := (List.pairwise_cons.mp hdisjoint.2.1).1 next hnext
    have hrange := (h.ranges heading (by simp)).1
    omega
  rw [List.find?_append, hfront, Option.none_or, List.find?_cons_of_neg (by simp)]
  apply List.find?_congr
  intro next hnext
  simp [hrest next hnext]

/-- The two walkers compute one section end. -/
theorem sectionEnd_eq {front rest : List HeadingPos} {heading : HeadingPos} {searchEnd : ℕ}
    (h : Ordered content (front ++ heading :: rest)) (hend : searchEnd ≤ byteLen content) :
    ((rest.find? fun next => next.offset < searchEnd && next.level ≤ heading.level).map
        HeadingPos.offset).getD searchEnd =
      min ((((front ++ heading :: rest).find? fun next =>
        heading.offset < next.offset && next.level ≤ heading.level).map
          HeadingPos.offset).getD (byteLen content)) searchEnd := by
  rw [find?_behind h]
  cases hnext : rest.find? fun next => next.level ≤ heading.level with
  | none =>
      have hnone : (rest.find? fun next =>
          next.offset < searchEnd && next.level ≤ heading.level) = none := by
        apply List.find?_eq_none.mpr
        intro next hmem
        have hlevel := List.find?_eq_none.mp hnext next hmem
        simp only [decide_eq_true_eq, not_le] at hlevel
        simp only [Bool.and_eq_true, decide_eq_true_eq, not_and, not_le]
        exact fun _ => hlevel
      rw [hnone]
      exact (min_eq_right hend).symm
  | some next =>
      rw [Option.map_some, Option.getD_some]
      by_cases hlt : next.offset < searchEnd
      · have hsome : (rest.find? fun next =>
            next.offset < searchEnd && next.level ≤ heading.level) = some next := by
          apply find?_of_imp _ hnext
          · have hlevel := List.find?_some hnext
            simp only [decide_eq_true_eq] at hlevel
            simp [hlt, hlevel]
          · intro y _ hy
            simp only [Bool.and_eq_true, decide_eq_true_eq] at hy
            simp [hy.2]
        rw [hsome, Option.map_some, Option.getD_some]
        exact (min_eq_left hlt.le).symm
      · rw [not_lt] at hlt
        rw [min_eq_right hlt]
        have hnone : (rest.find? fun next =>
            next.offset < searchEnd && next.level ≤ heading.level) = none := by
          apply List.find?_eq_none.mpr
          intro other hmem hother
          simp only [Bool.and_eq_true, decide_eq_true_eq] at hother
          rcases List.find?_eq_some_iff_append.mp hnext with ⟨-, as, bs, hsplit, has⟩
          have hdisjoint := (List.pairwise_cons.mp (List.pairwise_append.mp h.disjoint).2.1).2
          rw [hsplit] at hdisjoint hmem
          rcases List.mem_append.mp hmem with hmem | hmem
          · have hlevel := has other hmem
            simp [hother.2] at hlevel
          · rcases List.mem_cons.mp hmem with rfl | hmem
            · omega
            · have hle := (List.pairwise_cons.mp (List.pairwise_append.mp hdisjoint).2.1).1
                other hmem
              have hrange := (h.ranges next (by rw [hsplit]; simp)).1
              omega
        rw [hnone]
        rfl

/-! ## One segment -/

/-- Reading selects the first heading with the segment as its text. -/
theorem findHeadingStep_of_find? {search : ℕ × ℕ} {segment : Text} {heading : HeadingPos}
    (h : Ordered content headings) (hend : search.2 ≤ byteLen content)
    (hfind : headings.find? (fun h => search.1 ≤ h.offset && h.offset < search.2 &&
      eqIgnoreAsciiCase h.text segment) = some heading) :
    findHeadingStep headings search segment = some (heading.offset,
      min (((headings.find? fun next =>
        heading.offset < next.offset && next.level ≤ heading.level).map
          HeadingPos.offset).getD (byteLen content)) search.2) := by
  rcases List.find?_eq_some_iff_append.mp hfind with ⟨hheading, front, rest, rfl, hfront⟩
  have hdrop : (front ++ heading :: rest).dropWhile (fun h => !(search.1 ≤ h.offset &&
      h.offset < search.2 && eqIgnoreAsciiCase h.text segment)) = heading :: rest := by
    rw [List.dropWhile_append_of_pos hfront, List.dropWhile_cons_of_neg (by simpa using hheading)]
  rw [← sectionEnd_eq h hend, findHeadingStep, hdrop]

/-- A heading that is selected for its text is the first one with that name. -/
theorem findHeading_of_select {search : HeadingSearch} {segment : Text} {heading : HeadingPos}
    (hselect : selectHeading content headings search segment = some heading)
    (htext : eqIgnoreAsciiCase heading.text (trim segment) = true) :
    findHeading content headings search (trim segment) = some heading := by
  rw [selectHeading] at hselect
  cases hfirst : findHeading content headings search (trim segment) with
  | some other => simpa [hfirst] using hselect
  | none =>
      rw [hfirst, Option.none_or] at hselect
      have hmem := List.mem_of_find?_eq_some hselect
      have hwindow := List.find?_some hselect
      have hnone := List.find?_eq_none.mp hfirst heading hmem
      simp only [Bool.and_eq_true] at hwindow hnone
      exact absurd ⟨hwindow.1, by simp [HeadingPos.isNamed, htext]⟩ hnone

theorem window_of_select {search : HeadingSearch} {segment : Text} {heading : HeadingPos}
    (hselect : selectHeading content headings search segment = some heading) :
    heading ∈ headings ∧ search.searchStart ≤ heading.offset ∧
      heading.offset < search.searchEnd := by
  have hwindow : ∀ candidate, findHeading content headings search candidate = some heading →
      heading ∈ headings ∧ search.searchStart ≤ heading.offset ∧
        heading.offset < search.searchEnd := by
    intro candidate hfind
    have hmatch := List.find?_some hfind
    simp only [Bool.and_eq_true, decide_eq_true_eq] at hmatch
    exact ⟨List.mem_of_find?_eq_some hfind, hmatch.1.1, hmatch.1.2⟩
  rcases Option.or_eq_some_iff.mp hselect with hfind | ⟨-, hfind⟩
  · exact hwindow _ hfind
  · exact hwindow _ hfind

/-- Where no heading before the window of the patch has the segment's name, reading selects what
patching selects. -/
theorem findHeadingStep_of_select {start : ℕ} {search : HeadingSearch} {segment : Text}
    {heading : HeadingPos} (h : Ordered content headings)
    (hend : search.searchEnd ≤ byteLen content) (hstart : start ≤ search.searchStart)
    (hskip : ∀ x ∈ headings, start ≤ x.offset → eqIgnoreAsciiCase x.text (trim segment) →
      search.searchStart ≤ x.offset)
    (hselect : selectHeading content headings search segment = some heading)
    (htext : eqIgnoreAsciiCase heading.text (trim segment) = true) :
    findHeadingStep headings (start, search.searchEnd) (trim segment) =
      some (heading.offset, (search.enter content headings heading).searchEnd) := by
  have hwindow := window_of_select hselect
  apply findHeadingStep_of_find? h hend
  apply find?_of_imp _ (findHeading_of_select hselect htext)
  · simp [hstart.trans hwindow.2.1, hwindow.2.2, htext]
  · intro x hx hmatch
    simp only [Bool.and_eq_true, decide_eq_true_eq] at hmatch
    simp [hskip x hx hmatch.1.1 hmatch.2, hmatch.1.2, HeadingPos.isNamed, hmatch.2]

/-- Reading selects the current heading again when the segment names it. -/
theorem findHeadingStep_self {segment : Text} {heading : HeadingPos} {searchEnd : ℕ}
    (h : Ordered content headings) (hmem : heading ∈ headings)
    (hlt : heading.offset < searchEnd) (hend : searchEnd ≤ byteLen content)
    (htext : eqIgnoreAsciiCase heading.text segment = true) :
    ∃ sectionEnd, findHeadingStep headings (heading.offset, searchEnd) segment =
      some (heading.offset, sectionEnd) := by
  rcases List.append_of_mem hmem with ⟨front, rest, rfl⟩
  refine ⟨_, findHeadingStep_of_find? h hend ?_⟩
  apply List.find?_eq_some_iff_append.mpr
  refine ⟨by simp [hlt, htext], front, rest, rfl, ?_⟩
  intro x hx
  have hle := (List.pairwise_append.mp h.disjoint).2.2 x hx heading List.mem_cons_self
  have hrange := (h.ranges x (List.mem_append_left _ hx)).1
  have hnot : ¬heading.offset ≤ x.offset := by omega
  simp [hnot]

theorem enter_searchEnd {search : HeadingSearch} {heading : HeadingPos}
    (hlt : heading.offset < search.searchEnd) (hlen : heading.offset < byteLen content) :
    heading.offset < (search.enter content headings heading).searchEnd ∧
      (search.enter content headings heading).searchEnd ≤ search.searchEnd := by
  refine ⟨lt_min ?_ hlt, min_le_right _ _⟩
  cases hnext : headings.find? fun next =>
      heading.offset < next.offset && next.level ≤ heading.level with
  | none => exact hlen
  | some next =>
      have hmatch := List.find?_some hnext
      simp only [Bool.and_eq_true, decide_eq_true_eq] at hmatch
      exact hmatch.1

/-! ## The walk -/

/-- Reading from one search window and patching from another end in one section. -/
def SameFrom (content : Text) (headings : List HeadingPos) (target path : Text)
    (window : ℕ × ℕ) (search : HeadingSearch) (segments : List Text) : Prop :=
  ∃ heading ∈ headings, ∃ sectionEnd,
    (segments.map trim).foldlM (findHeadingStep headings) window =
        some (heading.offset, sectionEnd) ∧
      (segments.foldlM (resolveHeadingStep content headings target path) search).map
        (fun search => (search.afterHeading, search.searchEnd)) =
          .ok (heading.endOffset, sectionEnd)

theorem resolve_cons {search : HeadingSearch} {segment : Text} {segments : List Text}
    {heading : HeadingPos}
    (hselect : selectHeading content headings search segment = some heading) :
    (segment :: segments).foldlM (resolveHeadingStep content headings target path) search =
      segments.foldlM (resolveHeadingStep content headings target path)
        (search.enter content headings heading) := by
  rw [List.foldlM_cons, resolveHeadingStep, hselect]
  rfl

theorem find_cons {window next : ℕ × ℕ} {segment : Text} {segments : List Text}
    (hstep : findHeadingStep headings window (trim segment) = some next) :
    ((segment :: segments).map trim).foldlM (findHeadingStep headings) window =
      (segments.map trim).foldlM (findHeadingStep headings) next := by
  rw [List.map_cons, List.foldlM_cons, hstep]
  rfl

theorem sameFrom_cons {window next : ℕ × ℕ} {search : HeadingSearch} {segment : Text}
    {segments : List Text} {heading : HeadingPos}
    (hstep : findHeadingStep headings window (trim segment) = some next)
    (hselect : selectHeading content headings search segment = some heading) :
    SameFrom content headings target path window search (segment :: segments) ↔
      SameFrom content headings target path next (search.enter content headings heading)
        segments := by
  rw [SameFrom, SameFrom, find_cons hstep, resolve_cons hselect]

theorem select_of_resolve {search : HeadingSearch} {segment : Text} {segments : List Text}
    (h : ((segment :: segments).foldlM (resolveHeadingStep content headings target path)
      search).isOk) :
    ∃ heading, selectHeading content headings search segment = some heading := by
  cases hselect : selectHeading content headings search segment with
  | some heading => exact ⟨heading, rfl⟩
  | none =>
      rw [List.foldlM_cons, resolveHeadingStep, hselect] at h
      exact absurd h (by simp [Bind.bind, Except.bind, Except.isOk, Except.toBool])

theorem forall_prefix_cons {α : Type*} {P : List α → Prop} {x : α} {l : List α} (hx : P [x]) :
    (∀ p, p <+: x :: l → p ≠ [] → P p) ↔ ∀ p, p <+: l → p ≠ [] → P (x :: p) := by
  constructor
  · intro h p hp _
    exact h (x :: p) (List.cons_prefix_cons.mpr ⟨rfl, hp⟩) (by simp)
  · intro h p hp hne
    cases p with
    | nil => exact absurd rfl hne
    | cons y p =>
        rcases List.cons_prefix_cons.mp hp with ⟨rfl, htail⟩
        by_cases hnil : p = []
        · rw [hnil]
          exact hx
        · exact h p htail hnil

/-- Behind one heading, the walkers stay together as long as no segment repeats the name of the
one before. -/
theorem sameFrom_iff {segments : List Text} {search : HeadingSearch} {last : Text}
    {heading : HeadingPos} (h : Ordered content headings) (hmem : heading ∈ headings)
    (hstart : search.searchStart = heading.endOffset) (hlt : heading.offset < search.searchEnd)
    (hend : search.searchEnd ≤ byteLen content)
    (hlast : eqIgnoreAsciiCase heading.text (trim last) = true)
    (hresolve : (segments.foldlM (resolveHeadingStep content headings target path) search).isOk)
    (htext : MatchesByText content headings search segments) :
    (∀ p, p <+: segments → p ≠ [] →
        SameFrom content headings target path (heading.offset, search.searchEnd) search p) ↔
      (last :: segments).IsChain fun a b => ¬sameName a b := by
  induction segments generalizing search last heading with
  | nil =>
      refine iff_of_true ?_ (List.IsChain.singleton last)
      intro p hp hne
      exact absurd (List.prefix_nil.mp hp) hne
  | cons segment segments ih =>
      rcases select_of_resolve hresolve with ⟨next, hselect⟩
      have hnext := htext next hselect
      have hwindow := window_of_select hselect
      have hranges := h.ranges next hwindow.1
      rw [resolve_cons hselect] at hresolve
      by_cases hname : sameName last segment = true
      · refine iff_of_false ?_ ?_
        · intro hall
          have hself : eqIgnoreAsciiCase heading.text (trim segment) = true :=
            eqIgnoreAsciiCase_trans hlast hname
          rcases findHeadingStep_self h hmem hlt hend hself with ⟨sectionEnd, hstep⟩
          rcases hall [segment] (by simp) (by simp) with ⟨other, hother, stop, hfind, hpatch⟩
          rw [find_cons hstep] at hfind
          rw [resolve_cons hselect] at hpatch
          have hoffset : heading.offset = other.offset := (Prod.mk.inj (Option.some.inj hfind)).1
          have hafter : next.endOffset = other.endOffset := (Prod.mk.inj (Except.ok.inj hpatch)).1
          have hle := h.endOffset_le hother hwindow.1
          have hheading := h.ranges heading hmem
          omega
        · intro hchain
          exact (List.isChain_cons_cons.mp hchain).1 hname
      · have hskip : ∀ x ∈ headings, heading.offset ≤ x.offset →
            eqIgnoreAsciiCase x.text (trim segment) → search.searchStart ≤ x.offset := by
          intro x hx hle hxtext
          rw [hstart]
          by_cases heq : heading.offset = x.offset
          · rw [← h.eq_of_offset_eq hmem hx heq] at hxtext
            exact absurd (eqIgnoreAsciiCase_trans (eqIgnoreAsciiCase_comm.mp hlast) hxtext) hname
          · exact h.endOffset_le hmem hx (by omega)
        have hstep := findHeadingStep_of_select h hend
          (by rw [hstart]; exact (h.ranges heading hmem).1.le) hskip hselect hnext.1
        have henter := @enter_searchEnd content headings _ _ hwindow.2.2
          (by omega)
        have hsingle : SameFrom content headings target path (heading.offset, search.searchEnd)
            search [segment] := by
          rw [sameFrom_cons hstep hselect]
          exact ⟨next, hwindow.1, _, rfl, rfl⟩
        rw [forall_prefix_cons hsingle, List.isChain_cons_cons, and_iff_right hname]
        rw [← ih hwindow.1 rfl henter.1 (henter.2.trans hend) hnext.1 hresolve hnext.2]
        apply forall_congr'
        intro p
        rw [sameFrom_cons hstep hselect]

theorem resolveHeadingRange_eq (content : Text) (headings : List HeadingPos)
    (target path : Text) :
    resolveHeadingRange content headings target path =
      resolveHeadingSegments content headings target path (splitText "::".toList target) := rfl

theorem matchesByText_cons {search : HeadingSearch} {segment : Text} {segments : List Text}
    {heading : HeadingPos}
    (hselect : selectHeading content headings search segment = some heading) :
    MatchesByText content headings search (segment :: segments) ↔
      eqIgnoreAsciiCase heading.text (trim segment) ∧
        MatchesByText content headings (search.enter content headings heading) segments := by
  constructor
  · intro h
    exact h heading hselect
  · intro h other hother
    rw [hselect] at hother
    rw [← Option.some.inj hother]
    exact h

/-- Reading and patching end in one section for a heading path and all its leading parts exactly
when no segment of the path repeats the name of the one before. -/
theorem sameSection_iff (md : Markdown) (content headingPath path : Text)
    (hordered : Ordered content (md.extractHeadingsWithOffsets content))
    (hresolve : (resolveHeadingRange content (md.extractHeadingsWithOffsets content) headingPath
      path).isOk)
    (htext : MatchesByText content (md.extractHeadingsWithOffsets content)
      ⟨0, byteLen content, 0⟩ (splitText "::".toList headingPath)) :
    (∀ p, p <+: splitText "::".toList headingPath → p ≠ [] →
        SameSection content (md.extractHeadingsWithOffsets content) headingPath path p) ↔
      (splitText "::".toList headingPath).IsChain fun a b => ¬sameName a b := by
  generalize md.extractHeadingsWithOffsets content = headings at *
  rw [resolveHeadingRange_eq] at hresolve
  generalize splitText "::".toList headingPath = segments at *
  cases segments with
  | nil =>
      refine iff_of_true ?_ List.IsChain.nil
      intro p hp hne
      exact absurd (List.prefix_nil.mp hp) hne
  | cons segment segments =>
      have hok : ((segment :: segments).foldlM
          (resolveHeadingStep content headings headingPath path) ⟨0, byteLen content, 0⟩).isOk := by
        rw [resolveHeadingSegments] at hresolve
        revert hresolve
        cases (segment :: segments).foldlM (resolveHeadingStep content headings headingPath path)
            ⟨0, byteLen content, 0⟩ with
        | ok search => exact fun _ => rfl
        | error e => exact id
      rcases select_of_resolve hok with ⟨heading, hselect⟩
      have hheading := htext heading hselect
      have hwindow := window_of_select hselect
      have hranges := hordered.ranges heading hwindow.1
      rw [resolve_cons hselect] at hok
      have hstep := findHeadingStep_of_select hordered le_rfl le_rfl (fun x _ hle _ => hle)
        hselect hheading.1
      have henter := @enter_searchEnd content headings _ _ hwindow.2.2
        (by omega)
      have hsame : ∀ p, SameSection content headings headingPath path p ↔
          SameFrom content headings headingPath path (0, byteLen content)
            ⟨0, byteLen content, 0⟩ p :=
        fun p => Iff.rfl
      have hsingle : SameSection content headings headingPath path [segment] := by
        rw [hsame, sameFrom_cons hstep hselect]
        exact ⟨heading, hwindow.1, _, rfl, rfl⟩
      rw [forall_prefix_cons hsingle, ← sameFrom_iff hordered hwindow.1 rfl henter.1 henter.2
        hheading.1 hok hheading.2]
      apply forall_congr'
      intro p
      rw [hsame, sameFrom_cons hstep hselect]

/-- A content whose second heading lies in the section of the first. -/
def nestedContent (name : Text) : Text :=
  "# A\n## ".toList ++ name ++ ['\n']

def nestedMarkdown (name : Text) : Markdown where
  extractHeadingsWithOffsets _ := [⟨1, "A".toList, 0, 0, 4⟩, ⟨2, name, 1, 4, 9⟩]
  codeBlockRanges _ := []

/-- Reading the path `A::A` stays at the outer heading, patching goes to the inner one. -/
theorem nested_sections_differ :
    Ordered (nestedContent "A".toList)
        ((nestedMarkdown "A".toList).extractHeadingsWithOffsets (nestedContent "A".toList)) ∧
      MatchesByText (nestedContent "A".toList)
        ((nestedMarkdown "A".toList).extractHeadingsWithOffsets (nestedContent "A".toList))
        ⟨0, byteLen (nestedContent "A".toList), 0⟩ (splitText "::".toList "A::A".toList) ∧
      findHeadingRange (nestedMarkdown "A".toList) (nestedContent "A".toList) "A::A".toList
        "::".toList = some (0, 9) ∧
      resolveHeadingRange (nestedContent "A".toList)
        ((nestedMarkdown "A".toList).extractHeadingsWithOffsets (nestedContent "A".toList))
        "A::A".toList "n.md".toList = .ok (9, 9) ∧
      ¬SameSection (nestedContent "A".toList)
        ((nestedMarkdown "A".toList).extractHeadingsWithOffsets (nestedContent "A".toList))
        "A::A".toList "n.md".toList (splitText "::".toList "A::A".toList) := by
  have hfind : findHeadingRange (nestedMarkdown "A".toList) (nestedContent "A".toList)
      "A::A".toList "::".toList = some (0, 9) := by decide +kernel
  have hresolve : resolveHeadingRange (nestedContent "A".toList)
      ((nestedMarkdown "A".toList).extractHeadingsWithOffsets (nestedContent "A".toList))
      "A::A".toList "n.md".toList = .ok (9, 9) := rfl
  refine ⟨⟨by decide, by decide, by decide⟩, ?_, hfind, hresolve, ?_⟩
  · have hsplit : splitText "::".toList "A::A".toList = ["A".toList, "A".toList] := by decide
    have houter : selectHeading (nestedContent "A".toList)
        ((nestedMarkdown "A".toList).extractHeadingsWithOffsets (nestedContent "A".toList))
        ⟨0, byteLen (nestedContent "A".toList), 0⟩ "A".toList = some ⟨1, "A".toList, 0, 0, 4⟩ := by
      decide +kernel
    rw [hsplit, matchesByText_cons houter]
    refine ⟨by decide, ?_⟩
    have hinner : selectHeading (nestedContent "A".toList)
        ((nestedMarkdown "A".toList).extractHeadingsWithOffsets (nestedContent "A".toList))
        (HeadingSearch.enter (nestedContent "A".toList)
          ((nestedMarkdown "A".toList).extractHeadingsWithOffsets (nestedContent "A".toList))
          ⟨1, "A".toList, 0, 0, 4⟩ ⟨0, byteLen (nestedContent "A".toList), 0⟩) "A".toList =
        some ⟨2, "A".toList, 1, 4, 9⟩ := by
      decide +kernel
    rw [matchesByText_cons hinner]
    exact ⟨by decide, trivial⟩
  · intro h
    rcases h with ⟨heading, hmem, sectionEnd, hread, hpatch⟩
    have hread' := hread.symm.trans hfind
    have hpatch' := hpatch.symm.trans hresolve
    have hoffset : heading.offset = 0 := (Prod.mk.inj (Option.some.inj hread')).1
    have hafter : heading.endOffset = 9 := (Prod.mk.inj (Except.ok.inj hpatch')).1
    rcases List.mem_pair.mp hmem with rfl | rfl
    · exact absurd hafter (by decide)
    · exact absurd hoffset (by decide)

/-- The path `A::B` reaches one section both ways. -/
theorem nested_sections_agree :
    (∀ p, p <+: splitText "::".toList "A::B".toList → p ≠ [] →
        SameSection (nestedContent "B".toList)
          ((nestedMarkdown "B".toList).extractHeadingsWithOffsets (nestedContent "B".toList))
          "A::B".toList "n.md".toList p) ↔
      (splitText "::".toList "A::B".toList).IsChain fun a b => ¬sameName a b := by
  apply sameSection_iff (nestedMarkdown "B".toList)
  · exact ⟨by decide, by decide, by decide⟩
  · rfl
  · have hsplit : splitText "::".toList "A::B".toList = ["A".toList, "B".toList] := by decide
    have houter : selectHeading (nestedContent "B".toList)
        ((nestedMarkdown "B".toList).extractHeadingsWithOffsets (nestedContent "B".toList))
        ⟨0, byteLen (nestedContent "B".toList), 0⟩ "A".toList = some ⟨1, "A".toList, 0, 0, 4⟩ := by
      decide +kernel
    rw [hsplit, matchesByText_cons houter]
    refine ⟨by decide, ?_⟩
    have hinner : selectHeading (nestedContent "B".toList)
        ((nestedMarkdown "B".toList).extractHeadingsWithOffsets (nestedContent "B".toList))
        (HeadingSearch.enter (nestedContent "B".toList)
          ((nestedMarkdown "B".toList).extractHeadingsWithOffsets (nestedContent "B".toList))
          ⟨1, "A".toList, 0, 0, 4⟩ ⟨0, byteLen (nestedContent "B".toList), 0⟩) "B".toList =
        some ⟨2, "B".toList, 1, 4, 9⟩ := by
      decide +kernel
    rw [matchesByText_cons hinner]
    exact ⟨by decide, trivial⟩

end ObsidianMcp
