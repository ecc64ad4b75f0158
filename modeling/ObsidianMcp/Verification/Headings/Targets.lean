import ObsidianMcp.Verification.Headings.Blocks
import ObsidianMcp.Verification.Headings.Sections

/-! # Targets listed by the document map

A listed heading is its markers, a space and its text. As a patch target it is split at `::` and
searched by text only. -/

namespace ObsidianMcp

open Text

/-- A heading's line has at least the characters of its text: inline markup is only taken away. -/
def WrittenOut (content : Text) (headings : List HeadingPos) : Prop :=
  ∀ heading ∈ headings, ∀ raw, heading.rawText content = some raw →
    (trim heading.text).length ≤ raw.length

/-- The first heading of the level and the text of a heading. -/
def firstLike (headings : List HeadingPos) (heading : HeadingPos) : Option HeadingPos :=
  headings.find? fun x => x.level = heading.level && eqIgnoreAsciiCase x.text heading.text

/-- The listed heading, given back as a target, selects the first heading of its level and text. -/
def SelectsItself (content : Text) (headings : List HeadingPos) (path : Text)
    (heading : HeadingPos) : Prop :=
  ∃ first sectionEnd, firstLike headings heading = some first ∧
    resolveHeadingRange content headings heading.listed path = .ok (first.endOffset, sectionEnd)

/-- A heading has a name that no heading before it has. -/
structure FirstNamed (content : Text) (headings : List HeadingPos) (candidate : Text)
    (heading : HeadingPos) : Prop where
  mem : heading ∈ headings
  isNamed : heading.isNamed content candidate
  first : ∀ x ∈ headings, x.offset < heading.offset → ¬x.isNamed content candidate

/-- The text has no delimiter, and the first heading named by the listed text, or else by the
text alone, has the right level. -/
def HasPlainTarget (content : Text) (headings : List HeadingPos) (heading : HeadingPos) : Prop :=
  ¬"::".toList <:+: heading.text ∧ ∃ first, firstLike headings heading = some first ∧
    (FirstNamed content headings (trim heading.listed) first ∨
      (∀ x ∈ headings, ¬x.isNamed content (trim heading.listed)) ∧ trim heading.text ≠ [] ∧
        FirstNamed content headings (trim heading.text) first)

variable {content : Text} {headings : List HeadingPos}

/-! ## The spelling of a listed heading -/

theorem trim_listed {heading : HeadingPos} (hlevel : 1 ≤ heading.level) :
    trim heading.listed =
      if trim heading.text = [] then List.replicate heading.level '#'
      else List.replicate heading.level '#' ++ ' ' :: heading.text.rdropWhile isWhitespace := by
  have hhash : List.replicate heading.level '#' =
      '#' :: List.replicate (heading.level - 1) '#' := by
    rw [← List.replicate_succ, Nat.sub_add_cancel hlevel]
  have hfront : heading.listed.dropWhile isWhitespace = heading.listed := by
    rw [HeadingPos.listed, hhash, List.cons_append, List.dropWhile_cons_of_neg (by decide)]
  have hmarkers : (List.replicate heading.level '#').rdropWhile isWhitespace =
      List.replicate heading.level '#' := by
    apply List.rdropWhile_eq_self_iff.mpr
    intro hne
    rw [List.getLast_replicate]
    decide
  rw [trim, hfront, HeadingPos.listed]
  by_cases htext : trim heading.text = []
  · rw [if_pos htext, rdropWhile_append_of_all, hmarkers]
    intro c hc
    rcases List.mem_cons.mp hc with rfl | hc
    · decide
    · exact trim_eq_nil.mp htext c hc
  · have hex : ∃ c ∈ heading.text, isWhitespace c = false := by
      by_contra hall
      apply htext
      rw [trim_eq_nil]
      simpa using hall
    have hsplit : List.replicate heading.level '#' ++ ' ' :: heading.text =
        (List.replicate heading.level '#' ++ [' ']) ++ heading.text := by simp
    rw [if_neg htext, hsplit, rdropWhile_append_of_exists hex]
    simp

theorem takeWhile_markers (n : ℕ) {t : Text} (h : t.head? ≠ some '#') :
    (List.replicate n '#' ++ t).takeWhile (fun c => c = '#') = List.replicate n '#' := by
  induction n with
  | zero =>
      cases t with
      | nil => rfl
      | cons c t =>
          have hc : c ≠ '#' := by simpa using h
          simp [hc]
  | succ n ih =>
      rw [List.replicate_succ, List.cons_append, List.takeWhile_cons_of_pos (by decide), ih]

/-- Stripped of its markers, a listed heading is its text; without a text it is the markers. -/
theorem normalize_listed {heading : HeadingPos}
    (hlevel : 1 ≤ heading.level ∧ heading.level ≤ 6) :
    normalizeHeadingTargetSegment heading.listed =
      if trim heading.text = [] then trim heading.listed else trim heading.text := by
  rw [normalizeHeadingTargetSegment]
  by_cases htext : trim heading.text = []
  · rw [if_pos htext]
    have htrim : trim heading.listed = List.replicate heading.level '#' ++ [] := by
      rw [trim_listed hlevel.1, if_pos htext, List.append_nil]
    rw [htrim, takeWhile_markers _ (by simp), List.length_replicate, if_neg]
    simp
  · rw [if_neg htext]
    have htrim : trim heading.listed = List.replicate heading.level '#' ++
        ' ' :: heading.text.rdropWhile isWhitespace := by
      rw [trim_listed hlevel.1, if_neg htext]
    have hdrop : (List.replicate heading.level '#' ++
        ' ' :: heading.text.rdropWhile isWhitespace).drop heading.level =
          ' ' :: heading.text.rdropWhile isWhitespace := by
      have hlen := @List.drop_left _ (List.replicate heading.level '#')
        (' ' :: heading.text.rdropWhile isWhitespace)
      rwa [List.length_replicate] at hlen
    rw [htrim, takeWhile_markers _ (by simp), List.length_replicate, hdrop,
      if_pos ⟨hlevel, rfl⟩]
    rw [trim, List.dropWhile_cons_of_pos (by decide)]
    exact trim_rdropWhile heading.text

theorem delimiter_infix_listed {heading : HeadingPos} :
    "::".toList <:+: heading.listed ↔ "::".toList <:+: heading.text := by
  have hcolon : ∀ n : ℕ, "::".toList <:+: List.replicate n '#' ++ ' ' :: heading.text ↔
      "::".toList <:+: heading.text := by
    intro n
    induction n with
    | zero =>
        rw [List.replicate_zero, List.nil_append, List.infix_cons_iff]
        apply or_iff_right
        intro h
        exact absurd (List.cons_prefix_cons.mp h).1 (by decide)
    | succ n ih =>
        rw [List.replicate_succ, List.cons_append, List.infix_cons_iff, ← ih]
        apply or_iff_right
        intro h
        exact absurd (List.cons_prefix_cons.mp h).1 (by decide)
  exact hcolon heading.level

/-- What lies behind a delimiter in a listed heading is shorter than the heading's text. -/
theorem length_last_lt {heading : HeadingPos} {front last : Text}
    (h : heading.listed = front ++ "::".toList ++ last) :
    (trim last).length < (trim heading.text).length := by
  have htext : ∃ f, heading.text = f ++ ':' :: ':' :: last := by
    have hmarkers : ∀ n front, List.replicate n '#' ++ ' ' :: heading.text =
        front ++ ':' :: ':' :: last → ∃ f, heading.text = f ++ ':' :: ':' :: last := by
      intro n
      induction n with
      | zero =>
          intro front h
          cases front with
          | nil => exact absurd (List.cons.inj h).1 (by decide)
          | cons c front => exact ⟨front, (List.cons.inj h).2⟩
      | succ n ih =>
          intro front h
          cases front with
          | nil => exact absurd (List.cons.inj h).1 (by decide)
          | cons c front => exact ih front (List.cons.inj h).2
    apply hmarkers heading.level front
    rw [HeadingPos.listed] at h
    simpa using h
  rcases htext with ⟨f, hf⟩
  have hdrop : heading.text.dropWhile isWhitespace =
      f.dropWhile isWhitespace ++ ':' :: ':' :: last := by
    rw [hf, List.dropWhile_append]
    by_cases hnil : f.dropWhile isWhitespace = []
    · rw [hnil, if_pos List.isEmpty_nil, List.dropWhile_cons_of_neg (by decide), List.nil_append]
    · rw [if_neg (by simpa using hnil)]
  have hlen : (trim heading.text).length =
      (f.dropWhile isWhitespace).length + ((':' :: ':' :: last).rdropWhile isWhitespace).length := by
    rw [trim, hdrop, rdropWhile_append_of_exists ⟨':', by simp, by decide⟩, List.length_append]
  have hcolon : 1 + (last.rdropWhile isWhitespace).length ≤
      ((':' :: ':' :: last).rdropWhile isWhitespace).length := by
    by_cases hall : ∀ c ∈ last, isWhitespace c = true
    · have hsplit : ':' :: ':' :: last = [':', ':'] ++ last := rfl
      rw [hsplit, rdropWhile_append_of_all hall, List.rdropWhile_eq_nil_iff.mpr hall]
      decide
    · have hex : ∃ c ∈ last, isWhitespace c = false := by simpa using hall
      have hsplit : ':' :: ':' :: last = [':', ':'] ++ last := rfl
      rw [hsplit, rdropWhile_append_of_exists hex, List.length_append, List.length_cons]
      omega
  have hle := length_trim_le last
  omega

/-! ## Selection -/

theorem length_normalize_le (segment : Text) :
    (normalizeHeadingTargetSegment segment).length ≤ (trim segment).length := by
  rw [normalizeHeadingTargetSegment]
  split
  · have htrim := length_trim_le ((trim segment).drop
      ((trim segment).takeWhile fun c => c = '#').length)
    have hdrop := (List.rdropWhile_prefix (p := isWhitespace) (l := (trim segment).drop
      ((trim segment).takeWhile fun c => c = '#').length)).length_le
    rw [List.length_drop] at hdrop
    omega
  · exact le_rfl

theorem find?_isNamed_iff (h : Ordered content headings) {candidate : Text}
    {heading : HeadingPos} :
    headings.find? (HeadingPos.isNamed content candidate) = some heading ↔
      FirstNamed content headings candidate heading := by
  constructor
  · intro hfind
    rcases List.find?_eq_some_iff_append.mp hfind with ⟨hnamed, front, rest, hsplit, hfront⟩
    refine ⟨List.mem_of_find?_eq_some hfind, hnamed, ?_⟩
    intro x hx hlt
    rw [hsplit] at hx h
    rcases List.mem_append.mp hx with hx | hx
    · simpa using hfront x hx
    · rcases List.mem_cons.mp hx with rfl | hx
      · omega
      · have hle := (List.pairwise_cons.mp (List.pairwise_append.mp h.disjoint).2.1).1 x hx
        have hrange := (h.ranges heading (by simp)).1
        omega
  · intro hfirst
    rcases List.append_of_mem hfirst.mem with ⟨front, rest, rfl⟩
    apply List.find?_eq_some_iff_append.mpr
    refine ⟨hfirst.isNamed, front, rest, rfl, ?_⟩
    intro x hx
    have hle := (List.pairwise_append.mp h.disjoint).2.2 x hx heading List.mem_cons_self
    have hrange := (h.ranges x (List.mem_append_left _ hx)).1
    simpa using hfirst.first x (List.mem_append_left _ hx) (by omega)

/-- The whole content is the first window. -/
theorem findHeading_whole (h : Ordered content headings) (candidate : Text) :
    findHeading content headings ⟨0, byteLen content, 0⟩ candidate =
      headings.find? (HeadingPos.isNamed content candidate) := by
  apply List.find?_congr
  intro x hx
  have hrange := h.ranges x hx
  have hlt : x.offset < byteLen content := by omega
  simp [hlt]

theorem Ordered.eq_of_endOffset_eq {a b : HeadingPos} (h : Ordered content headings)
    (ha : a ∈ headings) (hb : b ∈ headings) (heq : a.endOffset = b.endOffset) : a = b := by
  rcases lt_trichotomy a.offset b.offset with hlt | hoffset | hlt
  · have hle := h.endOffset_le ha hb hlt
    have hrange := (h.ranges b hb).1
    omega
  · exact h.eq_of_offset_eq ha hb hoffset
  · have hle := h.endOffset_le hb ha hlt
    have hrange := (h.ranges a ha).1
    omega

theorem firstLike_mem {heading first : HeadingPos} (h : firstLike headings heading = some first) :
    first ∈ headings ∧ first.level = heading.level ∧
      eqIgnoreAsciiCase first.text heading.text = true := by
  have hmatch := List.find?_some h
  simp only [Bool.and_eq_true, decide_eq_true_eq] at hmatch
  exact ⟨List.mem_of_find?_eq_some h, hmatch.1, hmatch.2⟩

variable {path : Text}

/-- A target without a delimiter selects by its only segment. -/
theorem resolve_single_iff {target : Text} {heading : HeadingPos}
    (h : Ordered content headings) (hmem : heading ∈ headings)
    (htarget : ¬"::".toList <:+: target) :
    (∃ sectionEnd, resolveHeadingRange content headings target path =
        .ok (heading.endOffset, sectionEnd)) ↔
      selectHeading content headings ⟨0, byteLen content, 0⟩ target = some heading := by
  have hresolve : resolveHeadingRange content headings target path =
      (resolveHeadingStep content headings target path ⟨0, byteLen content, 0⟩ target).map
        fun search => (search.afterHeading, search.searchEnd) := by
    rw [resolveHeadingRange, splitText_of_not_infix htarget, List.foldlM_cons]
    cases resolveHeadingStep content headings target path ⟨0, byteLen content, 0⟩ target <;> rfl
  rw [hresolve, resolveHeadingStep]
  cases hselect : selectHeading content headings ⟨0, byteLen content, 0⟩ target with
  | none =>
      refine iff_of_false ?_ (by simp)
      intro hok
      rcases hok with ⟨sectionEnd, hok⟩
      cases hok
  | some other =>
      constructor
      · intro hok
        rcases hok with ⟨sectionEnd, hok⟩
        have hend : other.endOffset = heading.endOffset := (Prod.mk.inj (Except.ok.inj hok)).1
        rw [h.eq_of_endOffset_eq (window_of_select hselect).1 hmem hend]
      · intro heq
        rw [Option.some.inj heq]
        exact ⟨_, rfl⟩

/-- The heading behind which a patch goes is named by the last segment. -/
theorem select_last {target last : Text} {segments : List Text} {range : ℕ × ℕ}
    (hsplit : splitText "::".toList target = segments ++ [last])
    (hok : resolveHeadingRange content headings target path = .ok range) :
    ∃ search heading, selectHeading content headings search last = some heading ∧
      heading.endOffset = range.1 := by
  rw [resolveHeadingRange, hsplit, List.foldlM_append] at hok
  cases hfront : segments.foldlM (resolveHeadingStep content headings target path)
      ⟨0, byteLen content, 0⟩ with
  | error e =>
      rw [hfront] at hok
      cases hok
  | ok search =>
      rw [hfront] at hok
      have hstep : ((resolveHeadingStep content headings target path search last).map
          fun search => (search.afterHeading, search.searchEnd)) = .ok range := by
        rw [← hok]
        cases hlast : resolveHeadingStep content headings target path search last <;>
          simp [Bind.bind, Except.bind, hlast, Pure.pure, Except.pure, Except.map]
      rw [resolveHeadingStep] at hstep
      cases hselect : selectHeading content headings search last with
      | none =>
          rw [hselect] at hstep
          cases hstep
      | some heading =>
          rw [hselect] at hstep
          refine ⟨search, heading, hselect, ?_⟩
          exact congrArg Prod.fst (Except.ok.inj hstep)

theorem isNamed_of_select {search : HeadingSearch} {segment : Text} {heading : HeadingPos}
    (h : selectHeading content headings search segment = some heading) :
    heading.isNamed content (trim segment) ∨
      heading.isNamed content (normalizeHeadingTargetSegment segment) := by
  have hnamed : ∀ candidate, findHeading content headings search candidate = some heading →
      heading.isNamed content candidate := by
    intro candidate hfind
    have hmatch := List.find?_some hfind
    simp only [Bool.and_eq_true] at hmatch
    exact hmatch.2
  rcases Option.or_eq_some_iff.mp h with hfind | ⟨-, hfind⟩
  · exact .inl (hnamed _ hfind)
  · exact .inr (hnamed _ hfind)

/-- A heading has no name shorter than its text. -/
theorem length_le_of_isNamed {heading : HeadingPos} {candidate : Text}
    (hwritten : WrittenOut content headings) (hmem : heading ∈ headings)
    (h : heading.isNamed content candidate) :
    (trim heading.text).length ≤ candidate.length := by
  rw [HeadingPos.isNamed, Bool.or_eq_true] at h
  rcases h with h | h
  · have hlen := length_eq_of_eqIgnoreAsciiCase h
    have htrim := length_trim_le heading.text
    have hprefix := (List.rdropWhile_prefix (p := isWhitespace) (l := heading.text)).length_le
    omega
  · rcases Option.any_eq_true _ _ |>.mp h with ⟨raw, hraw, hname⟩
    have hle := hwritten heading hmem raw hraw
    have hlen := length_eq_of_eqIgnoreAsciiCase hname
    omega

/-- A heading whose text has the delimiter is not selected by its listed text. -/
theorem not_selectsItself_of_delimiter {heading : HeadingPos} (h : Ordered content headings)
    (hwritten : WrittenOut content headings) (hdelimiter : "::".toList <:+: heading.text) :
    ¬SelectsItself content headings path heading := by
  intro hself
  rcases hself with ⟨first, sectionEnd, hfirst, hok⟩
  have hlike := firstLike_mem hfirst
  rcases splitText_of_infix (by decide) (delimiter_infix_listed.mpr hdelimiter) with
    ⟨front, piece, pieces, last, hsplit, hlisted⟩
  rcases @select_last _ _ _ _ _ (piece :: pieces) _ hsplit hok with
    ⟨search, selected, hselect, hend⟩
  have hselected : selected = first :=
    h.eq_of_endOffset_eq (window_of_select hselect).1 hlike.1 hend
  rw [hselected] at hselect
  have hshort := length_last_lt hlisted
  have hlen := length_trim_eq hlike.2.2
  have hnormal := length_normalize_le last
  rcases isNamed_of_select hselect with hnamed | hnamed
  · have hle := length_le_of_isNamed hwritten hlike.1 hnamed
    omega
  · have hle := length_le_of_isNamed hwritten hlike.1 hnamed
    omega

/-- A listed heading selects the first heading of its level and text exactly when its text has no
delimiter and no other heading answers to it first. -/
theorem selectsItself_iff {heading : HeadingPos} (h : Ordered content headings)
    (hwritten : WrittenOut content headings) (hmem : heading ∈ headings) :
    SelectsItself content headings path heading ↔ HasPlainTarget content headings heading := by
  by_cases hdelimiter : "::".toList <:+: heading.text
  · exact iff_of_false (not_selectsItself_of_delimiter h hwritten hdelimiter)
      fun hplain => hplain.1 hdelimiter
  · have hlisted : ¬"::".toList <:+: heading.listed := fun hl =>
      hdelimiter (delimiter_infix_listed.mp hl)
    have hlevel := h.levels heading hmem
    have hselects : SelectsItself content headings path heading ↔
        ∃ first, firstLike headings heading = some first ∧
          selectHeading content headings ⟨0, byteLen content, 0⟩ heading.listed = some first := by
      constructor
      · intro hself
        rcases hself with ⟨first, sectionEnd, hfirst, hok⟩
        exact ⟨first, hfirst,
          (resolve_single_iff h (firstLike_mem hfirst).1 hlisted).mp ⟨sectionEnd, hok⟩⟩
      · intro hself
        rcases hself with ⟨first, hfirst, hselect⟩
        rcases (@resolve_single_iff _ _ path _ _ h (firstLike_mem hfirst).1 hlisted).mpr hselect
          with ⟨sectionEnd, hok⟩
        exact ⟨first, sectionEnd, hfirst, hok⟩
    rw [hselects, HasPlainTarget, and_iff_right hdelimiter]
    apply exists_congr
    intro first
    apply and_congr_right
    intro hfirst
    rw [selectHeading, findHeading_whole h, findHeading_whole h, normalize_listed hlevel,
      Option.or_eq_some_iff, find?_isNamed_iff h]
    apply or_congr_right
    by_cases htext : trim heading.text = []
    · rw [if_pos htext]
      refine iff_of_false ?_ fun hplain => hplain.2.1 htext
      intro hboth
      rw [hboth.1] at hboth
      exact absurd hboth.2 (by simp)
    · rw [if_neg htext, find?_isNamed_iff h, List.find?_eq_none]
      simp only [htext, ne_eq, not_false_eq_true, true_and]

/-- Each heading of the document map selects itself exactly when it has a plain target, and each
block id is found on the first line that carries it. -/
theorem documentMap_targets_iff (md : Markdown) (yaml : SerdeYaml) (content path : Text)
    (hordered : Ordered content (md.extractHeadingsWithOffsets content))
    (hwritten : WrittenOut content (md.extractHeadingsWithOffsets content)) :
    (∀ heading ∈ md.extractHeadingsWithOffsets content,
      heading.listed ∈ (buildDocumentMap md yaml content).headings ∧
        (SelectsItself content (md.extractHeadingsWithOffsets content) path heading ↔
          HasPlainTarget content (md.extractHeadingsWithOffsets content) heading)) ∧
      ∀ id ∈ (buildDocumentMap md yaml content).blockRefs,
        ∃ before line after front block, content.splitOn '\n' = before ++ line :: after ∧
          findBlockRef md content id = some block ∧
          FoundOnFirstLine md content id path before line front block := by
  constructor
  · intro heading hmem
    exact ⟨List.mem_map_of_mem hmem, selectsItself_iff hordered hwritten hmem⟩
  · intro id hid
    exact exists_foundOnFirstLine md content path hid

/-- The listed inner heading selects the outer one. -/
theorem inner_heading_selects_outer :
    Ordered (nestedContent "A".toList)
        ((nestedMarkdown "A".toList).extractHeadingsWithOffsets (nestedContent "A".toList)) ∧
      firstLike ((nestedMarkdown "A".toList).extractHeadingsWithOffsets
        (nestedContent "A".toList)) ⟨2, "A".toList, 1, 4, 9⟩ = some ⟨2, "A".toList, 1, 4, 9⟩ ∧
      resolveHeadingRange (nestedContent "A".toList)
        ((nestedMarkdown "A".toList).extractHeadingsWithOffsets (nestedContent "A".toList))
        (HeadingPos.listed ⟨2, "A".toList, 1, 4, 9⟩) "n.md".toList = .ok (4, 9) ∧
      ¬SelectsItself (nestedContent "A".toList)
        ((nestedMarkdown "A".toList).extractHeadingsWithOffsets (nestedContent "A".toList))
        "n.md".toList ⟨2, "A".toList, 1, 4, 9⟩ := by
  have hfirst : firstLike ((nestedMarkdown "A".toList).extractHeadingsWithOffsets
      (nestedContent "A".toList)) ⟨2, "A".toList, 1, 4, 9⟩ = some ⟨2, "A".toList, 1, 4, 9⟩ := by
    decide
  have hresolve : resolveHeadingRange (nestedContent "A".toList)
      ((nestedMarkdown "A".toList).extractHeadingsWithOffsets (nestedContent "A".toList))
      (HeadingPos.listed ⟨2, "A".toList, 1, 4, 9⟩) "n.md".toList = .ok (4, 9) := rfl
  refine ⟨⟨by decide, by decide, by decide⟩, hfirst, hresolve, ?_⟩
  intro hself
  rcases hself with ⟨first, sectionEnd, hlike, hok⟩
  have hok' := hok.symm.trans hresolve
  have hend : first.endOffset = 4 := (Prod.mk.inj (Except.ok.inj hok')).1
  rw [hfirst, Option.some.injEq] at hlike
  rw [← hlike] at hend
  exact absurd hend (by decide)

/-- A library that reads and writes nothing; the contents below have no frontmatter. -/
private def noDocuments : SerdeYaml where
  fromStrJson _ := .error []
  fromStrMapping _ := .error []
  fromStrValue _ := .error []
  toStringJson _ := .error []
  toStringMapping _ := .error []
  toStringValue _ := .error []
  displayNumber _ := []

/-- A content whose headings have names of their own. -/
theorem nested_headings_have_targets :
    (∀ heading ∈ (nestedMarkdown "B".toList).extractHeadingsWithOffsets (nestedContent "B".toList),
      heading.listed ∈
          (buildDocumentMap (nestedMarkdown "B".toList) noDocuments
            (nestedContent "B".toList)).headings ∧
        (SelectsItself (nestedContent "B".toList)
            ((nestedMarkdown "B".toList).extractHeadingsWithOffsets (nestedContent "B".toList))
            "n.md".toList heading ↔
          HasPlainTarget (nestedContent "B".toList)
            ((nestedMarkdown "B".toList).extractHeadingsWithOffsets (nestedContent "B".toList))
            heading)) ∧
      ∀ id ∈ (buildDocumentMap (nestedMarkdown "B".toList) noDocuments
          (nestedContent "B".toList)).blockRefs,
        ∃ before line after front block,
          (nestedContent "B".toList).splitOn '\n' = before ++ line :: after ∧
          findBlockRef (nestedMarkdown "B".toList) (nestedContent "B".toList) id = some block ∧
          FoundOnFirstLine (nestedMarkdown "B".toList) (nestedContent "B".toList) id
            "n.md".toList before line front block := by
  apply documentMap_targets_iff
  · exact ⟨by decide, by decide, by decide⟩
  · intro heading hmem raw hraw
    rcases List.mem_pair.mp hmem with rfl | rfl
    · have houter : HeadingPos.rawText (nestedContent "B".toList) ⟨1, "A".toList, 0, 0, 4⟩ =
          some "A".toList := by decide +kernel
      rw [← Option.some.inj (houter.symm.trans hraw)]
      decide
    · have hinner : HeadingPos.rawText (nestedContent "B".toList) ⟨2, "B".toList, 1, 4, 9⟩ =
          some "B".toList := by decide +kernel
      rw [← Option.some.inj (hinner.symm.trans hraw)]
      decide

end ObsidianMcp
