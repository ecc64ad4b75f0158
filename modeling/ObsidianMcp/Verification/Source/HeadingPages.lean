import ObsidianMcp.Verification.Source.Outline
import ObsidianMcp.Verification.Source.Pages

/-! # Heading pages

The running estimate is the length of the page, and the pages list the outline. -/

namespace ObsidianMcp

open Text

/-- The bytes of the records of a page. -/
def recordsLength (records : List SourceHeading) : ℕ :=
  (records.map fun record => byteLen record.json).sum

/-- The offset that a page continues at. -/
def continuation (total offset : ℕ) : Option ℕ :=
  if offset < total then some offset else none

/-- The length of a page by the length of its envelope. -/
theorem byteLen_page (page : SourceHeadingsPage) :
    byteLen page.json = byteLen { page with headings := [] }.json +
      recordsLength page.headings + (page.headings.length - 1) := by
  rw [SourceHeadingsPage.json, SourceHeadingsPage.json, JsonText.byteLen_object,
    JsonText.byteLen_object]
  simp only [List.map_append, List.map_cons, List.map_nil, List.sum_append, List.sum_cons,
    List.sum_nil, List.length_append, List.length_cons, JsonText.byteLen_array, List.length_map,
    List.length_nil, List.map_map, recordsLength, Function.comp_def]
  omega

/-- The page with one more heading. -/
def SourceHeadingsPage.push (page : SourceHeadingsPage) (ordinal : ℕ) (record : SourceHeading) :
    SourceHeadingsPage :=
  { page with
    headings := page.headings ++ [record]
    nextHeadingOffset := continuation page.totalHeadings (ordinal + 1) }

theorem recordsLength_push (page : SourceHeadingsPage) (ordinal : ℕ) (record : SourceHeading) :
    recordsLength (page.push ordinal record).headings =
      recordsLength page.headings + byteLen record.json := by
  simp [recordsLength, SourceHeadingsPage.push]

/-- The estimate is the length of the page with one more heading. -/
theorem byteLen_push (page : SourceHeadingsPage) (ordinal : ℕ) (record : SourceHeading) :
    byteLen (page.push ordinal record).json =
      byteLen { page with
        headings := []
        nextHeadingOffset := continuation page.totalHeadings (ordinal + 1) }.json +
        recordsLength page.headings + byteLen record.json + page.headings.length := by
  rw [byteLen_page, recordsLength_push]
  simp only [SourceHeadingsPage.push, List.length_append, List.length_singleton]
  omega

/-- One step of the loop over the headings of a page. -/
theorem fillPage_cons (maxBytes ordinal : ℕ) (record : SourceHeading)
    (entries : List (ℕ × SourceHeading)) (page : SourceHeadingsPage) :
    fillPage maxBytes ((ordinal, record) :: entries) (recordsLength page.headings) page =
      if maxBytes < byteLen (page.push ordinal record).json then
        if page.headings = [] then
          .error (.invalidSourceRange "max_bytes cannot fit one heading locator".toList)
        else .ok { page with nextHeadingOffset := some ordinal }
      else
        fillPage maxBytes entries (recordsLength (page.push ordinal record).headings)
          (page.push ordinal record) := by
  rw [fillPage, byteLen_push, recordsLength_push]
  rfl

/-- A page which has headings fits and continues at an offset. -/
def Cut (maxBytes offset : ℕ) (page : SourceHeadingsPage) : Prop :=
  page.headings ≠ [] →
    page.nextHeadingOffset = continuation page.totalHeadings offset ∧ byteLen page.json ≤ maxBytes

/-- The loop adds the first of the numbered records, and at least one of them. -/
theorem fillPage_ok {maxBytes start : ℕ} {entries : List (ℕ × SourceHeading)}
    {page result : SourceHeadingsPage}
    (hnumbered : entries.map Prod.fst = List.range' start entries.length)
    (htotal : start + entries.length ≤ page.totalHeadings) (hcut : Cut maxBytes start page)
    (h : fillPage maxBytes entries (recordsLength page.headings) page = .ok result) :
    ∃ n, n ≤ entries.length ∧
      result.headings = page.headings ++ (entries.take n).map Prod.snd ∧
      result.totalHeadings = page.totalHeadings ∧ Cut maxBytes (start + n) result ∧
      (entries ≠ [] → result.headings ≠ []) ∧ (entries = [] → result = page) := by
  induction entries generalizing start page with
  | nil =>
      rw [fillPage, Except.ok.injEq] at h
      subst h
      exact ⟨0, by simp, by simp, rfl, hcut, by simp, by simp⟩
  | cons entry entries ih =>
      obtain ⟨ordinal, record⟩ := entry
      rw [List.map_cons, List.length_cons, List.range'_succ, List.cons.injEq] at hnumbered
      obtain ⟨rfl, hnumbered⟩ := hnumbered
      rw [List.length_cons] at htotal
      rw [fillPage_cons] at h
      split_ifs at h with hover hempty
      · -- the page ends before the heading
        rw [Except.ok.injEq] at h
        subst h
        obtain ⟨hnext, hfits⟩ := hcut hempty
        rw [continuation, if_pos (by omega)] at hnext
        rw [← hnext]
        exact ⟨0, by simp, by simp, rfl, hcut, fun _ => hempty, by simp⟩
      · have hpushed : Cut maxBytes (ordinal + 1) (page.push ordinal record) :=
          fun _ => ⟨rfl, Nat.le_of_not_lt hover⟩
        obtain ⟨n, hn, hheadings, htotals, hresult, -, -⟩ :=
          ih hnumbered (by simpa [SourceHeadingsPage.push] using by omega) hpushed h
        rw [Nat.add_right_comm, Nat.add_assoc] at hresult
        refine ⟨n + 1, by simpa using hn, by simp [hheadings, SourceHeadingsPage.push], htotals,
          hresult, fun _ => ?_, by simp⟩
        simp [hheadings, SourceHeadingsPage.push]

/-! ## One page -/

namespace SourceSnapshot

variable {md : Markdown} {snapshot : SourceSnapshot} {path : Text} {offset : ℕ}
  {maxHeadings maxBytes : Option ℕ} {page : SourceHeadingsPage}

/-- The headings that the parser finds in a snapshot. -/
def headingsOf (md : Markdown) (snapshot : SourceSnapshot) : List HeadingPos :=
  md.extractHeadingsWithOffsets snapshot.content

/-- The records of the headings of a snapshot. -/
def recordsOf (md : Markdown) (snapshot : SourceSnapshot) : List SourceHeading :=
  headingRecords snapshot.content (headingsOf md snapshot)

theorem length_headingRecords (content : Text) (headings : List HeadingPos) :
    (headingRecords content headings).length = headings.length := by
  simp [headingRecords_eq]

/-- Headings that lie one behind the other fit into memory. -/
theorem length_le_of_ordered {content : Text} {headings : List HeadingPos}
    (h : Ordered content headings) : headings.length ≤ byteLen content := by
  have hall : ∀ (start : ℕ) (headings : List HeadingPos), start ≤ byteLen content →
      (∀ heading ∈ headings, start ≤ heading.offset ∧ heading.offset < heading.endOffset ∧
        heading.endOffset ≤ byteLen content) →
      (headings.Pairwise fun a b => a.endOffset ≤ b.offset) →
      start + headings.length ≤ byteLen content := by
    intro start headings hstart hranges hsorted
    induction headings generalizing start with
    | nil => simpa using hstart
    | cons heading headings ih =>
        obtain ⟨hhead, hsorted⟩ := List.pairwise_cons.mp hsorted
        obtain ⟨hle, hlt, hend⟩ := hranges heading List.mem_cons_self
        have hrest := ih heading.endOffset hend (fun other hmem =>
          ⟨hhead other hmem, (hranges other (List.mem_cons_of_mem _ hmem)).2⟩) hsorted
        rw [List.length_cons]
        omega
  have hstart := hall 0 headings (Nat.zero_le _)
    (fun heading hmem => ⟨Nat.zero_le _, h.ranges heading hmem⟩) h.disjoint
  omega

/-- What a page holds: the records behind its offset up to where it continues. -/
structure Holds (md : Markdown) (snapshot : SourceSnapshot) (limit offset : ℕ)
    (page : SourceHeadingsPage) : Prop where
  fits : byteLen page.json ≤ limit
  part : ∃ n, page.headings = ((recordsOf md snapshot).drop offset).take n ∧
    page.nextHeadingOffset = continuation (headingsOf md snapshot).length (offset + n) ∧
    (offset + n < (headingsOf md snapshot).length → 0 < n)

/-- The numbered records from one ordinal to another. -/
theorem numbered_entries (records : List SourceHeading) {first last : ℕ}
    (hlast : last ≤ records.length) :
    ((((records.zipIdx.map fun entry => (entry.2, entry.1)).take last).drop first).map Prod.fst) =
        List.range' first (last - first) ∧
      ((((records.zipIdx.map fun entry => (entry.2, entry.1)).take last).drop first).map Prod.snd) =
        (records.take last).drop first := by
  constructor
  · rw [List.map_drop, List.map_take, List.map_map,
      show Prod.fst ∘ (fun entry : SourceHeading × ℕ => (entry.2, entry.1)) = Prod.snd from rfl,
      List.zipIdx_map_snd, List.take_range'_of_length_ge hlast, List.drop_range']
    simp
  · rw [List.map_drop, List.map_take, List.map_map,
      show Prod.snd ∘ (fun entry : SourceHeading × ℕ => (entry.2, entry.1)) = Prod.fst from rfl,
      List.zipIdx_map_fst]

theorem validateLimit_ok {value cap limit : ℕ} {name : Text} :
    validateLimit value cap name = .ok limit ↔ 0 < value ∧ value ≤ cap ∧ limit = value := by
  rw [validateLimit]
  split_ifs with h
  · constructor
    · intro h
      contradiction
    · intro hvalid
      omega
  · rw [Except.ok.injEq]
    constructor
    · rintro rfl
      exact ⟨by omega, by omega, rfl⟩
    · rintro ⟨-, -, rfl⟩
      rfl

/-- The page before its headings are added. -/
def emptyPage (md : Markdown) (snapshot : SourceSnapshot) : SourceHeadingsPage :=
  ⟨snapshot.sourceRevision, byteLen snapshot.content, (headingsOf md snapshot).length, [], none⟩

theorem headingsPage_ok {expected : Option Text}
    (h : snapshot.headingsPage md path expected offset maxHeadings maxBytes = .ok page) :
    ∃ count limit, 0 < count ∧ limit = maxBytes.getD defaultPageBytes ∧
      offset ≤ (headingsOf md snapshot).length ∧
      fillPage limit ((((recordsOf md snapshot).zipIdx.map fun entry => (entry.2, entry.1)).take
        (min (headingsOf md snapshot).length (saturatingAdd offset count))).drop offset) 0
          (emptyPage md snapshot) = .ok page ∧
      (page.headings = [] → byteLen page.json ≤ limit) := by
  rw [headingsPage] at h
  split_ifs at h with hexpected
  obtain ⟨_, -, h⟩ := bind_ok_iff.mp h
  obtain ⟨count, hcount, h⟩ := bind_ok_iff.mp h
  obtain ⟨limit, hlimit, h⟩ := bind_ok_iff.mp h
  change (if (headingsOf md snapshot).length < offset then _ else _) = _ at h
  by_cases hover : (headingsOf md snapshot).length < offset
  · rw [if_pos hover] at h
    contradiction
  · rw [if_neg hover] at h
    obtain ⟨filled, hfilled, h⟩ := bind_ok_iff.mp h
    by_cases hlarge : filled.headings = [] ∧ limit < byteLen filled.json
    · rw [if_pos hlarge] at h
      contradiction
    · rw [if_neg hlarge, Except.ok.injEq] at h
      subst h
      obtain ⟨hpositive, -, rfl⟩ := validateLimit_ok.mp hcount
      exact ⟨_, limit, hpositive, (validateLimit_ok.mp hlimit).2.2, Nat.le_of_not_lt hover,
        hfilled, fun hempty => Nat.le_of_not_lt fun hlt => hlarge ⟨hempty, hlt⟩⟩

/-- A page of the outline holds a part of it. -/
theorem headingsPage_spec {expected : Option Text}
    (hordered : Ordered snapshot.content (headingsOf md snapshot))
    (h : snapshot.headingsPage md path expected offset maxHeadings maxBytes = .ok page) :
    Holds md snapshot (maxBytes.getD defaultPageBytes) offset page := by
  have hmemory := (length_le_of_ordered hordered).trans snapshot.content_le
  have hrecords : (recordsOf md snapshot).length = (headingsOf md snapshot).length :=
    length_headingRecords _ _
  obtain ⟨count, limit, hcount, rfl, hoffset, hfilled, hempty⟩ := headingsPage_ok h
  have hsum : min (headingsOf md snapshot).length (saturatingAdd offset count) =
      min (headingsOf md snapshot).length (offset + count) := by
    rw [saturatingAdd]
    omega
  rw [hsum] at hfilled
  obtain ⟨hfirsts, hseconds⟩ := @numbered_entries (recordsOf md snapshot) offset
    (min (headingsOf md snapshot).length (offset + count)) (by omega)
  generalize hentries : ((((recordsOf md snapshot).zipIdx.map fun entry =>
    (entry.2, entry.1)).take (min (headingsOf md snapshot).length (offset + count))).drop offset) =
      entries at *
  have hlength := congrArg List.length hfirsts
  rw [List.length_map, List.length_range'] at hlength
  rw [← hlength] at hfirsts
  have hroom : offset + entries.length ≤ (emptyPage md snapshot).totalHeadings := by
    change _ ≤ (headingsOf md snapshot).length
    omega
  obtain ⟨n, hn, hheadings, htotal, hcut, hprogress, hstay⟩ :=
    fillPage_ok hfirsts hroom (fun hne => absurd rfl hne) hfilled
  have hpart : page.headings = ((recordsOf md snapshot).drop offset).take n := by
    rw [hheadings, List.map_take, hseconds, List.drop_take, List.take_take,
      Nat.min_eq_left (by omega)]
    rfl
  change page.totalHeadings = (headingsOf md snapshot).length at htotal
  by_cases hnone : entries = []
  · -- the offset is behind the last heading
    have hend : offset = (headingsOf md snapshot).length := by
      rw [hnone, List.length_nil] at hlength
      omega
    have hpage := hstay hnone
    refine ⟨hempty (by rw [hpage]; rfl), n, hpart, ?_, by omega⟩
    rw [hpage, continuation, if_neg (by omega)]
    rfl
  · obtain ⟨hnext, hfits⟩ := hcut (hprogress hnone)
    refine ⟨hfits, n, hpart, htotal ▸ hnext, fun _ => ?_⟩
    by_contra hzero
    exact hprogress hnone (by rw [hpart, Nat.eq_zero_of_not_pos hzero, List.take_zero])

/-! ## Chains of pages -/

/-- The offsets that a client reaches by following the continuations. -/
inductive Reached (md : Markdown) (snapshot : SourceSnapshot) (path : Text)
    (maxHeadings maxBytes : Option ℕ) : ℕ → Prop
  | start : Reached md snapshot path maxHeadings maxBytes 0
  | next {offset : ℕ} {page : SourceHeadingsPage} {rest : ℕ} :
      Reached md snapshot path maxHeadings maxBytes offset →
      snapshot.headingsPage md path (some snapshot.sourceRevision) offset maxHeadings maxBytes =
        .ok page →
      page.nextHeadingOffset = some rest →
      Reached md snapshot path maxHeadings maxBytes rest

/-- The pages from an offset to the one without a continuation. -/
inductive Lists (md : Markdown) (snapshot : SourceSnapshot) (path : Text)
    (maxHeadings maxBytes : Option ℕ) : ℕ → List SourceHeadingsPage → Prop
  | last {offset : ℕ} {page : SourceHeadingsPage} :
      snapshot.headingsPage md path (some snapshot.sourceRevision) offset maxHeadings maxBytes =
        .ok page →
      page.nextHeadingOffset = none →
      Lists md snapshot path maxHeadings maxBytes offset [page]
  | next {offset rest : ℕ} {page : SourceHeadingsPage} {pages : List SourceHeadingsPage} :
      snapshot.headingsPage md path (some snapshot.sourceRevision) offset maxHeadings maxBytes =
        .ok page →
      page.nextHeadingOffset = some rest →
      Lists md snapshot path maxHeadings maxBytes rest pages →
      Lists md snapshot path maxHeadings maxBytes offset (page :: pages)

/-- A continuation is behind its page, and the end of the chain behind all headings. -/
theorem Holds.next {limit : ℕ} (h : Holds md snapshot limit offset page) :
    (∀ rest, page.nextHeadingOffset = some rest →
      offset < rest ∧ rest < (headingsOf md snapshot).length ∧
        (recordsOf md snapshot).drop offset = page.headings ++ (recordsOf md snapshot).drop rest) ∧
    (page.nextHeadingOffset = none → (recordsOf md snapshot).drop offset = page.headings) := by
  obtain ⟨n, hpart, hnext, hprogress⟩ := h.part
  have hrecords : (recordsOf md snapshot).length = (headingsOf md snapshot).length :=
    length_headingRecords _ _
  rw [continuation] at hnext
  constructor
  · intro rest hrest
    rw [hrest] at hnext
    split_ifs at hnext with hlt
    rw [Option.some.injEq] at hnext
    subst hnext
    refine ⟨Nat.lt_add_of_pos_right (hprogress hlt), hlt, ?_⟩
    rw [hpart, ← List.drop_drop, List.take_append_drop]
  · intro hrest
    rw [hrest] at hnext
    split_ifs at hnext with hlt
    rw [hpart, List.take_of_length_le]
    rw [List.length_drop]
    omega

/-- The pages of a chain fit and list the rest of the outline. -/
theorem Lists.spec (hordered : Ordered snapshot.content (headingsOf md snapshot))
    {pages : List SourceHeadingsPage} (h : Lists md snapshot path maxHeadings maxBytes offset pages) :
    (∀ page ∈ pages, byteLen page.json ≤ maxBytes.getD defaultPageBytes) ∧
      (pages.map SourceHeadingsPage.headings).flatten = (recordsOf md snapshot).drop offset := by
  induction h with
  | @last offset page hpage hnone =>
      have hholds := headingsPage_spec hordered hpage
      rw [hholds.next.2 hnone]
      exact ⟨by simpa using hholds.fits, by simp⟩
  | @next offset rest page pages hpage hnext _ ih =>
      have hholds := headingsPage_spec hordered hpage
      rw [(hholds.next.1 rest hnext).2.2, List.map_cons, List.flatten_cons, ih.2]
      exact ⟨List.forall_mem_cons.mpr ⟨hholds.fits, ih.1⟩, rfl⟩

/-- Each page shortens what is left of the outline, so a chain without a refused page ends. -/
theorem exists_lists (hordered : Ordered snapshot.content (headingsOf md snapshot))
    (haccepted : ∀ offset error, Reached md snapshot path maxHeadings maxBytes offset →
      snapshot.headingsPage md path (some snapshot.sourceRevision) offset maxHeadings maxBytes ≠
        .error error) (hreached : Reached md snapshot path maxHeadings maxBytes offset) :
    ∃ pages, Lists md snapshot path maxHeadings maxBytes offset pages := by
  generalize hleft : (headingsOf md snapshot).length - offset = left
  induction left using Nat.strong_induction_on generalizing offset with
  | _ left ih =>
      cases hpage : snapshot.headingsPage md path (some snapshot.sourceRevision) offset maxHeadings
          maxBytes with
      | error error => exact absurd hpage (haccepted offset error hreached)
      | ok page =>
          have hholds := headingsPage_spec hordered hpage
          cases hnext : page.nextHeadingOffset with
          | none => exact ⟨[page], Lists.last hpage hnext⟩
          | some rest =>
              obtain ⟨hlt, hrest, -⟩ := hholds.next.1 rest hnext
              obtain ⟨pages, hpages⟩ := ih _ (by omega) (hreached.next hpage hnext) rfl
              exact ⟨page :: pages, Lists.next hpage hnext hpages⟩

/-- The sections of the records lie in the sections of their parents. -/
def Nested (records : List SourceHeading) : Prop :=
  ∀ inner ∈ records, ∀ parent, inner.parentOrdinal = some parent →
    ∃ outer, records[parent]? = some outer ∧ outer.ordinal = parent ∧
      outer.sectionRange.startByte ≤ inner.sectionRange.startByte ∧
      inner.sectionRange.endByte ≤ outer.sectionRange.endByte

theorem nested_headingRecords {content : Text} {headings : List HeadingPos}
    (hordered : Ordered content headings) : Nested (headingRecords content headings) := by
  intro inner hmem parent hparent
  rw [headingRecords_eq] at hmem ⊢
  obtain ⟨entry, hentry, rfl⟩ := List.mem_map.mp hmem
  have hheading := List.mem_zipIdx_iff_getElem?.mp hentry
  have hlt := (nearestParent_eq_some.mp hparent).1
  have hlength := (List.getElem?_eq_some_iff.mp hheading).1
  have houter := List.getElem?_eq_getElem (hlt.trans hlength)
  obtain ⟨hstart, hstop⟩ := section_nested hordered hheading houter hparent
  refine ⟨headingRecord parent headings[parent]
    (nearestParent headings parent headings[parent].level)
    (sectionStop content headings parent headings[parent].level), ?_, rfl, hstart, hstop⟩
  rw [List.getElem?_map, List.getElem?_zipIdx, houter]
  simp

/-- Pages that a client gets by following the continuations from the first heading list the outline
once and in order, each within its bytes; the chain ends unless a page is refused. The length that
cuts a page is the length of the page with one more heading. The outline has the nearest parents
and the section ends, and its sections nest. -/
theorem heading_pages_enumerate (md : Markdown) (sha256 : List UInt8 → Hash) (content : Text)
    (content_le : byteLen content ≤ usizeMax) (path : Text) (maxHeadings maxBytes : Option ℕ)
    (hordered : Ordered content (md.extractHeadingsWithOffsets content)) :
    (∀ pages, Lists md (new sha256 content content_le) path maxHeadings maxBytes 0 pages →
      (∀ page ∈ pages, byteLen page.json ≤ maxBytes.getD defaultPageBytes) ∧
      (pages.map SourceHeadingsPage.headings).flatten =
        headingRecords content (md.extractHeadingsWithOffsets content)) ∧
    ((∀ offset error,
      Reached md (new sha256 content content_le) path maxHeadings maxBytes offset →
      (new sha256 content content_le).headingsPage md path
        (some (new sha256 content content_le).sourceRevision) offset maxHeadings maxBytes ≠
          .error error) →
      ∃ pages, Lists md (new sha256 content content_le) path maxHeadings maxBytes 0 pages) ∧
    (∀ limit ordinal record entries page,
      fillPage limit ((ordinal, record) :: entries) (recordsLength page.headings) page =
        if limit < byteLen (page.push ordinal record).json then
          if page.headings = [] then
            .error (.invalidSourceRange "max_bytes cannot fit one heading locator".toList)
          else .ok { page with nextHeadingOffset := some ordinal }
        else fillPage limit entries (recordsLength (page.push ordinal record).headings)
          (page.push ordinal record)) ∧
    headingRecords content (md.extractHeadingsWithOffsets content) =
      (md.extractHeadingsWithOffsets content).zipIdx.map (fun entry =>
        headingRecord entry.2 entry.1
          (nearestParent (md.extractHeadingsWithOffsets content) entry.2 entry.1.level)
          (sectionStop content (md.extractHeadingsWithOffsets content) entry.2 entry.1.level)) ∧
    Nested (headingRecords content (md.extractHeadingsWithOffsets content)) := by
  refine ⟨fun pages h => h.spec hordered, fun haccepted => ?_, ?_, headingRecords_eq _ _,
    nested_headingRecords hordered⟩
  · exact exists_lists hordered haccepted Reached.start
  · intro limit ordinal record entries page
    exact fillPage_cons limit ordinal record entries page

/-- A heading and one below it, as a parser finds them. -/
def twoHeadings : Markdown :=
  ⟨fun _ => [⟨1, "a".toList, 0, 0, 3⟩, ⟨2, "b".toList, 1, 4, 8⟩], fun _ => []⟩

def twoNote : SourceSnapshot :=
  new (fun _ => .replicate 32 0) "# a\n## b".toList (by decide)

/-- One heading a page. -/
theorem heading_pages_two :
    ∃ first second, Lists twoHeadings twoNote "n.md".toList (some 1) none 0 [first, second] ∧
      ([first, second].map SourceHeadingsPage.headings).flatten =
        headingRecords twoNote.content (headingsOf twoHeadings twoNote) := by
  have hboth := heading_pages_enumerate twoHeadings (fun _ => .replicate 32 0)
    "# a\n## b".toList (by decide) "n.md".toList (some 1) none ⟨by decide, by decide, by decide⟩
  have hfirst : twoNote.headingsPage twoHeadings "n.md".toList (some twoNote.sourceRevision) 0
      (some 1) none = .ok ⟨twoNote.sourceRevision, 8, 2,
        [headingRecord 0 ⟨1, "a".toList, 0, 0, 3⟩ none 8], some 1⟩ := by decide +kernel
  have hsecond : twoNote.headingsPage twoHeadings "n.md".toList (some twoNote.sourceRevision) 1
      (some 1) none = .ok ⟨twoNote.sourceRevision, 8, 2,
        [headingRecord 1 ⟨2, "b".toList, 1, 4, 8⟩ (some 0) 8], none⟩ := by decide +kernel
  have hlists := Lists.next hfirst rfl (Lists.last hsecond rfl)
  exact ⟨_, _, hlists, (hboth.1 _ hlists).2⟩

end SourceSnapshot

end ObsidianMcp
