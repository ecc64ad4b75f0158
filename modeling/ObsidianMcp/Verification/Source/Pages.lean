import ObsidianMcp.Library.Results
import ObsidianMcp.Model.Source

/-! # Pages of a source

The pages that a client gets by following the continuations are the requested range, cut at
character boundaries. -/

namespace ObsidianMcp

open Text

/-! ## Revisions -/

theorem isRevisionDigit_hexDigit {n : ℕ} (h : n < 16) :
    isRevisionDigit (JsonText.hexDigit n) = true := by
  have hall : ∀ n < 16, isRevisionDigit (JsonText.hexDigit n) = true := by decide
  exact hall n h

theorem utf8Size_hexDigit {n : ℕ} (h : n < 16) : (JsonText.hexDigit n).utf8Size = 1 := by
  have hall : ∀ n < 16, (JsonText.hexDigit n).utf8Size = 1 := by decide
  exact hall n h

/-- The own revision of a snapshot is well formed. -/
theorem validateRevision_sourceRevision (sha256 : List UInt8 → Hash) (content : Text) :
    validateRevision (sourceRevision sha256 content) = .ok () := by
  have hbyte : ∀ byte : UInt8, byteLen (hexPair byte) = 2 ∧
      (hexPair byte).all isRevisionDigit = true := by
    intro byte
    have hlt := byte.toNat_lt
    have hhigh : byte.toNat / 16 < 16 := by omega
    have hlow : byte.toNat % 16 < 16 := Nat.mod_lt _ (by decide)
    constructor
    · rw [hexPair, byteLen_cons, byteLen_cons, byteLen_nil, utf8Size_hexDigit hhigh,
        utf8Size_hexDigit hlow]
    · rw [hexPair, List.all_cons, List.all_cons, isRevisionDigit_hexDigit hhigh,
        isRevisionDigit_hexDigit hlow]
      rfl
  have hbytes : ∀ bytes : List UInt8, byteLen (bytes.flatMap hexPair) = 2 * bytes.length ∧
      (bytes.flatMap hexPair).all isRevisionDigit = true := by
    intro bytes
    induction bytes with
    | nil => exact ⟨rfl, rfl⟩
    | cons byte bytes ih =>
        rw [List.flatMap_cons, byteLen_append, List.all_append, List.length_cons, ih.1, ih.2,
          (hbyte byte).1, (hbyte byte).2]
        exact ⟨by omega, rfl⟩
  rw [validateRevision, sourceRevision, if_pos]
  constructor
  · rw [(hbytes _).1, Vector.length_toList]
  · exact (hbytes _).2

/-! ## One page -/

namespace SourceSnapshot

variable {snapshot : SourceSnapshot} {path : Text} {range : Option SourceRange}
  {maxBytes : Option ℕ} {requested : SourceRange}

theorem validateRange_ok : snapshot.validateRange requested = .ok () ↔
    requested.startByte ≤ requested.endByte ∧
      isCharBoundary snapshot.content requested.startByte = true ∧
      isCharBoundary snapshot.content requested.endByte = true := by
  rw [validateRange]
  by_cases hrange : requested.endByte < requested.startByte ∨
      byteLen snapshot.content < requested.endByte
  · rw [if_pos hrange]
    constructor
    · intro h
      contradiction
    · intro h
      have hle := le_byteLen_of_isCharBoundary h.2.2
      omega
  · rw [if_neg hrange]
    rw [not_or, Nat.not_lt, Nat.not_lt] at hrange
    cases hstart : isCharBoundary snapshot.content requested.startByte with
    | false => simp
    | true =>
        cases hstop : isCharBoundary snapshot.content requested.endByte with
        | false => simp
        | true => exact iff_of_true rfl ⟨hrange.1, rfl, rfl⟩

/-- Where a page ends: at a boundary in the range, within the budget, and after its start if the
budget admits every character. -/
theorem pageEnd_spec (hvalid : snapshot.validateRange requested = .ok ()) (budget : Option ℕ) :
    isCharBoundary snapshot.content (snapshot.pageEnd budget requested) = true ∧
      requested.startByte ≤ snapshot.pageEnd budget requested ∧
      snapshot.pageEnd budget requested ≤ requested.endByte ∧
      (∀ n, budget = some n → snapshot.pageEnd budget requested ≤ requested.startByte + n) ∧
      ((∀ n, budget = some n → 4 ≤ n) → requested.startByte < requested.endByte →
        requested.startByte < snapshot.pageEnd budget requested) := by
  rcases validateRange_ok.mp hvalid with ⟨hle, hstart, hstop⟩
  have hmemory := (le_byteLen_of_isCharBoundary hstop).trans snapshot.content_le
  cases budget with
  | none =>
      refine ⟨hstop, hle, Nat.le_refl _, ?_, fun _ hlt => hlt⟩
      intro n h
      contradiction
  | some n =>
      have hsum : min (saturatingAdd requested.startByte n) requested.endByte =
          min (requested.startByte + n) requested.endByte := by
        rw [saturatingAdd]
        omega
      rw [pageEnd, hsum]
      have hfloor := floorCharBoundary_le snapshot.content
        (min (requested.startByte + n) requested.endByte)
      have hroom : requested.startByte ≤ min (requested.startByte + n) requested.endByte :=
        le_min (Nat.le_add_right _ _) hle
      refine ⟨isCharBoundary_floor _ _, le_floorCharBoundary hstart hroom,
        hfloor.trans (min_le_right _ _), ?_, ?_⟩
      · intro m hm
        rw [← Option.some.inj hm]
        exact hfloor.trans (min_le_left _ _)
      · intro hwide hlt
        have hfour := hwide n rfl
        rcases exists_next_boundary hstart (hlt.trans_le (le_byteLen_of_isCharBoundary hstop)) with
          ⟨c, hnext, hmin⟩
        have hend := hmin _ hlt hstop
        have hsize := c.utf8Size_le_four
        have hpos := c.utf8Size_pos
        have hreach : requested.startByte + c.utf8Size ≤
            min (requested.startByte + n) requested.endByte := le_min (by omega) hend
        have hfloor' := le_floorCharBoundary hnext hreach
        omega

/-- The page of a range that ends at an offset. -/
def cutPage (snapshot : SourceSnapshot) (requested : SourceRange) (stop : ℕ) (content : Text) :
    SourcePage where
  content := content
  sourceRevision := snapshot.sourceRevision
  sourceBytes := byteLen snapshot.content
  requestedRange := requested
  returnedRange := ⟨requested.startByte, stop⟩
  nextRange := if stop < requested.endByte then some ⟨stop, requested.endByte⟩ else none

/-- The whole range when none is given. -/
def requestedRange (snapshot : SourceSnapshot) (range : Option SourceRange) : SourceRange :=
  range.getD ⟨0, byteLen snapshot.content⟩

/-- A page with the own revision is refused, or cut from the range. -/
theorem page_ok (hrevision : validateRevision snapshot.sourceRevision = .ok ())
    {result : Option SourcePage} :
    snapshot.page path (some snapshot.sourceRevision) range maxBytes = .ok result ↔
      ∃ budget, snapshot.validateRange (snapshot.requestedRange range) = .ok () ∧
        pageBudget range maxBytes = .ok budget ∧
        ¬(snapshot.pageEnd budget (snapshot.requestedRange range) =
            (snapshot.requestedRange range).startByte ∧
          snapshot.pageEnd budget (snapshot.requestedRange range) <
            (snapshot.requestedRange range).endByte) ∧
        ∃ content, sliceAt snapshot.content (snapshot.requestedRange range).startByte
            (snapshot.pageEnd budget (snapshot.requestedRange range)) = some content ∧
          result = some (snapshot.cutPage (snapshot.requestedRange range)
            (snapshot.pageEnd budget (snapshot.requestedRange range)) content) := by
  have hgiven : ¬(range.isSome = true ∧ (some snapshot.sourceRevision).isNone = true) := by simp
  have hcheck : snapshot.checkRevision path (some snapshot.sourceRevision) = .ok () := by
    rw [checkRevision, bind_ok_iff]
    exact ⟨(), hrevision, if_neg (not_not.mpr rfl)⟩
  rw [page, if_neg hgiven, hcheck]
  change (snapshot.validateRange (snapshot.requestedRange range) >>= fun _ => _) = _ ↔ _
  rw [bind_ok_iff]
  constructor
  · intro h
    rcases h with ⟨_, hvalid, h⟩
    rcases bind_ok_iff.mp h with ⟨budget, hbudget, h⟩
    dsimp only at h
    have hspec := pageEnd_spec hvalid budget
    have hstart := (validateRange_ok.mp hvalid).2.1
    by_cases hstall : snapshot.pageEnd budget (snapshot.requestedRange range) =
        (snapshot.requestedRange range).startByte ∧
        snapshot.pageEnd budget (snapshot.requestedRange range) <
          (snapshot.requestedRange range).endByte
    · rw [← requestedRange, if_pos hstall] at h
      contradiction
    · rcases exists_parts hspec.2.1 hstart hspec.1 with ⟨s, content, rest, hsplit, hs, hmid⟩
      have hslice : sliceAt snapshot.content (snapshot.requestedRange range).startByte
          (snapshot.pageEnd budget (snapshot.requestedRange range)) = some content :=
        sliceAt_eq_some.mpr ⟨s, rest, hsplit, hs, hmid⟩
      refine ⟨budget, hvalid, hbudget, hstall, content, hslice, ?_⟩
      rw [← requestedRange, if_neg hstall, hslice] at h
      exact (Except.ok.inj h).symm
  · intro h
    rcases h with ⟨budget, hvalid, hbudget, hstall, content, hslice, rfl⟩
    refine ⟨(), hvalid, bind_ok_iff.mpr ⟨budget, hbudget, ?_⟩⟩
    dsimp only
    rw [← requestedRange, if_neg hstall, hslice]
    rfl

/-! ## Following the continuations -/

/-- The pages that a client gets from a range on. -/
inductive Follows (snapshot : SourceSnapshot) (path : Text) (maxBytes : Option ℕ) :
    Option SourceRange → List SourcePage → Prop
  | last {range : Option SourceRange} {page : SourcePage} :
      snapshot.page path (some snapshot.sourceRevision) range maxBytes = .ok (some page) →
      page.nextRange = none → Follows snapshot path maxBytes range [page]
  | next {range : Option SourceRange} {page : SourcePage} {rest : SourceRange}
      {pages : List SourcePage} :
      snapshot.page path (some snapshot.sourceRevision) range maxBytes = .ok (some page) →
      page.nextRange = some rest → Follows snapshot path maxBytes (some rest) pages →
      Follows snapshot path maxBytes range (page :: pages)

/-- Pages that lie one behind the other from an offset to another one. -/
def Tiles : ℕ → ℕ → List SourcePage → Prop
  | start, stop, [] => start = stop
  | start, stop, page :: pages =>
      page.returnedRange.startByte = start ∧ Tiles page.returnedRange.endByte stop pages

/-- A page shows its range of the source, within the budget, and progresses. -/
structure Faithful (snapshot : SourceSnapshot) (maxBytes : Option ℕ) (page : SourcePage) :
    Prop where
  shown : sliceAt snapshot.content page.returnedRange.startByte page.returnedRange.endByte =
    some page.content
  bounded : ∀ n, maxBytes = some n → byteLen page.content ≤ n
  nonempty : page.content = [] → page.requestedRange.startByte = page.requestedRange.endByte
  revision : page.sourceRevision = snapshot.sourceRevision
  progress : page.nextRange ≠ none → page.content ≠ []

theorem pageBudget_some {budget : Option ℕ} {n : ℕ} (h : pageBudget range (some n) = .ok budget) :
    budget = some n := by
  rw [pageBudget, validateLimit] at h
  by_cases hlimit : n = 0 ∨ maxPageBytes < n
  · rw [if_pos hlimit] at h
    contradiction
  · rw [if_neg hlimit] at h
    exact (Except.ok.inj h).symm

/-- One page, with its continuation. -/
theorem page_spec (hrevision : validateRevision snapshot.sourceRevision = .ok ())
    {page : SourcePage}
    (h : snapshot.page path (some snapshot.sourceRevision) range maxBytes = .ok (some page)) :
    Faithful snapshot maxBytes page ∧
      page.requestedRange = snapshot.requestedRange range ∧
      page.returnedRange.startByte = (snapshot.requestedRange range).startByte ∧
      (page.nextRange = none →
        page.returnedRange.endByte = (snapshot.requestedRange range).endByte) ∧
      ∀ rest, page.nextRange = some rest →
        rest = ⟨page.returnedRange.endByte, (snapshot.requestedRange range).endByte⟩ ∧
        snapshot.validateRange rest = .ok () := by
  rcases (page_ok hrevision).mp h with ⟨budget, hvalid, hbudget, hstall, content, hslice, heq⟩
  rw [Option.some.injEq] at heq
  subst heq
  rcases pageEnd_spec hvalid budget with ⟨hboundary, hle, hend, hroom, -⟩
  rcases sliceAt_eq_some.mp hslice with ⟨s, tail, hsplit, hs, hlength⟩
  have hnonempty : content = [] → ¬snapshot.pageEnd budget (snapshot.requestedRange range) <
      (snapshot.requestedRange range).endByte := by
    intro hnil hlt
    rw [hnil, byteLen_nil, Nat.add_zero, hs] at hlength
    exact hstall ⟨hlength.symm, hlt⟩
  refine ⟨⟨hslice, ?_, ?_, rfl, ?_⟩, rfl, rfl, ?_, ?_⟩
  · intro n hn
    subst hn
    have hwithin := hroom n (pageBudget_some hbudget)
    change byteLen content ≤ n
    omega
  · intro hnil
    have hnot := hnonempty hnil
    change content = [] at hnil
    rw [hnil, byteLen_nil, Nat.add_zero, hs] at hlength
    change (snapshot.requestedRange range).startByte = (snapshot.requestedRange range).endByte
    omega
  · intro hnext hnil
    apply hnext
    exact if_neg (hnonempty hnil)
  · intro hnext
    change (if snapshot.pageEnd budget (snapshot.requestedRange range) <
      (snapshot.requestedRange range).endByte then _ else _) = none at hnext
    change snapshot.pageEnd budget (snapshot.requestedRange range) =
      (snapshot.requestedRange range).endByte
    by_contra hne
    rw [if_pos (by omega)] at hnext
    contradiction
  · intro rest hnext
    change (if snapshot.pageEnd budget (snapshot.requestedRange range) <
      (snapshot.requestedRange range).endByte then _ else _) = some rest at hnext
    by_cases hlt : snapshot.pageEnd budget (snapshot.requestedRange range) <
        (snapshot.requestedRange range).endByte
    · rw [if_pos hlt, Option.some.injEq] at hnext
      subst hnext
      exact ⟨rfl, validateRange_ok.mpr
        ⟨Nat.le_of_lt hlt, hboundary, (validateRange_ok.mp hvalid).2.2⟩⟩
    · rw [if_neg hlt] at hnext
      contradiction

/-- The pages of a chain are faithful and tile the range, so their contents make it up. -/
theorem Follows.spec (hrevision : validateRevision snapshot.sourceRevision = .ok ())
    {pages : List SourcePage} (h : Follows snapshot path maxBytes range pages) :
    (∀ page ∈ pages, Faithful snapshot maxBytes page) ∧
      Tiles (snapshot.requestedRange range).startByte (snapshot.requestedRange range).endByte
        pages ∧
      sliceAt snapshot.content (snapshot.requestedRange range).startByte
        (snapshot.requestedRange range).endByte = some (pages.map SourcePage.content).flatten := by
  induction h with
  | @last range page hpage hnone =>
      rcases page_spec hrevision hpage with ⟨hfaithful, -, hstart, hend, -⟩
      have hshown := hfaithful.shown
      rw [hstart, hend hnone] at hshown
      refine ⟨?_, ⟨hstart, hend hnone⟩, ?_⟩
      · intro other hother
        rw [List.mem_singleton.mp hother]
        exact hfaithful
      · rw [List.map_singleton, List.flatten_cons, List.flatten_nil, List.append_nil]
        exact hshown
  | @next range page rest pages hpage hnext _ ih =>
      rcases page_spec hrevision hpage with ⟨hfaithful, -, hstart, -, hrest⟩
      rcases hrest rest hnext with ⟨rfl, -⟩
      rcases ih with ⟨hall, htiles, hcontent⟩
      have hshown := hfaithful.shown
      rw [hstart] at hshown
      refine ⟨List.forall_mem_cons.mpr ⟨hfaithful, hall⟩, ⟨hstart, htiles⟩, ?_⟩
      rw [List.map_cons, List.flatten_cons]
      exact sliceAt_trans hshown hcontent

/-- A client asks for pages that admit the widest character. -/
def Wide (maxBytes : Option ℕ) : Prop :=
  ∀ n, maxBytes = some n → 4 ≤ n ∧ n ≤ maxPageBytes

theorem pageBudget_wide (hwide : Wide maxBytes) :
    ∃ budget, pageBudget range maxBytes = .ok budget ∧ ∀ n, budget = some n → 4 ≤ n := by
  cases maxBytes with
  | none =>
      refine ⟨_, rfl, ?_⟩
      intro n hn
      cases range with
      | none => contradiction
      | some range =>
          rw [← Option.some.inj hn]
          decide
  | some m =>
      have hlimit := hwide m rfl
      refine ⟨some m, ?_, ?_⟩
      · rw [pageBudget, validateLimit, if_neg (by omega)]
        rfl
      · intro n hn
        rw [← Option.some.inj hn]
        exact hlimit.1

/-- Each page of a wide budget shortens what is left, so a chain ends. -/
theorem exists_follows (hrevision : validateRevision snapshot.sourceRevision = .ok ())
    (hwide : Wide maxBytes) (hvalid : snapshot.validateRange (snapshot.requestedRange range) =
      .ok ()) :
    ∃ pages, Follows snapshot path maxBytes range pages := by
  generalize hleft : (snapshot.requestedRange range).endByte -
    (snapshot.requestedRange range).startByte = left
  induction left using Nat.strong_induction_on generalizing range with
  | _ left ih =>
      rcases @pageBudget_wide range maxBytes hwide with ⟨budget, hbudget, hfour⟩
      rcases pageEnd_spec hvalid budget with ⟨hboundary, hle, hend, -, hprogress⟩
      rcases exists_parts hle (validateRange_ok.mp hvalid).2.1 hboundary with
        ⟨s, content, tail, hsplit, hs, hmid⟩
      have hslice := sliceAt_eq_some.mpr ⟨s, tail, hsplit, hs, hmid⟩
      have hstall : ¬(snapshot.pageEnd budget (snapshot.requestedRange range) =
          (snapshot.requestedRange range).startByte ∧
          snapshot.pageEnd budget (snapshot.requestedRange range) <
            (snapshot.requestedRange range).endByte) := by
        intro h
        have hlt := hprogress hfour (h.1 ▸ h.2)
        omega
      have hpage := (@page_ok snapshot path range maxBytes hrevision _).mpr
        ⟨budget, hvalid, hbudget, hstall, content, hslice, rfl⟩
      by_cases hlt : snapshot.pageEnd budget (snapshot.requestedRange range) <
          (snapshot.requestedRange range).endByte
      · have hnext : (snapshot.cutPage (snapshot.requestedRange range)
            (snapshot.pageEnd budget (snapshot.requestedRange range)) content).nextRange =
              some ⟨snapshot.pageEnd budget (snapshot.requestedRange range),
                (snapshot.requestedRange range).endByte⟩ := if_pos hlt
        have hgo := hprogress hfour (by omega)
        have hrest := ((page_spec hrevision hpage).2.2.2.2 _ hnext).2
        have hshorter : (snapshot.requestedRange range).endByte -
            snapshot.pageEnd budget (snapshot.requestedRange range) < left := by
          omega
        rcases @ih _ hshorter (some _) hrest rfl with ⟨pages, hpages⟩
        exact ⟨_, Follows.next hpage hnext hpages⟩
      · exact ⟨_, Follows.last hpage (if_neg hlt)⟩

/-- Following the continuations from a valid range ends when every character fits, and gives the
bytes of the range in pages that lie one behind the other; a page with a continuation has
content. -/
theorem pages_reconstruct (sha256 : List UInt8 → Hash) (content : Text)
    (content_le : byteLen content ≤ usizeMax) (path : Text) (range : Option SourceRange)
    (maxBytes : Option ℕ)
    (hvalid : (new sha256 content content_le).validateRange
      ((new sha256 content content_le).requestedRange range) = .ok ()) :
    (∀ pages, Follows (new sha256 content content_le) path maxBytes range pages →
      (∀ page ∈ pages, Faithful (new sha256 content content_le) maxBytes page) ∧
      Tiles ((new sha256 content content_le).requestedRange range).startByte
        ((new sha256 content content_le).requestedRange range).endByte pages ∧
      sliceAt content ((new sha256 content content_le).requestedRange range).startByte
        ((new sha256 content content_le).requestedRange range).endByte =
          some (pages.map SourcePage.content).flatten) ∧
    (Wide maxBytes → ∃ pages, Follows (new sha256 content content_le) path maxBytes range pages) ∧
    ∀ range' result, (new sha256 content content_le).page path
        (some (new sha256 content content_le).sourceRevision) range' maxBytes = .ok result →
      ∃ page, result = some page ∧ (page.nextRange ≠ none → page.content ≠ []) := by
  have hrevision : validateRevision (new sha256 content content_le).sourceRevision = .ok () :=
    validateRevision_sourceRevision sha256 content
  refine ⟨fun pages h => h.spec hrevision, fun hwide => exists_follows hrevision hwide hvalid, ?_⟩
  intro range' result hpage
  rcases (page_ok hrevision).mp hpage with ⟨budget, -, -, -, part, -, heq⟩
  rw [heq] at hpage ⊢
  exact ⟨_, rfl, (page_spec hrevision hpage).1.progress⟩

/-- Two characters in pages of four bytes. -/
theorem pages_reconstruct_emoji :
    ∃ pages, Follows (new (fun _ => .replicate 32 0) "a😀".toList (by decide)) "n.md".toList
      (some 4) none pages ∧ (pages.map SourcePage.content).flatten = "a😀".toList := by
  have hboth := pages_reconstruct (fun _ => .replicate 32 0) "a😀".toList (by decide) "n.md".toList
    none (some 4) (by decide)
  have hwide : Wide (some 4) := by
    intro n hn
    rw [← Option.some.inj hn]
    decide
  rcases hboth.2.1 hwide with ⟨pages, hpages⟩
  have hslice := (hboth.1 pages hpages).2.2
  have hwhole : sliceAt "a😀".toList 0 5 = some "a😀".toList := by decide
  exact ⟨pages, hpages, Option.some.inj (hslice.symm.trans hwhole)⟩

end SourceSnapshot

end ObsidianMcp
