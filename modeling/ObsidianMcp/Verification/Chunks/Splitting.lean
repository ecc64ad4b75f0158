import ObsidianMcp.Library.Outcomes
import ObsidianMcp.Model.EmbeddingChunks

/-! # The search for the end of a chunk

The search shrinks until something fits and then grows while it fits. It ends at a character
boundary that fits, whatever the counter says. -/

namespace ObsidianMcp.Chunks

open Text

/-- The failure is an error that the caller gets. -/
def Failure.Reported (failure : Failure) : Prop :=
  ∃ error, failure = .error error

/-- The range can be cut out of a text. -/
structure Valid (raw : Text) (range : SourceRange) : Prop where
  le : range.startByte ≤ range.endByte
  start_boundary : isCharBoundary raw range.startByte = true
  end_boundary : isCharBoundary raw range.endByte = true

variable {p : Preparation} {used : ℕ} {lead raw : Text} {overlap : Option SourceRange}
  {start stop sectionEnd : ℕ} {range : SourceRange}

theorem sliceOf_ok (h : Valid raw ⟨start, stop⟩) :
    sliceOf raw start stop = .ok (slice raw start stop) := by
  rw [sliceOf, sliceAt_of_boundaries h.le h.start_boundary h.end_boundary]
  rfl

/-- The next boundary comes no later than any other boundary behind the start. -/
theorem nextBoundary_spec (hstart : isCharBoundary raw start = true)
    (hstop : isCharBoundary raw stop = true) (hlt : start < stop) :
    ∃ next, nextBoundary raw start = .ok next ∧ start < next ∧ next ≤ stop ∧
      isCharBoundary raw next = true := by
  obtain ⟨s, middle, rest, rfl, rfl, hstop⟩ := exists_parts hlt.le hstart hstop
  cases middle with
  | nil => simp at hstop; omega
  | cons c middle =>
      have hsize := c.utf8Size_pos
      have hslice : sliceOf (s ++ (c :: middle) ++ rest) (byteLen s)
          (byteLen (s ++ (c :: middle) ++ rest)) = .ok ((c :: middle) ++ rest) := by
        have h := sliceAt_append s ((c :: middle) ++ rest) []
        rw [List.append_nil, ← List.append_assoc, ← byteLen_append, ← List.append_assoc] at h
        rw [sliceOf, h]
        rfl
      refine ⟨byteLen s + c.utf8Size, ?_, by omega, ?_, ?_⟩
      · rw [nextBoundary, hslice]
        rfl
      · rw [byteLen_cons] at hstop
        omega
      · have h := isCharBoundary_append (s ++ [c]) (middle ++ rest)
        simpa [byteLen_append] using h

/-! ## Composed texts -/

namespace Preparation

theorem checkLimit_ends (resource : Text) (actual limit : ℕ) :
    Ends (checkLimit resource actual limit) (fun _ => actual ≤ limit) Failure.Reported := by
  rw [checkLimit]
  split_ifs with h
  · exact ⟨_, rfl⟩
  · exact not_lt.mp h

theorem check_ends (p : Preparation) (used bytes : ℕ) :
    Ends (p.check used bytes) (fun _ => saturatingAdd used bytes ≤ p.limit) Failure.Reported :=
  checkLimit_ends _ _ _

theorem counted_ends (text : Text) :
    Ends (p.counted text) (fun n => p.count text = .ok n) Failure.Reported := by
  rw [counted]
  cases hcount : p.count text with
  | ok n => rfl
  | error error => exact ⟨error, rfl⟩

/-- The text that a range is embedded with. -/
def composed (lead raw : Text) (overlap : Option SourceRange) (range : SourceRange) : Text :=
  lead ++ (overlap.map fun overlap => slice raw overlap.startByte overlap.endByte ++ ['\n']).getD [] ++
    slice raw range.startByte range.endByte

theorem compose_ends (hoverlap : ∀ o, overlap = some o → Valid raw o) (hrange : Valid raw range) :
    Ends (p.compose used lead raw overlap range)
      (fun text => text.value = composed lead raw overlap range) Failure.Reported := by
  unfold compose
  refine (check_ends _ _ _).bind fun _ _ _ => ?_
  have hslice := sliceOf_ok hrange
  cases overlap with
  | none =>
      change Ends (sliceOf raw range.startByte range.endByte >>= _) _ _
      rw [hslice]
      rfl
  | some o =>
      change Ends ((sliceOf raw o.startByte o.endByte).map _ >>= _) _ _
      rw [sliceOf_ok (hoverlap o rfl)]
      change Ends (sliceOf raw range.startByte range.endByte >>= _) _ _
      rw [hslice]
      rfl

theorem tokens_ends (hoverlap : ∀ o, overlap = some o → Valid raw o) (hrange : Valid raw range) :
    Ends (p.tokens used lead raw overlap range)
      (fun n => p.count (composed lead raw overlap range) = .ok n) Failure.Reported := by
  refine (compose_ends hoverlap hrange).bind fun text _ htext => ?_
  rw [← htext]
  exact counted_ends text.value

/-- The text of a range has been counted and fits. -/
def Fits (p : Preparation) (used : ℕ) (lead raw : Text) (overlap : Option SourceRange)
    (range : SourceRange) : Prop :=
  ∃ n, p.tokens used lead raw overlap range = .ok n ∧ n ≤ p.maxTokens

theorem fits_ends (hoverlap : ∀ o, overlap = some o → Valid raw o) (hrange : Valid raw range) :
    Ends (p.fits used lead raw overlap range)
      (fun fits => fits = true → p.Fits used lead raw overlap range) Failure.Reported := by
  refine (tokens_ends hoverlap hrange).bind fun n hn _ => ?_
  intro hfits
  exact ⟨n, hn, of_decide_eq_true hfits⟩

/-! ## The probes -/

/-- What a search has to find. -/
structure EndOf (p : Preparation) (used : ℕ) (lead raw : Text) (overlap : Option SourceRange)
    (start sectionEnd stop : ℕ) : Prop where
  start_lt : start < stop
  le_end : stop ≤ sectionEnd
  boundary : isCharBoundary raw stop = true
  fits : p.Fits used lead raw overlap ⟨start, stop⟩

theorem probeFrom_ends (hoverlap : ∀ o, overlap = some o → Valid raw o)
    (hstart : isCharBoundary raw start = true) {chars : Text} {offset : ℕ} (probes minimum : ℕ)
    (hle : start ≤ offset) (hend : offset + byteLen chars = sectionEnd)
    (hchars : ∃ s rest, raw = s ++ chars ++ rest ∧ byteLen s = offset) :
    Ends (p.probeFrom used lead raw overlap start chars offset probes minimum)
      (p.EndOf used lead raw overlap start sectionEnd) Failure.Reported := by
  induction chars generalizing offset probes minimum with
  | nil => exact ⟨_, rfl⟩
  | cons c chars ih =>
      obtain ⟨s, rest, hraw, hs⟩ := hchars
      have hsize := c.utf8Size_pos
      rw [byteLen_cons] at hend
      have hboundary : isCharBoundary raw (offset + c.utf8Size) = true := by
        have h := isCharBoundary_append (s ++ [c]) (chars ++ rest)
        rw [hraw, ← hs]
        simpa [byteLen_append] using h
      have hvalid : Valid raw ⟨start, offset + c.utf8Size⟩ :=
        ⟨Nat.le_add_right_of_le hle, hstart, hboundary⟩
      rw [probeFrom]
      by_cases hprobes : probes = maxSplitProbes
      · rw [if_pos hprobes]
        exact ⟨_, rfl⟩
      · rw [if_neg hprobes]
        refine (tokens_ends hoverlap hvalid).bind fun n hn _ => ?_
        by_cases hfits : n ≤ p.maxTokens
        · rw [if_pos hfits]
          exact ⟨by omega, by omega, hboundary, n, hn, hfits⟩
        · rw [if_neg hfits]
          refine ih (probes + 1) (min minimum n) (by omega) (by omega) ⟨s ++ [c], rest, ?_, ?_⟩
          · simp [hraw]
          · simp [byteLen_append, hs]

/-- Probing ends at a fitting boundary or with an error. -/
theorem probeAdvancingPrefix_ends (hoverlap : ∀ o, overlap = some o → Valid raw o)
    (hrange : Valid raw ⟨start, sectionEnd⟩) :
    Ends (p.probeAdvancingPrefix used lead raw overlap start sectionEnd)
      (p.EndOf used lead raw overlap start sectionEnd) Failure.Reported := by
  obtain ⟨s, middle, rest, hraw, hs, hend⟩ :=
    exists_parts hrange.le hrange.start_boundary hrange.end_boundary
  dsimp only at hs hend
  have hslice : sliceOf raw start sectionEnd = .ok middle := by
    rw [sliceOf, hraw, ← hs, ← hend, sliceAt_append]
    rfl
  rw [probeAdvancingPrefix, hslice]
  exact probeFrom_ends hoverlap hrange.start_boundary 0 usizeMax le_rfl (by omega)
    ⟨s, rest, hraw, hs⟩

/-! ## The rounds -/

/-- What holds between two rounds. The ends shrink towards the first one until one fits, and from
then on they grow towards the end of the section. -/
structure Fitting.Sound (p : Preparation) (used : ℕ) (lead raw : Text) (overlap : Option SourceRange)
    (start sectionEnd firstEnd : ℕ) (fitting : Fitting) : Prop where
  boundary : isCharBoundary raw fitting.stop = true
  first_le : firstEnd ≤ fitting.stop
  le_end : fitting.stop ≤ sectionEnd
  known : ∀ stop, fitting.knownFit = some stop →
    p.EndOf used lead raw overlap start sectionEnd stop

/-- The bytes that a phase of the search has left; the growing phase comes second. -/
def Fitting.measure (start sectionEnd firstEnd : ℕ) (fitting : Fitting) : ℕ :=
  match fitting.knownFit with
  | none => (sectionEnd - start) + 1 + (fitting.stop - firstEnd)
  | some _ => sectionEnd - fitting.stop

variable {firstEnd : ℕ} {fitting : Fitting} {probe : Except Failure ℕ}

/-- A round finds an end or comes closer to it. -/
theorem fittingRound_ends (hoverlap : ∀ o, overlap = some o → Valid raw o)
    (hrange : Valid raw ⟨start, sectionEnd⟩) (hfirst : start < firstEnd)
    (hboundary : isCharBoundary raw firstEnd = true)
    (hprobe : Ends probe (p.EndOf used lead raw overlap start sectionEnd) Failure.Reported)
    (h : fitting.Sound p used lead raw overlap start sectionEnd firstEnd) :
    Ends (p.fittingRound used lead raw overlap start sectionEnd probe firstEnd fitting)
      (Sum.elim
        (fun next => next.Sound p used lead raw overlap start sectionEnd firstEnd ∧
          next.measure start sectionEnd firstEnd < fitting.measure start sectionEnd firstEnd)
        (p.EndOf used lead raw overlap start sectionEnd)) Failure.Reported := by
  have hfirst_le := h.first_le
  have hle_end := h.le_end
  have hvalid : Valid raw ⟨start, fitting.stop⟩ :=
    ⟨hfirst.le.trans hfirst_le, hrange.start_boundary, h.boundary⟩
  unfold fittingRound
  refine (tokens_ends hoverlap hvalid).bind fun n hn _ => ?_
  by_cases hfits : n ≤ p.maxTokens
  · have hend : p.EndOf used lead raw overlap start sectionEnd fitting.stop :=
      ⟨hfirst.trans_le hfirst_le, hle_end, h.boundary, n, hn, hfits⟩
    rw [if_pos hfits]
    by_cases hlast : fitting.stop = sectionEnd
    · rw [if_pos hlast]
      exact hend
    · -- grow to twice the bytes, and by one character at least
      obtain ⟨next, hnext, hlt, hle, hnextBoundary⟩ :=
        nextBoundary_spec h.boundary hrange.end_boundary (show fitting.stop < sectionEnd by omega)
      have hfloor := floorCharBoundary_le raw
        (min (saturatingAdd start (saturatingMul (fitting.stop - start) 2)) sectionEnd)
      have hfloorBoundary := isCharBoundary_floor raw
        (min (saturatingAdd start (saturatingMul (fitting.stop - start) 2)) sectionEnd)
      rw [if_neg hlast, hnext]
      refine ⟨⟨?_, ?_, ?_, ?_⟩, ?_⟩
      · obtain hmax | hmax := max_choice (floorCharBoundary raw
          (min (saturatingAdd start (saturatingMul (fitting.stop - start) 2)) sectionEnd)) next
        · exact (congrArg _ hmax).trans hfloorBoundary
        · exact (congrArg _ hmax).trans hnextBoundary
      · exact hfirst_le.trans (hlt.le.trans (le_max_right _ _))
      · exact max_le (hfloor.trans (min_le_right _ _)) hle
      · intro stop hstop
        obtain rfl := Option.some.inj hstop
        exact hend
      · have hmax := le_max_right (floorCharBoundary raw
          (min (saturatingAdd start (saturatingMul (fitting.stop - start) 2)) sectionEnd)) next
        unfold Fitting.measure
        cases fitting.knownFit <;> simp only <;> omega
  · rw [if_neg hfits]
    cases hknown : fitting.knownFit with
    | some stop => exact h.known stop hknown
    | none =>
        simp only
        by_cases hlast : fitting.stop = firstEnd
        · rw [if_pos hlast]
          exact hprobe.bind fun stop _ hstop => hstop
        · -- shrink to half the bytes
          have hfloor := floorCharBoundary_le raw (start + (fitting.stop - start) / 2)
          have hfloorBoundary := isCharBoundary_floor raw (start + (fitting.stop - start) / 2)
          rw [if_neg hlast]
          refine ⟨⟨?_, le_max_right _ _, ?_, ?_⟩, ?_⟩
          · obtain hmax | hmax := max_choice
              (floorCharBoundary raw (start + (fitting.stop - start) / 2)) firstEnd
            · exact (congrArg _ hmax).trans hfloorBoundary
            · exact (congrArg _ hmax).trans hboundary
          · exact max_le (by omega) (hfirst_le.trans hle_end)
          · intro stop hstop
            contradiction
          · unfold Fitting.measure
            rw [hknown]
            simp only
            omega

/-- With fuel for the bytes that are left, the rounds find an end. -/
theorem fittingRounds_ends (hoverlap : ∀ o, overlap = some o → Valid raw o)
    (hrange : Valid raw ⟨start, sectionEnd⟩) (hfirst : start < firstEnd)
    (hboundary : isCharBoundary raw firstEnd = true)
    (hprobe : Ends probe (p.EndOf used lead raw overlap start sectionEnd) Failure.Reported)
    {fuel : ℕ} (h : fitting.Sound p used lead raw overlap start sectionEnd firstEnd)
    (hfuel : fitting.measure start sectionEnd firstEnd < fuel) :
    Ends (p.fittingRounds used lead raw overlap start sectionEnd probe firstEnd fuel fitting)
      (p.EndOf used lead raw overlap start sectionEnd) Failure.Reported := by
  induction fuel generalizing fitting with
  | zero => omega
  | succ fuel ih =>
      rw [fittingRounds]
      refine (fittingRound_ends hoverlap hrange hfirst hboundary hprobe h).bind fun next _ hnext => ?_
      cases next with
      | inl next =>
          obtain ⟨hsound, hless⟩ := hnext
          exact ih hsound (by omega)
      | inr stop => exact hnext

/-- The search ends at a fitting boundary or with an error. -/
theorem fittingEndWith_ends (hoverlap : ∀ o, overlap = some o → Valid raw o)
    (hrange : Valid raw ⟨start, sectionEnd⟩) (hlt : start < sectionEnd)
    (hprobe : Ends probe (p.EndOf used lead raw overlap start sectionEnd) Failure.Reported) :
    Ends (p.fittingEndWith used lead raw overlap start sectionEnd probe)
      (p.EndOf used lead raw overlap start sectionEnd) Failure.Reported := by
  obtain ⟨first, hfirst, hafter, hle, hboundary⟩ :=
    nextBoundary_spec hrange.start_boundary hrange.end_boundary hlt
  dsimp only at hafter hle
  have hfloor := floorCharBoundary_le raw
    (min (saturatingAdd start (max (saturatingMul p.maxTokens 4) 4)) sectionEnd)
  have hfloorBoundary := isCharBoundary_floor raw
    (min (saturatingAdd start (max (saturatingMul p.maxTokens 4) 4)) sectionEnd)
  unfold fittingEndWith
  rw [hfirst]
  refine fittingRounds_ends hoverlap hrange hafter hboundary hprobe
    ⟨?_, le_max_right _ _, max_le (hfloor.trans (min_le_right _ _)) hle, ?_⟩ ?_
  · obtain hmax | hmax := max_choice (floorCharBoundary raw
      (min (saturatingAdd start (max (saturatingMul p.maxTokens 4) 4)) sectionEnd)) first
    · exact (congrArg _ hmax).trans hfloorBoundary
    · exact (congrArg _ hmax).trans hboundary
  · intro stop hstop
    contradiction
  · unfold Fitting.measure
    simp only
    omega

theorem fittingEnd_ends (hoverlap : ∀ o, overlap = some o → Valid raw o)
    (hrange : Valid raw ⟨start, sectionEnd⟩) (hlt : start < sectionEnd) :
    Ends (p.fittingEnd used lead raw overlap start sectionEnd)
      (p.EndOf used lead raw overlap start sectionEnd) Failure.Reported :=
  fittingEndWith_ends hoverlap hrange hlt (probeAdvancingPrefix_ends hoverlap hrange)

/-! ## Without probes -/

/-- Where the first character fits, a round does not probe. -/
theorem fittingRound_congr (hfits : p.Fits used lead raw overlap ⟨start, firstEnd⟩)
    (probe probe' : Except Failure ℕ) (fitting : Fitting) :
    p.fittingRound used lead raw overlap start sectionEnd probe firstEnd fitting =
      p.fittingRound used lead raw overlap start sectionEnd probe' firstEnd fitting := by
  unfold fittingRound
  by_cases hlast : fitting.stop = firstEnd
  · obtain ⟨n, hn, hle⟩ := hfits
    rw [hlast, hn]
    change (if n ≤ p.maxTokens then _ else _) = (if n ≤ p.maxTokens then _ else _)
    rw [if_pos hle, if_pos hle]
  · simp only [if_neg hlast]

theorem fittingEndWith_congr (hfirst : nextBoundary raw start = .ok firstEnd)
    (hfits : p.Fits used lead raw overlap ⟨start, firstEnd⟩) (probe probe' : Except Failure ℕ) :
    p.fittingEndWith used lead raw overlap start sectionEnd probe =
      p.fittingEndWith used lead raw overlap start sectionEnd probe' := by
  have hrounds : ∀ fuel fitting,
      p.fittingRounds used lead raw overlap start sectionEnd probe firstEnd fuel fitting =
        p.fittingRounds used lead raw overlap start sectionEnd probe' firstEnd fuel fitting := by
    intro fuel
    induction fuel with
    | zero => exact fun _ => rfl
    | succ fuel ih =>
        intro fitting
        rw [fittingRounds, fittingRounds, fittingRound_congr hfits probe probe' fitting]
        simp only [ih]
  unfold fittingEndWith
  rw [hfirst]
  exact hrounds _ _

/-! ## Overlaps -/

/-- What an overlap has to be: text of the section and of a block, right in front of the chunk and
short, with which the first character fits. -/
structure OverlapOf (p : Preparation) (used : ℕ) (lead raw : Text) (start earliest firstEnd : ℕ)
    (overlap : SourceRange) : Prop where
  valid : Valid raw overlap
  start_lt : overlap.startByte < start
  end_eq : overlap.endByte = start
  earliest_le : earliest ≤ overlap.startByte
  short : ∃ n, p.count (slice raw overlap.startByte start) = .ok n ∧ n ≤ overlapTokens
  fits : p.Fits used lead raw (some overlap) ⟨start, firstEnd⟩

/-- The search for an overlap comes closer to the start until it finds one or gives up. -/
theorem overlapRounds_ends (hstart : isCharBoundary raw start = true)
    (hfirst : Valid raw ⟨start, firstEnd⟩) {earliest overlapStart fuel : ℕ}
    (hboundary : isCharBoundary raw overlapStart = true) (hle : overlapStart ≤ start)
    (hearliest : earliest ≤ overlapStart) (hfuel : start - overlapStart < fuel) :
    Ends (p.overlapRounds used lead raw start firstEnd fuel overlapStart)
      (fun overlap => ∀ o, overlap = some o → p.OverlapOf used lead raw start earliest firstEnd o)
      Failure.Reported := by
  induction fuel generalizing overlapStart with
  | zero => omega
  | succ fuel ih =>
      rw [overlapRounds]
      by_cases hstop : start ≤ overlapStart
      · rw [if_pos hstop]
        intro o ho
        contradiction
      · have hvalid : Valid raw ⟨overlapStart, start⟩ := ⟨hle, hboundary, hstart⟩
        have hstartLe := le_byteLen_of_isCharBoundary hstart
        have hceil := isCharBoundary_ceil raw (overlapStart + (start - overlapStart + 1) / 2)
        have hceilLe : ceilCharBoundary raw (overlapStart + (start - overlapStart + 1) / 2) ≤ start :=
          ceilCharBoundary_le hstart (by omega)
        have hceilGe := @le_ceilCharBoundary raw (overlapStart + (start - overlapStart + 1) / 2)
          (by omega)
        have hnext := ih hceil hceilLe (by omega) (by omega)
        rw [if_neg hstop, sliceOf_ok hvalid]
        refine (counted_ends (slice raw overlapStart start)).bind fun n _ hn => ?_
        by_cases hshort : n ≤ overlapTokens
        · rw [if_pos hshort]
          refine (fits_ends ?_ hfirst).bind fun fits _ hfits => ?_
          · rintro o ⟨⟩
            exact hvalid
          · cases fits with
            | false => exact hnext
            | true =>
                rintro o ⟨⟩
                exact ⟨hvalid, not_le.mp hstop, rfl, hearliest, ⟨n, hn, hshort⟩, hfits rfl⟩
        · rw [if_neg hshort]
          exact hnext

/-- An overlap is found in a block that starts before the chunk. -/
theorem precedingOverlap_ends {part : Section} {block : Option MarkdownBlock}
    (hrange : Valid raw ⟨start, sectionEnd⟩) (hlt : start < sectionEnd) :
    Ends (p.precedingOverlap used lead raw start part block)
      (fun overlap => ∀ o, overlap = some o → ∃ b firstEnd, block = some b ∧
        nextBoundary raw start = .ok firstEnd ∧
        p.OverlapOf used lead raw start (max b.start part.range.startByte) firstEnd o)
      Failure.Reported := by
  unfold precedingOverlap
  cases hblock : block.filter fun block => part.range.startByte < start && block.start < start with
  | none =>
      intro o ho
      contradiction
  | some b =>
      obtain ⟨rfl, hbefore⟩ := Option.filter_eq_some_iff.mp hblock
      simp only [Bool.and_eq_true, decide_eq_true_eq] at hbefore
      obtain ⟨first, hfirst, hafter, hle, hboundary⟩ :=
        nextBoundary_spec hrange.start_boundary hrange.end_boundary hlt
      have hstartLe := le_byteLen_of_isCharBoundary hrange.start_boundary
      dsimp only at hafter hle hstartLe
      have hfrom : max (max (start - overlapTokens * 8) b.start) part.range.startByte ≤ start :=
        max_le (max_le (Nat.sub_le _ _) hbefore.2.le) hbefore.1.le
      have hceil := isCharBoundary_ceil raw
        (max (max (start - overlapTokens * 8) b.start) part.range.startByte)
      have hceilLe := ceilCharBoundary_le hrange.start_boundary hfrom
      have hceilGe := @le_ceilCharBoundary raw _ (hfrom.trans hstartLe)
      simp only [hfirst]
      have hearliest : max b.start part.range.startByte ≤ ceilCharBoundary raw
          (max (max (start - overlapTokens * 8) b.start) part.range.startByte) :=
        (max_le_max (le_max_right _ _) le_rfl).trans hceilGe
      refine (overlapRounds_ends hrange.start_boundary
        ⟨hafter.le, hrange.start_boundary, hboundary⟩ hceil hceilLe hearliest
        (Nat.lt_succ_of_le (Nat.sub_le _ _))).imp ?_ (fun _ h => h)
      intro overlap hoverlap o ho
      exact ⟨b, first, rfl, rfl, hoverlap o ho⟩

/-! ## Cuts -/

/-- A cut that lies behind the start is a boundary. -/
def CutOf (raw : Text) (start cut : ℕ) : Prop :=
  start < cut → isCharBoundary raw cut = true

theorem scanCuts_cutOf {after chars : Text} {offset : ℕ} {cuts : Cuts} (hle : start ≤ offset)
    (hchars : ∃ s rest, raw = s ++ chars ++ rest ∧ byteLen s = offset)
    (hcuts : CutOf raw start cuts.sentence ∧ CutOf raw start cuts.line ∧ CutOf raw start cuts.word) :
    CutOf raw start (scanCuts after chars offset cuts).sentence ∧
      CutOf raw start (scanCuts after chars offset cuts).line ∧
      CutOf raw start (scanCuts after chars offset cuts).word := by
  induction chars generalizing offset cuts with
  | nil => exact hcuts
  | cons c chars ih =>
      obtain ⟨s, rest, hraw, hs⟩ := hchars
      obtain ⟨hsentence, hline, hword⟩ := hcuts
      have hsize := c.utf8Size_pos
      have hboundary : isCharBoundary raw (offset + c.utf8Size) = true := by
        have h := isCharBoundary_append (s ++ [c]) (chars ++ rest)
        rw [hraw, ← hs]
        simpa [byteLen_append] using h
      have hstop : CutOf raw start (offset + c.utf8Size) := fun _ => hboundary
      rw [scanCuts]
      refine ih (by omega) ⟨s ++ [c], rest, by simp [hraw], by simp [byteLen_append, hs]⟩
        ⟨?_, ?_, ?_⟩
      · dsimp only
        split_ifs
        · exact hstop
        · exact hsentence
      · dsimp only
        split_ifs
        · exact hstop
        · exact hline
      · dsimp only
        split_ifs
        · exact hstop
        · exact hword

/-- A chosen cut lies behind the minimum and fits. -/
theorem chooseCut_ends (hoverlap : ∀ o, overlap = some o → Valid raw o)
    (hstart : isCharBoundary raw start = true) {minimum : ℕ} (hminimum : start ≤ minimum)
    (hstop : p.EndOf used lead raw overlap start sectionEnd stop) {cuts : List ℕ}
    (hcuts : ∀ cut ∈ cuts, CutOf raw start cut) :
    Ends (p.chooseCut used lead raw overlap start minimum stop cuts)
      (p.EndOf used lead raw overlap start sectionEnd) Failure.Reported := by
  induction cuts with
  | nil => exact hstop
  | cons cut cuts ih =>
      obtain ⟨hcut, hcuts⟩ := List.forall_mem_cons.mp hcuts
      rw [chooseCut]
      by_cases hskip : cut ≤ minimum ∨ stop < cut
      · rw [if_pos hskip]
        exact ih hcuts
      · rw [if_neg hskip]
        by_cases heq : cut = stop
        · rw [if_pos heq, heq]
          exact hstop
        · have hlt : start < cut := by omega
          have hboundary := hcut hlt
          have hle := hstop.le_end
          rw [if_neg heq]
          refine (fits_ends hoverlap ⟨hlt.le, hstart, hboundary⟩).bind fun fits _ hfits => ?_
          cases fits with
          | false => exact ih hcuts
          | true => exact ⟨hlt, by omega, hboundary, hfits rfl⟩

end Preparation

/-- The blocks of a text start and end at its boundaries. -/
def BlocksValid (raw : Text) (blocks : List MarkdownBlock) : Prop :=
  ∀ block ∈ blocks, Valid raw ⟨block.start, block.stop⟩

/-- A section of a text, with its heading in front. -/
structure Section.Valid (raw : Text) (part : Section) : Prop where
  range : Chunks.Valid raw part.range
  heading : Chunks.Valid raw ⟨part.headingEnd, part.range.endByte⟩
  start_le : part.range.startByte ≤ part.headingEnd

namespace Preparation

theorem lastBlockEnd_cutOf {blocks : List MarkdownBlock} (hblocks : BlocksValid raw blocks) :
    CutOf raw start (lastBlockEnd blocks start stop) := by
  unfold lastBlockEnd
  split
  · intro hlt
    exact absurd hlt (lt_irrefl start)
  · rename_i index _
    cases hget : blocks[index]? with
    | none =>
        intro hlt
        exact absurd hlt (lt_irrefl start)
    | some block => exact fun _ => (hblocks block (List.mem_of_getElem? hget)).end_boundary

theorem minimumCut_ends {part : Section} (hpart : part.Valid raw) :
    Ends (minimumCut raw start part) (fun minimum => start ≤ minimum) Failure.Reported := by
  unfold minimumCut
  split_ifs with hfirst
  · rw [sliceOf_ok hpart.heading]
    change start ≤ if _ then _ else _
    have hle := hpart.start_le
    split_ifs
    · omega
    · exact le_rfl
  · exact le_rfl

/-- The preferred cut lies behind the start, and what is in front of it fits. -/
theorem preferredEnd_ends {part : Section} {blocks : List MarkdownBlock}
    (hoverlap : ∀ o, overlap = some o → Valid raw o) (hpart : part.Valid raw)
    (hblocks : BlocksValid raw blocks) (hstart : isCharBoundary raw start = true)
    (hstop : p.EndOf used lead raw overlap start part.range.endByte stop) :
    Ends (p.preferredEnd used lead raw overlap start part blocks stop)
      (p.EndOf used lead raw overlap start part.range.endByte) Failure.Reported := by
  unfold preferredEnd
  split_ifs with hlast
  · exact hstop
  · have hlt := hstop.start_lt
    have hbehind : Valid raw ⟨stop, byteLen raw⟩ :=
      ⟨le_byteLen_of_isCharBoundary hstop.boundary, hstop.boundary, isCharBoundary_byteLen raw⟩
    obtain ⟨s, chars, rest, hraw, hs, hend⟩ := exists_parts hlt.le hstart hstop.boundary
    have hslice : sliceOf raw start stop = .ok chars := by
      rw [sliceOf, hraw, ← hs, ← hend, sliceAt_append]
      rfl
    have hself : CutOf raw start start := fun h => absurd h (lt_irrefl start)
    obtain ⟨hsentence, hline, hword⟩ := @scanCuts_cutOf raw start (slice raw stop (byteLen raw))
      chars start ⟨start, start, start⟩ le_rfl ⟨s, rest, hraw, hs⟩ ⟨hself, hself, hself⟩
    rw [hslice]
    change Ends (sliceOf raw stop (byteLen raw) >>= _) _ _
    rw [sliceOf_ok hbehind]
    refine (minimumCut_ends hpart).bind fun minimum _ hminimum => ?_
    refine chooseCut_ends hoverlap hstart hminimum hstop ?_
    simp only [List.mem_cons, List.not_mem_nil, or_false, forall_eq_or_imp, forall_eq]
    exact ⟨lastBlockEnd_cutOf hblocks, hsentence, hline, hword⟩

end Preparation

end ObsidianMcp.Chunks
