import ObsidianMcp.Model.SemanticResults
import ObsidianMcp.Verification.Source.Pages

/-! # Rendered evidence

What is shown of a note comes from the revision that was scored, and a preview is a part of the
evidence around the first match. -/

namespace ObsidianMcp

open Text

/-! ## Characters and bytes -/

theorem byteLen_take_le (text : Text) {m n : ℕ} (h : m ≤ n) :
    byteLen (text.take m) ≤ byteLen (text.take n) := by
  have hsplit : text.take n = text.take m ++ (text.take n).drop m := by
    have htake : (text.take n).take m = text.take m := by rw [List.take_take, Nat.min_eq_left h]
    rw [← htake, List.take_append_drop]
  rw [hsplit, byteLen_append]
  exact Nat.le_add_right _ _

theorem byteLen_take_lt {text : Text} {m n : ℕ} (h : m < n) (hm : m < text.length) :
    byteLen (text.take m) < byteLen (text.take n) := by
  have hnext : text.take (m + 1) = text.take m ++ [text[m]] := (List.take_append_getElem hm).symm
  have hle := byteLen_take_le text (Nat.succ_le_of_lt h)
  have hpos := Char.utf8Size_pos text[m]
  rw [hnext, byteLen_append, byteLen_cons, byteLen_nil] at hle
  omega

/-- The offset of a character, or the end of the text. -/
theorem charIndicesNth_getD (text : Text) (n : ℕ) :
    (charIndicesNth text n).getD (byteLen text) = byteLen (text.take n) := by
  rw [charIndicesNth]
  split_ifs with h
  · rfl
  · rw [List.take_of_length_le (Nat.le_of_not_lt h)]
    rfl

theorem charIndicesNth_map_getD {text : Text} {start stop : ℕ}
    (h : start + byteLen text = stop) (n : ℕ) :
    ((charIndicesNth text n).map (start + ·)).getD stop = start + byteLen (text.take n) := by
  rw [charIndicesNth]
  split_ifs with hn
  · rfl
  · rw [List.take_of_length_le (Nat.le_of_not_lt hn)]
    exact h.symm

/-! ## The preview -/

/-- The character at which the first match of a text starts. -/
def matchChar (regexes : RegexEngine) (query text : Text) : ℕ :=
  (((compileQueryWordRegex regexes query).bind fun regex => regex.find text).map fun position =>
    (takeBytes position text).length).getD 0

/-- The first character of a preview. -/
def previewChar (regexes : RegexEngine) (query text : Text) : ℕ :=
  matchChar regexes query text - maxPreviewChars / 2

/-- The characters before the first match. -/
theorem count_before_match (regexes : RegexEngine) (query text : Text) :
    charsBefore text ((compileQueryWordRegex regexes query).bind fun regex => regex.find text) =
      some (matchChar regexes query text) := by
  rw [matchChar]
  cases hfound : (compileQueryWordRegex regexes query).bind fun regex => regex.find text with
  | none => rfl
  | some position =>
      obtain ⟨regex, -, hfind⟩ := Option.bind_eq_some_iff.mp hfound
      obtain ⟨front, rest, rfl, rfl⟩ := isCharBoundary_iff.mp (regex.boundary text position hfind)
      have hslice : sliceAt (front ++ rest) 0 (byteLen front) = some front :=
        sliceAt_eq_some.mpr ⟨[], rest, rfl, rfl, Nat.zero_add _⟩
      simp [charsBefore, hslice]

/-- The preview of an evidence text are the characters around its first match. -/
theorem previewRange_eq (regexes : RegexEngine) {raw text : Text} {evidence : SourceRange}
    (query : Text) (htext : sliceAt raw evidence.startByte evidence.endByte = some text) :
    previewRange regexes raw evidence query = some
      ⟨evidence.startByte + byteLen (text.take (previewChar regexes query text)),
        evidence.startByte + (byteLen (text.take (previewChar regexes query text)) +
          byteLen ((text.drop (previewChar regexes query text)).take maxPreviewChars))⟩ := by
  have hsplit := List.take_append_drop (previewChar regexes query text) text
  have hlength : byteLen (text.take (previewChar regexes query text)) +
      byteLen (text.drop (previewChar regexes query text)) = byteLen text := by
    rw [← byteLen_append, hsplit]
  have hrest : sliceAt text (byteLen (text.take (previewChar regexes query text)))
      (byteLen text) = some (text.drop (previewChar regexes query text)) :=
    sliceAt_eq_some.mpr ⟨_, [], by rw [List.append_nil, hsplit], rfl, hlength⟩
  have hstop := charIndicesNth_map_getD hlength maxPreviewChars
  have hchar : matchChar regexes query text - maxPreviewChars / 2 =
      previewChar regexes query text := rfl
  rw [previewRange, htext]
  simp only [Option.bind_eq_bind, Option.bind_some, count_before_match, charIndicesNth_getD, hchar,
    hrest, hstop]

/-- What a preview of an evidence range is. -/
structure PreviewOf (regexes : RegexEngine) (query raw : Text) (evidence preview : SourceRange)
    (snippet : Text) : Prop where
  inside : evidence.startByte ≤ preview.startByte ∧ preview.endByte ≤ evidence.endByte
  shown : sliceAt raw preview.startByte preview.endByte = some snippet
  short : snippet.length ≤ maxPreviewChars
  containsMatch : ∀ regex text position, compileQueryWordRegex regexes query = some regex →
    sliceAt raw evidence.startByte evidence.endByte = some text →
    regex.find text = some position →
    preview.startByte ≤ evidence.startByte + position ∧
      evidence.startByte + position ≤ preview.endByte ∧
      (position < byteLen text → evidence.startByte + position < preview.endByte)

/-- The first match is among the characters of the preview. -/
theorem match_in_preview (regexes : RegexEngine) {query text : Text} {regex : Matcher}
    {position : ℕ} (hregex : compileQueryWordRegex regexes query = some regex)
    (hfind : regex.find text = some position) :
    byteLen (text.take (previewChar regexes query text)) ≤ position ∧
      position ≤ byteLen (text.take (previewChar regexes query text + maxPreviewChars)) ∧
      (position < byteLen text →
        position < byteLen (text.take (previewChar regexes query text + maxPreviewChars))) := by
  obtain ⟨front, rest, rfl, rfl⟩ := isCharBoundary_iff.mp (regex.boundary text position hfind)
  have hchar : matchChar regexes query (front ++ rest) = front.length := by
    simp [matchChar, hregex, hfind]
  have hfront : (front ++ rest).take front.length = front := List.take_left
  rw [previewChar, hchar]
  refine ⟨?_, ?_, ?_⟩
  · have hle := byteLen_take_le (front ++ rest) (Nat.sub_le front.length (maxPreviewChars / 2))
    rwa [hfront] at hle
  · have hle := byteLen_take_le (front ++ rest)
      (show front.length ≤ front.length - maxPreviewChars / 2 + maxPreviewChars by
        simp only [maxPreviewChars]; omega)
    rwa [hfront] at hle
  · intro hbefore
    have hrest : front.length < (front ++ rest).length := by
      rw [List.length_append]
      cases rest with
      | nil => simp at hbefore
      | cons c rest => simp
    have hlt := byteLen_take_lt
      (show front.length < front.length - maxPreviewChars / 2 + maxPreviewChars by
        simp only [maxPreviewChars]; omega) hrest
    rwa [hfront] at hlt

/-- A preview of a valid range exists and is as it should be. -/
theorem previewRange_spec (regexes : RegexEngine) {raw text : Text} {evidence : SourceRange}
    (query : Text) (htext : sliceAt raw evidence.startByte evidence.endByte = some text) :
    ∃ preview snippet, previewRange regexes raw evidence query = some preview ∧
      PreviewOf regexes query raw evidence preview snippet := by
  have hsplit := List.take_append_drop (previewChar regexes query text) text
  have hparts := List.take_append_drop maxPreviewChars
    (text.drop (previewChar regexes query text))
  have htake : text.take (previewChar regexes query text + maxPreviewChars) =
      text.take (previewChar regexes query text) ++
        (text.drop (previewChar regexes query text)).take maxPreviewChars := by
    rw [List.take_add]
  obtain ⟨before, behind, hraw, hbefore, hend⟩ := sliceAt_eq_some.mp htext
  have hlength := congrArg byteLen hsplit
  have hlength' := congrArg byteLen hparts
  rw [byteLen_append] at hlength hlength'
  refine ⟨_, (text.drop (previewChar regexes query text)).take maxPreviewChars,
    previewRange_eq regexes query htext, ?_, ?_, List.length_take_le _ _, ?_⟩
  · constructor
    · exact Nat.le_add_right _ _
    · change evidence.startByte + (_ + _) ≤ evidence.endByte
      omega
  · refine sliceAt_eq_some.mpr ⟨before ++ text.take (previewChar regexes query text),
      (text.drop (previewChar regexes query text)).drop maxPreviewChars ++ behind, ?_, ?_, ?_⟩
    · rw [hraw]
      conv_lhs => rw [← hsplit, ← hparts]
      simp only [List.append_assoc]
    · rw [byteLen_append, hbefore]
    · rw [byteLen_append, hbefore, Nat.add_assoc]
  · intro regex text' position hregex htext' hfind
    obtain rfl : text = text' := Option.some.inj (htext.symm.trans htext')
    obtain ⟨hstart, hstop, hinside⟩ := match_in_preview regexes hregex hfind
    rw [htake, byteLen_append] at hstop hinside
    refine ⟨Nat.add_le_add_left hstart _, Nat.add_le_add_left hstop _, fun hlt => ?_⟩
    exact Nat.add_lt_add_left (hinside hlt) _

/-! ## Rendering -/

/-- A range that cuts a text. -/
def Cuts (content : Text) (range : SourceRange) : Prop :=
  ∃ text, sliceAt content range.startByte range.endByte = some text

/-- A source is the one that was scored, and the stored ranges are ranges of it. -/
structure Scored {Score : Type} (source : SourceSnapshot) (hit : RankedNote Score) : Prop where
  revision : source.sourceRevision = hit.entry.sourceRevision
  length : byteLen source.content = hit.entry.sourceBytes
  evidence : Cuts source.content hit.evidence.range
  nested : ∀ outer, hit.evidence.sectionRange = some outer → Cuts source.content outer ∧
    outer.startByte ≤ hit.evidence.range.startByte ∧
    hit.evidence.range.endByte ≤ outer.endByte

/-- Something of the source is shown. -/
def SemanticNoteResult.Shows {Score : Type} (result : SemanticNoteResult Score) : Prop :=
  result.content ≠ none ∨ result.snippet ≠ none ∨ result.preview ≠ none

/-- What is shown of a source. -/
structure Evident {Score : Type} (regexes : RegexEngine) (query : Text) (source : SourceSnapshot)
    (hit : RankedNote Score) (result : SemanticNoteResult Score) : Prop where
  scored : Scored source hit
  content : ∀ content, result.content = some content → content = source.content
  preview : result.snippet.isSome = result.preview.isSome
  part : ∀ preview, result.preview = some preview → ∃ snippet, result.snippet = some snippet ∧
    PreviewOf regexes query source.content hit.evidence.range preview.range snippet ∧
    (preview.completeEvidence = true ↔ preview.range = hit.evidence.range)

theorem validateRange_iff_cuts {source : SourceSnapshot} {range : SourceRange} :
    source.validateRange range = .ok () ↔ Cuts source.content range := by
  rw [SourceSnapshot.validateRange_ok, Cuts]
  constructor
  · intro h
    exact ⟨_, if_pos h⟩
  · rintro ⟨text, htext⟩
    by_contra h
    rw [sliceAt, if_neg h] at htext
    contradiction

/-- The checks of a source find out whether it is the one that was scored. -/
theorem validSource_iff_scored {Score : Type} {source : SourceSnapshot} {hit : RankedNote Score}
    (hrevision : source.sourceRevision = hit.entry.sourceRevision) :
    validSource source hit.entry.sourceBytes hit.evidence.range hit.evidence.sectionRange =
      .ok () ↔ Scored source hit := by
  unfold validSource
  rw [bind_ok_iff]
  constructor
  · rintro ⟨_, hrange, h⟩
    split_ifs at h with hbytes
    refine ⟨hrevision, ?_, validateRange_iff_cuts.mp hrange, ?_⟩
    · by_contra hne
      exact hbytes (fun heq => hne heq.symm)
    · intro outer houter
      rw [houter] at h
      obtain ⟨_, hvalid, h⟩ := bind_ok_iff.mp h
      split_ifs at h with hnested
      rw [not_or, Nat.not_lt, Nat.not_lt] at hnested
      exact ⟨validateRange_iff_cuts.mp hvalid, hnested⟩
  · intro h
    refine ⟨(), validateRange_iff_cuts.mpr h.evidence, ?_⟩
    rw [if_neg (fun hne => hne h.length.symm)]
    cases houter : hit.evidence.sectionRange with
    | none => rfl
    | some outer =>
        obtain ⟨hcuts, hstart, hstop⟩ := h.nested outer houter
        refine bind_ok_iff.mpr ⟨(), validateRange_iff_cuts.mpr hcuts, ?_⟩
        rw [if_neg (by omega)]

/-- Rendering cuts no text outside of it or off a boundary. It shows the content or a part of it
only of the revision that was scored, with ranges of it; the preview then is a part of the evidence
with at most 300 characters, which has the start of the first match in it. The scored source is shown. -/
theorem renderSnapshot_safe {Score : Type} (regexes : RegexEngine)
    (snapshot : Except VaultError SourceSnapshot) (hit : RankedNote Score) (query : Text)
    (includeContent : Bool) :
    ∃ result, renderSnapshot regexes snapshot hit query includeContent = some result ∧
      (result.Shows → ∃ source, snapshot = .ok source ∧
        Evident regexes query source hit result) ∧
      ∀ source, snapshot = .ok source → Scored source hit → result.Shows := by
  have hhidden : ¬hit.result.Shows := by simp [SemanticNoteResult.Shows, RankedNote.result]
  cases snapshot with
  | error error => exact ⟨_, rfl, fun h => absurd h hhidden, by simp⟩
  | ok source =>
      rw [renderSnapshot]
      by_cases hrevision : source.sourceRevision = hit.entry.sourceRevision
      · have hsame : ¬source.sourceRevision ≠ hit.result.sourceRevision := fun h => h hrevision
        simp only [if_neg hsame]
        cases hvalid : validSource source hit.result.sourceBytes hit.result.evidence.range
            hit.result.evidence.sectionRange with
        | error error =>
            refine ⟨_, rfl, fun h => absurd h hhidden, ?_⟩
            rintro _ ⟨⟩ hscored
            have hok := hvalid.symm.trans ((validSource_iff_scored hrevision).mpr hscored)
            contradiction
        | ok _ =>
            have hscored := (validSource_iff_scored hrevision).mp hvalid
            cases includeContent with
            | true =>
                refine ⟨_, rfl, fun _ => ⟨source, rfl, hscored, ?_, rfl, ?_⟩, ?_⟩
                · intro content hcontent
                  exact (Option.some.inj hcontent).symm
                · intro preview hpreview
                  contradiction
                · intro _ _ _
                  exact .inl (Option.some_ne_none _)
            | false =>
                obtain ⟨text, htext⟩ := hscored.evidence
                obtain ⟨preview, snippet, hpreview, hspec⟩ := previewRange_spec regexes query htext
                have hrange : hit.result.evidence.range = hit.evidence.range := rfl
                simp only [Bool.false_eq_true, if_false, hrange, hpreview, hspec.shown,
                  Option.bind_eq_bind, Option.bind_some]
                refine ⟨_, rfl, fun _ => ⟨source, rfl, hscored, ?_, rfl, ?_⟩, ?_⟩
                · intro content hcontent
                  contradiction
                · intro shown hshown
                  rw [Option.some.injEq] at hshown
                  subst hshown
                  exact ⟨snippet, rfl, hspec, decide_eq_true_iff⟩
                · intro _ _ _
                  exact .inr (.inl (Option.some_ne_none _))
      · have hchanged : source.sourceRevision ≠ hit.result.sourceRevision := hrevision
        simp only [if_pos hchanged]
        refine ⟨_, rfl, fun h => absurd h hhidden, ?_⟩
        rintro _ ⟨⟩ hscored
        exact absurd hscored.revision hrevision

end ObsidianMcp
