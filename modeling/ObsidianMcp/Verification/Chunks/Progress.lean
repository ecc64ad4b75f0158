import ObsidianMcp.Verification.Chunks.Notes

/-! # Progress of the splitting

No search for an end, an overlap or a cut goes on for ever, and every cut lies behind its start. -/

namespace ObsidianMcp.Chunks

open Text

variable {p : Preparation} {raw title : Text} {blocks : List MarkdownBlock} {part : Section}

/-- With an overlap that has been found, the search for an end does not depend on how it probes. -/
theorem fittingEnd_of_precedingOverlap {used start : ℕ} {lead : Text} {block : Option MarkdownBlock}
    {overlap : SourceRange} (hrange : Valid raw ⟨start, part.range.endByte⟩)
    (hlt : start < part.range.endByte)
    (h : p.precedingOverlap used lead raw start part block = .ok (some overlap))
    (probe : Except Failure ℕ) :
    p.fittingEndWith used lead raw (some overlap) start part.range.endByte probe =
      p.fittingEnd used lead raw (some overlap) start part.range.endByte := by
  obtain ⟨_, first, -, hfirst, hof⟩ :=
    (Preparation.precedingOverlap_ends hrange hlt).result h overlap rfl
  exact Preparation.fittingEndWith_congr hfirst hof.fits _ _

/-- The searches inside a section end, what they find lies behind the start and fits, an overlap
leaves nothing to probe, and the loop over the chunks of the section ends. -/
theorem splitting_advances (hlimit : p.limit < usizeMax) (hblocks : BlocksSound raw blocks)
    (hpart : part.Valid raw) :
    (∀ used lead overlap start, (∀ o, overlap = some o → Valid raw o) →
      isCharBoundary raw start = true → start < part.range.endByte →
      Ends (p.fittingEnd used lead raw overlap start part.range.endByte)
          (p.EndOf used lead raw overlap start part.range.endByte) Failure.Reported ∧
        Ends (p.probeAdvancingPrefix used lead raw overlap start part.range.endByte)
          (p.EndOf used lead raw overlap start part.range.endByte) Failure.Reported ∧
        (∀ stop, p.fittingEnd used lead raw overlap start part.range.endByte = .ok stop →
          Ends (p.preferredEnd used lead raw overlap start part blocks stop)
            (p.EndOf used lead raw overlap start part.range.endByte) Failure.Reported)) ∧
      (∀ used lead start block, isCharBoundary raw start = true → start < part.range.endByte →
        Ends (p.precedingOverlap used lead raw start part block)
            (fun found => ∀ o, found = some o → Valid raw o ∧ o.startByte < start ∧ o.endByte = start)
            Failure.Reported ∧
          ∀ o, p.precedingOverlap used lead raw start part block = .ok (some o) → ∀ probe,
            p.fittingEndWith used lead raw (some o) start part.range.endByte probe =
              p.fittingEnd used lead raw (some o) start part.range.endByte) ∧
      ∀ textHash chunks s, s.Balanced p.limit → ∀ failure t,
        p.prepareSection textHash raw title blocks part chunks s = .error failure t →
          failure.Reported := by
  have hrange : ∀ {start}, isCharBoundary raw start = true → start < part.range.endByte →
      Valid raw ⟨start, part.range.endByte⟩ :=
    fun hstart hlt => ⟨hlt.le, hstart, hpart.range.end_boundary⟩
  refine ⟨fun used lead overlap start hoverlap hstart hlt => ⟨?_, ?_, fun stop hstop => ?_⟩,
    fun used lead start block hstart hlt => ⟨?_, fun o ho => ?_⟩,
    fun textHash chunks s hs failure t h => ?_⟩
  · exact Preparation.fittingEnd_ends hoverlap (hrange hstart hlt) hlt
  · exact Preparation.probeAdvancingPrefix_ends hoverlap (hrange hstart hlt)
  · have hend := (Preparation.fittingEnd_ends hoverlap (hrange hstart hlt) hlt).result hstop
    exact Preparation.preferredEnd_ends hoverlap hpart hblocks.valid hstart hend
  · refine (Preparation.precedingOverlap_ends (hrange hstart hlt) hlt).imp ?_ (fun _ h => h)
    intro found hfound o ho
    obtain ⟨_, _, -, -, hof⟩ := hfound o ho
    exact ⟨hof.valid, hof.start_lt, hof.end_eq⟩
  · exact fittingEnd_of_precedingOverlap (hrange hstart hlt) hlt ho
  · exact ((Preparation.prepareSection_runs hlimit hblocks hpart hs chunks).failure h).1

/-- The section of the inner heading. -/
def nestedPart : Section :=
  ⟨⟨4, 15⟩, [['a'], ['d']], ⟨4, 15⟩, 9⟩

theorem nestedPart_advances :
    Preparation.precedingOverlap (characterPreparation 13) 0 (Preparation.contextOf ['n'] [['a'], ['d']])
        nestedNote 12 nestedPart (containingBlock nestedStructure.blocks 12) =
      .ok (some ⟨9, 12⟩) ∧
    Preparation.fittingEndWith (characterPreparation 13) 0
        (Preparation.contextOf ['n'] [['a'], ['d']]) nestedNote (some ⟨9, 12⟩) 12 15
        (.error .endless) = .ok 13 := by
  have hpart : nestedPart.Valid nestedNote :=
    ⟨⟨by decide, by decide, by decide⟩, ⟨by decide, by decide, by decide⟩, by decide⟩
  have hfound : Preparation.precedingOverlap (characterPreparation 13) 0
      (Preparation.contextOf ['n'] [['a'], ['d']]) nestedNote 12 nestedPart
      (containingBlock nestedStructure.blocks 12) = .ok (some ⟨9, 12⟩) := by
    decide +kernel
  obtain ⟨-, hoverlaps, -⟩ := @splitting_advances (characterPreparation 13) nestedNote ['n'] _ _
    (by decide) nestedStructure_sound.blocks hpart
  refine ⟨hfound, ((hoverlaps 0 _ 12 _ (by decide) (by decide)).2 _ hfound (.error .endless)).trans ?_⟩
  decide +kernel

end ObsidianMcp.Chunks
