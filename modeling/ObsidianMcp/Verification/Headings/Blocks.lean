import ObsidianMcp.Model.Patch

/-! # Block ids

A listed block id is found again on the first line that carries it. -/

namespace ObsidianMcp

open Text

/-- Where a line starts behind the lines before it. -/
def lineStart (before : List Text) : ℕ :=
  (before.map fun line => byteLen line + 1).sum

/-- A line carries an id, outside code, behind a front part. -/
def CarriesId (md : Markdown) (content : Text) (before : List Text) (line front id : Text) : Prop :=
  lineBlockRef line = some (front, id) ∧
    isInCodeBlock (lineStart before + byteLen front + 1) (md.codeBlockRanges content) = false

/-- A patch of a block goes to the first line that carries the id. -/
structure FoundOnFirstLine (md : Markdown) (content id path : Text) (before : List Text)
    (line front : Text) (block : BlockRef) : Prop where
  carries : CarriesId md content before line front id
  first : ∀ earlier other between otherFront, before = earlier ++ other :: between →
    ¬CarriesId md content earlier other otherFront id
  lineStart_eq : block.line.1 = lineStart before
  markerStart_eq : block.markerStart = lineStart before + byteLen front
  patched : ∀ request : PatchRequest, request.target = id ∨ request.target = '^' :: id →
    patchBlock md content request path = .ok (spliceBlock content request block)

/-! ## The id at the end of a line -/

theorem eq_of_lineBlockRef {line front id : Text} (h : lineBlockRef line = some (front, id)) :
    ∃ rest, line = front ++ '^' :: id ++ rest := by
  have hbody := List.rdropWhile_append_rtakeWhile (p := isWhitespace) (l := line)
  have hid := List.rdropWhile_append_rtakeWhile (p := isBlockIdChar)
    (l := line.rdropWhile isWhitespace)
  rw [lineBlockRef] at h
  generalize line.rdropWhile isWhitespace = body at h hbody hid
  by_cases hc : body.rtakeWhile isBlockIdChar ≠ [] ∧
      (body.rdropWhile isBlockIdChar).getLast? = some '^'
  · rw [if_pos hc, Option.some.injEq, Prod.mk.injEq] at h
    rcases List.getLast?_eq_some_iff.mp hc.2 with ⟨s, hs⟩
    rw [hs, List.dropLast_concat] at h
    refine ⟨line.rtakeWhile isWhitespace, ?_⟩
    calc
      line = body ++ line.rtakeWhile isWhitespace := hbody.symm
      _ = (s ++ ['^'] ++ body.rtakeWhile isBlockIdChar) ++ line.rtakeWhile isWhitespace := by
        rw [← hs, hid]
      _ = front ++ '^' :: id ++ line.rtakeWhile isWhitespace := by
        rw [h.1, h.2]
        simp
  · rw [if_neg hc] at h
    contradiction

theorem isBlockIdChar_of_lineBlockRef {line front id : Text}
    (h : lineBlockRef line = some (front, id)) : ∀ c ∈ id, isBlockIdChar c := by
  rw [lineBlockRef] at h
  generalize line.rdropWhile isWhitespace = body at h
  by_cases hc : body.rtakeWhile isBlockIdChar ≠ [] ∧
      (body.rdropWhile isBlockIdChar).getLast? = some '^'
  · rw [if_pos hc, Option.some.injEq, Prod.mk.injEq] at h
    intro c hmem
    rw [← h.2] at hmem
    exact List.mem_rtakeWhile_imp hmem
  · rw [if_neg hc] at h
    contradiction

/-! ## The ids of a text -/

theorem lineStart_cons (line : Text) (before : List Text) :
    lineStart (line :: before) = byteLen line + 1 + lineStart before := by
  rw [lineStart, List.map_cons, List.sum_cons]
  rfl

/-- The first id with a property lies on the first line whose id has it. -/
theorem find?_blockIdsFrom {p : BlockId → Bool} {pos : ℕ} {lines : List Text} {blockId : BlockId}
    (h : (blockIdsFrom pos lines).find? p = some blockId) :
    ∃ before line after front, lines = before ++ line :: after ∧
      lineBlockRef line = some (front, blockId.id) ∧
      blockId.start = pos + lineStart before + byteLen front + 1 ∧
      ∀ earlier other between otherFront otherId, before = earlier ++ other :: between →
        lineBlockRef other = some (otherFront, otherId) →
          ¬p ⟨pos + lineStart earlier + byteLen otherFront + 1, otherId⟩ := by
  induction lines generalizing pos with
  | nil => simp [blockIdsFrom] at h
  | cons line lines ih =>
      rw [blockIdsFrom, List.find?_append] at h
      cases hfirst : (((lineBlockRef line).map fun r =>
          BlockId.mk (pos + byteLen r.1 + 1) r.2).toList.find? p) with
      | some found =>
          rw [hfirst, Option.some_or, Option.some.injEq] at h
          have hmem := List.mem_of_find?_eq_some hfirst
          rw [Option.mem_toList, Option.map_eq_some_iff] at hmem
          rcases hmem with ⟨r, hr, hfound⟩
          rw [← h, ← hfound]
          refine ⟨[], line, lines, r.1, rfl, hr, by simp [lineStart], ?_⟩
          intro earlier other between _ _ hbefore
          simp at hbefore
      | none =>
          rw [hfirst, Option.none_or] at h
          rcases ih h with ⟨before, found, after, front, rfl, hfound, hstart, hfirst'⟩
          refine ⟨line :: before, found, after, front, rfl, hfound, ?_, ?_⟩
          · rw [hstart, lineStart_cons]
            omega
          · intro earlier other between otherFront otherId hbefore hother
            cases earlier with
            | nil =>
                rw [List.nil_append, List.cons.injEq] at hbefore
                rw [← hbefore.1] at hother
                have hnone := List.find?_eq_none.mp hfirst
                  ⟨pos + byteLen otherFront + 1, otherId⟩ (by simp [hother])
                simpa [lineStart] using hnone
            | cons l earlier =>
                rw [List.cons_append, List.cons.injEq] at hbefore
                have hnot := hfirst' earlier other between otherFront otherId hbefore.2 hother
                rw [← hbefore.1, lineStart_cons]
                have hpos : pos + (byteLen line + 1 + lineStart earlier) + byteLen otherFront + 1 =
                    pos + byteLen line + 1 + lineStart earlier + byteLen otherFront + 1 := by
                  omega
                rw [hpos]
                exact hnot

theorem byteLen_flatMap_lines (before : List Text) :
    byteLen (before.flatMap fun line => line ++ ['\n']) = lineStart before := by
  induction before with
  | nil => rfl
  | cons line before ih =>
      have hlf : byteLen ['\n'] = 1 := rfl
      rw [List.flatMap_cons, byteLen_append, byteLen_append, ih, lineStart_cons, hlf]

/-- Behind whole lines, the text since the last line feed is what follows them. -/
theorem afterLastLf_lines (before : List Text) {front : Text} (h : '\n' ∉ front) :
    afterLastLf (before.flatMap (fun line => line ++ ['\n']) ++ front) = front := by
  have hfront : afterLastLf front = front := by
    apply List.rtakeWhile_eq_self_iff.mpr
    intro c hc
    have hne : c ≠ '\n' := fun heq => h (heq ▸ hc)
    simpa using hne
  rcases List.eq_nil_or_concat before with rfl | ⟨lines, line, rfl⟩
  · exact hfront
  · have hsplit : (lines.concat line).flatMap (fun line => line ++ ['\n']) ++ front =
        (lines.flatMap (fun line => line ++ ['\n']) ++ line) ++ ('\n' :: front) := by simp
    rw [hsplit]
    generalize lines.flatMap (fun line => line ++ ['\n']) ++ line = t
    clear hsplit hfront
    induction front using List.reverseRecOn with
    | nil => exact List.rtakeWhile_concat_neg _ _ _ (by simp)
    | append_singleton front c ih =>
        rw [List.mem_append, not_or] at h
        have hc : c ≠ '\n' := by simpa [eq_comm] using h.2
        have hassoc : t ++ '\n' :: (front ++ [c]) = (t ++ '\n' :: front) ++ [c] := by simp
        rw [afterLastLf, hassoc, List.rtakeWhile_concat_pos _ _ _ (by simpa using hc)]
        exact congrArg (fun s => s ++ [c]) (ih h.1)

/-- A listed id is found on the first line that carries it. -/
theorem exists_foundOnFirstLine (md : Markdown) (content path : Text) {id : Text}
    (h : id ∈ extractBlockRefs md content) :
    ∃ before line after front block, content.splitOn '\n' = before ++ line :: after ∧
      findBlockRef md content id = some block ∧
      FoundOnFirstLine md content id path before line front block := by
  rcases List.mem_map.mp h with ⟨listed, hlisted, rfl⟩
  have hsome : ((blockRefIds md content).find? fun b => b.id = listed.id).isSome := by
    rw [List.find?_isSome]
    exact ⟨listed, hlisted, by simp⟩
  rcases Option.isSome_iff_exists.mp hsome with ⟨blockId, hfind⟩
  have hid : blockId.id = listed.id := by simpa using List.find?_some hfind
  have hmem := List.mem_of_find?_eq_some hfind
  have hcode : isInCodeBlock blockId.start (md.codeBlockRanges content) = false := by
    simpa using (List.mem_filter.mp hmem).2
  have hall := hfind
  rw [blockRefIds, List.find?_filter] at hall
  rcases find?_blockIdsFrom hall with ⟨before, line, after, front, hlines, hline, hstart, hfirst⟩
  rcases eq_of_splitOn hlines with ⟨rest, hcontent⟩
  rcases eq_of_lineBlockRef hline with ⟨lineRest, hfront⟩
  have hlf : '\n' ∉ front := by
    have hnot : '\n' ∉ line := not_mem_of_mem_splitOn (by rw [hlines]; simp)
    rw [hfront] at hnot
    simp only [List.mem_append, not_or] at hnot
    exact hnot.1.1
  rw [Nat.zero_add] at hstart
  have hmarker : takeBytes (blockId.start - 1) content =
      before.flatMap (fun line => line ++ ['\n']) ++ front := by
    rw [hstart, Nat.add_sub_cancel, ← byteLen_flatMap_lines, ← byteLen_append, hcontent, hfront]
    have hassoc : before.flatMap (fun line => line ++ ['\n']) ++
        (front ++ '^' :: blockId.id ++ lineRest ++ rest) =
        (before.flatMap (fun line => line ++ ['\n']) ++ front) ++
          ('^' :: blockId.id ++ lineRest ++ rest) := by simp
    rw [hassoc, takeBytes_append]
  have hblock : ∃ block, findBlockRef md content listed.id = some block ∧
      block.line.1 = lineStart before ∧ block.markerStart = lineStart before + byteLen front := by
    have hbegin : blockId.start - 1 - byteLen (afterLastLf (takeBytes (blockId.start - 1) content)) =
        lineStart before := by
      rw [hmarker, afterLastLf_lines _ hlf, hstart]
      omega
    have hcaret : blockId.start - 1 = lineStart before + byteLen front := by omega
    rw [findBlockRef, hfind, Option.map_some]
    dsimp only
    rw [hbegin]
    cases find '\n' (dropBytes (blockId.start + byteLen blockId.id) content) with
    | some offset => exact ⟨_, rfl, rfl, hcaret⟩
    | none => exact ⟨_, rfl, rfl, hcaret⟩
  rcases hblock with ⟨block, hfound, hblockstart, hblockmarker⟩
  refine ⟨before, line, after, front, block, hlines, hfound, ?_⟩
  constructor
  · rw [← hid]
    exact ⟨hline, by rw [← hstart]; exact hcode⟩
  · intro earlier other between otherFront hbefore hcarries
    apply hfirst earlier other between otherFront listed.id hbefore hcarries.1
    simpa using hcarries.2
  · exact hblockstart
  · exact hblockmarker
  · intro request htarget
    have hstrip : (stripPrefix ['^'] request.target).getD request.target = listed.id := by
      rcases htarget with htarget | htarget
      · rw [htarget]
        have hchars := isBlockIdChar_of_lineBlockRef hline
        rw [hid] at hchars
        cases hchar : listed.id with
        | nil => rfl
        | cons c t =>
            have hc : c ≠ '^' := by
              intro heq
              have hidchar := hchars c (by rw [hchar]; exact List.mem_cons_self)
              rw [heq] at hidchar
              exact absurd hidchar (by decide)
            simp [stripPrefix, Ne.symm hc]
      · rw [htarget]
        simp [stripPrefix]
    rw [patchBlock, hstrip, hfound]

end ObsidianMcp
