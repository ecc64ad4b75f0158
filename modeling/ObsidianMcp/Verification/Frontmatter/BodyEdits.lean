import ObsidianMcp.Verification.Frontmatter.Block

/-! # Body edits

Prepending and appending text splice it behind the closing delimiter, or at the end of the
file. The block survives exactly when its closing line is already ended by a line feed:
otherwise the inserted text continues that line. -/

namespace ObsidianMcp

open Text

/-- The closing delimiter of the block, if there is one, is ended by a line feed. -/
def closesWithLineFeed (content : Text) : Bool :=
  match extractRawFrontmatter content with
  | some (_, bodyStart) => (takeBytes bodyStart content).getLast? == some '\n'
  | none => false

theorem closesWithLineFeed_renderNote (o : Opening) (b : Fenced isDelimiter) :
    closesWithLineFeed (renderNote o b) = true ↔ ∃ t, b.tail = some t := by
  have hhead : takeBytes (byteLen (noteHead o b)) (renderNote o b) = noteHead o b := by
    rw [renderNote_eq, takeBytes_append]
  rw [closesWithLineFeed, extractRawFrontmatter_renderNote]
  simp only [hhead]
  cases ht : b.tail with
  | some t => simp [noteHead, Fenced.closing_of_tail ht]
  | none =>
      have hne : b.fence ≠ [] := ne_nil_of_isDelimiter b.fence_closes
      have hlast : (noteHead o b).getLast? = b.fence.getLast? := by
        rw [noteHead, Fenced.closing_of_no_tail ht, ← List.append_assoc,
          List.getLast?_append_of_ne_nil _ hne]
      simp only [hlast, beq_iff_eq, reduceCtorEq, exists_false, iff_false]
      intro h
      exact b.fence_whole (List.mem_of_getLast? h)

/-! ## Where the spliced text ends up -/

/-- Behind a closed line the splice is the same block with another body. -/
theorem splice_after_line_feed {o : Opening} {b : Fenced isDelimiter} {t : Text}
    (ht : b.tail = some t) (body : Text) :
    noteHead o b ++ body = renderNote o (b.withBody body) := by
  simp [renderNote, noteHead, Fenced.render, Fenced.closing_of_tail ht]

/-- Behind a delimiter that ends the file, non-empty inserted text is never the body of
the result. -/
theorem getBody_splice_at_end {o : Opening} {b : Fenced isDelimiter} (hb : b.tail = none)
    {inserted : Text} (hne : inserted ≠ []) :
    getBody (noteHead o b ++ inserted) ≠ inserted := by
  intro hbody
  have hfence : b.fence ≠ [] := ne_nil_of_isDelimiter b.fence_closes
  cases hx : extractRawFrontmatter (noteHead o b ++ inserted) with
  | none =>
      rw [getBody, hx] at hbody
      have hnil : noteHead o b = [] := List.append_left_eq_self.mp hbody
      rw [noteHead, Fenced.closing_of_no_tail hb] at hnil
      simp [hfence] at hnil
  | some r =>
      obtain ⟨o', b', hnote, -⟩ := extractRawFrontmatter_eq_some.mp hx
      rw [hnote, getBody_renderNote] at hbody
      rw [renderNote_eq, hbody] at hnote
      have hhead : noteHead o b = noteHead o' b' := List.append_cancel_right hnote
      cases ht : b'.tail with
      | none => exact hne (hbody ▸ Fenced.body_of_no_tail ht)
      | some t =>
          -- The new block is closed by a line feed, but the head ends inside the old fence.
          have hlast := congrArg List.getLast? hhead
          rw [noteHead, noteHead, Fenced.closing_of_no_tail hb, Fenced.closing_of_tail ht,
            ← List.append_assoc, ← List.append_assoc,
            List.getLast?_append_of_ne_nil _ hfence,
            List.getLast?_append_of_ne_nil _ (by simp)] at hlast
          simp only [List.getLast?_append, List.getLast?_singleton, Option.some_or] at hlast
          exact b.fence_whole (List.mem_of_getLast? hlast)

/-! ## The edits -/

theorem prependNoteInner_ok {yaml : SerdeYaml} {rev : Text → Text} {o : Opening}
    {b : Fenced isDelimiter} {inserted new expected : Text}
    (h : prependNoteInner yaml rev (renderNote o b) inserted = .ok (new, expected)) :
    new = noteHead o b ++ (inserted ++ b.body) := by
  rw [prependNoteInner, extractRawFrontmatter_renderNote] at h
  simp only [renderNote_eq, takeBytes_append, dropBytes_append] at h
  split at h
  · cases h
  · simp only [Except.ok.injEq, Prod.mk.injEq] at h
    rw [← h.1, List.append_assoc]

theorem appendNoteInner_ok {yaml : SerdeYaml} {rev : Text → Text} {o : Opening}
    {b : Fenced isDelimiter} {inserted new : Text} {expected : Option Text}
    (h : appendNoteInner yaml rev (.ok (renderNote o b)) inserted = .ok (new, expected)) :
    new = noteHead o b ++ (b.body ++ inserted) := by
  simp only [appendNoteInner, Option.getD_some] at h
  split at h
  · cases h
  · simp only [Except.ok.injEq, Prod.mk.injEq] at h
    rw [← h.1, renderNote_eq, List.append_assoc]

/-- A splice that leaves the body as `body` keeps the block if and only if the closing
line is ended or there is nothing to splice. -/
private theorem splice_keeps_iff (yaml : SerdeYaml) (o : Opening) (b : Fenced isDelimiter)
    (inserted body : Text) (hbody : b.body = [] → body = inserted)
    (hempty : inserted = [] → body = b.body) :
    (parseFrontmatter yaml (noteHead o b ++ body) = parseFrontmatter yaml (renderNote o b) ∧
        getBody (noteHead o b ++ body) = body) ↔
      closesWithLineFeed (renderNote o b) = true ∨ inserted = [] := by
  rw [closesWithLineFeed_renderNote]
  cases ht : b.tail with
  | some t =>
      rw [splice_after_line_feed ht]
      refine iff_of_true ⟨?_, by simp⟩ (Or.inl ⟨t, rfl⟩)
      exact parseFrontmatter_renderNote_congr yaml o o (Fenced.inner_withBody b body)
  | none =>
      obtain rfl := hbody (Fenced.body_of_no_tail ht)
      simp only [reduceCtorEq, exists_false, false_or]
      constructor
      · rintro ⟨-, hget⟩
        by_contra hne
        exact getBody_splice_at_end ht hne hget
      · intro hnil
        rw [hempty hnil, ← renderNote_eq]
        exact ⟨rfl, getBody_renderNote o b⟩

/-- An accepted prepend or append keeps the metadata and extends the body by the inserted
text exactly when the closing delimiter is ended by a line feed or nothing is inserted. -/
theorem bodyEdits_keep_metadata_iff (yaml : SerdeYaml) (sourceRevision : Text → Text)
    (existing inserted : Text) (block : Text × ℕ)
    (hblock : extractRawFrontmatter existing = some block) :
    (∀ new expected, prependNoteInner yaml sourceRevision existing inserted =
        .ok (new, expected) →
      ((parseFrontmatter yaml new = parseFrontmatter yaml existing ∧
          getBody new = inserted ++ getBody existing) ↔
        closesWithLineFeed existing = true ∨ inserted = [])) ∧
    (∀ new expected, appendNoteInner yaml sourceRevision (.ok existing) inserted =
        .ok (new, expected) →
      ((parseFrontmatter yaml new = parseFrontmatter yaml existing ∧
          getBody new = getBody existing ++ inserted) ↔
        closesWithLineFeed existing = true ∨ inserted = [])) := by
  obtain ⟨o, b, rfl, -⟩ := extractRawFrontmatter_eq_some.mp hblock
  constructor
  · intro new expected h
    obtain rfl := prependNoteInner_ok h
    rw [getBody_renderNote]
    exact splice_keeps_iff yaml o b inserted _ (by simp +contextual) (by simp +contextual)
  · intro new expected h
    obtain rfl := appendNoteInner_ok h
    rw [getBody_renderNote]
    exact splice_keeps_iff yaml o b inserted _ (by simp +contextual) (by simp +contextual)

/-- A prepend splices the text behind the block. -/
theorem prependNoteInner_of_block {yaml : SerdeYaml} {sourceRevision : Text → Text}
    {existing inserted new block : Text} {bodyStart : ℕ} {value : Option Json}
    (hblock : extractRawFrontmatter existing = some (block, bodyStart))
    (hsplice : takeBytes bodyStart existing ++ inserted ++ dropBytes bodyStart existing = new)
    (hparse : parseFrontmatter yaml new = .ok value) :
    prependNoteInner yaml sourceRevision existing inserted =
      .ok (new, sourceRevision existing) := by
  rw [prependNoteInner, hblock]
  simp only [hsplice, hparse]

/-- A YAML reader for the one document `a: 1`. -/
private def oneFieldYaml : SerdeYaml where
  fromStrJson text :=
    if text = "a: 1\n".toList then .ok (.object [("a".toList, .number (.posInt 1))])
    else .error []
  fromStrMapping _ := .error []
  fromStrValue _ := .error []
  toStringJson _ := .error []
  toStringMapping _ := .error []
  toStringValue _ := .error []
  displayNumber _ := []

/-- A prepend behind a closed block is accepted and keeps the block. -/
theorem prepend_behind_closed_block :
    prependNoteInner oneFieldYaml id "---\na: 1\n---\nbody".toList "x".toList =
        .ok ("---\na: 1\n---\nxbody".toList, "---\na: 1\n---\nbody".toList) ∧
      parseFrontmatter oneFieldYaml "---\na: 1\n---\nxbody".toList =
        parseFrontmatter oneFieldYaml "---\na: 1\n---\nbody".toList ∧
      getBody "---\na: 1\n---\nxbody".toList =
        "x".toList ++ getBody "---\na: 1\n---\nbody".toList := by
  have hold : extractRawFrontmatter "---\na: 1\n---\nbody".toList =
      some ("a: 1\n".toList, 13) := by decide +kernel
  have hnew : extractRawFrontmatter "---\na: 1\n---\nxbody".toList =
      some ("a: 1\n".toList, 13) := by decide +kernel
  have hedit : prependNoteInner oneFieldYaml id "---\na: 1\n---\nbody".toList "x".toList =
      .ok ("---\na: 1\n---\nxbody".toList, "---\na: 1\n---\nbody".toList) := by
    have hsplice : takeBytes 13 "---\na: 1\n---\nbody".toList ++ "x".toList ++
        dropBytes 13 "---\na: 1\n---\nbody".toList = "---\na: 1\n---\nxbody".toList := by
      decide
    have hparse : parseFrontmatter oneFieldYaml "---\na: 1\n---\nxbody".toList =
        .ok (some (.object [("a".toList, .number (.posInt 1))])) := by
      rw [parseFrontmatter, hnew]
      rfl
    exact prependNoteInner_of_block hold hsplice hparse
  refine ⟨hedit, ?_⟩
  exact ((bodyEdits_keep_metadata_iff oneFieldYaml id _ _ _ hold).1 _ _ hedit).mpr
    (Or.inl (by decide +kernel))

/-- The delimiter of this note ends the file. Prepending text turns it into another line,
so the note loses its frontmatter, and the check on the result accepts that. -/
theorem prepend_behind_final_delimiter :
    extractRawFrontmatter "---\na: 1\n---".toList = some ("a: 1\n".toList, 12) ∧
      parseFrontmatter oneFieldYaml "---\na: 1\n---".toList =
        .ok (some (.object [("a".toList, .number (.posInt 1))])) ∧
      prependNoteInner oneFieldYaml id "---\na: 1\n---".toList "x".toList =
        .ok ("---\na: 1\n---x".toList, "---\na: 1\n---".toList) ∧
      parseFrontmatter oneFieldYaml "---\na: 1\n---x".toList = .ok none ∧
      getBody "---\na: 1\n---x".toList ≠
        "x".toList ++ getBody "---\na: 1\n---".toList := by
  have hold : extractRawFrontmatter "---\na: 1\n---".toList =
      some ("a: 1\n".toList, 12) := by decide +kernel
  have hnew : extractRawFrontmatter "---\na: 1\n---x".toList = none := by decide +kernel
  refine ⟨hold, ?_, ?_, by simp only [parseFrontmatter, hnew], by decide +kernel⟩
  · rw [parseFrontmatter, hold]
    rfl
  · have hsplice : takeBytes 12 "---\na: 1\n---".toList ++ "x".toList ++
        dropBytes 12 "---\na: 1\n---".toList = "---\na: 1\n---x".toList := by
      decide
    apply prependNoteInner_of_block hold hsplice
    rw [parseFrontmatter, hnew]

end ObsidianMcp
