import ObsidianMcp.Verification.Frontmatter.Block

/-! # Field edits

Setting and removing a field rebuild the note from the mapping that was read and the raw
body. The result is read back by the same scanner, also where the body is left alone. -/

namespace ObsidianMcp

open Text

/-- The fields of the frontmatter; a note without a block has none. -/
def frontmatterMapping (yaml : SerdeYaml) (content : Text) : Except VaultError Fields :=
  match parseFrontmatter yaml content with
  | .error e => .error e
  | .ok fm => asObject (fm.getD (.object []))

theorem frontmatterMapping_renderNote {yaml : SerdeYaml} {o : Opening} {b : Fenced isDelimiter}
    {fields : Fields} (hblank : trim b.inner ≠ [])
    (hread : yaml.fromStrJson b.inner = .ok (.object fields)) :
    frontmatterMapping yaml (renderNote o b) = .ok fields := by
  rw [frontmatterMapping, parseFrontmatter_renderNote.mpr (.inr ⟨hblank, hread⟩)]
  rfl

theorem frontmatterMapping_of_no_block {yaml : SerdeYaml} {content : Text}
    (h : extractRawFrontmatter content = none) : frontmatterMapping yaml content = .ok [] := by
  rw [frontmatterMapping, parseFrontmatter, h]
  rfl

/-- The YAML crate writes these fields as a block and reads them back from it. -/
def SerdeYaml.WritesBack (yaml : SerdeYaml) (fields : Fields) : Prop :=
  ∃ text, yaml.toStringJson (.object fields) = .ok text ∧ BlockText text ∧
    trim text ≠ [] ∧ yaml.fromStrJson text = .ok (.object fields)

/-- Rebuilding with fields that are read back yields exactly these fields and the body. -/
theorem rebuildContent_reads_back {yaml : SerdeYaml} {fields : Fields}
    (h : yaml.WritesBack fields) (hne : fields ≠ []) (body : Text) :
    getBody (rebuildContent yaml (some (.object fields)) body) = body ∧
      frontmatterMapping yaml (rebuildContent yaml (some (.object fields)) body) =
        .ok fields := by
  obtain ⟨text, hwrite, hblock, hblank, hread⟩ := h
  obtain ⟨field, rest, rfl⟩ := List.exists_cons_of_ne_nil hne
  obtain ⟨b, rfl, hbody, hnote⟩ := hblock.exists_note body
  simp only [rebuildContent, hwrite, hnote]
  exact ⟨by rw [getBody_renderNote, hbody], frontmatterMapping_renderNote hblank hread⟩

/-! ## Setting -/

theorem setFrontmatterField_ok {yaml : SerdeYaml} {content key result : Text} {value : Json}
    (h : setFrontmatterField yaml content key value = .ok result) :
    ∃ fields, frontmatterMapping yaml content = .ok fields ∧
      result = rebuildContent yaml (some (.object (Fields.insert key value fields)))
        (getBody content) := by
  rw [setFrontmatterField] at h
  rw [frontmatterMapping]
  cases hparse : parseFrontmatter yaml content with
  | error e => simp [hparse] at h
  | ok fm =>
      simp only [hparse] at h ⊢
      cases hfields : asObject (fm.getD (.object [])) with
      | error e => simp [hfields] at h
      | ok fields =>
          simp only [hfields, Except.ok.injEq] at h
          exact ⟨fields, rfl, h.symm⟩

/-! ## Removing -/

/-- The key is the only field, and the body left behind starts with a block of its own. -/
def uncoversBlock (yaml : SerdeYaml) (content key : Text) : Bool :=
  match frontmatterMapping yaml content with
  | .ok fields =>
      Fields.containsKey key fields && (Fields.remove key fields).isEmpty &&
        (extractRawFrontmatter (getBody content)).isSome
  | .error _ => false

/-- What a removal returns: the content itself, the bare body, or the rebuilt note. -/
theorem removeFrontmatterField_ok {yaml : SerdeYaml} {content key result : Text}
    (h : removeFrontmatterField yaml content key = .ok result) :
    ∃ fields, frontmatterMapping yaml content = .ok fields ∧
      ((Fields.containsKey key fields = false ∧ result = content) ∨
        (Fields.containsKey key fields = true ∧ Fields.remove key fields = [] ∧
          result = getBody content) ∨
        (Fields.containsKey key fields = true ∧ Fields.remove key fields ≠ [] ∧
          result = rebuildContent yaml (some (.object (Fields.remove key fields)))
            (getBody content))) := by
  rw [removeFrontmatterField] at h
  rw [frontmatterMapping]
  cases hparse : parseFrontmatter yaml content with
  | error e => simp [hparse] at h
  | ok fm =>
      simp only [hparse] at h ⊢
      cases fm with
      | none => exact ⟨[], rfl, .inl ⟨rfl, (Except.ok.inj h).symm⟩⟩
      | some fm =>
          simp only [Option.getD_some] at h ⊢
          cases hfields : asObject fm with
          | error e => simp [hfields] at h
          | ok fields =>
              simp only [hfields] at h
              refine ⟨fields, rfl, ?_⟩
              cases hkey : Fields.containsKey key fields with
              | false => exact .inl ⟨rfl, by simpa [hkey] using h.symm⟩
              | true =>
                  by_cases hrest : Fields.remove key fields = []
                  · exact .inr (.inl ⟨rfl, hrest, by simpa [hkey, hrest] using h.symm⟩)
                  · exact .inr (.inr ⟨rfl, hrest, by simpa [hkey, hrest] using h.symm⟩)

/-- A text with a block is longer than its body. -/
theorem getBody_ne_self_of_block {content : Text} {r : Text × ℕ}
    (h : extractRawFrontmatter content = some r) : getBody content ≠ content := by
  obtain ⟨o, b, rfl, -⟩ := extractRawFrontmatter_eq_some.mp h
  rw [getBody_renderNote, renderNote_eq]
  intro heq
  have hnil : noteHead o b = [] := List.self_eq_append_left.mp heq
  cases o <;> simp [noteHead, Opening.text] at hnil

/-- Setting a field changes that field only; removing one does exactly when the bare body it
may leave does not start with a block. -/
theorem fieldEdits_touch_one_field_iff (yaml : SerdeYaml) (content key : Text) (value : Json)
    (hwrites : ∀ fields, frontmatterMapping yaml content = .ok fields →
      yaml.WritesBack (Fields.insert key value fields) ∧
        (Fields.remove key fields ≠ [] → yaml.WritesBack (Fields.remove key fields))) :
    (∀ result, setFrontmatterField yaml content key value = .ok result →
      getBody result = getBody content ∧ ∃ fields, frontmatterMapping yaml content = .ok fields ∧
        frontmatterMapping yaml result = .ok (Fields.insert key value fields)) ∧
    (∀ result, removeFrontmatterField yaml content key = .ok result →
      ((getBody result = getBody content ∧
          ∃ fields, frontmatterMapping yaml content = .ok fields ∧
            frontmatterMapping yaml result = .ok (Fields.remove key fields)) ↔
        uncoversBlock yaml content key = false)) := by
  constructor
  · intro result h
    obtain ⟨fields, hfields, rfl⟩ := setFrontmatterField_ok h
    have hback := rebuildContent_reads_back (hwrites fields hfields).1
      (Fields.insert_ne_nil key value fields) (getBody content)
    exact ⟨hback.1, fields, hfields, hback.2⟩
  · intro result h
    obtain ⟨fields, hfields, hcases⟩ := removeFrontmatterField_ok h
    rw [uncoversBlock, hfields]
    simp only
    rcases hcases with ⟨hkey, rfl⟩ | ⟨hkey, hrest, rfl⟩ | ⟨hkey, hrest, rfl⟩
    · refine iff_of_true ⟨rfl, fields, rfl, ?_⟩ (by simp [hkey])
      rw [hfields, Fields.remove_of_containsKey_eq_false hkey]
    · cases hbody : extractRawFrontmatter (getBody content) with
      | none =>
          refine iff_of_true ⟨by rw [getBody, hbody], fields, rfl, ?_⟩ (by simp)
          rw [frontmatterMapping_of_no_block hbody, hrest]
      | some r =>
          refine iff_of_false (fun hkeeps => ?_) (by simp [hkey, hrest])
          exact getBody_ne_self_of_block hbody hkeeps.1
    · have hback := rebuildContent_reads_back ((hwrites fields hfields).2 hrest) hrest
        (getBody content)
      exact iff_of_true ⟨hback.1, fields, rfl, hback.2⟩ (by simp [hrest])

/-- A YAML crate that knows one document. -/
private def oneDocument : SerdeYaml where
  fromStrJson text :=
    if text = "a: 1\n".toList then .ok (.object [("a".toList, .number (.posInt 1))])
    else if text = "b: 2\n".toList then .ok (.object [("b".toList, .number (.posInt 2))])
    else .error []
  fromStrMapping _ := .error []
  fromStrValue _ := .error []
  toStringJson _ := .ok "a: 1\n".toList
  toStringMapping _ := .error []
  toStringValue _ := .error []
  displayNumber _ := []

private theorem oneDocument_mapping (content : Text) (n : ℕ)
    (h : extractRawFrontmatter content = some ("a: 1\n".toList, n)) :
    frontmatterMapping oneDocument content = .ok [("a".toList, .number (.posInt 1))] := by
  rw [frontmatterMapping, parseFrontmatter, h]
  rfl

/-- Setting and removing the only field of an ordinary note. -/
theorem edits_of_one_field_note :
    (∀ result, setFrontmatterField oneDocument "---\na: 1\n---\nbody".toList "a".toList
        (.number (.posInt 1)) = .ok result →
      getBody result = getBody "---\na: 1\n---\nbody".toList ∧
        ∃ fields, frontmatterMapping oneDocument "---\na: 1\n---\nbody".toList = .ok fields ∧
          frontmatterMapping oneDocument result =
            .ok (Fields.insert "a".toList (.number (.posInt 1)) fields)) ∧
    (∀ result, removeFrontmatterField oneDocument "---\na: 1\n---\nbody".toList "a".toList =
        .ok result →
      ((getBody result = getBody "---\na: 1\n---\nbody".toList ∧
          ∃ fields, frontmatterMapping oneDocument "---\na: 1\n---\nbody".toList = .ok fields ∧
            frontmatterMapping oneDocument result = .ok (Fields.remove "a".toList fields)) ↔
        uncoversBlock oneDocument "---\na: 1\n---\nbody".toList "a".toList = false)) := by
  refine fieldEdits_touch_one_field_iff oneDocument _ _ _ fun fields hfields => ?_
  rw [oneDocument_mapping _ 13 (by decide +kernel)] at hfields
  obtain rfl := Except.ok.inj hfields
  refine ⟨⟨"a: 1\n".toList, rfl, ⟨by decide, by decide⟩, by decide, rfl⟩, fun hne => ?_⟩
  exact absurd rfl hne

/-- The body of this note starts with a block, which the removal of the last field turns into
the frontmatter of the note. -/
theorem remove_uncovers_nested_block :
    removeFrontmatterField oneDocument "---\na: 1\n---\n---\nb: 2\n---\nrest".toList "a".toList =
        .ok "---\nb: 2\n---\nrest".toList ∧
      getBody "---\na: 1\n---\n---\nb: 2\n---\nrest".toList = "---\nb: 2\n---\nrest".toList ∧
      getBody "---\nb: 2\n---\nrest".toList = "rest".toList ∧
      frontmatterMapping oneDocument "---\na: 1\n---\n---\nb: 2\n---\nrest".toList =
        .ok [("a".toList, .number (.posInt 1))] ∧
      frontmatterMapping oneDocument "---\nb: 2\n---\nrest".toList =
        .ok [("b".toList, .number (.posInt 2))] := by
  have hbody : getBody "---\na: 1\n---\n---\nb: 2\n---\nrest".toList =
      "---\nb: 2\n---\nrest".toList := by decide +kernel
  have hold : extractRawFrontmatter "---\na: 1\n---\n---\nb: 2\n---\nrest".toList =
      some ("a: 1\n".toList, 13) := by decide +kernel
  have hnew : extractRawFrontmatter "---\nb: 2\n---\nrest".toList =
      some ("b: 2\n".toList, 13) := by decide +kernel
  refine ⟨?_, hbody, by decide +kernel, oneDocument_mapping _ 13 hold, ?_⟩
  · rw [removeFrontmatterField, parseFrontmatter, hold, hbody]
    rfl
  · rw [frontmatterMapping, parseFrontmatter, hnew]
    rfl

end ObsidianMcp
