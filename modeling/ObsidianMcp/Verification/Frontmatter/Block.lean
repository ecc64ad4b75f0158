import ObsidianMcp.Library.Fence
import ObsidianMcp.Model.Frontmatter

/-! # The block a frontmatter scan delimits

A note with frontmatter is an opening line followed by a fenced block. The scanner with
its byte offsets is shown to compute exactly this decomposition. -/

namespace ObsidianMcp

open Text

/-- The two accepted spellings of the opening line. -/
inductive Opening where
  | lf
  | crlf

def Opening.text : Opening → Text
  | .lf => "---\n".toList
  | .crlf => "---\r\n".toList

/-- A closing line: three dashes, then carriage returns only. -/
def isDelimiter (line : Text) : Bool :=
  trimEndMatches '\r' line = "---".toList

theorem isDelimiter_iff {line : Text} :
    isDelimiter line = true ↔ trimEndMatches '\r' line = "---".toList := by
  simp [isDelimiter]

theorem ne_nil_of_isDelimiter {line : Text} (h : isDelimiter line = true) : line ≠ [] := by
  rintro rfl
  exact absurd h (by decide)

/-! ## The scanner -/

/-- The loop locates the fence; its offsets are those of the library scanner, moved by the
bytes already passed. -/
theorem closingDelimiter_eq_locate (remaining : Text) (pos : ℕ) :
    (closingDelimiter remaining pos).map (fun r => (r.1, match r.2 with
        | some lineEnd => r.1 + lineEnd + 1
        | none => pos + byteLen remaining)) =
      (locate isDelimiter remaining).map fun r => (pos + r.1, pos + r.2) := by
  fun_induction closingDelimiter remaining pos with
  | case1 remaining pos hn hd =>
      rw [locate_last_line (find_eq_none.mp hn), if_pos (isDelimiter_iff.mpr hd)]
      simp
  | case2 remaining pos hn hd =>
      rw [locate_last_line (find_eq_none.mp hn), if_neg (by simpa [isDelimiter_iff] using hd)]
      rfl
  | case3 remaining pos lineEnd hn hd =>
      obtain ⟨l, rest, rfl, hl, rfl⟩ := find_eq_some.mp hn
      rw [takeBytes_append] at hd
      rw [locate_line hl, if_pos (isDelimiter_iff.mpr hd)]
      simp [Nat.add_assoc]
  | case4 remaining pos lineEnd hn hd ih =>
      obtain ⟨l, rest, rfl, hl, rfl⟩ := find_eq_some.mp hn
      rw [takeBytes_append] at hd
      rw [dropBytes_line] at ih ⊢
      rw [locate_line hl, if_neg (by simpa [isDelimiter_iff] using hd), Option.map_map]
      have hlen : pos + byteLen (l ++ '\n' :: rest) =
          pos + (byteLen l + 1) + byteLen rest := by
        simp [Char.utf8Size]
        omega
      rw [hlen, ih]
      simp only [Function.comp_def, Nat.add_assoc]

/-- Behind an opening line, the raw block and the body start are those of the library
scanner. -/
theorem extractRawFrontmatter_opening (o : Opening) (rest : Text) :
    extractRawFrontmatter (o.text ++ rest) =
      (locate isDelimiter rest).map fun r => (takeBytes r.1 rest, byteLen o.text + r.2) := by
  have hscan := closingDelimiter_eq_locate rest 0
  have hopen : (if "---\n".toList.isPrefixOf (o.text ++ rest) then some 4
      else if "---\r\n".toList.isPrefixOf (o.text ++ rest) then some 5
      else none) = some (byteLen o.text) := by
    cases o <;> rfl
  rw [extractRawFrontmatter]
  simp only [hopen, dropBytes_append]
  cases hc : closingDelimiter rest 0 with
  | none =>
      rw [hc, Option.map_none, eq_comm, Option.map_eq_none_iff] at hscan
      simp [hscan]
  | some r =>
      obtain ⟨pos, lineEnd⟩ := r
      rw [hc, Option.map_some, eq_comm, Option.map_eq_some_iff] at hscan
      obtain ⟨s, hs, heq⟩ := hscan
      obtain ⟨hpos, hend⟩ := Prod.mk.inj heq
      simp only [Nat.zero_add] at hpos hend
      cases lineEnd with
      | none => simp [hs, ← hpos, hend]
      | some e =>
          simp only at hend
          simp [hs, ← hpos, hend, Nat.add_assoc]

/-- Without an opening line there is no frontmatter. -/
theorem exists_opening_of_extract {content : Text} {r : Text × ℕ}
    (h : extractRawFrontmatter content = some r) :
    ∃ (o : Opening) (rest : Text), content = o.text ++ rest := by
  by_cases hlf : "---\n".toList.isPrefixOf content
  · obtain ⟨rest, hrest⟩ := List.isPrefixOf_iff_prefix.mp hlf
    exact ⟨.lf, rest, hrest.symm⟩
  · by_cases hcrlf : "---\r\n".toList.isPrefixOf content
    · obtain ⟨rest, hrest⟩ := List.isPrefixOf_iff_prefix.mp hcrlf
      exact ⟨.crlf, rest, hrest.symm⟩
    · rw [extractRawFrontmatter, if_neg hlf, if_neg hcrlf] at h
      cases h

/-! ## Notes with a block -/

/-- The text of a note with this opening line and block. -/
def renderNote (o : Opening) (b : Fenced isDelimiter) : Text :=
  o.text ++ b.render

/-- The part of the note up to the body. -/
def noteHead (o : Opening) (b : Fenced isDelimiter) : Text :=
  o.text ++ (b.inner ++ b.closing)

theorem renderNote_eq (o : Opening) (b : Fenced isDelimiter) :
    renderNote o b = noteHead o b ++ b.body := by
  simp [renderNote, noteHead, Fenced.render]

@[simp] theorem extractRawFrontmatter_renderNote (o : Opening) (b : Fenced isDelimiter) :
    extractRawFrontmatter (renderNote o b) = some (b.inner, byteLen (noteHead o b)) := by
  rw [renderNote, extractRawFrontmatter_opening, locate_render]
  simp [Fenced.render, noteHead]

@[simp] theorem getBody_renderNote (o : Opening) (b : Fenced isDelimiter) :
    getBody (renderNote o b) = b.body := by
  rw [getBody, extractRawFrontmatter_renderNote]
  simp only
  rw [renderNote_eq, dropBytes_append]

/-- The scan succeeds exactly on the notes that have a block, and then delimits it. -/
theorem extractRawFrontmatter_eq_some {content : Text} {r : Text × ℕ} :
    extractRawFrontmatter content = some r ↔ ∃ (o : Opening) (b : Fenced isDelimiter),
      content = renderNote o b ∧ r = (b.inner, byteLen (noteHead o b)) := by
  constructor
  · intro h
    obtain ⟨o, rest, rfl⟩ := exists_opening_of_extract h
    have hlocate := h
    rw [extractRawFrontmatter_opening, Option.map_eq_some_iff] at hlocate
    obtain ⟨s, hs, -⟩ := hlocate
    obtain ⟨b, rfl, -⟩ := locate_eq_some.mp hs
    refine ⟨o, b, rfl, ?_⟩
    rw [← renderNote, extractRawFrontmatter_renderNote] at h
    exact (Option.some.inj h).symm
  · rintro ⟨o, b, rfl, rfl⟩
    exact extractRawFrontmatter_renderNote o b

/-- The fields read are those of the raw block; a blank block has none. -/
theorem parseFrontmatter_renderNote {yaml : SerdeYaml} {o : Opening} {b : Fenced isDelimiter}
    {fields : Fields} :
    parseFrontmatter yaml (renderNote o b) = .ok (some (.object fields)) ↔
      (trim b.inner = [] ∧ fields = []) ∨
        (trim b.inner ≠ [] ∧ yaml.fromStrJson b.inner = .ok (.object fields)) := by
  rw [parseFrontmatter, extractRawFrontmatter_renderNote]
  simp only
  by_cases hblank : trim b.inner = []
  · simp [hblank, eq_comm]
  · simp only [hblank, if_false, false_and, ne_eq, not_false_eq_true, true_and, false_or]
    split <;> simp_all

/-- The frontmatter read depends on the raw block only. -/
theorem parseFrontmatter_renderNote_congr (yaml : SerdeYaml) (o o' : Opening)
    {b b' : Fenced isDelimiter} (h : b.inner = b'.inner) :
    parseFrontmatter yaml (renderNote o b) = parseFrontmatter yaml (renderNote o' b') := by
  simp only [parseFrontmatter, extractRawFrontmatter_renderNote, h]

/-! ## Blocks written by the YAML writer -/

/-- Whole lines, none of them a delimiter: what can stand inside a block. -/
structure BlockText (text : Text) : Prop where
  ends_line : text.getLast? = some '\n'
  no_delimiter : ∀ line ∈ text.splitOn '\n', isDelimiter line = false

/-- Such a text between two delimiter lines is the block that a scan finds. -/
theorem BlockText.exists_note {text : Text} (h : BlockText text) (body : Text) :
    ∃ b : Fenced isDelimiter, b.inner = text ∧ b.body = body ∧
      "---\n".toList ++ text ++ "---\n".toList ++ body = renderNote .lf b := by
  have hfence : isDelimiter "---".toList = true := by decide
  obtain ⟨b, hinner, hbody, hrender⟩ :=
    exists_fenced_of_lines h.ends_line h.no_delimiter (by decide) hfence body
  refine ⟨b, hinner, hbody, ?_⟩
  rw [renderNote, hrender]
  simp [Opening.text]

end ObsidianMcp
