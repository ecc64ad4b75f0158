import ObsidianMcp.Library.Text

/-! # Blocks closed by a fence line

A block is a run of whole lines ended by the first line that a predicate accepts. The
lines and the fence carry the proofs that they are lines and that only the last one
closes, so a text has at most one decomposition of this shape. -/

namespace ObsidianMcp

open Text

/-- A block of lines, the line that closes it, and the text after that line. The tail is
absent when the closing line ends the text without a line feed. -/
structure Fenced (isFence : Text → Bool) where
  lines : List Text
  fence : Text
  tail : Option Text
  lines_whole : ∀ l ∈ lines, '\n' ∉ l
  lines_open : ∀ l ∈ lines, isFence l = false
  fence_whole : '\n' ∉ fence
  fence_closes : isFence fence = true

namespace Fenced

variable {isFence : Text → Bool}

/-- The lines before the fence. -/
def inner (b : Fenced isFence) : Text :=
  b.lines.flatMap (· ++ ['\n'])

/-- The closing line with its line feed. -/
def closing (b : Fenced isFence) : Text :=
  match b.tail with
  | none => b.fence
  | some _ => b.fence ++ ['\n']

/-- The text after the closing line. -/
def body (b : Fenced isFence) : Text :=
  b.tail.getD []

def render (b : Fenced isFence) : Text :=
  b.inner ++ (b.closing ++ b.body)

/-- The same block closed with a line feed and followed by another text. -/
def withBody (b : Fenced isFence) (body : Text) : Fenced isFence :=
  { b with tail := some body }

@[simp] theorem inner_withBody (b : Fenced isFence) (t : Text) :
    (b.withBody t).inner = b.inner := rfl

@[simp] theorem closing_withBody (b : Fenced isFence) (t : Text) :
    (b.withBody t).closing = b.fence ++ ['\n'] := rfl

@[simp] theorem body_withBody (b : Fenced isFence) (t : Text) :
    (b.withBody t).body = t := rfl

theorem closing_of_tail {b : Fenced isFence} {t : Text} (h : b.tail = some t) :
    b.closing = b.fence ++ ['\n'] := by
  simp [closing, h]

theorem body_of_tail {b : Fenced isFence} {t : Text} (h : b.tail = some t) : b.body = t := by
  simp [body, h]

theorem closing_of_no_tail {b : Fenced isFence} (h : b.tail = none) : b.closing = b.fence := by
  simp [closing, h]

theorem body_of_no_tail {b : Fenced isFence} (h : b.tail = none) : b.body = [] := by
  simp [body, h]

/-- A line in front of a block that does not close it. -/
def cons (l : Text) (hl : '\n' ∉ l) (ho : isFence l = false) (b : Fenced isFence) :
    Fenced isFence where
  lines := l :: b.lines
  fence := b.fence
  tail := b.tail
  lines_whole := by
    intro m hm
    rcases List.mem_cons.mp hm with rfl | hm
    · exact hl
    · exact b.lines_whole m hm
  lines_open := by
    intro m hm
    rcases List.mem_cons.mp hm with rfl | hm
    · exact ho
    · exact b.lines_open m hm
  fence_whole := b.fence_whole
  fence_closes := b.fence_closes

theorem render_cons (l : Text) (hl : '\n' ∉ l) (ho : isFence l = false) (b : Fenced isFence) :
    (b.cons l hl ho).render = l ++ '\n' :: b.render := by
  simp [render, inner, closing, body, cons]

/-- The same block under a predicate that accepts fewer lines, among them the fence. -/
def narrow {isFence' : Text → Bool} (b : Fenced isFence)
    (h : ∀ l, isFence' l = true → isFence l = true) (hf : isFence' b.fence = true) :
    Fenced isFence' where
  lines := b.lines
  fence := b.fence
  tail := b.tail
  lines_whole := b.lines_whole
  lines_open l hl := by
    rw [Bool.eq_false_iff]
    intro hl'
    exact Bool.false_ne_true ((b.lines_open l hl).symm.trans (h l hl'))
  fence_whole := b.fence_whole
  fence_closes := hf

end Fenced

/-! ## Scanning -/

/-- The byte offsets of the first fence line and of the text after it. -/
def locate (isFence : Text → Bool) (t : Text) : Option (ℕ × ℕ) :=
  match h : find '\n' t with
  | none => if isFence t then some (0, byteLen t) else none
  | some n =>
      if isFence (takeBytes n t) then some (0, n + 1)
      else (locate isFence (dropBytes (n + 1) t)).map fun r => (n + 1 + r.1, n + 1 + r.2)
termination_by t.length
decreasing_by exact length_dropBytes_find h

variable {isFence : Text → Bool}

theorem locate_last_line {t : Text} (h : '\n' ∉ t) :
    locate isFence t = if isFence t then some (0, byteLen t) else none := by
  rw [locate]
  split
  · rfl
  · rename_i n hn
    rw [find_eq_none.mpr h] at hn
    cases hn

theorem locate_line {l : Text} (hl : '\n' ∉ l) (rest : Text) :
    locate isFence (l ++ '\n' :: rest) =
      if isFence l then some (0, byteLen l + 1)
      else (locate isFence rest).map fun r => (byteLen l + 1 + r.1, byteLen l + 1 + r.2) := by
  rw [locate]
  split
  · rename_i hn
    rw [find_append_cons hl] at hn
    cases hn
  · rename_i n hn
    rw [find_append_cons hl] at hn
    obtain rfl := Option.some.inj hn
    rw [takeBytes_append, dropBytes_line]

/-- Scanning a rendered block finds its fence and its body. -/
theorem locate_render (b : Fenced isFence) :
    locate isFence b.render =
      some (byteLen b.inner, byteLen b.inner + byteLen b.closing) := by
  obtain ⟨lines, fence, tail, hwhole, hopen, hfence, hcloses⟩ := b
  induction lines with
  | nil =>
      cases tail with
      | none =>
          simp [Fenced.render, Fenced.inner, Fenced.closing, Fenced.body,
            locate_last_line hfence, hcloses]
      | some t =>
          simp [Fenced.render, Fenced.inner, Fenced.closing, Fenced.body,
            locate_line hfence, hcloses, Char.utf8Size]
  | cons l lines ih =>
      have hl : '\n' ∉ l := hwhole l (by simp)
      have ho : isFence l = false := hopen l (by simp)
      have hrest := ih (fun m hm => hwhole m (by simp [hm])) (fun m hm => hopen m (by simp [hm]))
      rw [show Fenced.render ⟨l :: lines, fence, tail, hwhole, hopen, hfence, hcloses⟩ =
          l ++ '\n' :: Fenced.render ⟨lines, fence, tail, fun m hm => hwhole m (by simp [hm]),
            fun m hm => hopen m (by simp [hm]), hfence, hcloses⟩ by
        simp [Fenced.render, Fenced.inner, Fenced.closing, Fenced.body]]
      rw [locate_line hl, ho, hrest]
      simp [Fenced.inner, Fenced.closing, Char.utf8Size, Nat.add_assoc]

/-- Whatever the scanner finds is the fence of a block that the text spells. -/
theorem exists_render_of_locate {t : Text} {r : ℕ × ℕ} (h : locate isFence t = some r) :
    ∃ b : Fenced isFence, b.render = t := by
  fun_induction locate isFence t generalizing r with
  | case1 t hn hf =>
      exact ⟨⟨[], t, none, by simp, by simp, find_eq_none.mp hn, hf⟩, by
        simp [Fenced.render, Fenced.inner, Fenced.closing, Fenced.body]⟩
  | case2 t hn hf => cases h
  | case3 t n hn hf =>
      obtain ⟨l, rest, rfl, hl, rfl⟩ := find_eq_some.mp hn
      rw [takeBytes_append] at hf
      exact ⟨⟨[], l, some rest, by simp, by simp, hl, hf⟩, by
        simp [Fenced.render, Fenced.inner, Fenced.closing, Fenced.body]⟩
  | case4 t n hn hf ih =>
      obtain ⟨l, rest, rfl, hl, rfl⟩ := find_eq_some.mp hn
      rw [takeBytes_append, Bool.not_eq_true] at hf
      obtain ⟨s, hs, -⟩ := Option.map_eq_some_iff.mp h
      obtain ⟨b, hb⟩ := ih hs
      exact ⟨b.cons l hl hf, by rw [Fenced.render_cons, hb, dropBytes_line]⟩

/-- The scanner decides whether a text opens with a fenced block. -/
theorem locate_eq_some {t : Text} {r : ℕ × ℕ} :
    locate isFence t = some r ↔ ∃ b : Fenced isFence, b.render = t ∧
      r = (byteLen b.inner, byteLen b.inner + byteLen b.closing) := by
  constructor
  · intro h
    obtain ⟨b, hb⟩ := exists_render_of_locate h
    refine ⟨b, hb, ?_⟩
    rw [← hb, locate_render] at h
    exact (Option.some.inj h).symm
  · rintro ⟨b, rfl, rfl⟩
    exact locate_render b

/-! ## Lines -/

/-- A text that ends with a line feed is a list of whole lines. -/
theorem exists_lines {t : Text} (h : t.getLast? = some '\n') :
    ∃ lines : List Text, (∀ l ∈ lines, '\n' ∉ l) ∧ t = lines.flatMap (· ++ ['\n']) ∧
      t.splitOn '\n' = lines ++ [[]] := by
  induction hn : t.length using Nat.strong_induction_on generalizing t with
  | _ n ih =>
      subst hn
      have hmem : '\n' ∈ t := List.mem_of_getLast? h
      obtain ⟨n, hn⟩ := Option.ne_none_iff_exists'.mp (mt find_eq_none.mp (not_not.mpr hmem))
      obtain ⟨l, rest, rfl, hl, -⟩ := find_eq_some.mp hn
      cases hrest : rest with
      | nil => exact ⟨[l], by simpa using hl, by simp, by simp [List.splitOn_append_cons_self_of_not_mem hl]⟩
      | cons c cs =>
          subst hrest
          have hlast : (c :: cs).getLast? = some '\n' := by
            simpa [List.getLast?_append, List.getLast?_cons_cons] using h
          obtain ⟨lines, hwhole, htext, hsplit⟩ :=
            ih (c :: cs).length (by simp; omega) hlast rfl
          refine ⟨l :: lines, ?_, ?_, ?_⟩
          · intro m hm
            rcases List.mem_cons.mp hm with rfl | hm
            · exact hl
            · exact hwhole m hm
          · simp [htext]
          · rw [List.splitOn_append_cons_self_of_not_mem hl, hsplit, List.cons_append]

/-- Whole lines that do not close, put in front of a fence and a body. -/
theorem exists_fenced_of_lines {t : Text} (h : t.getLast? = some '\n')
    (hopen : ∀ l ∈ t.splitOn '\n', isFence l = false) {fence : Text} (hfence : '\n' ∉ fence)
    (hcloses : isFence fence = true) (body : Text) :
    ∃ b : Fenced isFence, b.inner = t ∧ b.body = body ∧
      b.render = t ++ (fence ++ '\n' :: body) := by
  obtain ⟨lines, hwhole, htext, hsplit⟩ := exists_lines h
  refine ⟨⟨lines, fence, some body, hwhole, ?_, hfence, hcloses⟩, ?_, rfl, ?_⟩
  · intro l hl
    exact hopen l (by simp [hsplit, hl])
  · simp [Fenced.inner, htext]
  · simp [Fenced.render, Fenced.inner, Fenced.closing, Fenced.body, htext]

end ObsidianMcp
