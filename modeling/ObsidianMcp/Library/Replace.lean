import ObsidianMcp.Library.Text

/-! # Replacing marks between separators

A text is a list of segments with a separator between them. Replacing every occurrence of a segment
with its two separators merges segments. -/

namespace ObsidianMcp.Text

/-- Replace the occurrences of a pattern from the left, when `skip` characters belong to the last. -/
def replaceFrom (pattern replacement : Text) : ℕ → Text → Text
  | _, [] => []
  | skip + 1, _ :: t => replaceFrom pattern replacement skip t
  | 0, c :: t =>
      if pattern.isPrefixOf (c :: t) then
        replacement ++ replaceFrom pattern replacement (pattern.length - 1) t
      else c :: replaceFrom pattern replacement 0 t

/-- Replace all occurrences of a pattern that is not empty. -/
def replace (pattern replacement t : Text) : Text :=
  replaceFrom pattern replacement 0 t

/-- A segment and more segments, with separators between them. -/
def joinOn (c : Char) : Text → List Text → Text
  | s, [] => s
  | s, t :: rest => s ++ c :: joinOn c t rest

/-- The segments after every segment `mark` between two others is replaced; merged segments are not
looked at again. -/
def mergeOn (mark replacement : Text) : Text → List Text → Text × List Text
  | s, t :: u :: rest =>
      if t = mark then mergeOn mark replacement (s ++ replacement ++ u) rest
      else
        let merged := mergeOn mark replacement t (u :: rest)
        (s, merged.1 :: merged.2)
  | s, rest => (s, rest)

variable {c : Char} {mark replacement s t : Text}

@[simp] theorem replace_nil (pattern replacement : Text) : replace pattern replacement [] = [] := rfl

@[simp] theorem mergeOn_nil (mark replacement s : Text) :
    mergeOn mark replacement s [] = (s, []) := rfl

@[simp] theorem mergeOn_singleton (mark replacement s t : Text) :
    mergeOn mark replacement s [t] = (s, [t]) := rfl

theorem replaceFrom_drop (pattern replacement : Text) (n : ℕ) (t : Text) :
    replaceFrom pattern replacement n t = replaceFrom pattern replacement 0 (t.drop n) := by
  induction n generalizing t with
  | zero => rfl
  | succ n ih =>
      cases t with
      | nil => rfl
      | cons c t => exact ih t

theorem replace_append_of_not_mem (hs : c ∉ s) :
    replace (c :: mark) replacement (s ++ t) = s ++ replace (c :: mark) replacement t := by
  induction s with
  | nil => rfl
  | cons d s ih =>
      rw [List.mem_cons, not_or] at hs
      rw [replace, List.cons_append, replaceFrom, if_neg]
      · exact congrArg (d :: ·) (ih hs.2)
      · rw [List.isPrefixOf_iff_prefix]
        intro h
        exact hs.1 (List.cons_prefix_cons.mp h).1

theorem replace_pattern (pattern replacement t : Text) (h : pattern ≠ []) :
    replace pattern replacement (pattern ++ t) = replacement ++ replace pattern replacement t := by
  cases pattern with
  | nil => contradiction
  | cons d pattern =>
      rw [replace, List.cons_append, replaceFrom, if_pos]
      · rw [replaceFrom_drop, List.length_cons, Nat.add_sub_cancel, List.drop_left, replace]
      · rw [List.isPrefixOf_iff_prefix]
        exact List.prefix_append _ _

/-- A segment is found between two separators only as a whole. -/
theorem mark_prefix_iff (hmark : c ∉ mark) (hs : c ∉ s) :
    mark ++ [c] <+: s ++ c :: t ↔ s = mark := by
  induction mark generalizing s with
  | nil =>
      cases s with
      | nil => simp
      | cons d s => simp [List.ne_of_not_mem_cons hs]
  | cons d mark ih =>
      rw [List.mem_cons, not_or] at hmark
      cases s with
      | nil => simp [Ne.symm hmark.1]
      | cons e s =>
          rw [List.mem_cons, not_or] at hs
          rw [List.cons_append, List.cons_append, List.cons_prefix_cons, ih hmark.2 hs.2,
            List.cons.injEq, eq_comm]

/-- Replacing a mark merges segments. -/
theorem replace_joinOn (hmark : c ∉ mark) (p : Text) {segments : List Text} (hs : c ∉ s)
    (hsegments : ∀ t ∈ segments, c ∉ t) :
    p ++ replace (c :: mark ++ [c]) replacement (joinOn c s segments) =
      joinOn c (mergeOn mark replacement (p ++ s) segments).1
        (mergeOn mark replacement (p ++ s) segments).2 := by
  have hplain : ∀ {s}, c ∉ s → replace (c :: mark ++ [c]) replacement s = s := by
    intro s hs
    have h := @replace_append_of_not_mem c (mark ++ [c]) replacement s [] hs
    rwa [List.append_nil, replace_nil, List.append_nil] at h
  induction segments using List.twoStepInduction generalizing p s with
  | nil => rw [mergeOn_nil, joinOn, joinOn, hplain hs]
  | singleton t =>
      have ht := hsegments t List.mem_cons_self
      rw [mergeOn_singleton, joinOn, joinOn, joinOn, joinOn, List.cons_append,
        replace_append_of_not_mem hs, replace, replaceFrom, if_neg]
      · have htext := hplain ht
        rw [replace, List.cons_append] at htext
        rw [htext, List.append_assoc]
      · rw [List.isPrefixOf_iff_prefix, List.cons_prefix_cons]
        intro h
        exact ht (h.2.subset (List.mem_append_right _ List.mem_cons_self))
  | cons_cons t u rest ih ih' =>
      have ht := hsegments t List.mem_cons_self
      have hu := hsegments u (List.mem_cons_of_mem _ List.mem_cons_self)
      have hrest : ∀ v ∈ rest, c ∉ v := fun v hv =>
        hsegments v (List.mem_cons_of_mem _ (List.mem_cons_of_mem _ hv))
      rw [joinOn, mergeOn, List.cons_append, replace_append_of_not_mem hs, ← List.cons_append]
      by_cases h : t = mark
      · have hfound : c :: joinOn c t (u :: rest) = (c :: mark ++ [c]) ++ joinOn c u rest := by
          rw [joinOn, h]
          simp
        rw [if_pos h, hfound, replace_pattern (c :: mark ++ [c]) _ _ (by simp),
          ← ih (p ++ s ++ replacement) hu hrest]
        simp only [List.append_assoc]
      · have hskip : replace (c :: mark ++ [c]) replacement (c :: joinOn c t (u :: rest)) =
            c :: replace (c :: mark ++ [c]) replacement (joinOn c t (u :: rest)) := by
          rw [replace, replaceFrom, if_neg]
          · rfl
          · rw [List.isPrefixOf_iff_prefix, List.cons_append, List.cons_prefix_cons, joinOn,
              mark_prefix_iff hmark ht]
            exact fun hprefix => h hprefix.2
        have hlater := ih' u [] ht fun v hv => hsegments v (List.mem_cons_of_mem _ hv)
        rw [List.nil_append, List.nil_append] at hlater
        rw [if_neg h, hskip, hlater, joinOn, List.append_assoc]

/-- A mark that is nowhere between two segments leaves them all. -/
theorem mergeOn_of_ne {segments : List Text} (h : ∀ t ∈ segments.dropLast, t ≠ mark) :
    mergeOn mark replacement s segments = (s, segments) := by
  induction segments using List.twoStepInduction generalizing s with
  | nil => rfl
  | singleton t => rfl
  | cons_cons t u rest ih ih' =>
      rw [List.dropLast_cons_cons] at h
      rw [mergeOn, if_neg (h t List.mem_cons_self),
        ih' u fun v hv => h v (List.mem_cons_of_mem _ hv)]

theorem mem_joinOn {segments : List Text} (h : segments ≠ []) : c ∈ joinOn c s segments := by
  cases segments with
  | nil => contradiction
  | cons t rest =>
      rw [joinOn]
      exact List.mem_append_right _ List.mem_cons_self

end ObsidianMcp.Text
