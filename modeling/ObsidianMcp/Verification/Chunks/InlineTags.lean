import Mathlib.Data.List.Destutter
import ObsidianMcp.Model.InlineTags

/-! # The bound of the inline tags

One pass over two sorted lists counts the tags that a binary search for each of them keeps. -/

namespace ObsidianMcp.InlineTags

open Text

variable {ranges : List (ℕ × ℕ)} {tags : List (ℕ × Text)} {offset : ℕ}

/-- The ranges are in order and disjoint; they may be empty and may touch. -/
structure Disjoint (ranges : List (ℕ × ℕ)) : Prop where
  range_le : ∀ range ∈ ranges, range.1 ≤ range.2
  ordered : ranges.Pairwise fun a b => a.2 ≤ b.1

/-- The matches are in order. -/
def SortedTags (tags : List (ℕ × Text)) : Prop :=
  tags.Pairwise fun a b => a.1 ≤ b.1

theorem Disjoint.tail {range : ℕ × ℕ} (h : Disjoint (range :: ranges)) : Disjoint ranges :=
  ⟨fun other hmem => h.range_le other (List.mem_cons_of_mem _ hmem),
    (List.pairwise_cons.mp h.ordered).2⟩

theorem Disjoint.le_start {range other : ℕ × ℕ} (h : Disjoint (range :: ranges))
    (hmem : other ∈ ranges) : range.2 ≤ other.1 :=
  (List.pairwise_cons.mp h.ordered).1 other hmem

/-! ## The binary search -/

theorem compareRange_eq_gt {range : ℕ × ℕ} : compareRange offset range = .gt ↔ offset < range.1 := by
  unfold compareRange
  split_ifs with hstart hstop <;> simp [*]

theorem compareRange_eq_lt {range : ℕ × ℕ} :
    compareRange offset range = .lt ↔ range.1 ≤ offset ∧ range.2 ≤ offset := by
  unfold compareRange
  split_ifs with hstart hstop
  · simp [hstart]
  · simp [hstop, not_lt.mp hstart]
  · simp [hstop]

theorem compareRange_eq_eq {range : ℕ × ℕ} :
    compareRange offset range = .eq ↔ range.1 ≤ offset ∧ offset < range.2 := by
  unfold compareRange
  split_ifs with hstart hstop
  · simp [hstart]
  · simp [not_lt.mpr hstop]
  · simp [not_lt.mp hstart, not_le.mp hstop]

/-- Ranges in order are in the order of the search. -/
theorem Disjoint.search_ordered (h : Disjoint ranges) (offset : ℕ) :
    BinarySearch.Ordered (compareRange offset) ranges := by
  refine h.ordered.imp_of_mem fun {a b} ha hb hab => ?_
  have hale := h.range_le a ha
  have hble := h.range_le b hb
  rw [compareRange_eq_lt, compareRange_eq_lt, compareRange_eq_gt, compareRange_eq_gt]
  omega

/-- The search finds out whether some range contains the offset. -/
theorem isInCodeBlock_iff (h : Disjoint ranges) :
    isInCodeBlock offset ranges = true ↔ ∃ range ∈ ranges, range.1 ≤ offset ∧ offset < range.2 := by
  have hfound := BinarySearch.binarySearchBy_ok_iff (h.search_ordered offset)
  simp only [compareRange_eq_eq] at hfound
  rw [← hfound, isInCodeBlock]
  cases BinarySearch.binarySearchBy (compareRange offset) ranges <;> simp

/-- An offset in front of the ranges is in none of them. -/
theorem isInCodeBlock_before (h : Disjoint ranges)
    (hbefore : ∀ range ∈ ranges, offset < range.1) : isInCodeBlock offset ranges = false := by
  rw [Bool.eq_false_iff, ne_eq, isInCodeBlock_iff h]
  rintro ⟨range, hmem, hle, -⟩
  exact absurd (hbefore range hmem) (not_lt.mpr hle)

/-- Behind the first range only the others matter. -/
theorem isInCodeBlock_behind {range : ℕ × ℕ} (h : Disjoint (range :: ranges))
    (hbehind : range.2 ≤ offset) :
    isInCodeBlock offset (range :: ranges) = isInCodeBlock offset ranges := by
  rw [Bool.eq_iff_iff, isInCodeBlock_iff h, isInCodeBlock_iff h.tail]
  constructor
  · rintro ⟨other, hmem, hle, hlt⟩
    obtain rfl | hmem := List.mem_cons.mp hmem
    · omega
    · exact ⟨other, hmem, hle, hlt⟩
  · rintro ⟨other, hmem, hrange⟩
    exact ⟨other, List.mem_cons_of_mem _ hmem, hrange⟩

/-! ## One range -/

/-- What a sorted list keeps from a limit on is not in front of it. -/
theorem le_of_mem_dropWhile {limit : ℕ} {tag : ℕ × Text} (h : SortedTags tags)
    (hmem : tag ∈ tags.dropWhile fun tag => tag.1 < limit) : limit ≤ tag.1 := by
  have hpartition : tags.Pairwise fun a b =>
      decide (b.1 < limit) = true → decide (a.1 < limit) = true := by
    refine h.imp fun {a b} hab => ?_
    simp only [decide_eq_true_eq]
    omega
  have hfail := BinarySearch.fail_of_mem_dropWhile hpartition hmem
  simpa using hfail

theorem SortedTags.dropWhile (h : SortedTags tags) (p : ℕ × Text → Bool) :
    SortedTags (tags.dropWhile p) :=
  List.Pairwise.sublist (List.dropWhile_sublist p) h

/-- The kept tags are those in front of the first range and those kept behind it. -/
theorem keptTags_cons {range : ℕ × ℕ} (h : Disjoint (range :: ranges)) (htags : SortedTags tags) :
    keptTags (range :: ranges) tags =
      (tags.takeWhile fun tag => tag.1 < range.1) ++
        keptTags ranges ((tags.dropWhile fun tag => tag.1 < range.1).dropWhile
          fun tag => tag.1 < range.2) := by
  have hrange := h.range_le range List.mem_cons_self
  have hbefore : keptTags (range :: ranges) (tags.takeWhile fun tag => tag.1 < range.1) =
      tags.takeWhile fun tag => tag.1 < range.1 := by
    rw [keptTags, List.filter_eq_self]
    intro tag hmem
    have hlt : tag.1 < range.1 := by simpa using List.mem_takeWhile_imp hmem
    rw [isInCodeBlock_before h]
    · rfl
    · intro other hother
      obtain rfl | hother := List.mem_cons.mp hother
      · exact hlt
      · have := h.le_start hother
        omega
  have hinside : keptTags (range :: ranges) ((tags.dropWhile fun tag => tag.1 < range.1).takeWhile
      fun tag => tag.1 < range.2) = [] := by
    rw [keptTags, List.filter_eq_nil_iff]
    intro tag hmem
    have hle := le_of_mem_dropWhile htags ((List.takeWhile_prefix _).subset hmem)
    have hlt : tag.1 < range.2 := by simpa using List.mem_takeWhile_imp hmem
    have hin : isInCodeBlock tag.1 (range :: ranges) = true :=
      (isInCodeBlock_iff h).mpr ⟨range, List.mem_cons_self, hle, hlt⟩
    simp [hin]
  have hbehind : ∀ tag ∈ (tags.dropWhile fun tag => tag.1 < range.1).dropWhile
      (fun tag => tag.1 < range.2), range.2 ≤ tag.1 :=
    fun tag hmem => le_of_mem_dropWhile (htags.dropWhile _) hmem
  have hafter : keptTags (range :: ranges) ((tags.dropWhile fun tag => tag.1 < range.1).dropWhile
      fun tag => tag.1 < range.2) = keptTags ranges ((tags.dropWhile
        fun tag => tag.1 < range.1).dropWhile fun tag => tag.1 < range.2) := by
    rw [keptTags, keptTags]
    refine List.filter_congr fun tag hmem => ?_
    rw [isInCodeBlock_behind h (hbehind tag hmem)]
  calc keptTags (range :: ranges) tags
      = keptTags (range :: ranges) ((tags.takeWhile fun tag => tag.1 < range.1) ++
          ((tags.dropWhile fun tag => tag.1 < range.1).takeWhile (fun tag => tag.1 < range.2) ++
            (tags.dropWhile fun tag => tag.1 < range.1).dropWhile fun tag => tag.1 < range.2)) := by
        rw [List.takeWhile_append_dropWhile, List.takeWhile_append_dropWhile]
    _ = _ := by
        rw [keptTags, List.filter_append, List.filter_append, ← keptTags, ← keptTags, ← keptTags,
          hbefore, hinside, hafter, List.nil_append]

/-! ## The pass -/

theorem keptTags_nil (tags : List (ℕ × Text)) : keptTags [] tags = tags := by
  have hnone : ∀ offset, isInCodeBlock offset [] = false := fun _ => rfl
  simp [keptTags, hnone]

theorem tagBytes_append (a b : List (ℕ × Text)) : tagBytes (a ++ b) = tagBytes a + tagBytes b := by
  simp [tagBytes]

/-- The pass sees the ranges in the order in which they are collected. -/
theorem countEvents_eq (events : Events) (blockStart : Option ℕ) (counted : Counted) :
    countEvents blockStart counted events =
      (codeBlockRanges blockStart events).foldl Counted.exclude counted := by
  induction events generalizing blockStart counted with
  | nil => rfl
  | cons event events ih =>
      rw [countEvents, codeBlockRanges]
      cases hexclusion : exclusion blockStart event with
      | mk next range =>
          cases range with
          | none => simp [ih]
          | some range => simp [ih]

/-- After some ranges, the counted tags and those kept of the rest are the kept ones. -/
theorem foldl_exclude (h : Disjoint ranges) {counted : Counted} (htags : SortedTags counted.tags) :
    (ranges.foldl Counted.exclude counted).exclusions = counted.exclusions + ranges.length ∧
      (ranges.foldl Counted.exclude counted).tagCount +
          (ranges.foldl Counted.exclude counted).tags.length =
        counted.tagCount + (keptTags ranges counted.tags).length ∧
      (ranges.foldl Counted.exclude counted).tagBytes +
          tagBytes (ranges.foldl Counted.exclude counted).tags =
        counted.tagBytes + tagBytes (keptTags ranges counted.tags) := by
  induction ranges generalizing counted with
  | nil => simp [keptTags_nil]
  | cons range ranges ih =>
      obtain ⟨hexclusions, hcount, hbytes⟩ :=
        @ih h.tail (counted.exclude range) ((htags.dropWhile _).dropWhile _)
      rw [List.foldl_cons, hexclusions, hcount, hbytes, keptTags_cons h htags]
      simp only [Counted.exclude, List.length_cons, List.length_append, tagBytes_append]
      omega

/-- The pass counts the kept tags and their bytes. -/
theorem countTags_eq {events : Events} (h : Disjoint (codeBlockRanges none events))
    (htags : SortedTags tags) :
    (countTags events tags).exclusions = (codeBlockRanges none events).length ∧
      (countTags events tags).tagCount = (keptTags (codeBlockRanges none events) tags).length ∧
      (countTags events tags).tagBytes = tagBytes (keptTags (codeBlockRanges none events) tags) := by
  have hfold := @foldl_exclude _ h ⟨tags, 0, 0, 0⟩ htags
  simp only [countTags, countEvents_eq]
  simpa using hfold

/-! ## Capacities -/

theorem le_nextPowerOfTwo (n : ℕ) : n ≤ nextPowerOfTwo n :=
  Nat.le_pow_clog (by decide) n

theorem nextPowerOfTwo_succ_of_lt {n : ℕ} (h : n < nextPowerOfTwo n) :
    nextPowerOfTwo (n + 1) = nextPowerOfTwo n := by
  have hne : 2 ^ Nat.clog 2 n ≠ n := by
    unfold nextPowerOfTwo at h
    omega
  rw [nextPowerOfTwo, nextPowerOfTwo, (Nat.clog_eq_clog_succ_iff one_lt_two).mpr hne]

theorem nextPowerOfTwo_succ_of_eq {n : ℕ} (h : nextPowerOfTwo n = n) :
    nextPowerOfTwo (n + 1) = 2 * n := by
  unfold nextPowerOfTwo at h ⊢
  have hlt : Nat.clog 2 n < Nat.clog 2 (n + 1) := (Nat.clog_lt_clog_succ_iff one_lt_two).mpr h
  have hle : Nat.clog 2 (n + 1) ≤ Nat.clog 2 n + 1 := by
    refine Nat.clog_le_of_le_pow ?_
    have hpos : 0 < 2 ^ Nat.clog 2 n := by positivity
    rw [pow_succ]
    omega
  rw [show Nat.clog 2 (n + 1) = Nat.clog 2 n + 1 by omega, pow_succ, h, Nat.mul_comm]

/-- A vector grows to the next power of two, and to no less than four. -/
theorem pushedCapacity_eq (length : ℕ) :
    pushedCapacity length = if length = 0 then 0 else max (nextPowerOfTwo length) 4 := by
  induction length with
  | zero => rfl
  | succ length ih =>
      have hle := le_nextPowerOfTwo length
      rw [pushedCapacity, ih, if_neg (Nat.succ_ne_zero length), grow]
      by_cases hzero : length = 0
      · simp [hzero, nextPowerOfTwo]
      · rw [if_neg hzero]
        by_cases hlt : length < nextPowerOfTwo length
        · -- the power has room for one more
          rw [nextPowerOfTwo_succ_of_lt hlt, if_pos (by omega)]
        · have heq : nextPowerOfTwo length = length := by omega
          have hthree : length ≠ 3 := by
            rintro rfl
            exact absurd heq (by decide)
          rw [nextPowerOfTwo_succ_of_eq heq, heq]
          split_ifs with hfour <;> omega

/-- A capacity is bounded as far as it can be allocated. -/
theorem allocationCapacityBound_eq (length : ℕ) :
    allocationCapacityBound length = min (pushedCapacity length) usizeMax := by
  rw [allocationCapacityBound, pushedCapacity_eq]
  have hfour : 4 ≤ usizeMax := by decide
  split_ifs with hzero hle
  · simp
  · omega
  · omega

/-- The bound is the size of what extraction allocates, as far as that can be allocated. -/
theorem inlineTagAllocationBound_eq {events : Events} (h : Disjoint (codeBlockRanges none events))
    (htags : SortedTags tags) :
    inlineTagAllocationBound events tags = min (extractionBytes events tags) usizeMax := by
  obtain ⟨hexclusions, hcount, hbytes⟩ := countTags_eq h htags
  by_cases hnil : tags = []
  · simp [inlineTagAllocationBound, extractionBytes, hnil]
  · simp only [inlineTagAllocationBound, extractionBytes, hnil, if_false, hexclusions, hcount,
      hbytes, saturatingAdd, saturatingMul, allocationCapacityBound_eq, rangeSize, stringSize]
    omega

/-! ## Extraction -/

/-- A search in disjoint ranges finds what a look at each of them finds. -/
theorem isInCodeBlock_eq_any (h : Disjoint ranges) (offset : ℕ) :
    isInCodeBlock offset ranges = ObsidianMcp.isInCodeBlock offset ranges := by
  rw [Bool.eq_iff_iff, isInCodeBlock_iff h]
  simp [ObsidianMcp.isInCodeBlock]

/-- A match starts no earlier than the characters that may belong to it. -/
theorem le_of_mem_inlineTagsFrom {isWord : Char → Bool} {t : Text} {pos skip : ℕ} {lineStart : Bool}
    {tag : ℕ × Text} (hmem : tag ∈ inlineTagsFrom isWord pos skip lineStart t) :
    pos + skip ≤ tag.1 := by
  induction t generalizing pos skip lineStart with
  | nil => cases skip <;> simp [inlineTagsFrom] at hmem
  | cons c t ih =>
      have hsize := c.utf8Size_pos
      cases skip with
      | succ skip =>
          have := ih hmem
          omega
      | zero =>
          rw [inlineTagsFrom] at hmem
          split at hmem
          · obtain rfl | hmem := List.mem_cons.mp hmem
            · simp
            · have := ih hmem
              omega
          · have := ih hmem
            omega

/-- The matches of a text are found in order. -/
theorem sortedTags_inlineTagsFrom (isWord : Char → Bool) (t : Text) (pos skip : ℕ)
    (lineStart : Bool) : SortedTags (inlineTagsFrom isWord pos skip lineStart t) := by
  induction t generalizing pos skip lineStart with
  | nil => cases skip <;> exact List.Pairwise.nil
  | cons c t ih =>
      cases skip with
      | succ skip => exact ih _ _ _
      | zero =>
          rw [inlineTagsFrom]
          split
          · rename_i mark tag _
            refine List.pairwise_cons.mpr ⟨fun other hmem => ?_, ih _ _ _⟩
            have := le_of_mem_inlineTagsFrom hmem
            have hsize := c.utf8Size_pos
            omega
          · exact ih _ _ _

/-- The tags of a note are extracted from its matches. -/
theorem extractInlineTags_note {source : NoteSource} {content : Text} {events : Events}
    (hevents : source.md.codeBlockRanges content = codeBlockRanges none events)
    (h : Disjoint (codeBlockRanges none events)) :
    ObsidianMcp.extractInlineTags source content =
      extractInlineTags events (inlineTagsFrom source.isWord 0 0 true content) := by
  rw [ObsidianMcp.extractInlineTags, extractInlineTags, hevents]
  split_ifs with hnil
  · simp [hnil, sortedDedup]
  · simp only [keptTags, isInCodeBlock_eq_any h]

/-- The pass counts the tags that extraction keeps, and reserves what extraction allocates. -/
theorem reserved_as_extracted {events : Events} {tags : List (ℕ × Text)}
    (hranges : Disjoint (codeBlockRanges none events)) (htags : SortedTags tags) :
    (countTags events tags).exclusions = (codeBlockRanges none events).length ∧
      (countTags events tags).tagCount = (keptTags (codeBlockRanges none events) tags).length ∧
      (countTags events tags).tagBytes = tagBytes (keptTags (codeBlockRanges none events) tags) ∧
      (∀ tag, tag ∈ keptTags (codeBlockRanges none events) tags ↔ tag ∈ tags ∧
        ∀ range ∈ codeBlockRanges none events, ¬ (range.1 ≤ tag.1 ∧ tag.1 < range.2)) ∧
      extractInlineTags events tags =
        sortedDedup ((keptTags (codeBlockRanges none events) tags).map Prod.snd) ∧
      inlineTagAllocationBound events tags = min (extractionBytes events tags) usizeMax := by
  obtain ⟨hexclusions, hcount, hbytes⟩ := countTags_eq hranges htags
  refine ⟨hexclusions, hcount, hbytes, fun tag => ?_, ?_,
    inlineTagAllocationBound_eq hranges htags⟩
  · simp [keptTags, Bool.eq_false_iff, isInCodeBlock_iff hranges]
  · unfold extractInlineTags
    split_ifs with hnil
    · simp [hnil, keptTags, sortedDedup]
    · rfl

/-- A fence with a tag in it, and an empty span in front of the last tag. -/
theorem reserved_fence_and_span :
    Disjoint (codeBlockRanges none [(.startBlock, 4, 20), (.other, 8, 16), (.endBlock, 4, 20),
      (.code, 20, 20)]) ∧
      min (extractionBytes [(.startBlock, 4, 20), (.other, 8, 16), (.endBlock, 4, 20),
        (.code, 20, 20)] [(1, ['a']), (9, ['b', 'b']), (20, ['c'])]) usizeMax = 162 := by
  have hranges : Disjoint (codeBlockRanges none [(.startBlock, 4, 20), (.other, 8, 16),
      (.endBlock, 4, 20), (.code, 20, 20)]) := ⟨by decide, by decide⟩
  have htags : SortedTags [(1, ['a']), (9, ['b', 'b']), (20, ['c'])] := by simp [SortedTags]
  obtain ⟨-, -, -, -, -, hbound⟩ := reserved_as_extracted hranges htags
  exact ⟨hranges, hbound.symm.trans (by decide)⟩

end ObsidianMcp.InlineTags
