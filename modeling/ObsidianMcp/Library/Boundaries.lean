import ObsidianMcp.Library.Split

/-! # Character boundaries

The byte offsets at which a text can be cut are the lengths of its prefixes. -/

namespace ObsidianMcp.Text

def isCharBoundary : Text → ℕ → Bool
  | [], n => n == 0
  | c :: t, n => n == 0 || (decide (c.utf8Size ≤ n) && isCharBoundary t (n - c.utf8Size))

/-- The last boundary that is not after an offset. -/
def floorCharBoundary : Text → ℕ → ℕ
  | [], _ => 0
  | c :: t, n =>
      if c.utf8Size ≤ n then c.utf8Size + floorCharBoundary t (n - c.utf8Size) else 0

/-- The first boundary that is not before an offset; the end of the text when there is none. -/
def ceilCharBoundary : Text → ℕ → ℕ
  | [], _ => 0
  | c :: t, n => if n = 0 then 0 else c.utf8Size + ceilCharBoundary t (n - c.utf8Size)

/-- The bytes from one offset to another; there are none when the offsets do not cut the text. -/
def sliceAt (t : Text) (start stop : ℕ) : Option Text :=
  if start ≤ stop ∧ isCharBoundary t start = true ∧ isCharBoundary t stop = true then
    some (slice t start stop)
  else none

theorem isCharBoundary_iff {t : Text} {n : ℕ} :
    isCharBoundary t n = true ↔ ∃ s rest, t = s ++ rest ∧ byteLen s = n := by
  induction t generalizing n with
  | nil =>
      rw [isCharBoundary, beq_iff_eq]
      constructor
      · intro h
        exact ⟨[], [], rfl, h.symm⟩
      · intro h
        rcases h with ⟨s, rest, heq, rfl⟩
        rw [(List.append_eq_nil_iff.mp heq.symm).1]
        rfl
  | cons c t ih =>
      rw [isCharBoundary, Bool.or_eq_true, beq_iff_eq, Bool.and_eq_true, decide_eq_true_eq, ih]
      constructor
      · intro h
        rcases h with rfl | ⟨hle, s, rest, rfl, hs⟩
        · exact ⟨[], c :: t, rfl, rfl⟩
        · refine ⟨c :: s, rest, rfl, ?_⟩
          rw [byteLen_cons, hs]
          omega
      · intro h
        rcases h with ⟨s, rest, heq, rfl⟩
        cases s with
        | nil => exact .inl rfl
        | cons d s =>
            rw [List.cons_append, List.cons.injEq] at heq
            rw [← heq.1, byteLen_cons]
            exact .inr ⟨Nat.le_add_right _ _, s, rest, heq.2, (Nat.add_sub_cancel_left _ _).symm⟩

theorem isCharBoundary_append (s t : Text) : isCharBoundary (s ++ t) (byteLen s) = true := by
  rw [isCharBoundary_iff]
  exact ⟨s, t, rfl, rfl⟩

theorem isCharBoundary_byteLen (t : Text) : isCharBoundary t (byteLen t) = true := by
  rw [isCharBoundary_iff]
  exact ⟨t, [], (List.append_nil t).symm, rfl⟩

theorem le_byteLen_of_isCharBoundary {t : Text} {n : ℕ} (h : isCharBoundary t n = true) :
    n ≤ byteLen t := by
  rw [isCharBoundary_iff] at h
  rcases h with ⟨s, rest, rfl, rfl⟩
  rw [byteLen_append]
  exact Nat.le_add_right _ _

theorem floorCharBoundary_le (t : Text) (n : ℕ) : floorCharBoundary t n ≤ n := by
  induction t generalizing n with
  | nil => exact Nat.zero_le n
  | cons c t ih =>
      rw [floorCharBoundary]
      by_cases h : c.utf8Size ≤ n
      · rw [if_pos h]
        have hrest := ih (n - c.utf8Size)
        omega
      · rw [if_neg h]
        exact Nat.zero_le n

theorem isCharBoundary_floor (t : Text) (n : ℕ) :
    isCharBoundary t (floorCharBoundary t n) = true := by
  induction t generalizing n with
  | nil => rfl
  | cons c t ih =>
      rw [floorCharBoundary]
      by_cases h : c.utf8Size ≤ n
      · have hrest := ih (n - c.utf8Size)
        rw [isCharBoundary_iff] at hrest ⊢
        rcases hrest with ⟨s, rest, hsplit, hs⟩
        rw [if_pos h]
        refine ⟨c :: s, rest, by rw [hsplit]; rfl, ?_⟩
        rw [byteLen_cons, hs]
      · rw [if_neg h, isCharBoundary]
        rfl

/-- No boundary lies between the floor of an offset and the offset. -/
theorem le_floorCharBoundary {t : Text} {m n : ℕ} (hm : isCharBoundary t m = true) (h : m ≤ n) :
    m ≤ floorCharBoundary t n := by
  induction t generalizing m n with
  | nil =>
      rw [isCharBoundary, beq_iff_eq] at hm
      rw [hm]
      exact Nat.zero_le _
  | cons c t ih =>
      rw [isCharBoundary, Bool.or_eq_true, beq_iff_eq, Bool.and_eq_true, decide_eq_true_eq] at hm
      rcases hm with rfl | ⟨hle, hrest⟩
      · exact Nat.zero_le _
      · rw [floorCharBoundary, if_pos (hle.trans h)]
        have hlater := @ih _ (n - c.utf8Size) hrest (by omega)
        omega

theorem isCharBoundary_zero (t : Text) : isCharBoundary t 0 = true := by
  cases t <;> rfl

theorem isCharBoundary_ceil (t : Text) (n : ℕ) :
    isCharBoundary t (ceilCharBoundary t n) = true := by
  induction t generalizing n with
  | nil => rfl
  | cons c t ih =>
      rw [ceilCharBoundary]
      by_cases h : n = 0
      · rw [if_pos h]
        exact isCharBoundary_zero _
      · rw [if_neg h, isCharBoundary]
        simp [ih]

theorem le_ceilCharBoundary {t : Text} {n : ℕ} (h : n ≤ byteLen t) : n ≤ ceilCharBoundary t n := by
  induction t generalizing n with
  | nil => exact h
  | cons c t ih =>
      rw [ceilCharBoundary]
      by_cases hzero : n = 0
      · rw [if_pos hzero, hzero]
      · rw [byteLen_cons] at h
        have hrest := @ih (n - c.utf8Size) (by omega)
        rw [if_neg hzero]
        omega

/-- No boundary lies between an offset and its ceiling. -/
theorem ceilCharBoundary_le {t : Text} {m n : ℕ} (hm : isCharBoundary t m = true) (h : n ≤ m) :
    ceilCharBoundary t n ≤ m := by
  induction t generalizing m n with
  | nil => exact Nat.zero_le m
  | cons c t ih =>
      rw [ceilCharBoundary]
      by_cases hzero : n = 0
      · rw [if_pos hzero]
        exact Nat.zero_le m
      · rw [isCharBoundary, Bool.or_eq_true, beq_iff_eq, Bool.and_eq_true, decide_eq_true_eq] at hm
        rw [if_neg hzero]
        obtain rfl | ⟨hle, hrest⟩ := hm
        · omega
        · have hlater := @ih _ (n - c.utf8Size) hrest (by omega)
          omega

/-- A boundary before the end is followed by another one at the distance of a character. -/
theorem exists_next_boundary {t : Text} {n : ℕ} (h : isCharBoundary t n = true)
    (hlt : n < byteLen t) :
    ∃ c : Char, isCharBoundary t (n + c.utf8Size) = true ∧
      ∀ m, n < m → isCharBoundary t m = true → n + c.utf8Size ≤ m := by
  induction t generalizing n with
  | nil => contradiction
  | cons c t ih =>
      rw [isCharBoundary, Bool.or_eq_true, beq_iff_eq, Bool.and_eq_true, decide_eq_true_eq] at h
      rcases Nat.eq_zero_or_pos n with rfl | hpos
      · refine ⟨c, ?_, ?_⟩
        · have hone := isCharBoundary_append [c] t
          rwa [byteLen_cons, byteLen_nil, Nat.add_zero, ← Nat.zero_add c.utf8Size] at hone
        · intro m hm hboundary
          rw [isCharBoundary, Bool.or_eq_true, beq_iff_eq, Bool.and_eq_true,
            decide_eq_true_eq] at hboundary
          rcases hboundary with rfl | ⟨hle, -⟩
          · exact absurd hm (Nat.lt_irrefl 0)
          · rwa [Nat.zero_add]
      · rcases h with rfl | ⟨hle, hrest⟩
        · exact absurd hpos (Nat.lt_irrefl 0)
        · rw [byteLen_cons] at hlt
          rcases ih hrest (by omega) with ⟨d, hnext, hmin⟩
          refine ⟨d, ?_, ?_⟩
          · rw [isCharBoundary, Bool.or_eq_true, Bool.and_eq_true, decide_eq_true_eq]
            refine .inr ⟨by omega, ?_⟩
            rwa [Nat.sub_add_comm hle]
          · intro m hm hboundary
            rw [isCharBoundary, Bool.or_eq_true, beq_iff_eq, Bool.and_eq_true,
              decide_eq_true_eq] at hboundary
            rcases hboundary with rfl | ⟨hsize, hafter⟩
            · exact absurd hm (Nat.not_lt_zero n)
            · have hlater := hmin _ (by omega) hafter
              omega

theorem sliceAt_of_boundaries {t : Text} {start stop : ℕ} (hle : start ≤ stop)
    (hstart : isCharBoundary t start = true) (hstop : isCharBoundary t stop = true) :
    sliceAt t start stop = some (slice t start stop) :=
  if_pos ⟨hle, hstart, hstop⟩

/-- A slice between two boundaries is the middle part of the text. -/
theorem sliceAt_append (s middle rest : Text) :
    sliceAt (s ++ middle ++ rest) (byteLen s) (byteLen s + byteLen middle) = some middle := by
  have hstop : isCharBoundary (s ++ middle ++ rest) (byteLen s + byteLen middle) = true := by
    rw [← byteLen_append]
    exact isCharBoundary_append _ _
  have hstart : isCharBoundary (s ++ middle ++ rest) (byteLen s) = true := by
    rw [List.append_assoc]
    exact isCharBoundary_append _ _
  rw [sliceAt, if_pos ⟨Nat.le_add_right _ _, hstart, hstop⟩, slice, Nat.add_sub_cancel_left,
    List.append_assoc, dropBytes_append, takeBytes_append]

/-- Two boundaries cut a text into three parts. -/
theorem exists_parts {t : Text} {start stop : ℕ} (hle : start ≤ stop)
    (hstart : isCharBoundary t start = true) (hstop : isCharBoundary t stop = true) :
    ∃ s middle rest, t = s ++ middle ++ rest ∧ byteLen s = start ∧
      byteLen s + byteLen middle = stop := by
  rcases isCharBoundary_iff.mp hstart with ⟨s, rest, rfl, rfl⟩
  rcases isCharBoundary_iff.mp hstop with ⟨s', rest', heq, rfl⟩
  rcases List.append_eq_append_iff.mp heq with ⟨middle, rfl, rfl⟩ | ⟨tail, rfl, rfl⟩
  · exact ⟨s, middle, rest', by rw [List.append_assoc], rfl, (byteLen_append s middle).symm⟩
  · rw [byteLen_append] at hle
    have hnil : tail = [] := byteLen_eq_zero.mp (by omega)
    subst hnil
    exact ⟨s', [], rest, by simp, by simp, by simp⟩

theorem sliceAt_eq_some {t middle : Text} {start stop : ℕ} :
    sliceAt t start stop = some middle ↔ ∃ s rest, t = s ++ middle ++ rest ∧ byteLen s = start ∧
      byteLen s + byteLen middle = stop := by
  constructor
  · intro h
    by_cases hcut : start ≤ stop ∧ isCharBoundary t start = true ∧ isCharBoundary t stop = true
    · rcases exists_parts hcut.1 hcut.2.1 hcut.2.2 with ⟨s, part, rest, rfl, rfl, rfl⟩
      rw [sliceAt_append, Option.some.injEq] at h
      subst h
      exact ⟨s, rest, rfl, rfl, rfl⟩
    · rw [sliceAt, if_neg hcut] at h
      contradiction
  · intro h
    rcases h with ⟨s, rest, rfl, rfl, rfl⟩
    exact sliceAt_append s middle rest

/-- Slices that meet make one slice. -/
theorem sliceAt_trans {t first second : Text} {start mid stop : ℕ}
    (hfirst : sliceAt t start mid = some first) (hsecond : sliceAt t mid stop = some second) :
    sliceAt t start stop = some (first ++ second) := by
  rcases sliceAt_eq_some.mp hfirst with ⟨s, rest, rfl, rfl, rfl⟩
  rcases sliceAt_eq_some.mp hsecond with ⟨s', rest', heq, hs', rfl⟩
  rw [List.append_assoc (s') second] at heq
  have hfront : s' = s ++ first := by
    rw [← takeBytes_append s' (second ++ rest'), ← heq, hs', ← byteLen_append, takeBytes_append]
  subst hfront
  refine sliceAt_eq_some.mpr ⟨s, rest', ?_, rfl, ?_⟩
  · rw [heq]
    simp
  · rw [byteLen_append, byteLen_append]
    omega

end ObsidianMcp.Text
