import Mathlib.Tactic

/-! # Binary search

The search halves a range of places until one is left. A comparison says whether an element comes
before, at or after what is looked for. -/

namespace ObsidianMcp.BinarySearch

variable {α : Type*} (compare : α → Ordering) (xs : List α)

/-- The place left of the `size` places from `base` on. -/
def narrow (base size : ℕ) : ℕ :=
  if 1 < size then
    let half := size / 2
    narrow (if xs[base + half]?.any (fun x => compare x = .gt) then base else base + half)
      (size - half)
  else base
termination_by size

/-- The place of an element that is looked for, or the place where it can be inserted. -/
def binarySearchBy : Except ℕ ℕ :=
  let base := narrow compare xs 0 xs.length
  match xs[base]?.map compare with
  | none => .error 0
  | some .eq => .ok base
  | some .lt => .error (base + 1)
  | some .gt => .error base

/-- The number of elements in front of the first one that fails a test, when those that pass it come
first. -/
def partitionPoint (p : α → Bool) (xs : List α) : ℕ :=
  match binarySearchBy (fun x => if p x then .lt else .gt) xs with
  | .ok place => place
  | .error place => place

/-- The elements that come before are in front of those looked for, and these of those after. -/
def Ordered : Prop :=
  xs.Pairwise fun a b => (compare b = .lt → compare a = .lt) ∧ (compare a = .gt → compare b = .gt)

variable {compare xs}

/-- An element that is looked for stays among the places. -/
theorem exists_narrow (hordered : Ordered compare xs) {base size : ℕ} (hpos : 0 < size)
    (hbound : base + size ≤ xs.length)
    (h : ∃ i x, base ≤ i ∧ i < base + size ∧ xs[i]? = some x ∧ compare x = .eq) :
    ∃ x, xs[narrow compare xs base size]? = some x ∧ compare x = .eq := by
  induction size using Nat.strong_induction_on generalizing base with
  | h size ih =>
      obtain ⟨i, x, hlow, hhigh, hget, heq⟩ := h
      rw [narrow]
      by_cases hsize : 1 < size
      · rw [if_pos hsize]
        obtain ⟨y, hmiddle⟩ : ∃ y, xs[base + size / 2]? = some y :=
          ⟨_, List.getElem?_eq_getElem (by omega)⟩
        have hpairs := List.pairwise_iff_getElem.mp hordered
        have hx := List.getElem?_eq_some_iff.mp hget
        have hy := List.getElem?_eq_some_iff.mp hmiddle
        simp only [hmiddle, Option.any_some]
        by_cases hgreater : compare y = .gt
        · -- nothing behind the middle is looked for
          have hbefore : i < base + size / 2 := by
            by_contra hle
            rcases Nat.lt_or_eq_of_le (not_lt.mp hle) with hlt | rfl
            · have hpair := hpairs (base + size / 2) i hy.1 hx.1 hlt
              rw [hy.2, hx.2] at hpair
              simp [heq] at hpair
              exact hpair hgreater
            · rw [hmiddle] at hget
              simp_all
          simp only [hgreater, decide_true, if_true]
          exact ih (size - size / 2) (by omega) (by omega) (by omega)
            ⟨i, x, hlow, by omega, hget, heq⟩
        · simp only [hgreater, decide_false, Bool.false_eq_true, if_false]
          refine ih (size - size / 2) (by omega) (by omega) (by omega) ?_
          by_cases hbefore : i < base + size / 2
          · -- what is looked for in front of the middle is there, too
            have hpair := hpairs i (base + size / 2) hx.1 hy.1 hbefore
            rw [hy.2, hx.2] at hpair
            refine ⟨base + size / 2, y, le_rfl, by omega, hmiddle, ?_⟩
            cases hcompare : compare y with
            | lt => simp [hpair.1 hcompare] at heq
            | eq => rfl
            | gt => exact absurd hcompare hgreater
          · exact ⟨i, x, by omega, by omega, hget, heq⟩
      · obtain rfl : i = base := by omega
        rw [if_neg hsize]
        exact ⟨x, hget, heq⟩

/-- The search finds an element exactly when there is one. -/
theorem binarySearchBy_ok_iff (hordered : Ordered compare xs) :
    (∃ place, binarySearchBy compare xs = .ok place) ↔ ∃ x ∈ xs, compare x = .eq := by
  constructor
  · rintro ⟨place, h⟩
    rw [binarySearchBy] at h
    cases hget : xs[narrow compare xs 0 xs.length]? with
    | none => simp [hget] at h
    | some x =>
        simp only [hget, Option.map_some] at h
        split at h
        · contradiction
        · exact ⟨x, List.mem_of_getElem? hget, by simp_all⟩
        · contradiction
        · contradiction
  · rintro ⟨x, hmem, heq⟩
    obtain ⟨i, hget⟩ := List.mem_iff_getElem?.mp hmem
    have hlt := (List.getElem?_eq_some_iff.mp hget).1
    obtain ⟨y, hplace, hfound⟩ := @exists_narrow _ _ _ hordered 0 xs.length (by omega)
      (by omega) ⟨i, x, Nat.zero_le i, by omega, hget, heq⟩
    refine ⟨narrow compare xs 0 xs.length, ?_⟩
    rw [binarySearchBy]
    simp [hplace, hfound]

/-! ## Partitions -/

variable {p : α → Bool}

/-- Where those that pass a test come first, an element passes it just when its place is in front of
the first one that fails. -/
theorem pass_iff_lt (hpartition : xs.Pairwise fun a b => p b = true → p a = true) {i : ℕ} {x : α}
    (hget : xs[i]? = some x) : p x = true ↔ i < (xs.takeWhile p).length := by
  induction xs generalizing i with
  | nil => simp at hget
  | cons first xs ih =>
      obtain ⟨hfirst, hrest⟩ := List.pairwise_cons.mp hpartition
      by_cases hpass : p first = true
      · rw [List.takeWhile_cons_of_pos hpass, List.length_cons]
        cases i with
        | zero =>
            obtain rfl : first = x := by simpa using hget
            simp [hpass]
        | succ i => simp [ih hrest (by simpa using hget)]
      · rw [List.takeWhile_cons_of_neg hpass]
        have hfail : p x ≠ true := by
          intro hx
          cases i with
          | zero =>
              obtain rfl : first = x := by simpa using hget
              exact hpass hx
          | succ i => exact hpass (hfirst x (List.mem_of_getElem? (by simpa using hget)) hx)
        simp [hfail]

/-- Behind the first element that fails, none passes. -/
theorem fail_of_mem_dropWhile (hpartition : xs.Pairwise fun a b => p b = true → p a = true) {x : α}
    (hmem : x ∈ xs.dropWhile p) : p x ≠ true := by
  induction xs with
  | nil => simp at hmem
  | cons first xs ih =>
      obtain ⟨hfirst, hrest⟩ := List.pairwise_cons.mp hpartition
      by_cases hpass : p first = true
      · rw [List.dropWhile_cons_of_pos hpass] at hmem
        exact ih hrest hmem
      · rw [List.dropWhile_cons_of_neg hpass] at hmem
        intro hx
        obtain rfl | hmem := List.mem_cons.mp hmem
        · exact hpass hx
        · exact hpass (hfirst x hmem hx)

/-- Halving closes in on the first element that fails. -/
theorem narrow_partition (hpartition : xs.Pairwise fun a b => p b = true → p a = true)
    {base size : ℕ} (hpos : 0 < size) (hbound : base + size ≤ xs.length)
    (hlow : base ≤ (xs.takeWhile p).length) (hhigh : (xs.takeWhile p).length ≤ base + size) :
    narrow (fun x => if p x then .lt else .gt) xs base size ≤ (xs.takeWhile p).length ∧
      (xs.takeWhile p).length ≤ narrow (fun x => if p x then .lt else .gt) xs base size + 1 ∧
      narrow (fun x => if p x then .lt else .gt) xs base size < xs.length := by
  induction size using Nat.strong_induction_on generalizing base with
  | h size ih =>
      rw [narrow]
      by_cases hsize : 1 < size
      · rw [if_pos hsize]
        obtain ⟨middle, hmiddle⟩ : ∃ middle, xs[base + size / 2]? = some middle :=
          ⟨_, List.getElem?_eq_getElem (by omega)⟩
        have hpass := pass_iff_lt hpartition hmiddle
        simp only [hmiddle, Option.any_some]
        by_cases hp : p middle = true
        · have hlt := hpass.mp hp
          simp only [hp, if_true, reduceCtorEq, decide_false, Bool.false_eq_true, if_false]
          exact ih (size - size / 2) (by omega) (by omega) (by omega) hlt.le (by omega)
        · have hle : (xs.takeWhile p).length ≤ base + size / 2 := by
            by_contra hgt
            exact hp (hpass.mpr (by omega))
          simp only [hp, Bool.false_eq_true, if_false, decide_true, if_true]
          exact ih (size - size / 2) (by omega) (by omega) (by omega) hlow (by omega)
      · rw [if_neg hsize]
        omega

/-- The partition point is the number of elements in front that pass the test. -/
theorem partitionPoint_eq (hpartition : xs.Pairwise fun a b => p b = true → p a = true) :
    partitionPoint p xs = (xs.takeWhile p).length := by
  have hlength : (xs.takeWhile p).length ≤ xs.length := (List.takeWhile_prefix p).length_le
  by_cases hnil : xs = []
  · subst hnil
    rfl
  · have hpos := List.length_pos_iff.mpr hnil
    obtain ⟨hle, hge, hlt⟩ := @narrow_partition _ _ _ hpartition 0 xs.length hpos (by omega)
      (Nat.zero_le _) (by omega)
    obtain ⟨x, hget⟩ : ∃ x, xs[narrow (fun x => if p x then .lt else .gt) xs 0 xs.length]? = some x :=
      ⟨_, List.getElem?_eq_getElem hlt⟩
    have hpass := pass_iff_lt hpartition hget
    unfold partitionPoint binarySearchBy
    simp only [hget, Option.map_some]
    by_cases hp : p x = true
    · have := hpass.mp hp
      simp only [hp, if_true]
      omega
    · have hge' : (xs.takeWhile p).length ≤
          narrow (fun x => if p x then .lt else .gt) xs 0 xs.length := by
        by_contra hgt
        exact hp (hpass.mpr (by omega))
      simp only [hp, Bool.false_eq_true, if_false]
      omega

end ObsidianMcp.BinarySearch
