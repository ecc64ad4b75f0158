import Mathlib.Tactic

/-! # Positions sorted by their keys

Positions with one key form a block of the sorted list; the first of the block is the least
of these positions. -/

namespace ObsidianMcp

/-- Where a list stops satisfying a predicate, for lists that satisfy it up to a point. -/
def partitionPoint {α : Type*} (p : α → Bool) (l : List α) : ℕ :=
  l.findIdx fun a => !p a

section

variable {κ : Type*} [LinearOrder κ] (key : ℕ → κ) (n : ℕ)

/-- The positions below `n` by key, and by position where the keys are equal. -/
def keyOrder : List ℕ :=
  (List.range n).mergeSort fun i j => key i < key j || (key i = key j && i ≤ j)

variable {key n}

theorem mem_keyOrder {i : ℕ} : i ∈ keyOrder key n ↔ i < n :=
  (List.mergeSort_perm _ _).mem_iff.trans List.mem_range

theorem pairwise_keyOrder :
    (keyOrder key n).Pairwise fun i j => key i < key j ∨ key i = key j ∧ i ≤ j := by
  have h : (keyOrder key n).Pairwise fun i j =>
      (decide (key i < key j) || (decide (key i = key j) && decide (i ≤ j))) = true := by
    apply List.pairwise_mergeSort
    · intro i j l hij hjl
      simp only [Bool.or_eq_true, Bool.and_eq_true, decide_eq_true_eq] at hij hjl ⊢
      rcases hij with hij | ⟨hij, hle⟩
      · rcases hjl with hjl | ⟨hjl, -⟩
        · exact .inl (hij.trans hjl)
        · exact .inl (hjl ▸ hij)
      · rcases hjl with hjl | ⟨hjl, hle'⟩
        · exact .inl (hij ▸ hjl)
        · exact .inr ⟨hij.trans hjl, hle.trans hle'⟩
    · intro i j
      simp only [Bool.or_eq_true, Bool.and_eq_true, decide_eq_true_eq]
      rcases lt_trichotomy (key i) (key j) with h | h | h
      · exact .inl (.inl h)
      · rcases le_total i j with hle | hle
        · exact .inl (.inr ⟨h, hle⟩)
        · exact .inr (.inr ⟨h.symm, hle⟩)
      · exact .inr (.inl h)
  apply h.imp
  intro i j hij
  simpa only [Bool.or_eq_true, Bool.and_eq_true, decide_eq_true_eq] using hij

theorem partitionPoint_le_iff {p : ℕ → Bool} {l : List ℕ} {m : ℕ} {i : ℕ}
    (hp : l.Pairwise fun i j => p j = true → p i = true) (hm : l[m]? = some i) :
    partitionPoint p l ≤ m ↔ p i = false := by
  have hlt : m < l.length := (List.getElem?_eq_some_iff.mp hm).1
  have hi : l[m] = i := (List.getElem?_eq_some_iff.mp hm).2
  constructor
  · intro hle
    by_contra hpi
    have hstop : partitionPoint p l < l.length := lt_of_le_of_lt hle hlt
    have hfail : (!p l[partitionPoint p l]) = true := List.findIdx_getElem (w := hstop)
    rcases hle.lt_or_eq with h | h
    · have hbefore := List.pairwise_iff_getElem.mp hp (partitionPoint p l) m hstop hlt h
      rw [hi] at hbefore
      simp [hbefore (by simpa using hpi)] at hfail
    · simp only [h, hi] at hfail
      simp [hpi] at hfail
  · intro hpi
    by_contra hle
    have hbefore : (!p l[m]) = false := by
      simpa using List.not_of_lt_findIdx (Nat.lt_of_not_ge hle)
    rw [hi, hpi] at hbefore
    simp at hbefore

theorem pairwise_lt_key (k : κ) :
    (keyOrder key n).Pairwise fun i j =>
      decide (key j < k) = true → decide (key i < k) = true := by
  apply pairwise_keyOrder.imp
  intro i j hij hj
  have hle : key i ≤ key j := hij.elim le_of_lt fun h => h.1.le
  simpa using hle.trans_lt (by simpa using hj)

theorem pairwise_le_key (k : κ) :
    (keyOrder key n).Pairwise fun i j =>
      decide (key j ≤ k) = true → decide (key i ≤ k) = true := by
  apply pairwise_keyOrder.imp
  intro i j hij hj
  have hle : key i ≤ key j := hij.elim le_of_lt fun h => h.1.le
  simpa using hle.trans (by simpa using hj)

/-- The block of one key holds exactly the positions with that key. -/
theorem mem_block {k : κ} {i : ℕ} :
    i ∈ ((keyOrder key n).take (partitionPoint (fun i => key i ≤ k) (keyOrder key n))).drop
        (partitionPoint (fun i => key i < k) (keyOrder key n)) ↔ i < n ∧ key i = k := by
  rw [List.mem_iff_getElem?]
  constructor
  · intro h
    rcases h with ⟨m, hm⟩
    rw [List.getElem?_drop, List.getElem?_take] at hm
    split at hm
    · next hend =>
      have hmem : i ∈ keyOrder key n := List.mem_of_getElem? hm
      have hge := (partitionPoint_le_iff (pairwise_lt_key k) hm).mp (Nat.le_add_right _ _)
      have hle := mt (partitionPoint_le_iff (pairwise_le_key k) hm).mpr (Nat.not_le.mpr hend)
      refine ⟨mem_keyOrder.mp hmem, le_antisymm ?_ ?_⟩
      · simpa using hle
      · simpa using hge
    · simp at hm
  · intro h
    have hmem : i ∈ keyOrder key n := mem_keyOrder.mpr h.1
    rcases List.mem_iff_getElem?.mp hmem with ⟨m, hm⟩
    have hstart := (partitionPoint_le_iff (pairwise_lt_key k) hm).mpr (by simp [h.2])
    have hend : ¬partitionPoint (fun i => key i ≤ k) (keyOrder key n) ≤ m :=
      mt (partitionPoint_le_iff (pairwise_le_key k) hm).mp (by simp [h.2])
    refine ⟨m - partitionPoint (fun i => key i < k) (keyOrder key n), ?_⟩
    rw [List.getElem?_drop, List.getElem?_take, Nat.add_sub_cancel' hstart,
      if_pos (Nat.lt_of_not_ge hend)]
    exact hm

/-- Each key in use has a least position, and its block starts with it. -/
theorem exists_first {i : ℕ} (hi : i < n) :
    ∃ first, (keyOrder key n)[partitionPoint (fun j => key j < key i) (keyOrder key n)]? =
        some first ∧ first < n ∧ key first = key i := by
  have hmem : i ∈ keyOrder key n := mem_keyOrder.mpr hi
  rcases List.mem_iff_getElem?.mp hmem with ⟨m, hm⟩
  have hstart := (partitionPoint_le_iff (pairwise_lt_key (key i)) hm).mpr (by simp)
  have hlt := lt_of_le_of_lt hstart (List.getElem?_eq_some_iff.mp hm).1
  have hfirst := List.getElem?_eq_getElem hlt
  refine ⟨_, hfirst, mem_keyOrder.mp (List.getElem_mem hlt), le_antisymm ?_ ?_⟩
  · rcases hstart.lt_or_eq with h | h
    · have hbefore := List.pairwise_iff_getElem.mp pairwise_keyOrder _ m hlt
        (List.getElem?_eq_some_iff.mp hm).1 h
      rw [(List.getElem?_eq_some_iff.mp hm).2] at hbefore
      exact hbefore.elim le_of_lt fun h => h.1.le
    · simp only [h, (List.getElem?_eq_some_iff.mp hm).2, le_refl]
  · simpa using (partitionPoint_le_iff (pairwise_lt_key (key i)) hfirst).mp le_rfl

end

end ObsidianMcp
