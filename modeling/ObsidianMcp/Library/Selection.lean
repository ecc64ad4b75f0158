import Mathlib.Tactic

/-! # Partial selection

A selection puts the element of one rank in its place, the smaller ones before it and the greater
ones behind it. Sorting what is before it gives the first elements of the sorted list. -/

namespace ObsidianMcp

variable {α : Type*} {le : α → α → Bool}

/-- An order that sorts. -/
structure SortOrder (le : α → α → Bool) : Prop where
  trans : ∀ a b c, le a b = true → le b c = true → le a c = true
  total : ∀ a b, (le a b || le b a) = true

theorem sortOrder_le [LinearOrder α] : SortOrder fun a b : α => decide (a ≤ b) := by
  constructor
  · intro a b c hab hbc
    simp only [decide_eq_true_eq] at hab hbc ⊢
    exact hab.trans hbc
  · intro a b
    simpa using le_total a b

/-- A partial selection, in no particular order around the element of the rank. -/
structure Selection (α : Type*) (le : α → α → Bool) where
  select : List α → ℕ → List α
  perm : ∀ xs n, (select xs n).Perm xs
  before : ∀ xs n nth, (select xs n)[n]? = some nth → ∀ a ∈ (select xs n).take n, le a nth = true
  behind : ∀ xs n nth, (select xs n)[n]? = some nth →
    ∀ a ∈ (select xs n).drop (n + 1), le nth a = true

/-- What is before the rank is smaller than what is not. -/
theorem Selection.le_of_mem (selection : Selection α le) (horder : SortOrder le) {xs : List α}
    {n : ℕ} {a b : α} (ha : a ∈ (selection.select xs n).take n)
    (hb : b ∈ (selection.select xs n).drop n) : le a b = true := by
  cases hnth : (selection.select xs n)[n]? with
  | none =>
      rw [List.drop_eq_nil_of_le (List.getElem?_eq_none_iff.mp hnth)] at hb
      simp at hb
  | some nth =>
      have hbefore := selection.before xs n nth hnth a ha
      rw [List.drop_eq_getElem_cons (List.getElem?_eq_some_iff.mp hnth).1,
        (List.getElem?_eq_some_iff.mp hnth).2] at hb
      rcases List.mem_cons.mp hb with rfl | hb
      · exact hbefore
      · exact horder.trans a nth b hbefore (selection.behind xs n nth hnth b hb)

/-- Sorting what a selection leaves before a rank is cutting the sorted list there. -/
theorem Selection.mergeSort_take (selection : Selection α le) (horder : SortOrder le)
    {xs : List α} (hantisymm : ∀ a ∈ xs, ∀ b ∈ xs, le a b = true → le b a = true → a = b)
    {n : ℕ} (hn : n ≤ xs.length) :
    ((selection.select xs n).take n).mergeSort le = (xs.mergeSort le).take n := by
  have hperm := selection.perm xs n
  have hfront := List.mergeSort_perm ((selection.select xs n).take n) le
  have hback := List.mergeSort_perm ((selection.select xs n).drop n) le
  have hparts : (((selection.select xs n).take n).mergeSort le ++
      ((selection.select xs n).drop n).mergeSort le).Perm (xs.mergeSort le) := by
    refine (hfront.append hback).trans ?_
    rw [List.take_append_drop]
    exact hperm.trans (List.mergeSort_perm xs le).symm
  have hsorted : (((selection.select xs n).take n).mergeSort le ++
      ((selection.select xs n).drop n).mergeSort le).Pairwise fun a b => le a b = true := by
    refine List.pairwise_append.mpr ⟨List.pairwise_mergeSort horder.trans horder.total _,
      List.pairwise_mergeSort horder.trans horder.total _, ?_⟩
    intro a ha b hb
    exact selection.le_of_mem horder (hfront.mem_iff.mp ha) (hback.mem_iff.mp hb)
  have heq := hparts.eq_of_pairwise (fun a b ha hb hab hba => hantisymm a
    ((List.mergeSort_perm xs le).mem_iff.mp (hparts.mem_iff.mp ha)) b
    ((List.mergeSort_perm xs le).mem_iff.mp hb) hab hba) hsorted
    (List.pairwise_mergeSort horder.trans horder.total xs)
  have hlength : (((selection.select xs n).take n).mergeSort le).length = n := by
    simp [hperm.length_eq, hn]
  rw [← heq, List.take_left' hlength]

/-- The sorted list does not depend on the order of the elements. -/
theorem mergeSort_eq_of_perm (horder : SortOrder le) {xs ys : List α} (hperm : xs.Perm ys)
    (hantisymm : ∀ a ∈ xs, ∀ b ∈ xs, le a b = true → le b a = true → a = b) :
    xs.mergeSort le = ys.mergeSort le := by
  have hsorts := (List.mergeSort_perm xs le).trans (hperm.trans (List.mergeSort_perm ys le).symm)
  refine hsorts.eq_of_pairwise ?_ (List.pairwise_mergeSort horder.trans horder.total xs)
    (List.pairwise_mergeSort horder.trans horder.total ys)
  intro a b ha hb hab hba
  exact hantisymm a ((List.mergeSort_perm xs le).mem_iff.mp ha) b
    (hperm.mem_iff.mpr ((List.mergeSort_perm ys le).mem_iff.mp hb)) hab hba

/-- Sorting is a selection of every rank. -/
def sortSelection (horder : SortOrder le) : Selection α le where
  select xs _ := xs.mergeSort le
  perm xs _ := List.mergeSort_perm xs le
  before xs n nth hnth a ha := by
    have hsorted := List.pairwise_mergeSort horder.trans horder.total xs
    rw [← List.take_append_drop n (xs.mergeSort le), List.pairwise_append] at hsorted
    refine hsorted.2.2 a ha nth ?_
    rw [List.drop_eq_getElem_cons (List.getElem?_eq_some_iff.mp hnth).1,
      (List.getElem?_eq_some_iff.mp hnth).2]
    exact List.mem_cons_self
  behind xs n nth hnth a ha := by
    have hsorted := List.pairwise_mergeSort horder.trans horder.total xs
    rw [← List.take_append_drop n (xs.mergeSort le), List.pairwise_append,
      List.drop_eq_getElem_cons (List.getElem?_eq_some_iff.mp hnth).1,
      (List.getElem?_eq_some_iff.mp hnth).2] at hsorted
    exact (List.pairwise_cons.mp hsorted.2.1).1 a ha

end ObsidianMcp
