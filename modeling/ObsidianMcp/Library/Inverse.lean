import Mathlib.Data.Finset.Basic
import ObsidianMcp.Library.Table

/-! # Inverse tables

A table from labels to the keys that carry them. A label that no key carries has no entry. -/

namespace ObsidianMcp

variable {K L : Type*} [DecidableEq K] [DecidableEq L]

/-- A table from labels to sets of keys. -/
abbrev Inverse (L K : Type*) := Table L (Finset K)

namespace Inverse

/-- The keys under a label. -/
def keysOf (label : L) (inverse : Inverse L K) : Finset K :=
  (inverse.lookup label).getD ∅

/-- Put a key under a label. -/
def add (key : K) (inverse : Inverse L K) (label : L) : Inverse L K :=
  inverse.insert label (insert key (inverse.keysOf label))

/-- Take a key from under a label, and the label with its last key. -/
def drop (key : K) (inverse : Inverse L K) (label : L) : Inverse L K :=
  match inverse.lookup label with
  | none => inverse
  | some keys =>
      if keys.erase key = ∅ then inverse.erase label else inverse.insert label (keys.erase key)

/-- The table lists exactly the labels of every key. -/
structure Exact (has : K → L → Prop) (inverse : Inverse L K) : Prop where
  mem : ∀ label key, key ∈ inverse.keysOf label ↔ has key label
  nonempty : ∀ label keys, inverse.lookup label = some keys → keys ≠ ∅

variable {has has' : K → L → Prop} {inverse inverse' : Inverse L K}

omit [DecidableEq K] in
theorem exact_empty (h : ∀ key label, ¬has key label) : Exact has (∅ : Inverse L K) where
  mem label key := iff_of_false (by simp [keysOf]) (h key label)
  nonempty label keys hkeys := by simp at hkeys

omit [DecidableEq K] in
theorem Exact.congr (h : Exact has inverse) (hhas : ∀ key label, has key label ↔ has' key label) :
    Exact has' inverse where
  mem label key := (h.mem label key).trans (hhas key label)
  nonempty := h.nonempty

omit [DecidableEq K] in
/-- There is one exact table, up to the order of its entries. -/
theorem Exact.lookup_eq (h : Exact has inverse) (h' : Exact has inverse') (label : L) :
    inverse.lookup label = inverse'.lookup label := by
  have hkeys : inverse.keysOf label = inverse'.keysOf label := by
    ext key
    rw [h.mem, h'.mem]
  rw [keysOf, keysOf] at hkeys
  cases hl : inverse.lookup label with
  | none =>
      cases hl' : inverse'.lookup label with
      | none => rfl
      | some keys =>
          rw [hl, hl'] at hkeys
          exact absurd hkeys.symm (h'.nonempty label keys hl')
  | some keys =>
      cases hl' : inverse'.lookup label with
      | none =>
          rw [hl, hl'] at hkeys
          exact absurd hkeys (h.nonempty label keys hl)
      | some keys' =>
          rw [hl, hl'] at hkeys
          exact congrArg some hkeys

omit [DecidableEq K] in
theorem Exact.of_lookup_eq (h : Exact has inverse)
    (heq : ∀ label, inverse'.lookup label = inverse.lookup label) : Exact has inverse' where
  mem label key := by
    rw [← h.mem label key, keysOf, keysOf, heq]
  nonempty label keys hkeys := h.nonempty label keys (by rw [← heq, hkeys])

/-! ## One label -/

theorem keysOf_add (key : K) (label label' : L) :
    (inverse.add key label).keysOf label' =
      if label' = label then insert key (inverse.keysOf label') else inverse.keysOf label' := by
  by_cases h : label' = label
  · rw [if_pos h, h, keysOf, add, AList.lookup_insert, Option.getD_some]
  · rw [if_neg h, keysOf, add, AList.lookup_insert_ne h, keysOf]

theorem keysOf_drop (key : K) (label label' : L) :
    (inverse.drop key label).keysOf label' =
      if label' = label then (inverse.keysOf label').erase key else inverse.keysOf label' := by
  rw [drop]
  cases hl : inverse.lookup label with
  | none =>
      by_cases h : label' = label
      · rw [if_pos h, h, keysOf, hl, Option.getD_none, Finset.erase_empty]
      · rw [if_neg h]
  | some keys =>
      dsimp only
      by_cases hempty : keys.erase key = ∅
      · rw [if_pos hempty]
        by_cases h : label' = label
        · rw [if_pos h, h, keysOf, AList.lookup_erase, keysOf, hl, Option.getD_some, hempty]
          rfl
        · rw [if_neg h, keysOf, AList.lookup_erase_ne h, keysOf]
      · rw [if_neg hempty]
        by_cases h : label' = label
        · rw [if_pos h, h, keysOf, AList.lookup_insert, keysOf, hl]
          rfl
        · rw [if_neg h, keysOf, AList.lookup_insert_ne h, keysOf]

theorem Exact.add (h : Exact has inverse) (key : K) (label : L) :
    Exact (fun k l => has k l ∨ (k = key ∧ l = label)) (inverse.add key label) where
  mem l k := by
    rw [keysOf_add]
    by_cases hl : l = label
    · rw [if_pos hl, Finset.mem_insert, h.mem]
      tauto
    · rw [if_neg hl, h.mem]
      tauto
  nonempty l keys hkeys := by
    by_cases hl : l = label
    · rw [hl, Inverse.add, AList.lookup_insert, Option.some.injEq] at hkeys
      rw [← hkeys]
      exact Finset.insert_ne_empty _ _
    · rw [Inverse.add, AList.lookup_insert_ne hl] at hkeys
      exact h.nonempty l keys hkeys

theorem Exact.drop (h : Exact has inverse) (key : K) (label : L) :
    Exact (fun k l => has k l ∧ ¬(k = key ∧ l = label)) (inverse.drop key label) where
  mem l k := by
    rw [keysOf_drop]
    by_cases hl : l = label
    · rw [if_pos hl, Finset.mem_erase, h.mem]
      tauto
    · rw [if_neg hl, h.mem]
      tauto
  nonempty l keys hkeys := by
    rw [Inverse.drop] at hkeys
    cases hlabel : inverse.lookup label with
    | none =>
        rw [hlabel] at hkeys
        exact h.nonempty l keys hkeys
    | some old =>
        rw [hlabel] at hkeys
        dsimp only at hkeys
        by_cases hempty : old.erase key = ∅
        · rw [if_pos hempty] at hkeys
          by_cases hl : l = label
          · rw [hl, AList.lookup_erase] at hkeys
            contradiction
          · rw [AList.lookup_erase_ne hl] at hkeys
            exact h.nonempty l keys hkeys
        · rw [if_neg hempty] at hkeys
          by_cases hl : l = label
          · rw [hl, AList.lookup_insert, Option.some.injEq] at hkeys
            rw [← hkeys]
            exact hempty
          · rw [AList.lookup_insert_ne hl] at hkeys
            exact h.nonempty l keys hkeys

/-! ## All labels of a key -/

theorem Exact.addAll (h : Exact has inverse) (key : K) (labels : List L) :
    Exact (fun k l => has k l ∨ (k = key ∧ l ∈ labels)) (labels.foldl (Inverse.add key) inverse) := by
  induction labels generalizing has inverse with
  | nil => exact h.congr (by simp)
  | cons label labels ih =>
      apply (ih (h.add key label)).congr
      intro k l
      rw [List.mem_cons]
      tauto

theorem Exact.dropAll (h : Exact has inverse) (key : K) (labels : List L) :
    Exact (fun k l => has k l ∧ ¬(k = key ∧ l ∈ labels)) (labels.foldl (Inverse.drop key) inverse) := by
  induction labels generalizing has inverse with
  | nil => exact h.congr (by simp)
  | cons label labels ih =>
      apply (ih (h.drop key label)).congr
      intro k l
      rw [List.mem_cons]
      tauto

/-- The table built from the labels of the entries of another. -/
theorem exact_build {V : Type*} (labels : V → List L) (entries : List (K × V)) :
    Exact (fun k l => ∃ v, (k, v) ∈ entries ∧ l ∈ labels v)
      (entries.foldl (fun inverse entry => (labels entry.2).foldl (Inverse.add entry.1) inverse) ∅) := by
  have hfold : ∀ (entries : List (K × V)) (has : K → L → Prop) (inverse : Inverse L K),
      Exact has inverse →
        Exact (fun k l => has k l ∨ ∃ v, (k, v) ∈ entries ∧ l ∈ labels v)
          (entries.foldl (fun inverse entry => (labels entry.2).foldl (Inverse.add entry.1) inverse)
            inverse) := by
    intro entries
    induction entries with
    | nil =>
        intro has inverse h
        exact h.congr (by simp)
    | cons entry entries ih =>
        intro has inverse h
        apply (ih _ _ (h.addAll entry.1 (labels entry.2))).congr
        intro k l
        constructor
        · intro hkl
          rcases hkl with (hkl | ⟨rfl, hl⟩) | ⟨v, hv, hl⟩
          · exact .inl hkl
          · exact .inr ⟨entry.2, List.mem_cons_self, hl⟩
          · exact .inr ⟨v, List.mem_cons_of_mem _ hv, hl⟩
        · intro hkl
          rcases hkl with hkl | ⟨v, hv, hl⟩
          · exact .inl (.inl hkl)
          · rcases List.mem_cons.mp hv with heq | hv
            · rw [← heq]
              exact .inl (.inr ⟨rfl, hl⟩)
            · exact .inr ⟨v, hv, hl⟩
  have hnone : ∀ (k : K) (l : L), ¬False := by simp
  exact (hfold entries (fun _ _ => False) ∅ (exact_empty hnone)).congr (by simp)

end Inverse

end ObsidianMcp
