import Mathlib.Data.List.Lex
import Mathlib.Data.Prod.Lex
import Mathlib.Tactic

/-! # Ranges of sorted keys

In the order of sequences, those that begin with a base lie together, right from the base on. -/

namespace ObsidianMcp

variable {α : Type*}

/-- Where a predicate, once it fails, fails for good, stopping early is filtering. -/
theorem takeWhile_eq_filter {p : α → Bool} {l : List α}
    (h : l.Pairwise fun a b => p b = true → p a = true) : l.takeWhile p = l.filter p := by
  induction l with
  | nil => rfl
  | cons a l ih =>
      rw [List.pairwise_cons] at h
      by_cases hp : p a = true
      · rw [List.takeWhile_cons_of_pos hp, List.filter_cons_of_pos hp, ih h.2]
      · have hnone : l.filter p = [] := by
          rw [List.filter_eq_nil_iff]
          intro b hb hpb
          exact hp (h.1 b hb hpb)
        rw [List.takeWhile_cons_of_neg hp, List.filter_cons_of_neg hp, hnone]

section

variable {κ : Type*} [LinearOrder κ] {base x y : List κ}

theorem list_cons_le_cons {c d : κ} : c :: x ≤ d :: y ↔ c < d ∨ c = d ∧ x ≤ y := by
  rw [le_iff_lt_or_eq]
  constructor
  · rintro (hlt | heq)
    · cases hlt with
      | rel h => exact .inl h
      | cons h => exact .inr ⟨rfl, le_of_lt h⟩
    · obtain ⟨rfl, rfl⟩ := List.cons.inj heq
      exact .inr ⟨rfl, le_rfl⟩
  · rintro (hlt | ⟨rfl, hle⟩)
    · exact .inl (.rel hlt)
    · obtain hlt | rfl := lt_or_eq_of_le hle
      · exact .inl (.cons hlt)
      · exact .inr rfl

theorem list_nil_le (x : List κ) : [] ≤ x := by
  cases x with
  | nil => exact le_rfl
  | cons c x => exact le_of_lt (show [] < c :: x from .nil)

theorem not_cons_le_nil (c : κ) (x : List κ) : ¬c :: x ≤ [] :=
  not_le.mpr (show [] < c :: x from .nil)

/-- Between a base and a sequence that begins with it, every sequence does. -/
theorem prefix_of_between (hlow : base ≤ x) (hhigh : x ≤ y) (hy : base <+: y) : base <+: x := by
  induction base generalizing x y with
  | nil => exact List.nil_prefix
  | cons b base ih =>
      obtain ⟨rest, rfl⟩ := hy
      cases x with
      | nil => exact absurd hlow (not_cons_le_nil b base)
      | cons c x =>
          rw [List.cons_append, list_cons_le_cons] at hhigh
          rw [list_cons_le_cons] at hlow
          obtain hlt | ⟨rfl, hlow⟩ := hlow
          · obtain hlt' | ⟨rfl, -⟩ := hhigh
            · exact absurd hlt (lt_asymm hlt')
            · exact absurd hlt (lt_irrefl _)
          · obtain hlt' | ⟨-, hhigh⟩ := hhigh
            · exact absurd hlt' (lt_irrefl _)
            · exact List.cons_prefix_cons.mpr ⟨rfl, ih hlow hhigh (List.prefix_append _ _)⟩

theorem le_of_isPrefix (h : base <+: x) : base ≤ x := by
  induction base generalizing x with
  | nil => exact list_nil_le x
  | cons b base ih =>
      obtain ⟨rest, rfl⟩ := h
      rw [List.cons_append, list_cons_le_cons]
      exact .inr ⟨rfl, ih (List.prefix_append _ _)⟩

variable {τ : Type*} [LinearOrder τ] {first : τ} {key : α → List κ ×ₗ τ} {l : List α}

theorem fst_le_of_le {a b : List κ ×ₗ τ} (h : a ≤ b) : (ofLex a).1 ≤ (ofLex b).1 := by
  obtain hlt | ⟨heq, -⟩ := Prod.Lex.le_iff.mp h
  · exact le_of_lt hlt
  · exact le_of_eq heq

theorem base_le {a : List κ ×ₗ τ} (hfirst : ∀ t : τ, first ≤ t) (h : base <+: (ofLex a).1) :
    toLex (base, first) ≤ a := by
  rw [Prod.Lex.le_iff]
  obtain hlt | heq := lt_or_eq_of_le (le_of_isPrefix h)
  · exact .inl hlt
  · exact .inr ⟨heq, hfirst _⟩

/-- A scan from a base on that stops at the first key of another kind finds all keys of its kind,
when this kind is one whole stretch of the sequences that begin with the base. -/
theorem scan_range (hsorted : l.Pairwise fun a b => key a ≤ key b) (hfirst : ∀ t : τ, first ≤ t)
    {P : List κ → Prop} {p : α → Bool} (hp : ∀ a, p a = true ↔ P (ofLex (key a)).1)
    (hbase : ∀ x, P x → base <+: x) (hstretch : ∀ x y, base ≤ x → x ≤ y → P y → P x) :
    (l.filter fun a => toLex (base, first) ≤ key a).takeWhile p = l.filter p := by
  rw [takeWhile_eq_filter, List.filter_filter]
  · apply List.filter_congr
    intro a _
    by_cases ha : p a = true
    · simp [ha, base_le hfirst (hbase _ ((hp a).mp ha))]
    · simp [Bool.eq_false_iff.mpr ha]
  · rw [List.pairwise_filter]
    apply hsorted.imp
    intro a b hle hlow _ hb
    rw [decide_eq_true_eq] at hlow
    rw [hp] at hb ⊢
    exact hstretch _ _ (fst_le_of_le hlow) (fst_le_of_le hle) hb

end

end ObsidianMcp
