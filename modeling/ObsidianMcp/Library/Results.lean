import Mathlib.Data.List.Forall2
import Mathlib.Tactic

/-! # Computations that may fail -/

namespace ObsidianMcp

variable {ε α β : Type}

theorem bind_ok_iff {x : Except ε α} {f : α → Except ε β} {b : β} :
    (x >>= f) = .ok b ↔ ∃ a, x = .ok a ∧ f a = .ok b := by
  cases x with
  | error e =>
      constructor
      · intro h
        contradiction
      · intro h
        rcases h with ⟨a, ha, -⟩
        contradiction
  | ok a =>
      constructor
      · intro h
        exact ⟨a, rfl, h⟩
      · intro h
        rcases h with ⟨a', ha, hb⟩
        rw [Except.ok.inj ha]
        exact hb

/-- Every element of a list has a result. -/
theorem mapM_cons_ok {f : α → Except ε β} {a : α} {l : List α} {bs : List β} :
    (a :: l).mapM f = .ok bs ↔ ∃ b rest, f a = .ok b ∧ l.mapM f = .ok rest ∧ bs = b :: rest := by
  rw [List.mapM_cons, bind_ok_iff]
  constructor
  · intro h
    rcases h with ⟨b, hb, h⟩
    rcases bind_ok_iff.mp h with ⟨rest, hrest, h⟩
    exact ⟨b, rest, hb, hrest, (Except.ok.inj h).symm⟩
  · intro h
    rcases h with ⟨b, rest, hb, hrest, rfl⟩
    exact ⟨b, hb, bind_ok_iff.mpr ⟨rest, hrest, rfl⟩⟩

theorem mapM_ok_iff {f : α → Except ε β} {l : List α} {bs : List β} :
    l.mapM f = .ok bs ↔ List.Forall₂ (fun a b => f a = .ok b) l bs := by
  induction l generalizing bs with
  | nil =>
      rw [List.forall₂_nil_left_iff]
      constructor
      · intro h
        exact (Except.ok.inj h).symm
      · intro h
        rw [h]
        rfl
  | cons a l ih =>
      rw [mapM_cons_ok, List.forall₂_cons_left_iff]
      constructor
      · intro h
        rcases h with ⟨b, rest, hb, hrest, rfl⟩
        exact ⟨b, rest, hb, ih.mp hrest, rfl⟩
      · intro h
        rcases h with ⟨b, rest, hb, hrest, rfl⟩
        exact ⟨b, rest, hb, ih.mpr hrest, rfl⟩

end ObsidianMcp
