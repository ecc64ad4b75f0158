import Mathlib.Tactic

/-! # Loops whose rounds have effects

A round goes on with a new state of the loop or ends it with a result. A loop carries a measure
that every round lowers, so it ends. -/

namespace ObsidianMcp

variable {ε σ α β γ : Type}

/-- Run a program and keep its outcome. -/
def attempt (x : EStateM ε σ α) : EStateM ε σ (Except ε α) := fun s =>
  match x s with
  | .ok a t => .ok (.ok a) t
  | .error e t => .ok (.error e) t

/-- A computation without effects. -/
def raise (x : Except ε α) : EStateM ε σ α := fun s =>
  match x with
  | .ok a => .ok a s
  | .error e => .error e s

structure Loop (ε σ β γ : Type) where
  round : β → EStateM ε σ (β ⊕ γ)
  measure : β → ℕ
  decreases : ∀ {b s b' t}, round b s = .ok (.inl b') t → measure b' < measure b

/-- Rounds until one of them ends the loop. -/
def Loop.run (l : Loop ε σ β γ) (b : β) : EStateM ε σ γ := fun s =>
  match _h : l.round b s with
  | .ok (.inl b') t => l.run b' t
  | .ok (.inr c) t => .ok c t
  | .error e t => .error e t
termination_by l.measure b
decreasing_by exact l.decreases _h

/-- What a loop has come to after a number of rounds. -/
inductive Loop.Reaches (l : Loop ε σ β γ) (b : β) (s : σ) : ℕ → β → σ → Prop where
  | start : Reaches l b s 0 b s
  | next {n : ℕ} {b' b'' : β} {s' s'' : σ} (h : Reaches l b s n b' s')
      (hround : l.round b' s' = .ok (.inl b'') s'') : Reaches l b s (n + 1) b'' s''

/-! ## Programs -/

@[simp] theorem estateM_pure (a : α) (s : σ) : (pure a : EStateM ε σ α) s = .ok a s := rfl

@[simp] theorem estateM_throw (e : ε) (s : σ) : (throw e : EStateM ε σ α) s = .error e s := rfl

theorem estateM_bind (x : EStateM ε σ α) (f : α → EStateM ε σ β) (s : σ) :
    (x >>= f) s = match x s with
      | .ok a t => f a t
      | .error e t => .error e t := rfl

theorem estateM_bind_ok {x : EStateM ε σ α} {f : α → EStateM ε σ β} {b : β} {s t : σ} :
    (x >>= f) s = .ok b t ↔ ∃ a u, x s = .ok a u ∧ f a u = .ok b t := by
  rw [estateM_bind]
  cases x s <;> simp

@[simp] theorem raise_ok (a : α) : (raise (.ok a) : EStateM ε σ α) = pure a := rfl

@[simp] theorem raise_error (e : ε) : (raise (.error e) : EStateM ε σ α) = throw e := rfl

theorem raise_eq_ok {x : Except ε α} {a : α} {s t : σ} :
    raise x s = .ok a t ↔ x = .ok a ∧ s = t := by
  cases x <;> simp [raise]

theorem attempt_eq_result {x : EStateM ε σ α} {a : α} {s t : σ} :
    attempt x s = .ok (.ok a) t ↔ x s = .ok a t := by
  rw [attempt]
  cases x s <;> simp

theorem attempt_eq_failure {x : EStateM ε σ α} {e : ε} {s t : σ} :
    attempt x s = .ok (.error e) t ↔ x s = .error e t := by
  rw [attempt]
  cases x s <;> simp

/-! ## Loops -/

variable {l : Loop ε σ β γ} {b b' : β} {s s' t : σ} {n : ℕ}

theorem Loop.run_of_next (h : l.round b s = .ok (.inl b') t) : l.run b s = l.run b' t := by
  rw [Loop.run]
  split <;> simp_all

theorem Loop.run_of_stop {c : γ} (h : l.round b s = .ok (.inr c) t) : l.run b s = .ok c t := by
  rw [Loop.run]
  split <;> simp_all

theorem Loop.run_of_error {e : ε} (h : l.round b s = .error e t) : l.run b s = .error e t := by
  rw [Loop.run]
  split <;> simp_all

/-- The rounds of a loop are bounded by its measure. -/
theorem Loop.Reaches.add_measure_le (h : l.Reaches b s n b' s') :
    n + l.measure b' ≤ l.measure b := by
  induction h with
  | start => simp
  | next h hround ih =>
      have hlower := l.decreases hround
      omega

/-- What holds of the first state and is kept by every round holds of every state. -/
theorem Loop.Reaches.invariant {I : β → σ → Prop} (h : l.Reaches b s n b' s') (hstart : I b s)
    (hround : ∀ b s b' t, I b s → l.round b s = .ok (.inl b') t → I b' t) : I b' s' := by
  induction h with
  | start => exact hstart
  | next h hnext ih => exact hround _ _ _ _ ih hnext

/-- What holds of a state when it holds after the next round holds of every state. -/
theorem Loop.induct {P : β → σ → Prop} (l : Loop ε σ β γ)
    (h : ∀ b s, (∀ b' t, l.round b s = .ok (.inl b') t → P b' t) → P b s) (b : β) (s : σ) :
    P b s := by
  have hall : ∀ k b s, l.measure b ≤ k → P b s := by
    intro k
    induction k with
    | zero =>
        intro b s hk
        refine h b s fun b' t hround => ?_
        have hlower := l.decreases hround
        omega
    | succ k ih =>
        intro b s hk
        refine h b s fun b' t hround => ih b' t ?_
        have hlower := l.decreases hround
        omega
  exact hall _ b s le_rfl

theorem Loop.Reaches.trans {m : ℕ} {b'' : β} {s'' : σ} (h : l.Reaches b s n b' s')
    (h' : l.Reaches b' s' m b'' s'') : l.Reaches b s (n + m) b'' s'' := by
  induction h' with
  | start => exact h
  | next _ hround ih => exact ih.next hround

/-- A loop that ends with a result does so in a round from a state that it reaches. -/
theorem Loop.exists_of_run {c : γ} (h : l.run b s = .ok c t) :
    ∃ n b' s', l.Reaches b s n b' s' ∧ l.round b' s' = .ok (.inr c) t := by
  induction b, s using l.induct with
  | h b s ih =>
      cases hround : l.round b s with
      | error e u => simp [Loop.run_of_error hround] at h
      | ok next u =>
          cases next with
          | inl b' =>
              rw [Loop.run_of_next hround] at h
              obtain ⟨n, b'', s'', hreach, hstop⟩ := ih b' u hround h
              exact ⟨1 + n, b'', s'', (Loop.Reaches.start.next hround).trans hreach, hstop⟩
          | inr d =>
              rw [Loop.run_of_stop hround] at h
              obtain ⟨rfl, rfl⟩ : d = c ∧ u = t := by simpa using h
              exact ⟨0, b, s, .start, hround⟩

end ObsidianMcp
