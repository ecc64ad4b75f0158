import Mathlib.Tactic

/-! # Outcomes

A computation meets a postcondition for its results and another one for its failures. The rules
follow the structure of the computation. -/

namespace ObsidianMcp

variable {ε σ α β : Type}

/-! ## Computations that may fail -/

/-- The result, or else the failure, meets its condition. -/
def Ends (x : Except ε α) (Q : α → Prop) (E : ε → Prop) : Prop :=
  match x with
  | .ok a => Q a
  | .error e => E e

variable {x : Except ε α} {f : α → Except ε β} {Q Q' : α → Prop} {R : β → Prop} {E E' : ε → Prop}

@[simp] theorem ends_ok (a : α) : Ends (.ok a : Except ε α) Q E ↔ Q a := Iff.rfl

@[simp] theorem ends_pure (a : α) : Ends (pure a : Except ε α) Q E ↔ Q a := Iff.rfl

@[simp] theorem ends_error (e : ε) : Ends (.error e : Except ε α) Q E ↔ E e := Iff.rfl

@[simp] theorem ends_throw (e : ε) : Ends (throw e : Except ε α) Q E ↔ E e := Iff.rfl

theorem Ends.bind (hx : Ends x Q E) (hf : ∀ a, x = .ok a → Q a → Ends (f a) R E) :
    Ends (x >>= f) R E := by
  cases x with
  | ok a => exact hf a rfl hx
  | error e => exact hx

theorem Ends.imp (hx : Ends x Q E) (hQ : ∀ a, Q a → Q' a) (hE : ∀ e, E e → E' e) :
    Ends x Q' E' := by
  cases x with
  | ok a => exact hQ a hx
  | error e => exact hE e hx

theorem Ends.result {a : α} (hx : Ends x Q E) (h : x = .ok a) : Q a := by
  rwa [h] at hx

theorem Ends.failure {e : ε} (hx : Ends x Q E) (h : x = .error e) : E e := by
  rwa [h] at hx

theorem Ends.map {g : α → β} (hx : Ends x Q E) (hg : ∀ a, Q a → R (g a)) : Ends (x.map g) R E := by
  cases x with
  | ok a => exact hg a hx
  | error e => exact hx

/-! ## Computations with a state -/

/-- Run from a state, the result and the next state, or else the failure and the next state, meet
their condition. -/
def Runs (x : EStateM ε σ α) (s : σ) (Q : α → σ → Prop) (E : ε → σ → Prop) : Prop :=
  match x s with
  | .ok a t => Q a t
  | .error e t => E e t

section

variable {x : EStateM ε σ α} {f : α → EStateM ε σ β} {s t : σ} {Q Q' : α → σ → Prop}
  {R : β → σ → Prop} {E E' : ε → σ → Prop}

@[simp] theorem runs_pure (a : α) : Runs (pure a : EStateM ε σ α) s Q E ↔ Q a s := Iff.rfl

@[simp] theorem runs_throw (e : ε) : Runs (throw e : EStateM ε σ α) s Q E ↔ E e s := Iff.rfl

theorem Runs.bind (hx : Runs x s Q E) (hf : ∀ a t, x s = .ok a t → Q a t → Runs (f a) t R E) :
    Runs (x >>= f) s R E := by
  unfold Runs at hx ⊢
  change match (match x s with | .ok a t => f a t | .error e t => .error e t) with
    | .ok a t => R a t
    | .error e t => E e t
  cases hrun : x s with
  | ok a t =>
      rw [hrun] at hx
      exact hf a t hrun hx
  | error e t => rwa [hrun] at hx

theorem Runs.imp (hx : Runs x s Q E) (hQ : ∀ a t, Q a t → Q' a t) (hE : ∀ e t, E e t → E' e t) :
    Runs x s Q' E' := by
  unfold Runs at hx ⊢
  cases hrun : x s with
  | ok a t =>
      rw [hrun] at hx
      exact hQ a t hx
  | error e t =>
      rw [hrun] at hx
      exact hE e t hx

theorem runs_get {R : σ → σ → Prop} : Runs (get : EStateM ε σ σ) s R E ↔ R s s := Iff.rfl

theorem runs_set {R : PUnit → σ → Prop} : Runs (set t : EStateM ε σ PUnit) s R E ↔ R ⟨⟩ t := Iff.rfl

theorem runs_modify {g : σ → σ} {R : PUnit → σ → Prop} :
    Runs (modify g : EStateM ε σ PUnit) s R E ↔ R ⟨⟩ (g s) := Iff.rfl

theorem runs_iff : Runs x s Q E ↔
    (∀ a t, x s = .ok a t → Q a t) ∧ ∀ e t, x s = .error e t → E e t := by
  unfold Runs
  cases x s <;> simp

theorem Runs.congr {y : EStateM ε σ α} (h : x s = y t) (hy : Runs y t Q E) : Runs x s Q E := by
  unfold Runs at hy ⊢
  rwa [h]

theorem Runs.result {a : α} (hx : Runs x s Q E) (h : x s = .ok a t) : Q a t :=
  (runs_iff.mp hx).1 a t h

theorem Runs.failure {e : ε} (hx : Runs x s Q E) (h : x s = .error e t) : E e t :=
  (runs_iff.mp hx).2 e t h

end

-- a goal about a run is not to be computed
attribute [irreducible] Runs

end ObsidianMcp
