import Mathlib.Tactic

/-! # Sequential programs among other parties

A program works on a state that other parties change between its sections. Its pre- and
postconditions are stated by triples with one more condition for the runs that stop early.
The states a system of steps reaches have an induction rule of their own. -/

namespace ObsidianMcp

section Triples

variable {ε σ α β : Type}

/-- A run has returned into `Q` or stopped in `S`. -/
def EndsIn (Q : α → σ → Prop) (S : ε → σ → Prop) : EStateM.Result ε σ α → Prop
  | .ok a t => Q a t
  | .error e t => S e t

/-- Every run from a state with `P` returns into `Q` or stops in `S`. -/
def Triple (P : σ → Prop) (x : EStateM ε σ α) (Q : α → σ → Prop) (S : ε → σ → Prop) : Prop :=
  ∀ s, P s → EndsIn Q S (x s)

variable {P P' : σ → Prop} {Q Q' : α → σ → Prop} {S : ε → σ → Prop} {x : EStateM ε σ α}

theorem Triple.of_ok {a : α} {s t : σ} (h : Triple P x Q S) (hs : P s) (hx : x s = .ok a t) :
    Q a t := by
  have hrun := h s hs
  rw [hx] at hrun
  exact hrun

theorem Triple.of_error {e : ε} {s t : σ} (h : Triple P x Q S) (hs : P s)
    (hx : x s = .error e t) : S e t := by
  have hrun := h s hs
  rw [hx] at hrun
  exact hrun

theorem Triple.weaken (h : Triple P x Q S) (hP : ∀ s, P' s → P s)
    (hQ : ∀ a s, Q a s → Q' a s) : Triple P' x Q' S := by
  intro s hs
  have hrun := h s (hP s hs)
  cases hx : x s with
  | ok a t => rw [hx] at hrun; exact hQ a t hrun
  | error e t => rw [hx] at hrun; exact hrun

theorem Triple.pure {a : α} (h : ∀ s, P s → Q a s) :
    Triple P (Pure.pure a : EStateM ε σ α) Q S :=
  h

theorem Triple.throw {e : ε} (h : ∀ s, P s → S e s) :
    Triple P (MonadExcept.throw e : EStateM ε σ α) Q S :=
  h

theorem Triple.modifyGet {f : σ → α × σ} (h : ∀ s, P s → Q (f s).1 (f s).2) :
    Triple P (MonadStateOf.modifyGet f : EStateM ε σ α) Q S :=
  h

theorem Triple.bind {R : α → σ → Prop} {f : α → EStateM ε σ β} {Q : β → σ → Prop}
    (hx : Triple P x R S) (hf : ∀ a, Triple (R a) (f a) Q S) : Triple P (x >>= f) Q S := by
  intro s hs
  have hrun := hx s hs
  change EndsIn Q S (EStateM.bind x f s)
  rw [EStateM.bind]
  cases h : x s with
  | ok a t => rw [h] at hrun; exact hf a t hrun
  | error e t => rw [h] at hrun; exact hrun

/-- A loop over a list, with an invariant on what is left to do. -/
theorem Triple.forM {γ : Type} {f : γ → EStateM ε σ PUnit} (I : List γ → σ → Prop)
    (h : ∀ c rest, Triple (I (c :: rest)) (f c) (fun _ => I rest) S) (l : List γ) :
    Triple (I l) (l.forM f) (fun _ => I []) S := by
  induction l with
  | nil => exact Triple.pure fun _ hs => hs
  | cons c rest ih => exact Triple.bind (h c rest) fun _ => ih

/-- A condition that does not depend on the state is a hypothesis. -/
theorem Triple.and {p : Prop} (h : p → Triple P x Q S) : Triple (fun s => p ∧ P s) x Q S :=
  fun s hs => h hs.1 s hs.2

/-- The state before the program may be named. -/
theorem Triple.named (h : ∀ s, P s → Triple (fun t => t = s) x Q S) : Triple P x Q S :=
  fun s hs => h s hs s rfl

end Triples

/-! ## Interference -/

section Interference

variable {ε σ μ : Type}

/-- The others make their moves; then the party is cut off or its next section begins. -/
def interfere (moves : σ → List μ) (act : μ → σ → σ) (cut : σ → Option ε) (enter : σ → σ) :
    EStateM ε σ Unit := fun s =>
  let t := (moves s).foldl (fun t m => act m t) s
  match cut t with
  | some e => .error e t
  | none => .ok () (enter t)

theorem Triple.interfere {moves : σ → List μ} {act : μ → σ → σ} {cut : σ → Option ε}
    {enter : σ → σ} {P : σ → Prop} {Q : Unit → σ → Prop} {S : ε → σ → Prop}
    (hact : ∀ s m, (∃ t, m ∈ moves t) → P s → P (act m s)) (henter : ∀ s, P s → Q () (enter s))
    (hcut : ∀ s e, P s → S e s) :
    Triple P (interfere moves act cut enter) Q S := by
  intro s hs
  have hmoves : ∀ (l : List μ) (t : σ), (∀ m ∈ l, ∃ t, m ∈ moves t) → P t →
      P (l.foldl (fun t m => act m t) t) := by
    intro l
    induction l with
    | nil => exact fun t _ ht => ht
    | cons m l ih =>
        intro t hl ht
        apply ih
        · exact fun m hm => hl m (List.mem_cons_of_mem _ hm)
        · exact hact t m (hl m List.mem_cons_self) ht
  have ht := hmoves (moves s) s (fun m hm => ⟨s, hm⟩) hs
  rw [ObsidianMcp.interfere]
  cases hc : cut ((moves s).foldl (fun t m => act m t) s) with
  | some e => exact hcut _ e ht
  | none => exact henter _ ht

end Interference

/-! ## Systems of steps -/

section Systems

variable {σ : Type}

/-- The states a system reaches from its initial ones. -/
inductive Reached (init : σ → Prop) (step : σ → σ → Prop) : σ → Prop where
  | start {s : σ} (h : init s) : Reached init step s
  | next {s t : σ} (h : Reached init step s) (hstep : step s t) : Reached init step t

/-- What holds initially and is kept by every step holds in every state reached. -/
theorem Reached.invariant {init : σ → Prop} {step : σ → σ → Prop} {I : σ → Prop}
    (hinit : ∀ s, init s → I s)
    (hstep : ∀ s t, Reached init step s → I s → step s t → I t) {s : σ}
    (h : Reached init step s) : I s := by
  induction h with
  | start h => exact hinit _ h
  | next h hst ih => exact hstep _ _ h ih hst

end Systems

end ObsidianMcp
