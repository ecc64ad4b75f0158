import ObsidianMcp.Verification.Chunks.Splitting

/-! # The preparation budget

The bytes in use are those that are retained and those of the reservations that are held. Every rule
below says what one operation does to them. -/

namespace ObsidianMcp.Chunks

variable {limit : ℕ} {s t u : Memory} {extra : List (Guard × ℕ)} {kept bytes : ℕ}

/-- The bytes of reservations. -/
def heldBytes (reserved : List (Guard × ℕ)) : ℕ :=
  (reserved.map Prod.snd).sum

@[simp] theorem heldBytes_cons (entry : Guard × ℕ) (reserved : List (Guard × ℕ)) :
    heldBytes (entry :: reserved) = entry.2 + heldBytes reserved := by
  simp [heldBytes]

@[simp] theorem heldBytes_append (a b : List (Guard × ℕ)) :
    heldBytes (a ++ b) = heldBytes a + heldBytes b := by
  simp [heldBytes]

/-- The reservations are part of the bytes in use, and these never exceeded the limit. -/
structure Memory.Balanced (limit : ℕ) (memory : Memory) : Prop where
  held_le : heldBytes memory.reserved ≤ memory.used
  used_le : memory.used ≤ limit
  highest_le : memory.highest ≤ limit

/-- What has happened since a memory: some reservations are held, and some bytes are kept. -/
structure Since (limit : ℕ) (s : Memory) (extra : List (Guard × ℕ)) (kept : ℕ) (t : Memory) :
    Prop where
  balanced : t.Balanced limit
  reserved : t.reserved = extra ++ s.reserved
  used : t.used = s.used + kept + heldBytes extra

/-- A failure that the caller gets, with what has happened since a memory. -/
def Failed (limit : ℕ) (s : Memory) (failure : Failure) (t : Memory) : Prop :=
  failure.Reported ∧ ∃ extra kept, Since limit s extra kept t

theorem Memory.Balanced.since (h : s.Balanced limit) : Since limit s [] 0 s :=
  ⟨h, rfl, rfl⟩

theorem Since.failed (h : Since limit s extra kept t) {failure : Failure}
    (hfailure : failure.Reported) : Failed limit s failure t :=
  ⟨hfailure, extra, kept, h⟩

theorem Since.trans {extra' : List (Guard × ℕ)} {kept' : ℕ} (h : Since limit s extra kept t)
    (h' : Since limit t extra' kept' u) : Since limit s (extra' ++ extra) (kept + kept') u := by
  refine ⟨h'.balanced, ?_, ?_⟩
  · rw [h'.reserved, h.reserved, List.append_assoc]
  · rw [h'.used, h.used, heldBytes_append]
    omega

theorem Since.trans_kept {kept' : ℕ} (h : Since limit s extra kept t)
    (h' : Since limit t [] kept' u) : Since limit s extra (kept + kept') u :=
  h.trans h'

/-- A failure since a later memory is one since an earlier memory. -/
theorem Since.failed_trans (h : Since limit s extra kept t) {failure : Failure}
    (hfailed : Failed limit t failure u) : Failed limit s failure u := by
  obtain ⟨hreported, extra', kept', h'⟩ := hfailed
  exact ⟨hreported, _, _, h.trans h'⟩

/-! ## Operations that only look -/

theorem runs_raise {α : Type} {x : Except Failure α} {Q : α → Prop}
    (h : Since limit s extra kept t) (hx : Ends x Q Failure.Reported) :
    Runs (raise x) t (fun a u => u = t ∧ Q a) (Failed limit s) := by
  cases x with
  | ok a => exact (runs_pure a).mpr ⟨rfl, hx⟩
  | error failure => exact (runs_throw failure).mpr (h.failed hx)

theorem runs_reading {α : Type} {f : ℕ → Except Failure α} {Q : α → Prop}
    (h : Since limit s extra kept t) (hf : Ends (f t.used) Q Failure.Reported) :
    Runs (reading f) t (fun a u => u = t ∧ Q a) (Failed limit s) :=
  Runs.congr (show reading f t = raise (f t.used) t from rfl) (runs_raise h hf)

/-! ## Operations on the bytes in use -/

namespace Preparation

variable {p : Preparation}

theorem check_runs (h : Since p.limit s extra kept t) :
    Runs (reading fun used => p.check used bytes) t
      (fun _ u => u = t ∧ saturatingAdd t.used bytes ≤ p.limit) (Failed p.limit s) :=
  runs_reading (f := fun used => p.check used bytes) h (p.check_ends t.used bytes)

/-- Bytes that are retained fit into the budget. -/
theorem retain_runs (hlimit : p.limit < usizeMax) (h : Since p.limit s extra kept t) :
    Runs (p.retain bytes) t
      (fun _ u => u.reserved = t.reserved ∧ Since p.limit s extra (kept + bytes) u)
      (Failed p.limit s) := by
  unfold retain
  refine (check_runs h).bind fun _ u _ hu => ?_
  obtain ⟨rfl, hle⟩ := hu
  have hused : u.used + bytes ≤ p.limit := by
    unfold saturatingAdd at hle
    omega
  refine runs_modify.mpr ⟨rfl, ⟨?_, hused, max_le h.balanced.highest_le hused⟩, h.reserved, ?_⟩
  · exact h.balanced.held_le.trans (Nat.le_add_right _ _)
  · change u.used + bytes = _
    rw [h.used]
    omega

theorem reserve_runs (hlimit : p.limit < usizeMax) (guard : Guard)
    (h : Since p.limit s extra kept t) :
    Runs (p.reserve guard bytes) t (fun _ u => Since p.limit s ((guard, bytes) :: extra) kept u)
      (Failed p.limit s) := by
  unfold reserve
  refine (retain_runs hlimit h).bind fun _ u _ hu => ?_
  obtain ⟨hreserved, hsince⟩ := hu
  have hused := hsince.used
  refine runs_modify.mpr ⟨⟨?_, hsince.balanced.used_le, hsince.balanced.highest_le⟩, ?_, ?_⟩
  · have hheld := h.balanced.held_le
    have hbefore := h.used
    simp only [heldBytes_cons, hreserved]
    omega
  · simp only [hreserved, h.reserved, List.cons_append]
  · simp only [heldBytes_cons]
    omega

end Preparation

/-- The bytes of a reservation can be given back. -/
theorem giveBack_runs (hle : bytes + heldBytes t.reserved ≤ t.used) (hused : t.used ≤ limit)
    (hhighest : t.highest ≤ limit) :
    Runs (giveBack bytes) t (fun _ u => u.Balanced limit ∧ u.reserved = t.reserved ∧
      u.used + bytes = t.used) (fun _ _ => False) := by
  unfold giveBack
  refine (runs_get.mpr ⟨rfl, rfl⟩ : Runs get t (fun memory u => memory = t ∧ u = t) _).bind
    fun memory u _ hu => ?_
  obtain ⟨rfl, rfl⟩ := hu
  rw [if_neg (by omega)]
  refine runs_set.mpr ⟨⟨?_, ?_, max_le hhighest (by omega)⟩, rfl, ?_⟩
  · change heldBytes u.reserved ≤ u.used - bytes
    omega
  · change u.used - bytes ≤ limit
    omega
  · change u.used - bytes + bytes = u.used
    omega

/-- Releasing a reservation that is held takes its bytes back. -/
theorem release_runs {guard : Guard} (newer older : List (Guard × ℕ))
    (h : Since limit s (newer ++ (guard, bytes) :: older) kept t)
    (hnewer : ∀ entry ∈ newer, entry.1 ≠ guard) :
    Runs (release guard) t (fun _ u => Since limit s (newer ++ older) kept u) (Failed limit s) := by
  have hreserved : t.reserved = newer ++ (guard, bytes) :: (older ++ s.reserved) := by
    rw [h.reserved, List.append_assoc, List.cons_append]
  have hfind : t.reserved.find? (fun entry => entry.1 = guard) = some (guard, bytes) := by
    have hnone : newer.find? (fun entry => entry.1 = guard) = none := by
      simpa using hnewer
    rw [hreserved, List.find?_append, hnone]
    simp
  have herase : t.reserved.erase (guard, bytes) = newer ++ (older ++ s.reserved) := by
    have hnot : (guard, bytes) ∉ newer := fun hmem => hnewer _ hmem rfl
    rw [hreserved, List.erase_append_right _ hnot, List.erase_cons_head]
  have hheld := h.balanced.held_le
  rw [hreserved] at hheld
  unfold release
  refine (runs_get.mpr ⟨rfl, rfl⟩ : Runs get t (fun memory u => memory = t ∧ u = t) _).bind
    fun memory u _ hu => ?_
  obtain ⟨rfl, rfl⟩ := hu
  rw [hfind]
  refine (runs_set.mpr rfl : Runs (set { u with reserved := u.reserved.erase (guard, bytes) }) u
    (fun _ v => v = { u with reserved := u.reserved.erase (guard, bytes) }) _).bind
    fun _ v _ hv => ?_
  subst hv
  refine (giveBack_runs (t := { u with reserved := u.reserved.erase (guard, bytes) }) ?_
    h.balanced.used_le h.balanced.highest_le).imp ?_ (fun _ _ hfalse => hfalse.elim)
  · simp only [herase, heldBytes_append, heldBytes_cons] at hheld ⊢
    omega
  · intro _ v hv
    obtain ⟨hbalanced, hv, hused⟩ := hv
    refine ⟨hbalanced, ?_, ?_⟩
    · rw [hv]
      simp only [herase, List.append_assoc]
    · have hbefore := h.used
      simp only [heldBytes_append, heldBytes_cons] at hbefore hused ⊢
      omega

/-! ## Scopes -/

/-- The last reservations can be released in the reverse order. -/
theorem releaseLast_runs (h : Since limit s extra kept t) :
    Runs (releaseLast extra.length) t (fun _ u => Since limit s [] kept u) (fun _ _ => False) := by
  induction extra generalizing t with
  | nil => exact (runs_pure _).mpr h
  | cons entry extra ih =>
      have hheld := h.balanced.held_le
      rw [h.reserved] at hheld
      rw [List.length_cons, releaseLast]
      refine (runs_get.mpr ⟨rfl, rfl⟩ : Runs get t (fun memory u => memory = t ∧ u = t) _).bind
        fun memory u _ hu => ?_
      obtain ⟨rfl, rfl⟩ := hu
      rw [h.reserved, List.cons_append]
      refine (runs_set.mpr rfl : Runs (set { u with reserved := extra ++ s.reserved }) u
        (fun _ v => v = { u with reserved := extra ++ s.reserved }) _).bind fun _ v _ hv => ?_
      subst hv
      refine (giveBack_runs (t := { u with reserved := extra ++ s.reserved }) ?_ h.balanced.used_le
        h.balanced.highest_le).bind fun _ v _ hv => ?_
      · simpa only [List.cons_append, heldBytes_cons] using hheld
      · obtain ⟨hbalanced, hv, hused⟩ := hv
        refine ih ⟨hbalanced, hv, ?_⟩
        have hbefore := h.used
        simp only [heldBytes_cons] at hbefore hused
        omega

theorem scope_of_ok {α : Type} {body : Preparing α} {a : α} (h : body s = .ok a t) :
    scope body s =
      (releaseLast (t.reserved.length - s.reserved.length) >>= fun _ => pure a) t := by
  unfold scope
  simp only [h]

theorem scope_of_error {α : Type} {body : Preparing α} {failure : Failure}
    (h : body s = .error failure t) :
    scope body s =
      (releaseLast (t.reserved.length - s.reserved.length) >>= fun _ => throw failure) t := by
  unfold scope
  simp only [h]

/-- At the end of a scope, no reservation is left, whatever the end is. -/
theorem scope_runs {α : Type} {body : Preparing α} {Q : α → ℕ → Prop}
    (hbody : Runs body s (fun a t => ∃ extra kept, Since limit s extra kept t ∧ Q a kept)
      (Failed limit s)) :
    Runs (scope body) s (fun a t => ∃ kept, Since limit s [] kept t ∧ Q a kept)
      (fun failure t => failure.Reported ∧ ∃ kept, Since limit s [] kept t) := by
  have hextra : ∀ {extra : List (Guard × ℕ)} {kept : ℕ} {t : Memory}, Since limit s extra kept t →
      t.reserved.length - s.reserved.length = extra.length := by
    intro extra kept t h
    rw [h.reserved, List.length_append]
    omega
  cases hrun : body s with
  | ok a t =>
      obtain ⟨extra, kept, h, hQ⟩ := hbody.result hrun
      refine Runs.congr (scope_of_ok hrun) ?_
      rw [hextra h]
      exact ((releaseLast_runs h).imp (fun _ _ h => h) (fun _ _ hfalse => hfalse.elim)).bind
        fun _ u _ hu => (runs_pure a).mpr ⟨kept, hu, hQ⟩
  | error failure t =>
      obtain ⟨hreported, extra, kept, h⟩ := hbody.failure hrun
      refine Runs.congr (scope_of_error hrun) ?_
      rw [hextra h]
      exact ((releaseLast_runs h).imp (fun _ _ h => h) (fun _ _ hfalse => hfalse.elim)).bind
        fun _ u _ hu => (runs_throw failure).mpr ⟨hreported, kept, hu⟩

end ObsidianMcp.Chunks
