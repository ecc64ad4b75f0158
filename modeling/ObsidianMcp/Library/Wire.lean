import Mathlib.Tactic

/-! # Readers and writers of a byte stream

A reader is a computation on some state that holds the bytes still to come. It reads a value
from an encoding if it consumes exactly that encoding, whatever follows, so the laws of a
record compose from the laws of its fields. A writer appends to a sink of bounded size. -/

namespace ObsidianMcp

/-! ## Little-endian numbers -/

/-- The low `width` bytes of a number, least significant first. -/
def leBytes : ℕ → ℕ → List UInt8
  | 0, _ => []
  | width + 1, n => UInt8.ofNat n :: leBytes width (n / 256)

def leValue : List UInt8 → ℕ
  | [] => 0
  | b :: bytes => b.toNat + 256 * leValue bytes

@[simp] theorem length_leBytes (width n : ℕ) : (leBytes width n).length = width := by
  induction width generalizing n with
  | zero => rfl
  | succ width ih => simp [leBytes, ih]

theorem leValue_leBytes {width n : ℕ} (h : n < 256 ^ width) : leValue (leBytes width n) = n := by
  induction width generalizing n with
  | zero =>
      rw [pow_zero, Nat.lt_one_iff] at h
      subst h
      rfl
  | succ width ih =>
      have hdiv : n / 256 < 256 ^ width := by
        rw [Nat.div_lt_iff_lt_mul (by decide), ← pow_succ]
        exact h
      rw [leBytes, leValue, ih hdiv, UInt8.toNat_ofNat']
      exact Nat.mod_add_div n 256

/-! ## Readers -/

section Readers

variable {σ ε α β : Type} (hold : List UInt8 → σ)

/-- The reader takes these bytes off the input and returns the value. `hold` is the state
with a given input. -/
def Reads (m : StateT σ (Except ε) α) (bytes : List UInt8) (a : α) : Prop :=
  ∀ rest, m (hold (bytes ++ rest)) = .ok (a, hold rest)

variable {hold}

theorem Reads.run {m : StateT σ (Except ε) α} {bytes : List UInt8} {a : α}
    (h : Reads hold m bytes a) (rest : List UInt8) :
    m (hold (bytes ++ rest)) = .ok (a, hold rest) :=
  h rest

theorem Reads.pure (a : α) : Reads (ε := ε) hold (pure a) [] a := fun _ => rfl

theorem Reads.bind {m : StateT σ (Except ε) α} {f : α → StateT σ (Except ε) β}
    {x y : List UInt8} {a : α} {b : β} (hm : Reads hold m x a) (hf : Reads hold (f a) y b) :
    Reads hold (m >>= f) (x ++ y) b := by
  intro rest
  change (m (hold (x ++ y ++ rest))).bind (fun r => f r.1 r.2) = .ok (b, hold rest)
  rw [List.append_assoc, hm (y ++ rest)]
  exact hf rest

/-- A last step that does not touch the input. -/
theorem Reads.bind_end {m : StateT σ (Except ε) α} {f : α → StateT σ (Except ε) β}
    {x : List UInt8} {a : α} {b : β} (hm : Reads hold m x a) (hf : Reads hold (f a) [] b) :
    Reads hold (m >>= f) x b := by
  simpa using hm.bind hf

end Readers

/-! ## Writers -/

/-- A place to append bytes to, with the number of bytes used and a limit on it. -/
structure BoundedSink (ω : Type) where
  append : ω → List UInt8 → ω
  used : ω → ℕ
  limit : ℕ
  append_nil : ∀ out, append out [] = out
  append_append : ∀ out x y, append (append out x) y = append out (x ++ y)
  used_append : ∀ out x, used (append out x) = used out + x.length

section Writers

variable {ω ε α : Type} {sink : BoundedSink ω}

/-- The writer appends these bytes where they fit, and fails where they do not. -/
def Writes (sink : BoundedSink ω) (f : ω → Except ε ω) (bytes : List UInt8) : Prop :=
  ∀ out, sink.used out ≤ sink.limit →
    (sink.used out + bytes.length ≤ sink.limit → f out = .ok (sink.append out bytes)) ∧
      (sink.limit < sink.used out + bytes.length → ∃ error, f out = .error error)

theorem Writes.eq_ok {f : ω → Except ε ω} {bytes : List UInt8} (h : Writes sink f bytes) {out : ω}
    (hfits : sink.used out + bytes.length ≤ sink.limit) : f out = .ok (sink.append out bytes) :=
  (h out (Nat.le_of_add_right_le hfits)).1 hfits

theorem Writes.exists_error {f : ω → Except ε ω} {bytes : List UInt8} (h : Writes sink f bytes)
    {out : ω} (hout : sink.used out ≤ sink.limit)
    (hover : sink.limit < sink.used out + bytes.length) : ∃ error, f out = .error error :=
  (h out hout).2 hover

theorem Writes.pure : Writes (ε := ε) sink Except.ok [] := by
  intro out hout
  refine ⟨fun _ => by rw [sink.append_nil], fun hover => ?_⟩
  rw [List.length_nil, Nat.add_zero] at hover
  exact absurd hover (Nat.not_lt.mpr hout)

theorem Writes.bind {f g : ω → Except ε ω} {x y : List UInt8} (hf : Writes sink f x)
    (hg : Writes sink g y) : Writes sink (fun out => f out >>= g) (x ++ y) := by
  intro out hout
  rw [List.length_append, ← Nat.add_assoc]
  by_cases hx : sink.used out + x.length ≤ sink.limit
  · have hstep : (f out >>= g) = g (sink.append out x) := by rw [(hf out hout).1 hx]; rfl
    have hnext := hg (sink.append out x) (by rwa [sink.used_append])
    rw [sink.used_append, sink.append_append, ← hstep] at hnext
    exact hnext
  · refine ⟨fun hfits => absurd (Nat.le_of_add_right_le hfits) hx, fun _ => ?_⟩
    obtain ⟨error, herror⟩ := (hf out hout).2 (Nat.lt_of_not_le hx)
    have hstep : (f out >>= g) = .error error := by rw [herror]; rfl
    exact ⟨error, hstep⟩

theorem Writes.foldlM {f : ω → α → Except ε ω} {encode : α → List UInt8} {items : List α}
    (h : ∀ a ∈ items, Writes sink (f · a) (encode a)) :
    Writes sink (fun out => items.foldlM f out) (items.flatMap encode) := by
  induction items with
  | nil => exact Writes.pure
  | cons a items ih =>
      simp only [List.foldlM_cons, List.flatMap_cons]
      exact (h a (by simp)).bind (ih fun b hb => h b (by simp [hb]))

end Writers

end ObsidianMcp
