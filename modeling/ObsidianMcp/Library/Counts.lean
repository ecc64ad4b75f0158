import ObsidianMcp.Library.Table

/-! # Counted keys

A table of counts lists every key that occurs, with the number of its occurrences. -/

namespace ObsidianMcp

universe u

variable {K : Type u} [DecidableEq K]

/-- The number of times that each key occurs. -/
abbrev Counts (K : Type u) := Table K ℕ

namespace Counts

/-- The entry for a number of occurrences. -/
def positive (count : ℕ) : Option ℕ :=
  if count = 0 then none else some count

/-- The table lists the positive numbers of occurrences. -/
def Exact (occurs : K → ℕ) (counts : Counts K) : Prop :=
  ∀ key, counts.lookup key = positive (occurs key)

def occurrences (keys : List K) (key : K) : ℕ :=
  keys.count key

/-- One occurrence more of a key. -/
def increment (counts : Counts K) (key : K) : Counts K :=
  counts.insert key ((counts.lookup key).getD 0 + 1)

/-- One occurrence less of a key. -/
def decrement (counts : Counts K) (key : K) : Counts K :=
  let count := (counts.lookup key).getD 0 - 1
  if count = 0 then counts.erase key else counts.insert key count

variable {occurs : K → ℕ} {counts : Counts K}

theorem getD_positive (count : ℕ) : (positive count).getD 0 = count := by
  cases count <;> rfl

theorem positive_eq_some {n count : ℕ} (h : positive n = some count) : 0 < n := by
  cases n with
  | zero => contradiction
  | succ n => exact Nat.succ_pos n

theorem exact_empty : Exact (fun _ => 0) (∅ : Counts K) :=
  fun key => AList.lookup_empty key

theorem Exact.congr {occurs' : K → ℕ} (h : Exact occurs counts)
    (heq : ∀ key, occurs key = occurs' key) : Exact occurs' counts := by
  intro key
  rw [← heq key]
  exact h key

theorem Exact.getD_lookup (h : Exact occurs counts) (key : K) :
    (counts.lookup key).getD 0 = occurs key := by
  rw [h key, getD_positive]

theorem Exact.increment (h : Exact occurs counts) (key : K) :
    Exact (fun k => occurs k + if k = key then 1 else 0) (counts.increment key) := by
  intro k
  dsimp only
  by_cases hk : k = key
  · rw [if_pos hk, hk, Counts.increment, AList.lookup_insert, h.getD_lookup]
    rfl
  · rw [if_neg hk, Nat.add_zero, ← h k]
    exact AList.lookup_insert_ne hk

theorem occurrences_cons (key k : K) (keys : List K) :
    occurrences (key :: keys) k = (if k = key then 1 else 0) + occurrences keys k := by
  rw [occurrences, occurrences]
  by_cases hk : k = key
  · rw [if_pos hk, hk, List.count_cons_self, Nat.add_comm]
  · rw [if_neg hk, List.count_cons_of_ne (Ne.symm hk), Nat.zero_add]

theorem occurrences_pos {keys : List K} {key : K} : 0 < occurrences keys key ↔ key ∈ keys :=
  List.count_pos_iff

/-- Counting a list of keys. -/
theorem Exact.incrementAll (h : Exact occurs counts) (keys : List K) :
    Exact (fun k => occurs k + occurrences keys k) (keys.foldl Counts.increment counts) := by
  induction keys generalizing occurs counts with
  | nil => exact h
  | cons key keys ih =>
      apply (ih (h.increment key)).congr
      intro k
      rw [occurrences_cons]
      exact Nat.add_assoc _ _ _

theorem Exact.decrement (h : Exact occurs counts) (key : K) :
    Exact (fun k => occurs k - if k = key then 1 else 0) (counts.decrement key) := by
  intro k
  rw [Counts.decrement, h.getD_lookup]
  dsimp only
  by_cases hk : k = key
  · rw [if_pos hk, hk, positive]
    by_cases hzero : occurs key - 1 = 0
    · rw [if_pos hzero, if_pos hzero, AList.lookup_erase]
    · rw [if_neg hzero, if_neg hzero, AList.lookup_insert]
  · rw [if_neg hk, Nat.sub_zero, ← h k]
    by_cases hzero : occurs key - 1 = 0
    · rw [if_pos hzero, AList.lookup_erase_ne hk]
    · rw [if_neg hzero, AList.lookup_insert_ne hk]

theorem Exact.decrementAll (h : Exact occurs counts) (keys : List K) :
    Exact (fun k => occurs k - occurrences keys k) (keys.foldl Counts.decrement counts) := by
  induction keys generalizing occurs counts with
  | nil => exact h
  | cons key keys ih =>
      apply (ih (h.decrement key)).congr
      intro k
      rw [occurrences_cons]
      exact Nat.sub_sub _ _ _

end Counts

end ObsidianMcp
