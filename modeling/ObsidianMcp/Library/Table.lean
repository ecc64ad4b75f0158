import Mathlib.Data.List.AList
import Mathlib.Tactic

/-! # Finite maps and totals over them -/

namespace ObsidianMcp

universe v

variable {K : Type*} {V : Type v} [DecidableEq K]

/-- A finite map from keys to values. -/
abbrev Table (K V : Type*) := AList fun _ : K => V

namespace Table

/-- The total of a size over all entries. -/
def total (size : K → V → ℕ) (t : Table K V) : ℕ :=
  (t.entries.map fun e => size e.1 e.2).sum

/-- The entries as pairs. -/
def toPairs (t : Table K V) : List (K × V) :=
  t.entries.map fun e => (e.1, e.2)

/-- The number of entries. -/
def len (t : Table K V) : ℕ :=
  t.entries.length

theorem mem_toPairs {t : Table K V} {k : K} {v : V} :
    (k, v) ∈ t.toPairs ↔ t.lookup k = some v := by
  rw [toPairs, List.mem_map]
  constructor
  · intro h
    rcases h with ⟨e, he, heq⟩
    rw [Prod.mk.injEq] at heq
    rw [← heq.1, ← heq.2]
    exact AList.mem_lookup_iff.mpr he
  · intro h
    exact ⟨⟨k, v⟩, AList.mem_lookup_iff.mp h, rfl⟩

/-- Erasing an absent key changes nothing. -/
theorem erase_of_lookup_eq_none {t : Table K V} {k : K} (h : t.lookup k = none) :
    t.erase k = t :=
  AList.ext (List.kerase_of_notMem_keys (AList.lookup_eq_none.mp h))

variable (size : K → V → ℕ)

omit [DecidableEq K] in
@[simp] theorem total_empty : total size (∅ : Table K V) = 0 := rfl

theorem total_erase_add {t : Table K V} {k : K} {v : V} (h : t.lookup k = some v) :
    total size (t.erase k) + size k v = total size t := by
  obtain ⟨entries, nodup⟩ := t
  have hmem : Sigma.mk k v ∈ entries := AList.mem_lookup_iff.mp h
  have hperm : entries.Perm (⟨k, v⟩ :: entries.kerase k) := by
    obtain ⟨b, l₁, l₂, hk, rfl, herase⟩ := List.exists_of_kerase (List.mem_keys_of_mem hmem)
    rw [herase]
    have hb : b = v := by
      have hlookup : (l₁ ++ ⟨k, b⟩ :: l₂).dlookup k = some b :=
        (List.mem_dlookup_iff nodup).mpr (by simp)
      exact Option.some.inj (hlookup.symm.trans h)
    subst hb
    exact List.perm_middle
  have hsum := (hperm.map fun e : (_ : K) × V => size e.1 e.2).sum_eq
  rw [List.map_cons, List.sum_cons] at hsum
  exact (add_comm _ _).trans hsum.symm

theorem total_erase_of_lookup_eq_none {t : Table K V} {k : K} (h : t.lookup k = none) :
    total size (t.erase k) = total size t := by
  rw [erase_of_lookup_eq_none h]

theorem total_insert (t : Table K V) (k : K) (v : V) :
    total size (t.insert k v) = size k v + total size (t.erase k) := rfl

/-- Inserting replaces the share of the key in the total. -/
theorem total_insert_eq (t : Table K V) (k : K) (v : V) :
    total size (t.insert k v) =
      total size t - ((t.lookup k).map (size k)).getD 0 + size k v := by
  rw [total_insert, Nat.add_comm]
  cases h : t.lookup k with
  | none => rw [total_erase_of_lookup_eq_none size h]; rfl
  | some old => rw [← total_erase_add size h, Option.map_some, Option.getD_some,
      Nat.add_sub_cancel]

omit [DecidableEq K] in
theorem total_perm {t t' : Table K V} (h : t.entries.Perm t'.entries) :
    total size t = total size t' :=
  (h.map _).sum_eq

/-- Maps with the same lookups have the same entries. -/
theorem perm_of_lookup_eq {t t' : Table K V} (h : ∀ k, t.lookup k = t'.lookup k) :
    t.entries.Perm t'.entries := by
  refine (List.perm_ext_iff_of_nodup (List.NodupKeys.nodup t.nodupKeys)
    (List.NodupKeys.nodup t'.nodupKeys)).mpr fun e => ?_
  rw [← AList.mem_lookup_iff, ← AList.mem_lookup_iff, h]

theorem toPairs_perm {t t' : Table K V} (h : ∀ k, t.lookup k = t'.lookup k) :
    t.toPairs.Perm t'.toPairs :=
  (perm_of_lookup_eq h).map _

omit [DecidableEq K] in
theorem nodup_toPairs (t : Table K V) : t.toPairs.Nodup := by
  apply (List.NodupKeys.nodup t.nodupKeys).map
  intro a b h
  rw [Prod.mk.injEq] at h
  exact Sigma.ext h.1 (heq_of_eq h.2)

/-- The entries that are left are those of the other keys. -/
theorem toPairs_erase_perm (t : Table K V) (k : K) :
    (toPairs (t.erase k)).Perm (t.toPairs.filter fun entry => entry.1 ≠ k) := by
  apply (List.perm_ext_iff_of_nodup (nodup_toPairs _) (t.nodup_toPairs.filter _)).mpr
  intro entry
  rw [List.mem_filter, mem_toPairs, mem_toPairs, decide_eq_true_eq]
  by_cases h : entry.1 = k
  · rw [h, AList.lookup_erase]
    exact iff_of_false (by simp) fun hleft => hleft.2 rfl
  · rw [AList.lookup_erase_ne h]
    exact (and_iff_left h).symm

omit [DecidableEq K] in
theorem map_fst_toPairs (t : Table K V) : t.toPairs.map Prod.fst = t.keys := by
  rw [toPairs, List.map_map]
  rfl

theorem countP_toPairs (t : Table K V) (k : K) :
    t.toPairs.countP (fun entry => entry.1 = k) = if (t.lookup k).isSome then 1 else 0 := by
  have hcount : t.toPairs.countP (fun entry => entry.1 = k) = (t.toPairs.map Prod.fst).count k := by
    rw [List.count, List.countP_map]
    rfl
  rw [hcount, map_fst_toPairs]
  by_cases h : k ∈ t
  · rw [if_pos (AList.lookup_isSome.mpr h)]
    exact List.count_eq_one_of_mem t.keys_nodup (AList.mem_keys.mp h)
  · rw [if_neg (mt AList.lookup_isSome.mp h)]
    exact List.count_eq_zero.mpr (mt AList.mem_keys.mpr h)

/-- The entries that satisfy a condition. -/
def filter (p : K → V → Bool) (t : Table K V) : Table K V where
  entries := t.entries.filter fun e => p e.1 e.2
  nodupKeys := t.nodupKeys.sublist List.filter_sublist

theorem lookup_filter (p : K → V → Bool) (t : Table K V) (k : K) :
    AList.lookup k (t.filter p) = (t.lookup k).filter (p k) := by
  apply Option.ext
  intro v
  rw [Option.filter_eq_some_iff]
  constructor
  · intro h
    have hmem := List.mem_filter.mp (AList.mem_lookup_iff.mp h)
    exact ⟨AList.mem_lookup_iff.mpr hmem.1, hmem.2⟩
  · intro h
    exact AList.mem_lookup_iff.mpr (List.mem_filter.mpr ⟨AList.mem_lookup_iff.mp h.1, h.2⟩)

theorem toPairs_insert (t : Table K V) (k : K) (v : V) :
    toPairs (t.insert k v) = (k, v) :: toPairs (t.erase k) := rfl

theorem toPairs_perm_cons {t : Table K V} {k : K} {v : V} (h : t.lookup k = some v) :
    t.toPairs.Perm ((k, v) :: toPairs (t.erase k)) := by
  rw [← toPairs_insert]
  apply toPairs_perm
  intro key
  by_cases hk : key = k
  · rw [hk, h, AList.lookup_insert]
  · rw [AList.lookup_insert_ne hk]

/-- What only one entry yields is counted there. -/
theorem count_flatMap_toPairs {γ : Type*} [DecidableEq γ] {t : Table K V} {k : K} {v : V}
    (h : t.lookup k = some v) {f : K × V → List γ} {c : γ}
    (hother : ∀ entry : K × V, entry.1 ≠ k → c ∉ f entry) :
    (t.toPairs.flatMap f).count c = (f (k, v)).count c := by
  rw [((toPairs_perm_cons h).flatMap_right f).count_eq, List.flatMap_cons, List.count_append,
    Nat.add_eq_left, List.count_eq_zero, List.mem_flatMap]
  rintro ⟨entry, hentry, hmem⟩
  refine hother entry ?_ hmem
  rintro rfl
  rw [mem_toPairs, AList.lookup_erase] at hentry
  contradiction

omit [DecidableEq K] in
theorem len_eq_total (t : Table K V) : t.len = total (fun _ _ => 1) t := by
  rw [len, total, List.map_const', List.sum_replicate, smul_eq_mul, mul_one]

theorem len_erase_add {t : Table K V} {k : K} {v : V} (h : t.lookup k = some v) :
    len (t.erase k) + 1 = t.len := by
  rw [len_eq_total, len_eq_total]
  exact total_erase_add (fun _ _ => 1) h

theorem len_insert (t : Table K V) (k : K) (v : V) :
    len (t.insert k v) = len (t.erase k) + 1 := by
  rw [len_eq_total, len_eq_total, total_insert, add_comm]

/-- One entry is part of the total. -/
theorem size_le_total {t : Table K V} {k : K} {v : V} (h : t.lookup k = some v) :
    size k v ≤ total size t :=
  (Nat.le_add_left _ _).trans_eq (total_erase_add size h)

/-- The share of a key in the total. -/
def share (t : Table K V) (k : K) : ℕ :=
  (t.lookup k).elim 0 (size k)

/-- The total is the sum of the shares over any set of keys that covers the table. -/
theorem total_eq_sum {t : Table K V} {keys : Finset K} (h : ∀ k, (t.lookup k).isSome → k ∈ keys) :
    total size t = ∑ k ∈ keys, t.share size k := by
  induction keys using Finset.induction_on generalizing t with
  | empty =>
      have hnone : ∀ k, t.lookup k = none := by
        intro k
        cases hk : t.lookup k with
        | none => rfl
        | some v => exact absurd (h k (by rw [hk]; rfl)) (Finset.notMem_empty k)
      have hperm := @perm_of_lookup_eq _ _ _ t ∅
        fun k => by rw [hnone, AList.lookup_empty]
      rw [total_perm size hperm, total_empty, Finset.sum_empty]
  | insert key keys hkey ih =>
      have herased : ∀ k, (AList.lookup k (t.erase key)).isSome → k ∈ keys := by
        intro k hk
        by_cases heq : k = key
        · rw [heq, AList.lookup_erase] at hk
          contradiction
        · rw [AList.lookup_erase_ne heq] at hk
          exact Finset.mem_of_mem_insert_of_ne (h k hk) heq
      have hrest : ∑ k ∈ keys, share size (t.erase key) k = ∑ k ∈ keys, t.share size k := by
        apply Finset.sum_congr rfl
        intro k hk
        rw [share, share, AList.lookup_erase_ne (ne_of_mem_of_not_mem hk hkey)]
      rw [Finset.sum_insert hkey, ← hrest, ← ih herased]
      cases hvalue : t.lookup key with
      | none => rw [share, hvalue, erase_of_lookup_eq_none hvalue, Option.elim_none, Nat.zero_add]
      | some v =>
          rw [share, hvalue, Option.elim_some, Nat.add_comm]
          exact (total_erase_add size hvalue).symm

/-- Two tables whose shares add up to those of a third have its total. -/
theorem total_add_total {V W X : Type v} {size : K → V → ℕ} {a : Table K V} {b : Table K W} {c : Table K X}
    {sizeB : K → W → ℕ} {sizeC : K → X → ℕ}
    (h : ∀ k, a.share size k + b.share sizeB k = c.share sizeC k) :
    total size a + total sizeB b = total sizeC c := by
  have hmem : ∀ {Y : Type _} {t : Table K Y} {k : K}, (t.lookup k).isSome → k ∈ t.keys.toFinset :=
    fun hk => List.mem_toFinset.mpr (AList.mem_keys.mp (AList.lookup_isSome.mp hk))
  let keys := a.keys.toFinset ∪ b.keys.toFinset ∪ c.keys.toFinset
  have ha : ∀ k, (a.lookup k).isSome → k ∈ keys := fun k hk =>
    Finset.mem_union_left _ (Finset.mem_union_left _ (hmem hk))
  have hb : ∀ k, (b.lookup k).isSome → k ∈ keys := fun k hk =>
    Finset.mem_union_left _ (Finset.mem_union_right _ (hmem hk))
  have hc : ∀ k, (c.lookup k).isSome → k ∈ keys := fun k hk =>
    Finset.mem_union_right _ (hmem hk)
  rw [total_eq_sum size ha, total_eq_sum sizeB hb, total_eq_sum sizeC hc, ← Finset.sum_add_distrib]
  exact Finset.sum_congr rfl fun k _ => h k

end Table

end ObsidianMcp
