import ObsidianMcp.Library.Results
import ObsidianMcp.Model.EmbeddingRequests

/-! # Responses of an embedding backend

The vectors of an accepted response stand in the order of the inputs. -/

namespace ObsidianMcp

open Text

variable {convert : Number → F32}

/-- Items and their indexed vectors. -/
def IndexedItem (convert : Number → F32) (item : Json) (pair : ℕ × List F32) : Prop :=
  hasIndex item = true ∧ (item.index "index".toList).asU64 = some pair.1 ∧
    itemVector convert item = .ok pair.2

/-- No item has an index, and the vectors are in array order. -/
def MatchedInOrder (convert : Number → F32) (data : List Json) (v : List (List F32)) : Prop :=
  (∀ item ∈ data, hasIndex item = false) ∧ data.mapM (itemVector convert) = .ok v

/-- Every item has an index; each index below the length of `v` occurs once, and belongs to the item
with that vector. -/
def MatchedByIndex (convert : Number → F32) (data : List Json) (v : List (List F32)) : Prop :=
  ∃ pairs, List.Forall₂ (IndexedItem convert) data pairs ∧
    pairs.Perm ((List.range v.length).zip v)

/-! ## Items -/

section Items

variable {flag : Bool} {n arrayPos : ℕ} {item : Json} {items : List Json}

theorem parseItem_ok {pair : ℕ × List F32} :
    parseItem convert flag n arrayPos item = .ok pair ↔
      hasIndex item = flag ∧ itemIndex flag arrayPos item = .ok pair.1 ∧ pair.1 < n ∧
        itemVector convert item = .ok pair.2 := by
  rw [parseItem]
  by_cases hflag : hasIndex item = flag
  · rw [if_neg (not_not.mpr hflag)]
    cases hidx : itemIndex flag arrayPos item with
    | error e => simp
    | ok idx =>
        dsimp only
        by_cases hrange : n ≤ idx
        · rw [if_pos hrange]
          constructor
          · intro h
            contradiction
          · intro h
            rw [← Except.ok.inj h.2.1] at h
            exact absurd h.2.2.1 (Nat.not_lt.mpr hrange)
        · rw [if_neg hrange]
          cases hvec : itemVector convert item with
          | error e => simp [Except.map]
          | ok vec =>
              rcases pair with ⟨i, w⟩
              simp only [Except.map, Except.ok.injEq, Prod.mk.injEq]
              constructor
              · intro h
                exact ⟨hflag, h.1, h.1 ▸ Nat.lt_of_not_le hrange, h.2⟩
              · intro h
                exact ⟨h.2.1, h.2.2.2⟩
  · rw [if_pos hflag]
    constructor
    · intro h
      contradiction
    · intro h
      exact absurd h.1 hflag

theorem parseItems_cons {pairs : List (ℕ × List F32)} :
    parseItems convert flag n arrayPos (item :: items) = .ok pairs ↔
      ∃ pair rest, parseItem convert flag n arrayPos item = .ok pair ∧
        parseItems convert flag n (arrayPos + 1) items = .ok rest ∧ pairs = pair :: rest := by
  rw [parseItems, bind_ok_iff]
  constructor
  · intro h
    rcases h with ⟨pair, hpair, h⟩
    rcases bind_ok_iff.mp h with ⟨rest, hrest, h⟩
    exact ⟨pair, rest, hpair, hrest, (Except.ok.inj h).symm⟩
  · intro h
    rcases h with ⟨pair, rest, hpair, hrest, rfl⟩
    exact ⟨pair, hpair, bind_ok_iff.mpr ⟨rest, hrest, rfl⟩⟩

theorem parseItems_indexed {pairs : List (ℕ × List F32)} :
    parseItems convert true n arrayPos items = .ok pairs ↔
      List.Forall₂ (IndexedItem convert) items pairs ∧ ∀ pair ∈ pairs, pair.1 < n := by
  induction items generalizing arrayPos pairs with
  | nil =>
      rw [List.forall₂_nil_left_iff]
      constructor
      · intro h
        rw [← Except.ok.inj h]
        exact ⟨rfl, fun pair hpair => absurd hpair List.not_mem_nil⟩
      · intro h
        rw [h.1]
        rfl
  | cons item items ih =>
      have hindex : ∀ idx, itemIndex true arrayPos item = .ok idx ↔
          (item.index "index".toList).asU64 = some idx := by
        intro idx
        rw [itemIndex, if_pos rfl]
        cases (item.index "index".toList).asU64 with
        | none => simp
        | some raw => simp
      rw [parseItems_cons, List.forall₂_cons_left_iff]
      constructor
      · intro h
        rcases h with ⟨pair, rest, hpair, hrest, rfl⟩
        rcases parseItem_ok.mp hpair with ⟨hflag, hidx, hlt, hvec⟩
        rcases ih.mp hrest with ⟨hall, hbound⟩
        exact ⟨⟨pair, rest, ⟨hflag, (hindex _).mp hidx, hvec⟩, hall, rfl⟩,
          List.forall_mem_cons.mpr ⟨hlt, hbound⟩⟩
      · intro h
        rcases h with ⟨⟨pair, rest, ⟨hflag, hidx, hvec⟩, hall, rfl⟩, hbound⟩
        rw [List.forall_mem_cons] at hbound
        exact ⟨pair, rest, parseItem_ok.mpr ⟨hflag, (hindex _).mpr hidx, hbound.1, hvec⟩,
          ih.mpr ⟨hall, hbound.2⟩, rfl⟩

theorem parseItems_unindexed {v : List (List F32)} (hroom : arrayPos + items.length ≤ n) :
    (∃ pairs, parseItems convert false n arrayPos items = .ok pairs ∧ pairs.map Prod.snd = v) ↔
      MatchedInOrder convert items v := by
  induction items generalizing arrayPos v with
  | nil =>
      constructor
      · intro h
        rcases h with ⟨pairs, hpairs, rfl⟩
        rw [← Except.ok.inj hpairs]
        exact ⟨fun item hitem => absurd hitem List.not_mem_nil, rfl⟩
      · intro h
        exact ⟨[], rfl, Except.ok.inj h.2⟩
  | cons item items ih =>
      rw [List.length_cons] at hroom
      rw [MatchedInOrder, mapM_cons_ok, List.forall_mem_cons]
      constructor
      · intro h
        rcases h with ⟨pairs, hpairs, rfl⟩
        rcases parseItems_cons.mp hpairs with ⟨pair, rest, hpair, hrest, rfl⟩
        rcases parseItem_ok.mp hpair with ⟨hflag, -, -, hvec⟩
        rcases (@ih (arrayPos + 1) (rest.map Prod.snd) (by omega)).mp ⟨rest, hrest, rfl⟩ with
          ⟨hall, hrestv⟩
        exact ⟨⟨hflag, hall⟩, pair.2, _, hvec, hrestv, rfl⟩
      · intro h
        rcases h with ⟨⟨hflag, hall⟩, vec, rest, hvec, hrest, rfl⟩
        rcases (@ih (arrayPos + 1) rest (by omega)).mpr ⟨hall, hrest⟩ with ⟨pairs, hpairs, rfl⟩
        have hfirst : parseItem convert false n arrayPos item = .ok (arrayPos, vec) :=
          parseItem_ok.mpr ⟨hflag, rfl, by omega, hvec⟩
        exact ⟨(arrayPos, vec) :: pairs,
          parseItems_cons.mpr ⟨_, _, hfirst, hpairs, rfl⟩, rfl⟩

end Items

/-! ## Sorted indices -/

/-- A sorted response is contiguous when its indices count up. -/
theorem checkContiguous_ok {expected : ℕ} {pairs : List (ℕ × List F32)} :
    checkContiguous expected pairs = .ok () ↔
      pairs.map Prod.fst = List.range' expected pairs.length := by
  induction pairs generalizing expected with
  | nil => exact iff_of_true rfl rfl
  | cons pair pairs ih =>
      rw [checkContiguous, List.map_cons, List.length_cons, List.range'_succ, List.cons.injEq]
      by_cases hsame : pair.1 = expected
      · rw [if_neg (not_not.mpr hsame), ih]
        exact (and_iff_right hsame).symm
      · rw [if_pos hsame]
        constructor
        · intro h
          contradiction
        · intro h
          exact absurd h.1 hsame

theorem zip_pairwise (v : List (List F32)) (n : ℕ) :
    ((List.range' n v.length).zip v).Pairwise fun a b => a.1 < b.1 := by
  induction v generalizing n with
  | nil => exact List.Pairwise.nil
  | cons vec v ih =>
      rw [List.length_cons, List.range'_succ, List.zip_cons_cons, List.pairwise_cons]
      refine ⟨?_, ih (n + 1)⟩
      intro pair hpair
      have hmem := (List.of_mem_zip hpair).1
      rw [List.mem_range'_1] at hmem
      exact hmem.1

theorem mem_zip_range {v : List (List F32)} {pair : ℕ × List F32}
    (h : pair ∈ (List.range v.length).zip v) : v[pair.1]? = some pair.2 := by
  rcases List.mem_iff_getElem.mp h with ⟨k, hk, rfl⟩
  rw [List.length_zip, List.length_range, min_self] at hk
  rw [List.getElem_zip, List.getElem_range]
  exact List.getElem?_eq_getElem hk

def byIndex (a b : ℕ × List F32) : Bool :=
  decide (a.1 ≤ b.1)

theorem pairwise_byIndex (pairs : List (ℕ × List F32)) :
    (pairs.mergeSort byIndex).Pairwise fun a b => a.1 ≤ b.1 := by
  have htrans : ∀ a b c, byIndex a b = true → byIndex b c = true → byIndex a c = true := by
    intro a b c hab hbc
    exact decide_eq_true ((of_decide_eq_true hab).trans (of_decide_eq_true hbc))
  have htotal : ∀ a b, (byIndex a b || byIndex b a) = true := by
    intro a b
    rw [Bool.or_eq_true]
    exact (Nat.le_total a.1 b.1).imp decide_eq_true decide_eq_true
  exact (List.pairwise_mergeSort htrans htotal pairs).imp of_decide_eq_true

/-- Sorting by index gives the vectors in order exactly when each index occurs once. -/
theorem mergeSort_byIndex {pairs : List (ℕ × List F32)} {v : List (List F32)} :
    (checkContiguous 0 (pairs.mergeSort byIndex) = .ok () ∧
      (pairs.mergeSort byIndex).map Prod.snd = v) ↔
      pairs.Perm ((List.range v.length).zip v) := by
  have hperm := List.mergeSort_perm pairs byIndex
  rw [checkContiguous_ok, ← List.range_eq_range']
  constructor
  · intro h
    rcases h with ⟨hindices, rfl⟩
    have hzip : (List.range (pairs.mergeSort byIndex).length).zip
        ((pairs.mergeSort byIndex).map Prod.snd) = pairs.mergeSort byIndex := by
      rw [← hindices]
      exact (List.zip_of_prod rfl rfl).symm
    rw [List.length_map, hzip]
    exact hperm.symm
  · intro h
    have hordered : ((List.range v.length).zip v).Pairwise fun a b => a.1 < b.1 := by
      rw [List.range_eq_range']
      exact zip_pairwise v 0
    have hsorted : pairs.mergeSort byIndex = (List.range v.length).zip v := by
      apply (hperm.trans h).eq_of_pairwise ?_ (pairwise_byIndex pairs)
        (hordered.imp fun hlt => Nat.le_of_lt hlt)
      intro a b ha hb hab hba
      have ha' := mem_zip_range ((hperm.trans h).subset ha)
      have hb' := mem_zip_range hb
      have hsame : a.1 = b.1 := Nat.le_antisymm hab hba
      rw [hsame, hb', Option.some.injEq] at ha'
      exact Prod.ext hsame ha'.symm
    rw [hsorted]
    have hlength : (List.range v.length).length = v.length := List.length_range
    constructor
    · rw [List.map_fst_zip (Nat.le_of_eq hlength), List.length_zip, hlength, min_self]
    · exact List.map_snd_zip (Nat.le_of_eq hlength.symm)

/-! ## Responses -/

/-- Permuting the items of a response permutes their indexed vectors. -/
theorem MatchedByIndex.perm {data data' : List Json} {v : List (List F32)}
    (h : MatchedByIndex convert data v) (hperm : data.Perm data') :
    MatchedByIndex convert data' v := by
  rcases h with ⟨pairs, hall, hpairs⟩
  rcases List.perm_comp_forall₂ hperm.symm hall with ⟨pairs', hall', hpairs'⟩
  exact ⟨pairs', hall', hpairs'.trans hpairs⟩

theorem MatchedByIndex.length_eq {data : List Json} {v : List (List F32)}
    (h : MatchedByIndex convert data v) : v.length = data.length := by
  rcases h with ⟨pairs, hall, hpairs⟩
  rw [hall.length_eq, hpairs.length_eq, List.length_zip, List.length_range, min_self]

theorem MatchedByIndex.hasIndex {data : List Json} {v : List (List F32)}
    (h : MatchedByIndex convert data v) : ∀ item ∈ data, hasIndex item = true := by
  rcases h with ⟨pairs, hall, -⟩
  intro item hitem
  rcases List.forall₂_iff_get.mp hall with ⟨hlength, hget⟩
  rcases List.mem_iff_get.mp hitem with ⟨k, rfl⟩
  exact (hget k.1 k.2 (hlength ▸ k.2)).1

theorem not_hasIndex_head {data : List Json} (h : ∀ item ∈ data, ObsidianMcp.hasIndex item = false) :
    data.head?.any ObsidianMcp.hasIndex = false := by
  cases data with
  | nil => rfl
  | cons item data => exact h item List.mem_cons_self

/-- Without items there is nothing to tell the two ways apart. -/
theorem MatchedByIndex.inOrder {data : List Json} {v : List (List F32)}
    (hhead : data.head?.any ObsidianMcp.hasIndex = false) (h : MatchedByIndex convert data v) :
    MatchedInOrder convert data v := by
  cases data with
  | nil =>
      rw [List.length_eq_zero_iff.mp h.length_eq]
      exact ⟨fun item hitem => absurd hitem List.not_mem_nil, rfl⟩
  | cons item data =>
      have hitem := h.hasIndex item List.mem_cons_self
      rw [List.head?_cons, Option.any_some, hitem] at hhead
      contradiction

section Parsed

variable {data : List Json} {n : ℕ} {v : List (List F32)}

theorem parsed_indexed (hlength : data.length = n) :
    (parseItems convert true n 0 data >>= orderVectors true) = .ok v ↔
      MatchedByIndex convert data v := by
  have hsorted : ∀ pairs : List (ℕ × List F32), orderVectors true pairs = .ok v ↔
      pairs.Perm ((List.range v.length).zip v) := by
    intro pairs
    rw [← mergeSort_byIndex, orderVectors, if_pos rfl]
    change (checkContiguous 0 (pairs.mergeSort byIndex)).map
      (fun _ => (pairs.mergeSort byIndex).map Prod.snd) = _ ↔ _
    cases checkContiguous 0 (pairs.mergeSort byIndex) with
    | error e => simp [Except.map]
    | ok u => simp [Except.map]
  rw [bind_ok_iff]
  constructor
  · intro h
    rcases h with ⟨pairs, hparse, horder⟩
    exact ⟨pairs, (parseItems_indexed.mp hparse).1, (hsorted pairs).mp horder⟩
  · intro h
    have hcount := h.length_eq
    rcases h with ⟨pairs, hall, hpairs⟩
    refine ⟨pairs, parseItems_indexed.mpr ⟨hall, ?_⟩, (hsorted pairs).mpr hpairs⟩
    intro pair hpair
    have hzip := (List.of_mem_zip (hpairs.subset hpair)).1
    rwa [List.mem_range, hcount, hlength] at hzip

theorem parsed_unindexed (hlength : data.length = n) :
    (parseItems convert false n 0 data >>= orderVectors false) = .ok v ↔
      MatchedInOrder convert data v := by
  rw [bind_ok_iff, ← @parseItems_unindexed _ n 0 data v (by omega)]
  constructor
  · intro h
    rcases h with ⟨pairs, hparse, horder⟩
    exact ⟨pairs, hparse, Except.ok.inj horder⟩
  · intro h
    rcases h with ⟨pairs, hparse, rfl⟩
    exact ⟨pairs, hparse, rfl⟩

end Parsed

theorem parseEmbeddingResponse_ok {resp : Json} {n : ℕ} {v : List (List F32)} :
    parseEmbeddingResponse convert resp n = .ok v ↔
      ∃ data, (resp.index "data".toList).asArray = some data ∧ data.length = n ∧
        (MatchedInOrder convert data v ∨ MatchedByIndex convert data v) := by
  rw [parseEmbeddingResponse]
  cases hdata : (resp.index "data".toList).asArray with
  | none =>
      constructor
      · intro h
        contradiction
      · intro h
        rcases h with ⟨data, hsome, -⟩
        contradiction
  | some data =>
      dsimp only
      by_cases hlength : data.length = n
      · rw [if_neg (not_not.mpr hlength)]
        have hone : (∃ data', some data = some data' ∧ data'.length = n ∧
            (MatchedInOrder convert data' v ∨ MatchedByIndex convert data' v)) ↔
            (MatchedInOrder convert data v ∨ MatchedByIndex convert data v) := by
          constructor
          · intro h
            rcases h with ⟨data', heq, -, hmatched⟩
            rw [Option.some.inj heq]
            exact hmatched
          · intro h
            exact ⟨data, rfl, hlength, h⟩
        rw [hone]
        by_cases hindexed : data.head?.any hasIndex = true
        · rw [hindexed, parsed_indexed hlength, or_iff_right]
          intro hordered
          rw [not_hasIndex_head hordered.1] at hindexed
          contradiction
        · rw [Bool.not_eq_true] at hindexed
          rw [hindexed, parsed_unindexed hlength, or_iff_left_of_imp]
          exact MatchedByIndex.inOrder hindexed
      · rw [if_pos hlength]
        constructor
        · intro h
          contradiction
        · intro h
          rcases h with ⟨data', heq, hlength', -⟩
          rw [Option.some.inj heq] at hlength
          exact absurd hlength' hlength

theorem MatchedByIndex.indices {data : List Json} {v : List (List F32)}
    (h : MatchedByIndex convert data v) :
    (∃ indices : List ℕ, data.map (fun item => (item.index "index".toList).asU64) =
      indices.map some ∧ indices.Perm (List.range v.length)) ∧
    ∀ item ∈ data, ∃ i w, (item.index "index".toList).asU64 = some i ∧ v[i]? = some w ∧
      itemVector convert item = .ok w := by
  rcases h with ⟨pairs, hall, hpairs⟩
  constructor
  · refine ⟨pairs.map Prod.fst, ?_, ?_⟩
    · clear hpairs
      induction hall with
      | nil => rfl
      | cons hitem _ ih => rw [List.map_cons, List.map_cons, List.map_cons, ih, hitem.2.1]
    · have hfst := hpairs.map Prod.fst
      rwa [List.map_fst_zip (Nat.le_of_eq List.length_range)] at hfst
  · intro item hitem
    rcases List.forall₂_iff_get.mp hall with ⟨hlength, hget⟩
    rcases List.mem_iff_get.mp hitem with ⟨k, rfl⟩
    have hpair := hget k.1 k.2 (hlength ▸ k.2)
    exact ⟨_, _, hpair.2.1, mem_zip_range (hpairs.subset (List.get_mem _ _)), hpair.2.2⟩

/-- An accepted response has one vector for each input, in array order without any index or at the
place of its index; then the order of the items does not matter. Any other response is rejected. -/
theorem responses_matched (convert : Number → F32) (resp : Json) (n : ℕ) :
    (∀ v, parseEmbeddingResponse convert resp n = .ok v ↔
      ∃ data, (resp.index "data".toList).asArray = some data ∧ data.length = n ∧ v.length = n ∧
        (MatchedInOrder convert data v ∨ MatchedByIndex convert data v ∧
          ∀ item ∈ data, ∃ i w, (item.index "index".toList).asU64 = some i ∧ v[i]? = some w ∧
            itemVector convert item = .ok w)) ∧
    (∀ data v, (resp.index "data".toList).asArray = some data →
      (∃ item ∈ data, hasIndex item = true) →
      (¬∃ indices : List ℕ, data.map (fun item => (item.index "index".toList).asU64) =
        indices.map some ∧ indices.Perm (List.range n)) →
      parseEmbeddingResponse convert resp n ≠ .ok v) ∧
    ∀ resp' data data', (resp.index "data".toList).asArray = some data →
      (resp'.index "data".toList).asArray = some data' → data.Perm data' →
      (∀ item ∈ data, hasIndex item = true) →
      ∀ v, parseEmbeddingResponse convert resp n = .ok v ↔
        parseEmbeddingResponse convert resp' n = .ok v := by
  refine ⟨?_, ?_, ?_⟩
  · intro v
    rw [parseEmbeddingResponse_ok]
    constructor
    · intro h
      rcases h with ⟨data, hdata, hlength, hordered | hindexed⟩
      · have hcount := (mapM_ok_iff.mp hordered.2).length_eq
        exact ⟨data, hdata, hlength, hcount.symm.trans hlength, .inl hordered⟩
      · exact ⟨data, hdata, hlength, hindexed.length_eq.trans hlength,
          .inr ⟨hindexed, hindexed.indices.2⟩⟩
    · intro h
      rcases h with ⟨data, hdata, hlength, -, hordered | hindexed⟩
      · exact ⟨data, hdata, hlength, .inl hordered⟩
      · exact ⟨data, hdata, hlength, .inr hindexed.1⟩
  · intro data v hdata hsome hindices hparse
    rcases parseEmbeddingResponse_ok.mp hparse with ⟨data', hdata', hlength, hmatched⟩
    rw [hdata, Option.some.injEq] at hdata'
    subst hdata'
    rcases hmatched with hordered | hindexed
    · rcases hsome with ⟨item, hitem, htrue⟩
      rw [hordered.1 item hitem] at htrue
      contradiction
    · apply hindices
      rw [← hlength, ← hindexed.length_eq]
      exact hindexed.indices.1
  · intro resp' data data' hdata hdata' hperm hall v
    have hone : ∀ (resp : Json) (data : List Json),
        (resp.index "data".toList).asArray = some data →
        (∀ item ∈ data, hasIndex item = true) →
        (parseEmbeddingResponse convert resp n = .ok v ↔
          data.length = n ∧ MatchedByIndex convert data v) := by
      intro resp data hdata hall
      rw [parseEmbeddingResponse_ok]
      constructor
      · intro h
        rcases h with ⟨other, hother, hlength, hmatched⟩
        rw [hdata, Option.some.injEq] at hother
        subst hother
        refine ⟨hlength, ?_⟩
        rcases hmatched with hordered | hindexed
        · cases data with
          | nil =>
              rw [← Except.ok.inj hordered.2]
              exact ⟨[], .nil, List.Perm.refl _⟩
          | cons item data =>
              have htrue := hall item List.mem_cons_self
              rw [hordered.1 item List.mem_cons_self] at htrue
              contradiction
        · exact hindexed
      · intro h
        exact ⟨data, hdata, h.1, .inr h.2⟩
    rw [hone resp data hdata hall,
      hone resp' data' hdata' fun item hitem => hall item (hperm.symm.subset hitem),
      hperm.length_eq]
    constructor
    · intro h
      exact ⟨h.1, h.2.perm hperm⟩
    · intro h
      exact ⟨h.1, h.2.perm hperm.symm⟩

/-- An item with an index and a vector of one component. -/
def indexedItem (index component : ℕ) : Json :=
  .object [("embedding".toList, .array [.number (.posInt component)]),
    ("index".toList, .number (.posInt index))]

/-- The bits of a small natural number. -/
def smallBits : Number → F32
  | .posInt value => UInt32.ofNat value
  | _ => 0

/-- Swapped items give the same vectors. -/
theorem swapped_response :
    parseEmbeddingResponse smallBits
      (.object [("data".toList, .array [indexedItem 1 5, indexedItem 0 7])]) 2 =
        .ok [[7], [5]] := by
  have hordered : parseEmbeddingResponse smallBits
      (.object [("data".toList, .array [indexedItem 0 7, indexedItem 1 5])]) 2 =
        .ok [[7], [5]] :=
    parseEmbeddingResponse_ok.mpr ⟨[indexedItem 0 7, indexedItem 1 5], rfl, rfl,
      .inr ⟨[(0, [7]), (1, [5])], .cons ⟨rfl, rfl, rfl⟩ (.cons ⟨rfl, rfl, rfl⟩ .nil),
        List.Perm.refl _⟩⟩
  apply ((responses_matched smallBits _ 2).2.2 _ _ _ rfl rfl (List.Perm.swap _ _ []) ?_ _).mpr
    hordered
  intro item hitem
  rcases List.mem_cons.mp hitem with rfl | hitem
  · rfl
  · rw [List.mem_singleton.mp hitem]
    rfl

end ObsidianMcp
