import ObsidianMcp.Model.VaultIndex

/-! # The tag table

A note puts its path under its lower-cased tags and takes it away again. -/

namespace ObsidianMcp.VaultIndex

open Text

variable {source : NoteSource} {has : OsString → Text → Prop} {tags : Inverse Text OsString}

/-- What the loop over a removed note's tags has done after some of them. -/
structure Dropping (has : OsString → Text → Prop) (path : OsString) (done : List Text)
    (state : Inverse Text OsString × List Text) : Prop where
  mem : ∀ tag p, p ∈ state.1.keysOf tag ↔ has p tag ∧ ¬(p = path ∧ tag ∈ done)
  emptied : ∀ tag, state.1.lookup tag = some ∅ → tag ∈ state.2
  isEmpty : ∀ tag ∈ state.2, state.1.keysOf tag = ∅

theorem Dropping.step {path : OsString} {done : List Text}
    {state : Inverse Text OsString × List Text} (h : Dropping has path done state) (tag : Text) :
    Dropping has path (done ++ [source.text.toLowercase tag]) (dropTag source path state tag) := by
  rw [dropTag]
  generalize source.text.toLowercase tag = key
  cases hkey : state.1.lookup key with
  | none =>
      refine ⟨?_, h.emptied, h.isEmpty⟩
      intro t p
      rw [h.mem, List.mem_append, List.mem_singleton]
      have hnone : ¬has p key ∨ (p = path ∧ key ∈ done) := by
        have hnot : p ∉ state.1.keysOf key := by simp [Inverse.keysOf, hkey]
        rw [h.mem] at hnot
        tauto
      by_cases ht : t = key
      · rw [ht]
        tauto
      · tauto
  | some paths =>
      have hpaths : state.1.keysOf key = paths := by rw [Inverse.keysOf, hkey, Option.getD_some]
      have hkeys : ∀ t, Inverse.keysOf t (state.1.insert key (paths.erase path)) =
          if t = key then paths.erase path else state.1.keysOf t := by
        intro t
        by_cases ht : t = key
        · rw [if_pos ht, ht, Inverse.keysOf, AList.lookup_insert, Option.getD_some]
        · rw [if_neg ht, Inverse.keysOf, AList.lookup_insert_ne ht, Inverse.keysOf]
      have hlisted : ∀ t, t ∈ (if paths.erase path = ∅ then state.2 ++ [key] else state.2) ↔
          t ∈ state.2 ∨ (paths.erase path = ∅ ∧ t = key) := by
        intro t
        by_cases hempty : paths.erase path = ∅
        · simp [hempty]
        · simp [hempty]
      refine ⟨?_, ?_, ?_⟩
      · intro t p
        dsimp only
        rw [hkeys, List.mem_append, List.mem_singleton]
        by_cases ht : t = key
        · rw [if_pos ht, Finset.mem_erase, ← hpaths, h.mem, ht]
          tauto
        · rw [if_neg ht, h.mem]
          tauto
      · intro t ht
        dsimp only at ht ⊢
        rw [hlisted]
        by_cases heq : t = key
        · rw [heq, AList.lookup_insert, Option.some.injEq] at ht
          exact .inr ⟨ht, heq⟩
        · rw [AList.lookup_insert_ne heq] at ht
          exact .inl (h.emptied t ht)
      · intro t ht
        dsimp only at ht ⊢
        rw [hlisted] at ht
        rw [hkeys]
        by_cases heq : t = key
        · rw [if_pos heq]
          rcases ht with ht | ht
          · have hnone := h.isEmpty t ht
            rw [heq, hpaths] at hnone
            rw [hnone, Finset.erase_empty]
          · exact ht.1
        · rw [if_neg heq]
          exact h.isEmpty t (ht.resolve_right fun hright => heq hright.2)

theorem dropping_fold {path : OsString} {noteTags done : List Text}
    {state : Inverse Text OsString × List Text} (h : Dropping has path done state) :
    Dropping has path (done ++ noteTags.map source.text.toLowercase)
      (noteTags.foldl (dropTag source path) state) := by
  induction noteTags generalizing done state with
  | nil => simpa using h
  | cons tag noteTags ih =>
      have hrest := ih (@Dropping.step source _ _ _ _ h tag)
      rwa [List.append_assoc] at hrest

theorem lookup_foldl_erase (labels : List Text) (tags : Inverse Text OsString) (tag : Text) :
    (labels.foldl (fun tags tag => tags.erase tag) tags).lookup tag =
      if tag ∈ labels then none else tags.lookup tag := by
  induction labels generalizing tags with
  | nil => rfl
  | cons label labels ih =>
      rw [List.foldl_cons, ih]
      by_cases hmem : tag ∈ labels
      · rw [if_pos hmem, if_pos (List.mem_cons_of_mem _ hmem)]
      · rw [if_neg hmem]
        by_cases heq : tag = label
        · rw [if_pos (by rw [heq]; exact List.mem_cons_self), heq, AList.lookup_erase]
        · rw [if_neg (by simp [heq, hmem]), AList.lookup_erase_ne heq]

/-- Without the tags of a note, its path is under none of them. -/
theorem withoutTags_exact (h : Inverse.Exact has tags) (path : OsString) (noteTags : List Text) :
    Inverse.Exact (fun p tag => has p tag ∧
      ¬(p = path ∧ tag ∈ noteTags.map source.text.toLowercase))
      (withoutTags source path noteTags tags) := by
  have hstart : Dropping has path [] (tags, []) := by
    refine ⟨?_, ?_, ?_⟩
    · intro tag p
      rw [h.mem]
      simp
    · intro tag htag
      exact absurd rfl (h.nonempty tag ∅ htag)
    · simp
  have hdone := @dropping_fold source has path noteTags _ _ hstart
  rw [List.nil_append] at hdone
  rw [withoutTags]
  generalize noteTags.foldl (dropTag source path) (tags, []) = state at hdone
  constructor
  · intro tag p
    rw [← hdone.mem, Inverse.keysOf, lookup_foldl_erase]
    by_cases hmem : tag ∈ state.2
    · rw [if_pos hmem, hdone.isEmpty tag hmem]
      rfl
    · rw [if_neg hmem, Inverse.keysOf]
  · intro tag paths hpaths hempty
    rw [lookup_foldl_erase] at hpaths
    by_cases hmem : tag ∈ state.2
    · rw [if_pos hmem] at hpaths
      contradiction
    · rw [if_neg hmem, hempty] at hpaths
      exact hmem (hdone.emptied tag hpaths)

theorem addTags_exact (h : Inverse.Exact has tags) (path : OsString) (noteTags : List Text) :
    Inverse.Exact (fun p tag => has p tag ∨
      (p = path ∧ tag ∈ noteTags.map source.text.toLowercase))
      (addTags source path noteTags tags) :=
  h.addAll path (noteTags.map source.text.toLowercase)

end ObsidianMcp.VaultIndex
