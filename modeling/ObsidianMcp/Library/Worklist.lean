import ObsidianMcp.Library.Interleaving

/-! # Worklists whose jobs end in any order

A node is taken from the pending ones when it is wanted and has not been taken before. Its
successors become pending when its job ends, and jobs end in any order. -/

namespace ObsidianMcp.Worklist

variable {α : Type} {succ : α → List α} {wanted : α → Prop} {root : α}

structure State (α : Type) where
  pending : List α
  running : List α
  done : List α

inductive Step (succ : α → List α) (wanted : α → Prop) : State α → State α → Prop where
  | skip {node : α} {pending running done : List α}
      (h : ¬wanted node ∨ node ∈ running ∨ node ∈ done) :
      Step succ wanted ⟨node :: pending, running, done⟩ ⟨pending, running, done⟩
  | start {node : α} {pending running done : List α} (hwanted : wanted node)
      (hrunning : node ∉ running) (hdone : node ∉ done) :
      Step succ wanted ⟨node :: pending, running, done⟩ ⟨pending, running ++ [node], done⟩
  | finish {node : α} {pending before after done : List α} :
      Step succ wanted ⟨pending, before ++ node :: after, done⟩
        ⟨(succ node).reverse ++ pending, before ++ after, node :: done⟩

/-- The states of a worklist that starts with one node. -/
abbrev Reached (succ : α → List α) (wanted : α → Prop) (root : α) : State α → Prop :=
  ObsidianMcp.Reached (fun s => s = ⟨[root], [], []⟩) (Step succ wanted)

/-- The nodes that are to be visited. -/
inductive Visits (succ : α → List α) (wanted : α → Prop) (root : α) : α → Prop where
  | root (h : wanted root) : Visits succ wanted root root
  | next {a b : α} (ha : Visits succ wanted root a) (hb : b ∈ succ a) (h : wanted b) :
      Visits succ wanted root b

/-- What holds in every state. -/
structure Invariant (succ : α → List α) (wanted : α → Prop) (root : α) (s : State α) : Prop where
  nodup : (s.running ++ s.done).Nodup
  visits : ∀ a ∈ s.running ++ s.done, Visits succ wanted root a
  pushed : ∀ a ∈ s.pending, wanted a → Visits succ wanted root a
  root : wanted root → root ∈ s.pending ∨ root ∈ s.running ++ s.done
  closed : ∀ a ∈ s.done, ∀ b ∈ succ a, wanted b → b ∈ s.pending ∨ b ∈ s.running ++ s.done

theorem Invariant.init : Invariant succ wanted root ⟨[root], [], []⟩ where
  nodup := by simp
  visits := by simp
  pushed a ha h := by
    obtain rfl : a = root := by simpa using ha
    exact .root h
  root _ := by simp
  closed := by simp

theorem Invariant.step {s t : State α} (h : Invariant succ wanted root s)
    (hstep : Step succ wanted s t) : Invariant succ wanted root t := by
  cases hstep with
  | @skip node pending running done hskip =>
      have hkept : ∀ a, wanted a → a ∈ node :: pending ∨ a ∈ running ++ done →
          a ∈ pending ∨ a ∈ running ++ done := by
        intro a hwanted ha
        obtain ha | ha := ha
        · obtain rfl | ha := List.mem_cons.mp ha
          · obtain hskip | hskip := hskip
            · exact absurd hwanted hskip
            · exact .inr (List.mem_append.mpr hskip)
          · exact .inl ha
        · exact .inr ha
      exact {
        nodup := h.nodup
        visits := h.visits
        pushed := fun a ha => h.pushed a (List.mem_cons_of_mem _ ha)
        root := fun hroot => hkept _ hroot (h.root hroot)
        closed := fun a ha b hb hwanted => hkept b hwanted (h.closed a ha b hb hwanted) }
  | @start node pending running done hwanted hrunning hdone =>
      have hmoved : ∀ a, a ∈ node :: pending ∨ a ∈ running ++ done →
          a ∈ pending ∨ a ∈ (running ++ [node]) ++ done := by
        intro a ha
        simp only [List.mem_cons, List.mem_append, List.not_mem_nil, or_false] at ha ⊢
        tauto
      refine {
        nodup := ?_
        visits := fun a ha => ?_
        pushed := fun a ha => h.pushed a (List.mem_cons_of_mem _ ha)
        root := fun hroot => hmoved _ (h.root hroot)
        closed := fun a ha b hb hwanted => hmoved b (h.closed a ha b hb hwanted) }
      · have hnodup := h.nodup
        rw [List.append_assoc, List.singleton_append, List.nodup_middle, List.nodup_cons]
        exact ⟨by simp [hrunning, hdone], hnodup⟩
      · simp only [List.mem_append, List.mem_singleton] at ha
        obtain (ha | rfl) | ha := ha
        · exact h.visits a (List.mem_append_left _ ha)
        · exact h.pushed a List.mem_cons_self hwanted
        · exact h.visits a (List.mem_append_right _ ha)
  | @finish node pending before after done =>
      have hmoved : ∀ a, a ∈ (before ++ node :: after) ++ done →
          a ∈ (before ++ after) ++ node :: done := by
        intro a ha
        simp only [List.mem_cons, List.mem_append] at ha ⊢
        tauto
      have hnode := h.visits node
        (List.mem_append_left _ (List.mem_append_right _ List.mem_cons_self))
      refine {
        nodup := ?_
        visits := fun a ha => h.visits a ?_
        pushed := fun a ha hwanted => ?_
        root := fun hroot => ?_
        closed := fun a ha b hb hwanted => ?_ }
      · have hnodup := h.nodup
        rw [List.append_assoc, List.cons_append, List.nodup_middle] at hnodup
        rw [List.nodup_middle, List.append_assoc]
        exact hnodup
      · simp only [List.mem_cons, List.mem_append] at ha ⊢
        tauto
      · obtain ha | ha := List.mem_append.mp ha
        · exact .next hnode (List.mem_reverse.mp ha) hwanted
        · exact h.pushed a ha hwanted
      · obtain hpending | htaken := h.root hroot
        · exact .inl (List.mem_append_right _ hpending)
        · exact .inr (hmoved _ htaken)
      · obtain rfl | ha := List.mem_cons.mp ha
        · exact .inl (List.mem_append_left _ (List.mem_reverse.mpr hb))
        · obtain hpending | htaken := h.closed a ha b hb hwanted
          · exact .inl (List.mem_append_right _ hpending)
          · exact .inr (hmoved _ htaken)

theorem Reached.invariant {s : State α} (h : Reached succ wanted root s) :
    Invariant succ wanted root s :=
  ObsidianMcp.Reached.invariant (fun _ heq => heq ▸ .init) (fun _ _ _ hs hstep => hs.step hstep) h

/-- When nothing is left, the jobs that have ended are those of the nodes to be visited. -/
theorem Invariant.mem_done_iff {s : State α} (h : Invariant succ wanted root s)
    (hpending : s.pending = []) (hrunning : s.running = []) (a : α) :
    a ∈ s.done ↔ Visits succ wanted root a := by
  constructor
  · intro ha
    exact h.visits a (List.mem_append_right _ ha)
  · intro ha
    induction ha with
    | root hroot => simpa [hpending, hrunning] using h.root hroot
    | next _ hb hwanted ih => simpa [hpending, hrunning] using h.closed _ ih _ hb hwanted

/-! ## Forests -/

/-- Every node is the successor of one node at most, and once. -/
structure IsForest (succ : α → List α) (root : α) : Prop where
  nodup : ∀ a, (succ a).Nodup
  parent : ∀ {a b c}, c ∈ succ a → c ∈ succ b → a = b
  root : ∀ a, root ∉ succ a

/-- What holds in every state of a worklist on a forest: no node is ever pending again. -/
structure Fresh (succ : α → List α) (root : α) (s : State α) : Prop where
  nodup : (s.pending ++ (s.running ++ s.done)).Nodup
  parent : ∀ a ∈ s.pending ++ (s.running ++ s.done), a = root ∨ ∃ b ∈ s.done, a ∈ succ b

theorem Fresh.step {s t : State α} (hforest : IsForest succ root) (h : Fresh succ root s)
    (hstep : Step succ wanted s t) : Fresh succ root t := by
  cases hstep with
  | skip hskip =>
      exact ⟨(List.nodup_cons.mp h.nodup).2, fun a ha => h.parent a (List.mem_cons_of_mem _ ha)⟩
  | @start node pending running done hwanted hrunning hdone =>
      have hperm : (pending ++ (running ++ [node] ++ done)).Perm
          (node :: pending ++ (running ++ done)) := by
        rw [List.append_assoc running, List.singleton_append]
        exact (List.perm_middle.append_left pending).trans List.perm_middle
      exact ⟨hperm.nodup_iff.mpr h.nodup, fun a ha => h.parent a (hperm.mem_iff.mp ha)⟩
  | @finish node pending before after done =>
      have hperm : (pending ++ (before ++ after ++ node :: done)).Perm
          (pending ++ (before ++ node :: after ++ done)) := by
        refine List.Perm.append_left pending ?_
        rw [List.append_assoc before (node :: after), List.cons_append]
        refine List.perm_middle.trans ?_
        rw [List.append_assoc]
        exact List.perm_middle.symm
      have hnode : node ∈ before ++ node :: after ++ done := by simp
      have hnew : node ∉ done := by
        have hnodup := (List.nodup_append.mp (List.nodup_append.mp h.nodup).2.1).2.2
        exact fun hmem => hnodup node (by simp) node hmem rfl
      refine ⟨?_, fun a ha => ?_⟩
      · rw [List.append_assoc]
        refine (List.nodup_reverse.mpr (hforest.nodup node)).append (hperm.nodup_iff.mpr h.nodup) ?_
        intro a ha hother
        rw [List.mem_reverse] at ha
        obtain rfl | ⟨b, hb, hparent⟩ := h.parent a (hperm.mem_iff.mp hother)
        · exact hforest.root node ha
        · exact hnew (hforest.parent ha hparent ▸ hb)
      · rw [List.append_assoc, List.mem_append, List.mem_reverse] at ha
        obtain ha | ha := ha
        · exact .inr ⟨node, List.mem_cons_self, ha⟩
        · obtain hroot | ⟨b, hb, hparent⟩ := h.parent a (hperm.mem_iff.mp ha)
          · exact .inl hroot
          · exact .inr ⟨b, List.mem_cons_of_mem _ hb, hparent⟩

theorem Reached.fresh {s : State α} (hforest : IsForest succ root)
    (h : Reached succ wanted root s) : Fresh succ root s := by
  refine ObsidianMcp.Reached.invariant (I := Fresh succ root) ?_
    (fun _ _ _ hs hstep => hs.step hforest hstep) h
  rintro _ rfl
  exact ⟨by simp, by simp⟩

/-- On a forest every pending node may be started. -/
theorem Reached.start_all {front pending running done : List α} (hforest : IsForest succ root)
    (hwanted : ∀ a, wanted a) (h : Reached succ wanted root ⟨front ++ pending, running, done⟩) :
    Reached succ wanted root ⟨pending, running ++ front, done⟩ := by
  induction front generalizing running with
  | nil => simpa using h
  | cons node front ih =>
      have hnodup := (h.fresh hforest).nodup
      rw [List.cons_append, List.cons_append, List.nodup_cons] at hnodup
      have hnew : node ∉ running ++ done := fun hmem => hnodup.1 (List.mem_append_right _ hmem)
      rw [List.mem_append, not_or] at hnew
      have hstart := h.next (.start (hwanted node) hnew.1 hnew.2)
      simpa using ih hstart

end ObsidianMcp.Worklist
