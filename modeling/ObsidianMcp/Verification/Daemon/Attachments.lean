import ObsidianMcp.Library.Interleaving
import ObsidianMcp.Model.RuntimeAttachments

/-! # Sharing attachments

In whatever order calls, tasks and the selection of the local fallback take their steps, the counter
counts the tasks that negotiate, a key has one task at a time, and the fallback is never selected
beside a stricter owner. -/

namespace ObsidianMcp.RuntimeAttachments

open World

variable {w w' : World} {timeoutMs : ℕ} {i j s t : ℕ} {call : Call} {handle : Handle}
  {slot slot' : AttachmentSlot} {task : AttachmentTask} {phase : CallPhase}
  {works : List AttachmentSlot} {tasks : List AttachmentTask} {handles : List Handle}
  {outcome : Except VaultError VaultAttachment}

/-- A task that has not finished. -/
def AttachmentTask.Unfinished (task : AttachmentTask) : Prop :=
  ∀ outcome, task.phase ≠ .finished outcome

/-! ## The slots -/

/-- Until the selection the state lists the keys of the slots, and they are distinct. -/
structure Listed (selected : Bool) (slots : Table Key ℕ) (keys : List Key) : Prop where
  lookup : selected = false → ∀ (key : Key) (s : ℕ),
    slots.lookup key = some s ↔ keys[s]? = some key
  distinct : keys.Nodup

/-- What a slot awaits is a task of its key, and every unfinished task is awaited by a slot. -/
structure Worked (works : List AttachmentSlot) (tasks : List AttachmentTask) : Prop where
  acquired : ∀ (s : ℕ) (slot : AttachmentSlot) (t : ℕ), works[s]? = some slot →
    slot.work.acquisition = some t →
    ∃ task : AttachmentTask, tasks[t]? = some task ∧ task.key = slot.key
  exclusive : ∀ (s : ℕ) (slot : AttachmentSlot) (t : ℕ), works[s]? = some slot →
    slot.work.acquisition = some t → slot.work.held = none
  owned : ∀ (t : ℕ) (task : AttachmentTask), tasks[t]? = some task → task.Unfinished →
    ∃ (s : ℕ) (slot : AttachmentSlot), works[s]? = some slot ∧ slot.work.acquisition = some t

/-! ## The calls -/

/-- A call that has come to a slot finds its key there, and the call that locks it is its owner. -/
def Placed (works : List AttachmentSlot) (i : ℕ) (handle : Handle) : Prop :=
  match handle.phase with
  | .queued s => ∃ slot, works[s]? = some slot ∧ slot.key = handle.call.key
  | .locked s => ∃ slot, works[s]? = some slot ∧ slot.key = handle.call.key ∧ slot.owner = some i
  | .awaiting s t => ∃ slot, works[s]? = some slot ∧ slot.key = handle.call.key ∧
      slot.owner = some i ∧ slot.work.acquisition = some t
  | _ => True

/-- What holds in every world. -/
structure Inv (w : World) : Prop where
  counted : w.state.negotiating = w.tasks.countP fun task => task.phase = .negotiating
  selected : w.localSelected = true →
    w.state.negotiating = 0 ∧ w.state.stricterOwnerSeen = false
  listed : Listed w.localSelected w.state.slots (w.works.map AttachmentSlot.key)
  worked : Worked w.works w.tasks
  placed : ∀ i handle, w.handles[i]? = some handle → Placed w.works i handle

/-! ## What a section can do -/

theorem callIn_eq_some :
    w.callIn i phase = some call ↔ w.handles[i]? = some ⟨call, phase⟩ := by
  rw [callIn, Option.map_eq_some_iff]
  constructor
  · intro h
    obtain ⟨handle, hhandle, rfl⟩ := h
    obtain ⟨hget, hphase⟩ := Option.filter_eq_some_iff.mp hhandle
    rw [hget, ← of_decide_eq_true hphase]
  · intro h
    exact ⟨⟨call, phase⟩, Option.filter_eq_some_iff.mpr ⟨h, decide_eq_true rfl⟩, rfl⟩

theorem enter_cases (h : w.enter i = some w') :
    ∃ call, w.handles[i]? = some ⟨call, .started⟩ ∧
      ((∃ e, (e = remoteVault ∨ e = alreadySelected) ∧
          w' = w.setPhase i (.returned (.error e))) ∨
        (w.localSelected = false ∧ ∃ s, w.state.slots.lookup call.key = some s ∧
          w' = w.setPhase i (.queued s)) ∨
        (w.localSelected = false ∧ w.state.slots.lookup call.key = none ∧
          w' = { w.setPhase i (.queued w.works.length) with
            state := { w.state with
              slots := w.state.slots.insert call.key w.works.length }
            works := w.works ++ [{ key := call.key }] })) := by
  unfold enter at h
  obtain ⟨call, hcall, h⟩ := Option.bind_eq_some_iff.mp h
  refine ⟨call, callIn_eq_some.mp hcall, ?_⟩
  split_ifs at h with hremote hselected
  · exact .inl ⟨_, .inl rfl, (Option.some.inj h).symm⟩
  · exact .inl ⟨_, .inr rfl, (Option.some.inj h).symm⟩
  · have hunselected := Bool.eq_false_of_not_eq_true hselected
    cases hlookup : w.state.slots.lookup call.key with
    | some s =>
        rw [hlookup] at h
        exact .inr (.inl ⟨hunselected, s, rfl, (Option.some.inj h).symm⟩)
    | none =>
        rw [hlookup] at h
        exact .inr (.inr ⟨hunselected, rfl, (Option.some.inj h).symm⟩)

theorem lock_cases (h : w.lock i s = some w') :
    ∃ call slot, w.handles[i]? = some ⟨call, .queued s⟩ ∧ w.works[s]? = some slot ∧
      slot.owner = none ∧
      w' = (w.setSlot s { slot with owner := some i }).setPhase i (.locked s) := by
  unfold lock at h
  obtain ⟨call, hcall, h⟩ := Option.bind_eq_some_iff.mp h
  obtain ⟨slot, hslot, h⟩ := Option.bind_eq_some_iff.mp h
  split_ifs at h with hfree
  exact ⟨call, slot, callIn_eq_some.mp hcall, hslot, hfree, (Option.some.inj h).symm⟩

theorem check_cases (h : w.check i s = some w') :
    ∃ call slot, w.handles[i]? = some ⟨call, .locked s⟩ ∧ w.works[s]? = some slot ∧
      ((w.localSelected = true ∧ w' = (w.setSlot s { slot with owner := none }).setPhase i
          (.returned (.error alreadySelected))) ∨
        (w.localSelected = false ∧ ∃ attachment,
          heldFor slot.work call.expired = some attachment ∧
          w' = (w.setSlot s { slot with owner := none }).setPhase i
            (.returned (.ok attachment))) ∨
        (w.localSelected = false ∧ heldFor slot.work call.expired = none ∧
          ∃ t, slot.work.acquisition = some t ∧
            w' = (w.setSlot s { slot with work := { slot.work with held := none } }).setPhase i
              (.awaiting s t)) ∨
        (w.localSelected = false ∧ heldFor slot.work call.expired = none ∧
          slot.work.acquisition = none ∧
          w' = { (w.setSlot s { slot with work := ⟨none, some w.tasks.length⟩ }).setPhase i
              (.awaiting s w.tasks.length) with
            state := { w.state with negotiating := w.state.negotiating + 1 }
            tasks := w.tasks ++ [⟨call.key, .negotiating⟩] })) := by
  unfold check at h
  obtain ⟨call, hcall, h⟩ := Option.bind_eq_some_iff.mp h
  obtain ⟨slot, hslot, h⟩ := Option.bind_eq_some_iff.mp h
  refine ⟨call, slot, callIn_eq_some.mp hcall, hslot, ?_⟩
  split_ifs at h with hselected
  · exact .inl ⟨hselected, (Option.some.inj h).symm⟩
  · have hunselected := Bool.eq_false_of_not_eq_true hselected
    cases hheld : heldFor slot.work call.expired with
    | some attachment =>
        rw [hheld] at h
        exact .inr (.inl ⟨hunselected, attachment, rfl, (Option.some.inj h).symm⟩)
    | none =>
        rw [hheld] at h
        cases htask : slot.work.acquisition with
        | some t =>
            rw [htask] at h
            exact .inr (.inr (.inl ⟨hunselected, rfl, t, rfl, (Option.some.inj h).symm⟩))
        | none =>
            rw [htask] at h
            exact .inr (.inr (.inr ⟨hunselected, rfl, rfl, (Option.some.inj h).symm⟩))

/-- What a slot holds after a task. -/
def heldAfter (work : AttachmentWork) :
    Except VaultError VaultAttachment → Option VaultAttachment
  | .ok attachment => some attachment
  | .error _ => work.held

theorem resume_cases (h : w.resume i s t = some w') :
    ∃ call slot task outcome, w.handles[i]? = some ⟨call, .awaiting s t⟩ ∧
      w.works[s]? = some slot ∧ w.tasks[t]? = some task ∧ task.phase = .finished outcome ∧
      w' = (w.setSlot s { slot with
          owner := none
          work := ⟨heldAfter slot.work outcome, none⟩ }).setPhase i (.returned outcome) := by
  unfold resume at h
  obtain ⟨call, hcall, h⟩ := Option.bind_eq_some_iff.mp h
  obtain ⟨slot, hslot, h⟩ := Option.bind_eq_some_iff.mp h
  obtain ⟨task, htask, h⟩ := Option.bind_eq_some_iff.mp h
  cases hphase : task.phase with
  | finished outcome =>
      rw [hphase] at h
      refine ⟨call, slot, task, outcome, callIn_eq_some.mp hcall, hslot, htask, hphase, ?_⟩
      cases outcome <;> exact (Option.some.inj h).symm
  | negotiating =>
      rw [hphase] at h
      exact absurd h (Option.some_ne_none w').symm
  | released outcome =>
      rw [hphase] at h
      exact absurd h (Option.some_ne_none w').symm

theorem leave_cases (h : w.leave i phase = some w') :
    ∃ handle, w.handles[i]? = some handle ∧
      ((∃ s, handle.phase = .queued s ∧ w' = w.setPhase i phase) ∨
        ∃ s t slot, handle.phase = .awaiting s t ∧ w.works[s]? = some slot ∧
          w' = (w.setSlot s { slot with owner := none }).setPhase i phase) := by
  unfold leave at h
  obtain ⟨handle, hhandle, h⟩ := Option.bind_eq_some_iff.mp h
  refine ⟨handle, hhandle, ?_⟩
  cases hphase : handle.phase with
  | queued s =>
      rw [hphase] at h
      exact .inl ⟨s, rfl, (Option.some.inj h).symm⟩
  | awaiting s t =>
      rw [hphase] at h
      obtain ⟨slot, hslot, h⟩ := Option.bind_eq_some_iff.mp h
      exact .inr ⟨s, t, slot, rfl, hslot, (Option.some.inj h).symm⟩
  | _ =>
      rw [hphase] at h
      exact absurd h (Option.some_ne_none w').symm

/-- An outcome shows a stricter owner when it grants another scope than the local one. -/
def stricter (task : AttachmentTask) : Except VaultError VaultAttachment → Bool
  | .ok attachment => attachment.scopeId ≠ task.key.2.1
  | .error _ => false

theorem settle_cases (h : w.settle t outcome = some w') :
    ∃ task, w.tasks[t]? = some task ∧ task.phase = .negotiating ∧
      w' = { w.setTask t (.released outcome) with
        state := { w.state with
          stricterOwnerSeen := w.state.stricterOwnerSeen || stricter task outcome
          negotiating := w.state.negotiating - 1 } } := by
  unfold settle at h
  obtain ⟨task, htask, h⟩ := Option.bind_eq_some_iff.mp h
  split_ifs at h with hphase
  refine ⟨task, htask, hphase, (Option.some.inj h).symm.trans ?_⟩
  cases outcome <;> rfl

theorem finish_cases (h : w.finish t = some w') :
    ∃ task outcome, w.tasks[t]? = some task ∧ task.phase = .released outcome ∧
      w' = w.setTask t (.finished outcome) := by
  unfold finish at h
  obtain ⟨task, htask, h⟩ := Option.bind_eq_some_iff.mp h
  cases hphase : task.phase with
  | released outcome =>
      rw [hphase] at h
      exact ⟨task, outcome, htask, hphase, (Option.some.inj h).symm⟩
  | negotiating =>
      rw [hphase] at h
      exact absurd h (Option.some_ne_none w').symm
  | finished outcome =>
      rw [hphase] at h
      exact absurd h (Option.some_ne_none w').symm

theorem selectLocal_cases (w : World) :
    w.selectLocal.1 = w ∨
      (w.state.stricterOwnerSeen = false ∧ w.state.negotiating = 0 ∧
        w.selectLocal.1 =
          { w with localSelected := true, state := { w.state with slots := ∅ } }) := by
  rw [selectLocal]
  split_ifs with hbusy hselected
  · exact .inl rfl
  · exact .inl rfl
  · rw [Bool.or_eq_true, not_or, decide_eq_true_eq, Nat.pos_iff_ne_zero, not_not] at hbusy
    exact .inr ⟨Bool.eq_false_of_not_eq_true hbusy.1, hbusy.2, rfl⟩

/-! ## The slots after a section -/

theorem getElem?_setSlot (hslot : works[s]? = some slot) (r : ℕ) :
    (works.set s slot')[r]? = if r = s then some slot' else works[r]? := by
  have hlength : s < works.length := (List.getElem?_eq_some_iff.mp hslot).1
  rw [List.getElem?_set]
  by_cases h : s = r
  · rw [if_pos h, if_pos hlength, if_pos h.symm]
  · rw [if_neg h, if_neg fun hr => h hr.symm]

theorem keys_set (hslot : works[s]? = some slot) (hkey : slot'.key = slot.key) :
    (works.set s slot').map AttachmentSlot.key = works.map AttachmentSlot.key := by
  apply List.ext_getElem?
  intro r
  rw [List.getElem?_map, List.getElem?_map, getElem?_setSlot hslot]
  split_ifs with hr
  · rw [hr, hslot, Option.map_some, Option.map_some, hkey]
  · rfl

/-- A new slot for a key that is not listed. -/
theorem Listed.insert {slots : Table Key ℕ} {keys : List Key} {key : Key}
    (h : Listed false slots keys) (hnew : slots.lookup key = none) :
    Listed false (slots.insert key keys.length) (keys ++ [key]) := by
  have hfresh : key ∉ keys := by
    intro hmem
    obtain ⟨s, hs⟩ := List.mem_iff_getElem?.mp hmem
    rw [(h.lookup rfl key s).mpr hs] at hnew
    exact Option.some_ne_none s hnew
  constructor
  · intro _ other s
    by_cases hother : other = key
    · rw [hother, AList.lookup_insert, Option.some.injEq]
      constructor
      · intro hs
        rw [← hs, List.getElem?_append_right le_rfl, Nat.sub_self]
        rfl
      · intro hs
        by_contra hne
        have hlength : s < keys.length := by
          have hbound := (List.getElem?_eq_some_iff.mp hs).1
          rw [List.length_append, List.length_singleton] at hbound
          omega
        rw [List.getElem?_append_left hlength] at hs
        exact hfresh (List.mem_of_getElem? hs)
    · rw [AList.lookup_insert_ne hother, h.lookup rfl]
      constructor
      · intro hs
        rw [List.getElem?_append_left (List.getElem?_eq_some_iff.mp hs).1]
        exact hs
      · intro hs
        by_cases hlength : s < keys.length
        · rwa [List.getElem?_append_left hlength] at hs
        · rw [List.getElem?_append_right (by omega)] at hs
          have hmem := List.mem_singleton.mp (List.mem_of_getElem? hs)
          exact absurd hmem hother
  · rw [List.nodup_append]
    refine ⟨h.distinct, List.nodup_singleton key, ?_⟩
    intro a ha b hb
    rw [List.mem_singleton.mp hb]
    exact fun heq => hfresh (heq ▸ ha)

/-- A section that neither starts nor ends a task and forgets at most what is held. -/
theorem Worked.set (h : Worked works tasks) (hslot : works[s]? = some slot)
    (hkey : slot'.key = slot.key) (hacquisition : slot'.work.acquisition = slot.work.acquisition)
    (hheld : slot'.work.held = slot.work.held ∨ slot'.work.held = none) :
    Worked (works.set s slot') tasks := by
  constructor
  · intro r other t hr hother
    rw [getElem?_setSlot hslot] at hr
    split_ifs at hr with hrs
    · obtain rfl := Option.some.inj hr
      rw [hkey]
      exact h.acquired s slot t hslot (hacquisition ▸ hother)
    · exact h.acquired r other t hr hother
  · intro r other t hr hother
    rw [getElem?_setSlot hslot] at hr
    split_ifs at hr with hrs
    · obtain rfl := Option.some.inj hr
      cases hheld with
      | inl hsame => rw [hsame, h.exclusive s slot t hslot (hacquisition ▸ hother)]
      | inr hnone => exact hnone
    · exact h.exclusive r other t hr hother
  · intro t task htask hunfinished
    obtain ⟨r, other, hr, hother⟩ := h.owned t task htask hunfinished
    by_cases hrs : r = s
    · refine ⟨s, slot', ?_, ?_⟩
      · rw [getElem?_setSlot hslot, if_pos rfl]
      · rw [hrs, hslot] at hr
        rw [hacquisition, Option.some.inj hr, hother]
    · refine ⟨r, other, ?_, hother⟩
      rw [getElem?_setSlot hslot, if_neg hrs, hr]

/-- A section that starts a task for a slot without one. -/
theorem Worked.begin (h : Worked works tasks) (hslot : works[s]? = some slot)
    (hnone : slot.work.acquisition = none) :
    Worked (works.set s { slot with work := ⟨none, some tasks.length⟩ })
      (tasks ++ [⟨slot.key, .negotiating⟩]) := by
  constructor
  · intro r other t hr hother
    rw [getElem?_setSlot hslot] at hr
    split_ifs at hr with hrs
    · obtain rfl := Option.some.inj hr
      obtain rfl := Option.some.inj hother
      refine ⟨⟨slot.key, .negotiating⟩, ?_, rfl⟩
      rw [List.getElem?_append_right le_rfl, Nat.sub_self]
      rfl
    · obtain ⟨task, htask, hkey⟩ := h.acquired r other t hr hother
      refine ⟨task, ?_, hkey⟩
      rw [List.getElem?_append_left (List.getElem?_eq_some_iff.mp htask).1, htask]
  · intro r other t hr hother
    rw [getElem?_setSlot hslot] at hr
    split_ifs at hr with hrs
    · obtain rfl := Option.some.inj hr
      rfl
    · exact h.exclusive r other t hr hother
  · intro t task htask hunfinished
    by_cases hlength : t < tasks.length
    · rw [List.getElem?_append_left hlength] at htask
      obtain ⟨r, other, hr, hother⟩ := h.owned t task htask hunfinished
      refine ⟨r, other, ?_, hother⟩
      rw [getElem?_setSlot hslot, if_neg ?_, hr]
      intro hrs
      rw [hrs, hslot] at hr
      rw [← Option.some.inj hr, hnone] at hother
      exact Option.some_ne_none t hother.symm
    · have hbound := (List.getElem?_eq_some_iff.mp htask).1
      rw [List.length_append, List.length_singleton] at hbound
      obtain rfl : t = tasks.length := by omega
      refine ⟨s, { slot with work := ⟨none, some tasks.length⟩ }, ?_, rfl⟩
      rw [getElem?_setSlot hslot, if_pos rfl]

/-- A section that takes the outcome of a finished task. -/
theorem Worked.clear (h : Worked works tasks) (hslot : works[s]? = some slot)
    (hnone : slot'.work.acquisition = none) (hacquisition : slot.work.acquisition = some t)
    (htask : tasks[t]? = some task) (hphase : task.phase = .finished outcome) :
    Worked (works.set s slot') tasks := by
  constructor
  · intro r other u hr hother
    rw [getElem?_setSlot hslot] at hr
    split_ifs at hr with hrs
    · obtain rfl := Option.some.inj hr
      rw [hnone] at hother
      exact absurd hother (Option.some_ne_none u).symm
    · exact h.acquired r other u hr hother
  · intro r other u hr hother
    rw [getElem?_setSlot hslot] at hr
    split_ifs at hr with hrs
    · obtain rfl := Option.some.inj hr
      rw [hnone] at hother
      exact absurd hother (Option.some_ne_none u).symm
    · exact h.exclusive r other u hr hother
  · intro u unfinished hu hunfinished
    obtain ⟨r, other, hr, hother⟩ := h.owned u unfinished hu hunfinished
    refine ⟨r, other, ?_, hother⟩
    rw [getElem?_setSlot hslot, if_neg ?_, hr]
    intro hrs
    rw [hrs, hslot] at hr
    rw [← Option.some.inj hr, hacquisition] at hother
    rw [← Option.some.inj hother, htask] at hu
    rw [← Option.some.inj hu] at hunfinished
    exact hunfinished outcome hphase

theorem Worked.append (h : Worked works tasks) (key : Key) :
    Worked (works ++ [{ key := key }]) tasks := by
  have hold : ∀ {r : ℕ} {other : AttachmentSlot} {t : ℕ},
      (works ++ [{ key := key }])[r]? = some other → other.work.acquisition = some t →
      works[r]? = some other := by
    intro r other t hr hother
    by_cases hlength : r < works.length
    · rwa [List.getElem?_append_left hlength] at hr
    · rw [List.getElem?_append_right (by omega)] at hr
      rw [List.mem_singleton.mp (List.mem_of_getElem? hr)] at hother
      exact absurd hother (Option.some_ne_none t).symm
  constructor
  · exact fun r other t hr hother => h.acquired r other t (hold hr hother) hother
  · exact fun r other t hr hother => h.exclusive r other t (hold hr hother) hother
  · intro t task htask hunfinished
    obtain ⟨r, other, hr, hother⟩ := h.owned t task htask hunfinished
    refine ⟨r, other, ?_, hother⟩
    rw [List.getElem?_append_left (List.getElem?_eq_some_iff.mp hr).1, hr]

/-! ## The tasks after a step -/

theorem getElem?_setTask (htask : tasks[t]? = some task) (p : TaskPhase) (u : ℕ) :
    (tasks.modify t fun task => { task with phase := p })[u]? =
      if u = t then some { task with phase := p } else tasks[u]? := by
  rw [List.getElem?_modify]
  by_cases h : t = u
  · rw [if_pos h.symm, ← h, htask]
    simp
  · rw [if_neg fun hu => h hu.symm]
    cases tasks[u]? <;> simp [h]

/-- A task that has not finished moves on. -/
theorem Worked.setTask (h : Worked works tasks) (htask : tasks[t]? = some task)
    (hunfinished : task.Unfinished) (p : TaskPhase) :
    Worked works (tasks.modify t fun task => { task with phase := p }) := by
  constructor
  · intro r slot u hr hslot
    obtain ⟨other, hother, hkey⟩ := h.acquired r slot u hr hslot
    rw [getElem?_setTask htask]
    split_ifs with hu
    · rw [hu, htask] at hother
      exact ⟨_, rfl, Option.some.inj hother ▸ hkey⟩
    · exact ⟨other, hother, hkey⟩
  · exact h.exclusive
  · intro u other hother hmoved
    rw [getElem?_setTask htask] at hother
    split_ifs at hother with hu
    · rw [hu]
      exact h.owned t task htask hunfinished
    · exact h.owned u other hother hmoved

theorem countP_setTask (htask : tasks[t]? = some task) (p : TaskPhase) :
    (tasks.modify t fun task => { task with phase := p }).countP
        (fun task => task.phase = .negotiating) + (if task.phase = .negotiating then 1 else 0) =
      tasks.countP (fun task => task.phase = .negotiating) +
        (if p = .negotiating then 1 else 0) := by
  induction tasks generalizing t with
  | nil => simp at htask
  | cons first tasks ih =>
      cases t with
      | zero =>
          obtain rfl : first = task := by simpa using htask
          rw [List.modify_zero_cons, List.countP_cons, List.countP_cons]
          simp only [decide_eq_true_eq]
          omega
      | succ t =>
          have hrest := ih (t := t) (by simpa using htask)
          rw [List.modify_succ_cons, List.countP_cons, List.countP_cons]
          omega

/-! ## The calls after a section -/

theorem getElem?_setPhase (j : ℕ) : (w.setPhase i phase).handles[j]? =
    if j = i then (w.handles[i]?).map fun handle => { handle with phase := phase }
    else w.handles[j]? := by
  rw [World.setPhase, List.getElem?_modify]
  by_cases h : i = j
  · rw [if_pos h.symm, ← h]
    cases w.handles[i]? <;> simp
  · rw [if_neg fun hj => h hj.symm]
    cases w.handles[j]? <;> simp [h]

/-- A section of another call leaves a call in place. -/
theorem Placed.set (h : Placed works j handle) (hslot : works[s]? = some slot)
    (hkey : slot'.key = slot.key) (hother : slot.owner ≠ some j) :
    Placed (works.set s slot') j handle := by
  unfold Placed at h ⊢
  cases hphase : handle.phase with
  | queued r =>
      rw [hphase] at h
      obtain ⟨found, hr, hfound⟩ := h
      by_cases hrs : r = s
      · rw [hrs, hslot] at hr
        refine ⟨slot', ?_, ?_⟩
        · rw [getElem?_setSlot hslot, if_pos hrs]
        · rw [hkey, Option.some.inj hr, hfound]
      · refine ⟨found, ?_, hfound⟩
        rw [getElem?_setSlot hslot, if_neg hrs, hr]
  | locked r =>
      rw [hphase] at h
      obtain ⟨found, hr, hfound, howner⟩ := h
      refine ⟨found, ?_, hfound, howner⟩
      rw [getElem?_setSlot hslot, if_neg ?_, hr]
      intro hrs
      rw [hrs, hslot] at hr
      exact hother (Option.some.inj hr ▸ howner)
  | awaiting r t =>
      rw [hphase] at h
      obtain ⟨found, hr, hfound, howner, htask⟩ := h
      refine ⟨found, ?_, hfound, howner, htask⟩
      rw [getElem?_setSlot hslot, if_neg ?_, hr]
      intro hrs
      rw [hrs, hslot] at hr
      exact hother (Option.some.inj hr ▸ howner)
  | started | returned _ | dropped => trivial

theorem Placed.append (h : Placed works j handle) (slot : AttachmentSlot) :
    Placed (works ++ [slot]) j handle := by
  have hkeep : ∀ {r : ℕ} {found : AttachmentSlot}, works[r]? = some found →
      (works ++ [slot])[r]? = some found := by
    intro r found hr
    rw [List.getElem?_append_left (List.getElem?_eq_some_iff.mp hr).1, hr]
  unfold Placed at h ⊢
  cases hphase : handle.phase with
  | queued r | locked r | awaiting r t =>
      rw [hphase] at h
      obtain ⟨found, hr, hfound⟩ := h
      exact ⟨found, hkeep hr, hfound⟩
  | started | returned _ | dropped => trivial

/-- The calls are in place if the others are and the one that moved is. -/
theorem placed_setPhase
    (hothers : ∀ j handle, w.handles[j]? = some handle → j ≠ i → Placed works j handle)
    (hmoved : ∀ handle, w.handles[i]? = some handle → Placed works i ⟨handle.call, phase⟩) :
    ∀ j handle, (w.setPhase i phase).handles[j]? = some handle → Placed works j handle := by
  intro j handle hj
  rw [getElem?_setPhase] at hj
  split_ifs at hj with hji
  · obtain ⟨before, hbefore, rfl⟩ := Option.map_eq_some_iff.mp hj
    rw [hji]
    exact hmoved before hbefore
  · exact hothers j handle hj hji

theorem placed_setSlot (h : ∀ j handle, w.handles[j]? = some handle → Placed w.works j handle)
    (hslot : w.works[s]? = some slot) (hkey : slot'.key = slot.key)
    (hfree : ∀ j, j ≠ i → slot.owner ≠ some j)
    (hmoved : ∀ handle, w.handles[i]? = some handle →
      Placed (w.works.set s slot') i ⟨handle.call, phase⟩) :
    ∀ j handle, ((w.setSlot s slot').setPhase i phase).handles[j]? = some handle →
      Placed (w.works.set s slot') j handle :=
  placed_setPhase (w := w.setSlot s slot')
    (fun j handle hj hji => (h j handle hj).set hslot hkey (hfree j hji)) hmoved

/-! ## Steps -/

theorem inv_start : Inv {} where
  counted := rfl
  selected := fun h => absurd h Bool.false_ne_true
  listed := ⟨fun _ key s => by simp, List.nodup_nil⟩
  worked := ⟨by simp, by simp, by simp⟩
  placed := by simp

theorem Inv.setPhase (h : Inv w)
    (hmoved : ∀ handle, w.handles[i]? = some handle → Placed w.works i ⟨handle.call, phase⟩) :
    Inv (w.setPhase i phase) :=
  ⟨h.counted, h.selected, h.listed, h.worked,
    placed_setPhase (fun j handle hj _ => h.placed j handle hj) hmoved⟩

/-- A section that changes a slot and a call. -/
theorem Inv.setSlot (h : Inv w) (hslot : w.works[s]? = some slot) (hkey : slot'.key = slot.key)
    (hfree : ∀ j, j ≠ i → slot.owner ≠ some j) (hworked : Worked (w.works.set s slot') w.tasks)
    (hmoved : ∀ handle, w.handles[i]? = some handle →
      Placed (w.works.set s slot') i ⟨handle.call, phase⟩) :
    Inv ((w.setSlot s slot').setPhase i phase) where
  counted := h.counted
  selected := h.selected
  listed := by
    rw [show ((w.setSlot s slot').setPhase i phase).works = w.works.set s slot' from rfl,
      keys_set hslot hkey]
    exact h.listed
  worked := hworked
  placed := placed_setSlot h.placed hslot hkey hfree hmoved

/-- The owner of a slot is the call that has it locked. -/
theorem owner_unique (howner : slot.owner = some i) : ∀ j, j ≠ i → slot.owner ≠ some j := by
  intro j hji hj
  rw [howner] at hj
  exact hji (Option.some.inj hj).symm

theorem Inv.locked (h : Inv w) (hhandle : w.handles[i]? = some ⟨call, .locked s⟩)
    (hslot : w.works[s]? = some slot) : slot.key = call.key ∧ slot.owner = some i := by
  obtain ⟨found, hs, hkey, howner⟩ := h.placed i _ hhandle
  obtain rfl : found = slot := by
    rw [hslot] at hs
    exact (Option.some.inj hs).symm
  exact ⟨hkey, howner⟩

theorem Inv.awaiting (h : Inv w) (hhandle : w.handles[i]? = some ⟨call, .awaiting s t⟩)
    (hslot : w.works[s]? = some slot) :
    slot.key = call.key ∧ slot.owner = some i ∧ slot.work.acquisition = some t := by
  obtain ⟨found, hs, hkey, howner, htask⟩ := h.placed i _ hhandle
  obtain rfl : found = slot := by
    rw [hslot] at hs
    exact (Option.some.inj hs).symm
  exact ⟨hkey, howner, htask⟩

theorem Inv.arrive (h : Inv w) (call : Call) : Inv (w.call call) := by
  refine ⟨h.counted, h.selected, h.listed, h.worked, ?_⟩
  intro j handle hj
  by_cases hlength : j < w.handles.length
  · rw [World.call, List.getElem?_append_left hlength] at hj
    exact h.placed j handle hj
  · rw [World.call, List.getElem?_append_right (by omega)] at hj
    rw [List.mem_singleton.mp (List.mem_of_getElem? hj)]
    trivial

theorem Inv.enter (h : Inv w) (hstep : w.enter i = some w') : Inv w' := by
  obtain ⟨call, hhandle, hcase⟩ := enter_cases hstep
  rcases hcase with ⟨e, -, rfl⟩ | ⟨hunselected, s, hlookup, rfl⟩ | ⟨hunselected, hlookup, rfl⟩
  · exact h.setPhase fun _ _ => trivial
  · apply h.setPhase
    intro handle hget
    rw [hhandle] at hget
    obtain rfl := Option.some.inj hget
    have hkey := (h.listed.lookup hunselected call.key s).mp hlookup
    rw [List.getElem?_map, Option.map_eq_some_iff] at hkey
    exact hkey
  · refine ⟨h.counted, h.selected, ?_, h.worked.append call.key, ?_⟩
    · have hlisted := h.listed
      rw [hunselected] at hlisted
      have hnew := hlisted.insert hlookup
      rw [List.length_map] at hnew
      change Listed w.localSelected _ ((w.works ++ [({ key := call.key } : AttachmentSlot)]).map AttachmentSlot.key)
      rw [hunselected, List.map_append, List.map_singleton]
      exact hnew
    · apply placed_setPhase
      · exact fun j handle hj _ => (h.placed j handle hj).append _
      · intro handle hget
        rw [hhandle] at hget
        obtain rfl := Option.some.inj hget
        refine ⟨{ key := call.key }, ?_, rfl⟩
        rw [List.getElem?_append_right le_rfl, Nat.sub_self]
        rfl

theorem Inv.lock (h : Inv w) (hstep : w.lock i s = some w') : Inv w' := by
  obtain ⟨call, slot, hhandle, hslot, hfree, rfl⟩ := lock_cases hstep
  apply h.setSlot hslot
  · rfl
  · intro j _ hj
    rw [hfree] at hj
    exact Option.some_ne_none j hj.symm
  · exact h.worked.set hslot rfl rfl (.inl rfl)
  · intro handle hget
    rw [hhandle] at hget
    obtain rfl := Option.some.inj hget
    obtain ⟨found, hs, hkey⟩ := h.placed i _ hhandle
    rw [hslot] at hs
    obtain rfl := Option.some.inj hs
    refine ⟨{ slot with owner := some i }, ?_, hkey, rfl⟩
    rw [getElem?_setSlot hslot, if_pos rfl]

theorem Inv.check (h : Inv w) (hstep : w.check i s = some w') : Inv w' := by
  obtain ⟨call, slot, hhandle, hslot, hcase⟩ := check_cases hstep
  obtain ⟨hkey, howner⟩ := h.locked hhandle hslot
  have hfree := owner_unique howner
  have hunlocked : Worked (w.works.set s { slot with owner := none }) w.tasks :=
    h.worked.set hslot rfl rfl (.inl rfl)
  rcases hcase with ⟨-, rfl⟩ | ⟨-, a, -, rfl⟩ | ⟨-, -, t, htask, rfl⟩ | ⟨hunselected, -, hnone, rfl⟩
  · exact h.setSlot hslot rfl hfree hunlocked fun _ _ => trivial
  · exact h.setSlot hslot rfl hfree hunlocked fun _ _ => trivial
  · apply h.setSlot hslot
    · rfl
    · exact hfree
    · exact h.worked.set hslot rfl rfl (.inr rfl)
    · intro handle hget
      rw [hhandle] at hget
      obtain rfl := Option.some.inj hget
      refine ⟨{ slot with work := { slot.work with held := none } }, ?_, hkey, howner, htask⟩
      rw [getElem?_setSlot hslot, if_pos rfl]
  · refine ⟨?_, ?_, ?_, ?_, ?_⟩
    · change w.state.negotiating + 1 = (w.tasks ++ [_]).countP _
      rw [List.countP_append, h.counted]
      rfl
    · intro hselected
      change w.localSelected = true at hselected
      rw [hunselected] at hselected
      exact absurd hselected Bool.false_ne_true
    · change Listed w.localSelected _ ((w.works.set s _).map AttachmentSlot.key)
      rw [keys_set hslot]
      · exact h.listed
      · rfl
    · rw [← hkey]
      exact h.worked.begin hslot hnone
    · apply placed_setSlot h.placed hslot
      · rfl
      · exact hfree
      · intro handle hget
        rw [hhandle] at hget
        obtain rfl := Option.some.inj hget
        refine ⟨{ slot with work := ⟨none, some w.tasks.length⟩ }, ?_, hkey, howner, rfl⟩
        rw [getElem?_setSlot hslot, if_pos rfl]

theorem Inv.resume (h : Inv w) (hstep : w.resume i s t = some w') : Inv w' := by
  obtain ⟨call, slot, task, outcome, hhandle, hslot, htask, hphase, rfl⟩ := resume_cases hstep
  obtain ⟨-, howner, hacquisition⟩ := h.awaiting hhandle hslot
  apply h.setSlot hslot
  · rfl
  · exact owner_unique howner
  · exact h.worked.clear hslot rfl hacquisition htask hphase
  · exact fun _ _ => trivial

/-- A call ends early with an error or without an answer. -/
theorem Inv.leave (h : Inv w) (hstep : w.leave i phase = some w')
    (hphase : ∀ works i call, Placed works i ⟨call, phase⟩) : Inv w' := by
  obtain ⟨handle, hhandle, hcase⟩ := leave_cases hstep
  rcases hcase with ⟨s, -, rfl⟩ | ⟨s, t, slot, hawaiting, hslot, rfl⟩
  · exact h.setPhase fun _ _ => hphase _ _ _
  · obtain ⟨call, _⟩ := handle
    obtain rfl : _ = CallPhase.awaiting s t := hawaiting
    obtain ⟨-, howner, -⟩ := h.awaiting hhandle hslot
    apply h.setSlot hslot
    · rfl
    · exact owner_unique howner
    · exact h.worked.set hslot rfl rfl (.inl rfl)
    · exact fun _ _ => hphase _ _ _

theorem Inv.settle (h : Inv w) (hstep : w.settle t outcome = some w') :
    Inv w' ∧ 0 < w.state.negotiating := by
  obtain ⟨task, htask, hphase, rfl⟩ := settle_cases hstep
  have hcount := countP_setTask htask (.released outcome)
  rw [if_pos hphase, if_neg TaskPhase.noConfusion] at hcount
  have hpositive : 0 < w.state.negotiating := by
    rw [h.counted]
    omega
  refine ⟨⟨?_, ?_, h.listed, ?_, h.placed⟩, hpositive⟩
  · change w.state.negotiating - 1 = _
    rw [h.counted]
    exact Nat.sub_eq_of_eq_add hcount.symm
  · intro hselected
    rw [(h.selected hselected).1] at hpositive
    exact absurd hpositive (lt_irrefl 0)
  · apply h.worked.setTask htask
    intro outcome hfinished
    rw [hphase] at hfinished
    exact TaskPhase.noConfusion hfinished

theorem Inv.finish (h : Inv w) (hstep : w.finish t = some w') : Inv w' := by
  obtain ⟨task, outcome, htask, hphase, rfl⟩ := finish_cases hstep
  have hcount := countP_setTask htask (.finished outcome)
  rw [hphase, if_neg TaskPhase.noConfusion, if_neg TaskPhase.noConfusion] at hcount
  refine ⟨?_, h.selected, h.listed, ?_, h.placed⟩
  · exact h.counted.trans hcount.symm
  · apply h.worked.setTask htask
    intro outcome hfinished
    rw [hphase] at hfinished
    exact TaskPhase.noConfusion hfinished

theorem Inv.selectLocal (h : Inv w) : Inv w.selectLocal.1 := by
  rcases selectLocal_cases w with heq | ⟨hseen, hnegotiating, heq⟩
  · rw [heq]
    exact h
  · rw [heq]
    refine ⟨h.counted, fun _ => ⟨hnegotiating, hseen⟩, ?_, h.worked, h.placed⟩
    exact ⟨fun hfalse => absurd hfalse Bool.true_eq_false_eq_False, h.listed.distinct⟩

theorem Inv.step (h : Inv w) {action : Action} (hstep : w.step timeoutMs action = some w') :
    Inv w' := by
  cases action with
  | call call =>
      obtain rfl := Option.some.inj hstep
      exact h.arrive call
  | enter i => exact h.enter hstep
  | lock i s => exact h.lock hstep
  | check i s => exact h.check hstep
  | resume i s t => exact h.resume hstep
  | timeout i => exact h.leave hstep fun _ _ _ => trivial
  | cancel i => exact h.leave hstep fun _ _ _ => trivial
  | settle t outcome => exact (h.settle hstep).1
  | finish t => exact h.finish hstep
  | selectLocal =>
      obtain rfl := Option.some.inj hstep
      exact h.selectLocal

/-- Whatever every step keeps, every run keeps. -/
theorem run_induct {P : World → Prop}
    (hkeep : ∀ w action w', P w → w.step timeoutMs action = some w' → P w')
    {actions : List Action} (hrun : run timeoutMs actions w = some w') (h : P w) : P w' := by
  induction actions generalizing w with
  | nil =>
      obtain rfl := Option.some.inj hrun
      exact h
  | cons action actions ih =>
      obtain ⟨next, hstep, hrest⟩ := Option.bind_eq_some_iff.mp hrun
      exact ih hrest (hkeep w action next h hstep)

theorem Inv.run (h : Inv w) {actions : List Action} (hrun : run timeoutMs actions w = some w') :
    Inv w' :=
  run_induct (fun _ _ _ h hstep => h.step hstep) hrun h

/-! ## The tasks of a key -/

/-- Slots with one key are one slot. -/
theorem Listed.slot_unique {selected : Bool} {slots : Table Key ℕ} {r : ℕ}
    {other : AttachmentSlot} (h : Listed selected slots (works.map AttachmentSlot.key))
    (hslot : works[s]? = some slot) (hother : works[r]? = some other)
    (hkey : slot.key = other.key) : s = r := by
  have hlength : s < (works.map AttachmentSlot.key).length := by
    rw [List.length_map]
    exact (List.getElem?_eq_some_iff.mp hslot).1
  apply (List.getElem?_inj hlength h.distinct).mp
  rw [List.getElem?_map, List.getElem?_map, hslot, hother, Option.map_some, Option.map_some, hkey]

/-- A key has one unfinished task. -/
theorem Inv.task_unique (h : Inv w) {t' : ℕ} {task' : AttachmentTask}
    (htask : w.tasks[t]? = some task) (htask' : w.tasks[t']? = some task')
    (hunfinished : task.Unfinished) (hunfinished' : task'.Unfinished)
    (hkey : task.key = task'.key) : t = t' := by
  obtain ⟨s, slot, hslot, hacquisition⟩ := h.worked.owned t task htask hunfinished
  obtain ⟨r, other, hother, hacquisition'⟩ := h.worked.owned t' task' htask' hunfinished'
  obtain ⟨found, hfound, hslotKey⟩ := h.worked.acquired s slot t hslot hacquisition
  obtain ⟨found', hfound', hotherKey⟩ := h.worked.acquired r other t' hother hacquisition'
  rw [htask] at hfound
  rw [htask'] at hfound'
  have hkeys : slot.key = other.key := by
    rw [← hslotKey, ← hotherKey, ← Option.some.inj hfound, ← Option.some.inj hfound', hkey]
  have hsr := h.listed.slot_unique hslot hother hkeys
  rw [hsr, hother] at hslot
  rw [← Option.some.inj hslot, hacquisition'] at hacquisition
  exact (Option.some.inj hacquisition).symm

end ObsidianMcp.RuntimeAttachments
