import ObsidianMcp.Verification.Daemon.Attachments

/-! # The local fallback

After its selection no task starts and no later call gets an attachment. Until a call reports it as
expired, an attachment that a task got serves every call for its key. -/

namespace ObsidianMcp.RuntimeAttachments

open World

variable {w w' : World} {timeoutMs : ℕ} {i j s t : ℕ} {call : Call} {handle : Handle}
  {slot slot' : AttachmentSlot} {task : AttachmentTask} {phase : CallPhase}
  {handles : List Handle}

/-! ## Calls over a run -/

/-- The calls that are new, or stood well earlier on, stand well. -/
def Followed (before good : Handle → Prop) (earlier handles : List Handle) : Prop :=
  ∀ (i : ℕ) (handle : Handle), handles[i]? = some handle →
    (∀ first, earlier[i]? = some first → before first) → good handle

section Followed

variable {before good : Handle → Prop} {earlier : List Handle}

theorem Followed.append (h : Followed before good earlier handles) (hgood : good handle) :
    Followed before good earlier (handles ++ [handle]) := by
  intro i found hfound hbefore
  by_cases hlength : i < handles.length
  · rw [List.getElem?_append_left hlength] at hfound
    exact h i found hfound hbefore
  · rw [List.getElem?_append_right (by omega)] at hfound
    rwa [List.mem_singleton.mp (List.mem_of_getElem? hfound)]

theorem Followed.setPhase (h : Followed before good earlier w.handles)
    (hmoved : ∀ handle, w.handles[i]? = some handle → good handle → good ⟨handle.call, phase⟩) :
    Followed before good earlier (w.setPhase i phase).handles := by
  intro j found hfound hbefore
  rw [getElem?_setPhase] at hfound
  split_ifs at hfound with hji
  · obtain ⟨handle, hhandle, rfl⟩ := Option.map_eq_some_iff.mp hfound
    rw [hji] at hbefore
    exact hmoved handle hhandle (h i handle hhandle hbefore)
  · exact h j found hfound hbefore

end Followed

theorem calls_setPhase (w : World) (i : ℕ) (phase : CallPhase) :
    (w.setPhase i phase).handles.map Handle.call = w.handles.map Handle.call := by
  apply List.ext_getElem?
  intro j
  rw [List.getElem?_map, List.getElem?_map, getElem?_setPhase]
  split_ifs with hji
  · rw [hji]
    cases w.handles[i]? <;> rfl
  · rfl

/-- Calls are never forgotten. -/
theorem calls_step {action : Action} (hstep : w.step timeoutMs action = some w') :
    w.handles.map Handle.call <+: w'.handles.map Handle.call := by
  have hsame : ∀ {v : World}, v.handles.map Handle.call = w.handles.map Handle.call →
      w.handles.map Handle.call <+: v.handles.map Handle.call := by
    intro v hv
    rw [hv]
  cases action with
  | call call =>
      obtain rfl := Option.some.inj hstep
      rw [World.call, List.map_append]
      exact List.prefix_append _ _
  | enter i =>
      obtain ⟨_, -, ⟨_, -, rfl⟩ | ⟨-, _, -, rfl⟩ | ⟨-, -, rfl⟩⟩ := enter_cases hstep
      all_goals exact hsame (calls_setPhase w _ _)
  | lock i s =>
      obtain ⟨_, _, -, -, -, rfl⟩ := lock_cases hstep
      exact hsame (calls_setPhase w _ _)
  | check i s =>
      obtain ⟨_, _, -, -, ⟨-, rfl⟩ | ⟨-, _, -, rfl⟩ | ⟨-, -, _, -, rfl⟩ | ⟨-, -, -, rfl⟩⟩ :=
        check_cases hstep
      all_goals exact hsame (calls_setPhase w _ _)
  | resume i s t =>
      obtain ⟨_, _, _, _, -, -, -, -, rfl⟩ := resume_cases hstep
      exact hsame (calls_setPhase w _ _)
  | timeout i | cancel i =>
      obtain ⟨_, -, ⟨_, -, rfl⟩ | ⟨_, _, _, -, -, rfl⟩⟩ := leave_cases hstep
      all_goals exact hsame (calls_setPhase w _ _)
  | settle t outcome =>
      obtain ⟨_, -, -, rfl⟩ := settle_cases hstep
      exact List.prefix_rfl
  | finish t =>
      obtain ⟨_, _, -, -, rfl⟩ := finish_cases hstep
      exact List.prefix_rfl
  | selectLocal =>
      obtain rfl := Option.some.inj hstep
      apply hsame
      rcases selectLocal_cases w with heq | ⟨-, -, heq⟩ <;> rw [heq]

theorem calls_run {actions : List Action} (hrun : run timeoutMs actions w = some w') :
    w.handles.map Handle.call <+: w'.handles.map Handle.call :=
  run_induct (P := fun v => w.handles.map Handle.call <+: v.handles.map Handle.call)
    (fun _ _ _ h hstep => h.trans (calls_step hstep)) hrun List.prefix_rfl

/-! ## After the selection -/

/-- A call that has not got an attachment and gets none any more. -/
def Failing (handle : Handle) : Prop :=
  handle.phase = .started ∨ ∃ e, handle.phase = .returned (.error e)

/-- The fallback is selected, no further task is started, and the calls after the selection fail. -/
structure Closed (first : World) (w : World) : Prop where
  selected : w.localSelected = true
  unstarted : w.tasks.length = first.tasks.length
  failing : Followed (fun handle => handle.phase = .started) Failing first.handles w.handles

theorem closed_start (h : w.localSelected = true) : Closed w w :=
  ⟨h, rfl, fun _ handle hhandle hbefore => .inl (hbefore handle hhandle)⟩

/-- A call that has come beyond its first look at the state is not a failing one. -/
theorem Failing.started (h : Failing handle)
    (hphase : ∀ result, handle.phase ≠ .returned result) : handle.phase = .started := by
  rcases h with h | ⟨e, h⟩
  · exact h
  · exact absurd h (hphase _)

theorem Closed.setPhase {first : World} (h : Closed first w)
    (hmoved : ∀ handle, w.handles[i]? = some handle → Failing handle →
      Failing ⟨handle.call, phase⟩) (hw' : w'.handles = (w.setPhase i phase).handles)
    (hselected : w'.localSelected = w.localSelected) (htasks : w'.tasks = w.tasks) :
    Closed first w' where
  selected := hselected.trans h.selected
  unstarted := htasks ▸ h.unstarted
  failing := hw' ▸ h.failing.setPhase hmoved

/-- A failing call takes no step but its first. -/
theorem not_failing (hhandle : w.handles[i]? = some handle)
    (hstarted : handle.phase ≠ .started) (hreturned : ∀ result, handle.phase ≠ .returned result) :
    ∀ found, w.handles[i]? = some found → Failing found → Failing ⟨found.call, phase⟩ := by
  intro found hfound hfailing
  rw [hhandle] at hfound
  obtain rfl := Option.some.inj hfound
  exact absurd (hfailing.started hreturned) hstarted

theorem Closed.step {first : World} (h : Closed first w) {action : Action}
    (hstep : w.step timeoutMs action = some w') : Closed first w' := by
  cases action with
  | call call =>
      obtain rfl := Option.some.inj hstep
      exact ⟨h.selected, h.unstarted, h.failing.append (.inl rfl)⟩
  | enter i =>
      obtain ⟨call, hhandle, ⟨e, -, rfl⟩ | ⟨hunselected, -⟩ | ⟨hunselected, -⟩⟩ := enter_cases hstep
      · exact h.setPhase (fun _ _ _ => .inr ⟨e, rfl⟩) rfl rfl rfl
      all_goals
        rw [h.selected] at hunselected
        exact absurd hunselected Bool.true_eq_false_eq_False
  | lock i s =>
      obtain ⟨call, slot, hhandle, -, -, rfl⟩ := lock_cases hstep
      refine h.setPhase (not_failing hhandle ?_ ?_) rfl rfl rfl
      all_goals simp
  | check i s =>
      obtain ⟨call, slot, hhandle, -, ⟨-, rfl⟩ | ⟨hunselected, -⟩ | ⟨hunselected, -⟩ |
        ⟨hunselected, -⟩⟩ := check_cases hstep
      · exact h.setPhase (fun _ _ _ => .inr ⟨_, rfl⟩) rfl rfl rfl
      all_goals
        rw [h.selected] at hunselected
        exact absurd hunselected Bool.true_eq_false_eq_False
  | resume i s t =>
      obtain ⟨call, slot, task, outcome, hhandle, -, -, -, rfl⟩ := resume_cases hstep
      refine h.setPhase (not_failing hhandle ?_ ?_) rfl rfl rfl
      all_goals simp
  | timeout i =>
      obtain ⟨handle, hhandle, ⟨s, hphase, rfl⟩ | ⟨s, t, slot, hphase, -, rfl⟩⟩ :=
        leave_cases hstep
      all_goals exact h.setPhase (fun _ _ _ => .inr ⟨_, rfl⟩) rfl rfl rfl
  | cancel i =>
      obtain ⟨handle, hhandle, ⟨s, hphase, rfl⟩ | ⟨s, t, slot, hphase, -, rfl⟩⟩ :=
        leave_cases hstep
      all_goals
        refine h.setPhase (not_failing hhandle ?_ ?_) rfl rfl rfl
        all_goals simp [hphase]
  | settle t outcome =>
      obtain ⟨task, -, -, rfl⟩ := settle_cases hstep
      exact ⟨h.selected, (List.length_modify _ _ _).trans h.unstarted, h.failing⟩
  | finish t =>
      obtain ⟨task, outcome, -, -, rfl⟩ := finish_cases hstep
      exact ⟨h.selected, (List.length_modify _ _ _).trans h.unstarted, h.failing⟩
  | selectLocal =>
      obtain rfl := Option.some.inj hstep
      rcases selectLocal_cases w with heq | ⟨-, -, heq⟩
      · rw [heq]
        exact h
      · rw [heq]
        exact ⟨rfl, h.unstarted, h.failing⟩

theorem Closed.run {first : World} (h : Closed first w) {actions : List Action}
    (hrun : run timeoutMs actions w = some w') : Closed first w' :=
  run_induct (fun _ _ _ h hstep => h.step hstep) hrun h

/-! ## An attachment that is held -/

/-- How far a call can come at a slot that holds an attachment. -/
def Served (timeoutMs s : ℕ) (attachment : VaultAttachment) (phase : CallPhase) : Prop :=
  phase ∈ [.started, .queued s, .locked s, .dropped, .returned (.ok attachment),
    .returned (.error remoteVault), .returned (.error alreadySelected),
    .returned (.error (.daemonTimeout "ensure_vault".toList timeoutMs))]

/-- The slot of a key holds an attachment: since then the key got no further task, and the calls that
were waiting or came later get the attachment unless they fail by themselves. -/
structure Shared (timeoutMs s : ℕ) (key : Key) (attachment : VaultAttachment) (first w : World) :
    Prop where
  held : ∃ slot, w.works[s]? = some slot ∧ slot.key = key ∧ slot.work.held = some attachment
  unstarted : (w.tasks.countP fun task => task.key = key) =
    first.tasks.countP fun task => task.key = key
  served : Followed (fun handle => handle.phase = .started ∨ handle.phase = .queued s)
    (fun handle => handle.call.key = key → Served timeoutMs s attachment handle.phase)
    first.handles w.handles

section Shared

variable {key : Key} {attachment : VaultAttachment} {first : World}

theorem shared_start (hslot : w.works[s]? = some slot) (hkey : slot.key = key)
    (hheld : slot.work.held = some attachment) : Shared timeoutMs s key attachment w w where
  held := ⟨slot, hslot, hkey, hheld⟩
  unstarted := rfl
  served := by
    intro i handle hhandle hbefore _
    rcases hbefore handle hhandle with hphase | hphase <;> rw [hphase] <;> simp [Served]

/-- A section that keeps what the slot holds. -/
theorem Shared.setSlot {r : ℕ} (h : Shared timeoutMs s key attachment first w)
    (hslot : w.works[r]? = some slot) (hkey : slot'.key = slot.key)
    (hkeep : r = s → slot'.work.held = slot.work.held)
    (hmoved : ∀ handle, w.handles[i]? = some handle →
      (handle.call.key = key → Served timeoutMs s attachment handle.phase) →
      handle.call.key = key → Served timeoutMs s attachment phase) :
    Shared timeoutMs s key attachment first ((w.setSlot r slot').setPhase i phase) where
  held := by
    obtain ⟨found, hfound, hfoundKey, hheld⟩ := h.held
    by_cases hrs : r = s
    · rw [← hrs, hslot] at hfound
      obtain rfl := Option.some.inj hfound
      refine ⟨slot', ?_, hkey.trans hfoundKey, (hkeep hrs).trans hheld⟩
      exact (getElem?_setSlot hslot s).trans (if_pos hrs.symm)
    · refine ⟨found, ?_, hfoundKey, hheld⟩
      exact ((getElem?_setSlot hslot s).trans (if_neg fun hsr => hrs hsr.symm)).trans hfound
  unstarted := h.unstarted
  served := h.served.setPhase (w := w.setSlot r slot') hmoved

/-- A call for the key has its place at the slot. -/
theorem Shared.slot_eq {r : ℕ} (h : Shared timeoutMs s key attachment first w) (hinv : Inv w)
    (hslot : w.works[r]? = some slot) (hkey : slot.key = key) : r = s := by
  obtain ⟨found, hfound, hfoundKey, -⟩ := h.held
  exact hinv.listed.slot_unique hslot hfound (hkey.trans hfoundKey.symm)

/-- What the slot holds goes to the next call that does not report it. -/
theorem Shared.heldFor_eq (h : Shared timeoutMs s key attachment first w)
    (hslot : w.works[s]? = some slot) (hreport : call.expired ≠ some attachment.attachmentId) :
    heldFor slot.work call.expired = some attachment := by
  obtain ⟨found, hfound, -, hheld⟩ := h.held
  rw [hslot] at hfound
  rw [← Option.some.inj hfound] at hheld
  rw [heldFor, hheld, Option.filter_some, if_pos (decide_eq_true hreport)]

/-- The tasks of a key are counted by their keys alone. -/
theorem countP_key_setTask (tasks : List AttachmentTask) (t : ℕ) (p : TaskPhase) (key : Key) :
    ((tasks.modify t fun task => { task with phase := p }).countP fun task => task.key = key) =
      tasks.countP fun task => task.key = key := by
  induction tasks generalizing t with
  | nil => simp
  | cons first tasks ih =>
      cases t with
      | zero => rw [List.modify_zero_cons, List.countP_cons, List.countP_cons]
      | succ t => rw [List.modify_succ_cons, List.countP_cons, List.countP_cons, ih]

theorem Shared.enter (h : Shared timeoutMs s key attachment first w) (hinv : Inv w)
    (hstep : w.enter i = some w') : Shared timeoutMs s key attachment first w' := by
  obtain ⟨call, hhandle, hcase⟩ := enter_cases hstep
  obtain ⟨slot, hslot, hkey, hheld⟩ := h.held
  have hlisted : (w.works.map AttachmentSlot.key)[s]? = some key := by
    rw [List.getElem?_map, hslot, Option.map_some, hkey]
  rcases hcase with ⟨e, he, rfl⟩ | ⟨hunselected, r, hlookup, rfl⟩ | ⟨hunselected, hlookup, rfl⟩
  · refine ⟨h.held, h.unstarted, h.served.setPhase fun _ _ _ _ => ?_⟩
    rcases he with rfl | rfl <;> simp [Served]
  · refine ⟨h.held, h.unstarted, h.served.setPhase ?_⟩
    intro handle hget _ hcallKey
    rw [hhandle] at hget
    obtain rfl := Option.some.inj hget
    have hlist := (hinv.listed.lookup hunselected key s).mpr hlisted
    rw [← hcallKey] at hlist
    rw [hlookup] at hlist
    rw [Option.some.inj hlist]
    simp [Served]
  · refine ⟨⟨slot, ?_, hkey, hheld⟩, h.unstarted, h.served.setPhase ?_⟩
    · exact (List.getElem?_append_left (List.getElem?_eq_some_iff.mp hslot).1).trans hslot
    · intro handle hget _ hcallKey
      rw [hhandle] at hget
      obtain rfl := Option.some.inj hget
      rw [← hcallKey] at hlisted
      rw [(hinv.listed.lookup hunselected call.key s).mpr hlisted] at hlookup
      exact absurd hlookup (Option.some_ne_none s)

theorem Shared.lock {r : ℕ} (h : Shared timeoutMs s key attachment first w) (hinv : Inv w)
    (hstep : w.lock i r = some w') : Shared timeoutMs s key attachment first w' := by
  obtain ⟨call, slot, hhandle, hslot, -, rfl⟩ := lock_cases hstep
  refine h.setSlot hslot rfl (fun _ => rfl) ?_
  intro handle hget _ hcallKey
  rw [hhandle] at hget
  obtain rfl := Option.some.inj hget
  obtain ⟨found, hfound, hfoundKey⟩ := hinv.placed i _ hhandle
  rw [h.slot_eq hinv hfound (hfoundKey.trans hcallKey)]
  simp [Served]

theorem Shared.check {r : ℕ} (h : Shared timeoutMs s key attachment first w) (hinv : Inv w)
    (hstep : w.check i r = some w')
    (hreport : ∀ call, w.callIn i (.locked r) = some call → call.key = key →
      call.expired ≠ some attachment.attachmentId) :
    Shared timeoutMs s key attachment first w' := by
  obtain ⟨call, slot, hhandle, hslot, hcase⟩ := check_cases hstep
  obtain ⟨hkey, -⟩ := hinv.locked hhandle hslot
  -- A call for the key is at the slot and finds the attachment.
  have hfinds : r = s ∨ call.key = key → heldFor slot.work call.expired = some attachment := by
    intro hor
    have hrs : r = s := hor.elim id fun hcall => h.slot_eq hinv hslot (hkey.trans hcall)
    rw [hrs] at hslot
    apply h.heldFor_eq hslot
    apply hreport call
    · exact callIn_eq_some.mpr hhandle
    · obtain ⟨found, hfound, hfoundKey, -⟩ := h.held
      rw [hslot] at hfound
      rw [← hkey, Option.some.inj hfound, hfoundKey]
  rcases hcase with ⟨-, rfl⟩ | ⟨-, a, ha, rfl⟩ | ⟨-, hnone, t, -, rfl⟩ | ⟨-, hnone, -, rfl⟩
  · exact h.setSlot hslot rfl (fun _ => rfl) fun _ _ _ _ => by simp [Served]
  · refine h.setSlot hslot rfl (fun _ => rfl) ?_
    intro handle hget _ hcallKey
    rw [hhandle] at hget
    obtain rfl := Option.some.inj hget
    rw [hfinds (.inr hcallKey)] at ha
    rw [← Option.some.inj ha]
    simp [Served]
  · have hother : ¬(r = s ∨ call.key = key) := by
      intro hor
      rw [hfinds hor] at hnone
      exact Option.some_ne_none attachment hnone
    refine h.setSlot hslot rfl (fun hrs => absurd (.inl hrs) hother) ?_
    intro handle hget _ hcallKey
    rw [hhandle] at hget
    obtain rfl := Option.some.inj hget
    exact absurd (.inr hcallKey) hother
  · have hother : ¬(r = s ∨ call.key = key) := by
      intro hor
      rw [hfinds hor] at hnone
      exact Option.some_ne_none attachment hnone
    have hset : Shared timeoutMs s key attachment first
        ((w.setSlot r { slot with work := ⟨none, some w.tasks.length⟩ }).setPhase i
          (.awaiting r w.tasks.length)) := by
      refine h.setSlot hslot rfl (fun hrs => absurd (.inl hrs) hother) ?_
      intro handle hget _ hcallKey
      rw [hhandle] at hget
      obtain rfl := Option.some.inj hget
      exact absurd (.inr hcallKey) hother
    refine ⟨hset.held, ?_, hset.served⟩
    rw [List.countP_append, h.unstarted, List.countP_singleton,
      if_neg fun heq => hother (.inr (of_decide_eq_true heq))]
    rfl

theorem Shared.resume {r : ℕ} (h : Shared timeoutMs s key attachment first w) (hinv : Inv w)
    (hstep : w.resume i r t = some w') : Shared timeoutMs s key attachment first w' := by
  obtain ⟨call, slot, task, outcome, hhandle, hslot, -, -, rfl⟩ := resume_cases hstep
  obtain ⟨hkey, -, hacquisition⟩ := hinv.awaiting hhandle hslot
  -- A slot that holds an attachment awaits no task.
  have hother : r ≠ s := by
    intro hrs
    obtain ⟨found, hfound, -, hheld⟩ := h.held
    rw [← hrs, hslot] at hfound
    rw [← Option.some.inj hfound, hinv.worked.exclusive r slot t hslot hacquisition] at hheld
    exact absurd hheld (Option.some_ne_none attachment).symm
  refine h.setSlot hslot rfl (fun hrs => absurd hrs hother) ?_
  intro handle hget _ hcallKey
  rw [hhandle] at hget
  obtain rfl := Option.some.inj hget
  exact absurd (h.slot_eq hinv hslot (hkey.trans hcallKey)) hother

theorem Shared.step (h : Shared timeoutMs s key attachment first w) (hinv : Inv w)
    {action : Action} (hstep : w.step timeoutMs action = some w')
    (hreport : ∀ i r call, action = .check i r → w.callIn i (.locked r) = some call →
      call.key = key → call.expired ≠ some attachment.attachmentId) :
    Shared timeoutMs s key attachment first w' := by
  cases action with
  | call call =>
      obtain rfl := Option.some.inj hstep
      exact ⟨h.held, h.unstarted, h.served.append fun _ => by simp [Served]⟩
  | enter i => exact h.enter hinv hstep
  | lock i r => exact h.lock hinv hstep
  | check i r => exact h.check hinv hstep fun call => hreport i r call rfl
  | resume i r t => exact h.resume hinv hstep
  | timeout i | cancel i =>
      obtain ⟨handle, hhandle, ⟨r, hphase, rfl⟩ | ⟨r, t, slot, hphase, hslot, rfl⟩⟩ :=
        leave_cases hstep
      · exact ⟨h.held, h.unstarted, h.served.setPhase fun _ _ _ _ => by simp [Served]⟩
      · exact h.setSlot hslot rfl (fun _ => rfl) fun _ _ _ _ => by simp [Served]
  | settle t outcome =>
      obtain ⟨task, -, -, rfl⟩ := settle_cases hstep
      exact ⟨h.held, (countP_key_setTask _ _ _ _).trans h.unstarted, h.served⟩
  | finish t =>
      obtain ⟨task, outcome, -, -, rfl⟩ := finish_cases hstep
      exact ⟨h.held, (countP_key_setTask _ _ _ _).trans h.unstarted, h.served⟩
  | selectLocal =>
      obtain rfl := Option.some.inj hstep
      rcases selectLocal_cases w with heq | ⟨-, -, heq⟩
      · rw [heq]
        exact h
      · rw [heq]
        exact ⟨h.held, h.unstarted, h.served⟩

/-- No call up to the end of the run reports the attachment. -/
theorem Shared.run (h : Shared timeoutMs s key attachment first w) (hinv : Inv w)
    {actions : List Action} (hrun : run timeoutMs actions w = some w')
    (hreport : ∀ call ∈ w'.handles.map Handle.call, call.key = key →
      call.expired ≠ some attachment.attachmentId) :
    Shared timeoutMs s key attachment first w' := by
  induction actions generalizing w with
  | nil =>
      obtain rfl := Option.some.inj hrun
      exact h
  | cons action actions ih =>
      obtain ⟨next, hstep, hrest⟩ := Option.bind_eq_some_iff.mp hrun
      apply ih _ (hinv.step hstep) hrest
      apply h.step hinv hstep
      intro i r call _ hcall
      apply hreport call
      apply (calls_run hrun).subset
      exact List.mem_map.mpr ⟨_, List.mem_of_getElem? (callIn_eq_some.mp hcall), rfl⟩

/-- A step that gives a held attachment up is the check of a call that reports it. -/
theorem held_step {action : Action} (hinv : Inv w) (hstep : w.step timeoutMs action = some w')
    (hslot : w.works[s]? = some slot) (hheld : slot.work.held = some attachment) :
    (∃ slot', w'.works[s]? = some slot' ∧ slot'.key = slot.key ∧
      slot'.work.held = some attachment) ∨
    ∃ i call, action = .check i s ∧ w.callIn i (.locked s) = some call ∧
      call.key = slot.key ∧ call.expired = some attachment.attachmentId := by
  by_cases hreports : ∃ i call, action = .check i s ∧ w.callIn i (.locked s) = some call ∧
      call.key = slot.key ∧ call.expired = some attachment.attachmentId
  · exact .inr hreports
  · have hshared : Shared timeoutMs s slot.key attachment w w := shared_start hslot rfl hheld
    refine .inl (hshared.step hinv hstep ?_).held
    intro i r call haction hcall hkey hexpired
    obtain ⟨found, hfound, hfoundKey, -⟩ := hinv.placed i _ (callIn_eq_some.mp hcall)
    have hrs := hshared.slot_eq hinv hfound (hfoundKey.trans hkey)
    rw [hrs] at haction hcall
    exact hreports ⟨i, call, haction, hcall, hkey, hexpired⟩

end Shared

/-! ## The runtime -/

/-- What a runtime promises about its daemon attachments and the local fallback. -/
structure Exclusive (timeoutMs : ℕ) (w : World) : Prop where
  counted : w.state.negotiating = w.tasks.countP fun task => task.phase = .negotiating
  positive : ∀ t outcome w', w.settle t outcome = some w' → 0 < w.state.negotiating
  never_both : ¬(w.localSelected = true ∧ w.state.stricterOwnerSeen = true)
  closed : w.localSelected = true → ∀ actions w',
    run timeoutMs actions w = some w' → Closed w w'
  one_task : ∀ (t t' : ℕ) (task task' : AttachmentTask), w.tasks[t]? = some task →
    w.tasks[t']? = some task' → task.Unfinished → task'.Unfinished → task.key = task'.key → t = t'
  /-- The call that takes a success shares it with every call for the key. -/
  shared : ∀ (i s t : ℕ) (task : AttachmentTask) attachment w₀, w.resume i s t = some w₀ →
    w.tasks[t]? = some task → task.phase = .finished (.ok attachment) →
    w₀.callIn i (.returned (.ok attachment)) ≠ none ∧
      ∀ actions w', run timeoutMs actions w₀ = some w' →
        (∀ call ∈ w'.handles.map Handle.call, call.key = task.key →
          call.expired ≠ some attachment.attachmentId) →
        Shared timeoutMs s task.key attachment w₀ w'
  /-- A step gives a held attachment up only for a call that reports it; the state lists the slot
  until the selection. -/
  kept : ∀ (s : ℕ) (slot : AttachmentSlot) attachment, w.works[s]? = some slot →
    slot.work.held = some attachment →
    (w.localSelected = false → w.state.slots.lookup slot.key = some s) ∧
      ∀ action w', w.step timeoutMs action = some w' →
        (∃ slot', w'.works[s]? = some slot' ∧ slot'.key = slot.key ∧
          slot'.work.held = some attachment) ∨
        ∃ i call, action = .check i s ∧ w.callIn i (.locked s) = some call ∧
          call.key = slot.key ∧ call.expired = some attachment.attachmentId

/-- After the call that takes a success, the slot shares it. -/
theorem Inv.resume_shared {attachment : VaultAttachment} {w₀ : World} (h : Inv w)
    (hstep : w.resume i s t = some w₀) (htask : w.tasks[t]? = some task)
    (hphase : task.phase = .finished (.ok attachment)) :
    w₀.callIn i (.returned (.ok attachment)) ≠ none ∧
      Shared timeoutMs s task.key attachment w₀ w₀ := by
  obtain ⟨call, slot, found, outcome, hhandle, hslot, hfound, hfoundPhase, rfl⟩ :=
    resume_cases hstep
  obtain ⟨hkey, -, hacquisition⟩ := h.awaiting hhandle hslot
  rw [htask] at hfound
  obtain rfl := Option.some.inj hfound
  rw [hphase] at hfoundPhase
  obtain rfl : Except.ok attachment = outcome := TaskPhase.finished.inj hfoundPhase
  obtain ⟨acquired, hacquired, hacquiredKey⟩ := h.worked.acquired s slot t hslot hacquisition
  rw [htask] at hacquired
  rw [Option.some.inj hacquired, hacquiredKey]
  constructor
  · have hreturned : World.callIn (World.setPhase (World.setSlot w s
        { slot with owner := none, work := ⟨heldAfter slot.work (.ok attachment), none⟩ }) i
        (.returned (.ok attachment))) i (.returned (.ok attachment)) = some call := by
      rw [callIn_eq_some, getElem?_setPhase, if_pos rfl]
      exact congrArg _ hhandle
    rw [hreturned]
    exact Option.some_ne_none call
  · apply shared_start
    · exact (getElem?_setSlot hslot s).trans (if_pos rfl)
    · rfl
    · rfl

/-- The local fallback never replaces a stricter owner. -/
theorem fallback_exclusive {actions : List Action} (hrun : run timeoutMs actions {} = some w) :
    Exclusive timeoutMs w := by
  have hinv : Inv w := inv_start.run hrun
  constructor
  · exact hinv.counted
  · exact fun t outcome w' hstep => (hinv.settle hstep).2
  · intro hboth
    rw [(hinv.selected hboth.1).2] at hboth
    exact Bool.false_ne_true hboth.2
  · exact fun hselected actions w' hlater => (closed_start hselected).run hlater
  · exact fun t t' task task' htask htask' hunfinished hunfinished' hkey =>
      hinv.task_unique htask htask' hunfinished hunfinished' hkey
  · intro i s t task attachment w₀ hstep htask hphase
    obtain ⟨hreturned, hshared⟩ : _ ∧ Shared timeoutMs s task.key attachment w₀ w₀ :=
      hinv.resume_shared hstep htask hphase
    exact ⟨hreturned, fun actions w' hlater hreport =>
      hshared.run (hinv.resume hstep) hlater hreport⟩
  · intro s slot attachment hslot hheld
    refine ⟨?_, fun action w' hstep => held_step hinv hstep hslot hheld⟩
    intro hunselected
    apply (hinv.listed.lookup hunselected slot.key s).mpr
    rw [List.getElem?_map, hslot, Option.map_some]

/-- Two calls share the attachment of one task, and the fallback is selected after another has failed
for a second vault. -/
def twoVaults : List Action :=
  let first : Call := ⟨false, ([97], "s".toList, true), none⟩
  let second : Call := ⟨false, ([98], "s".toList, true), none⟩
  [.call first, .call first, .call second, .enter 0, .enter 1, .enter 2, .lock 0 0, .check 0 0,
    .timeout 0, .lock 1 0, .check 1 0, .lock 2 1, .check 2 1, .selectLocal,
    .settle 0 (.ok ⟨"i".toList, "s".toList⟩), .finish 0, .resume 1 0 0, .cancel 2,
    .settle 1 (.error alreadySelected), .selectLocal]

theorem twoVaults_exclusive : ∃ w, run 5 twoVaults {} = some w ∧ w.localSelected = true ∧
    Exclusive 5 w :=
  ⟨_, rfl, rfl, @fallback_exclusive _ 5 twoVaults rfl⟩

end ObsidianMcp.RuntimeAttachments
