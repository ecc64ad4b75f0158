import ObsidianMcp.Library.Table
import ObsidianMcp.Model.Path

/-! # Attachments of a runtime

The handlers of one runtime share their attachments to the daemon. The calls, the attachment tasks and
the selection of the local fallback take steps in any order. -/

namespace ObsidianMcp.RuntimeAttachments

/-- The root of a vault, its local scope and whether it is watched. -/
abbrev Key := OsString × Text × Bool

/-- What a daemon has granted. -/
structure VaultAttachment where
  attachmentId : Text
  scopeId : Text
  deriving DecidableEq

/-- What the lock of a slot guards. Tasks are named by their place in the order of their starts. -/
structure AttachmentWork where
  held : Option VaultAttachment := none
  acquisition : Option ℕ := none
  deriving DecidableEq

/-- A slot with the call that has locked it. Its key is for the history. -/
structure AttachmentSlot where
  key : Key
  owner : Option ℕ := none
  work : AttachmentWork := {}
  deriving DecidableEq

structure AttachmentState where
  slots : Table Key ℕ := ∅
  negotiating : ℕ := 0
  stricterOwnerSeen : Bool := false

/-- A task negotiates until it gives its guard up, and then it still has to finish. -/
inductive TaskPhase where
  | negotiating
  | released (outcome : Except VaultError VaultAttachment)
  | finished (outcome : Except VaultError VaultAttachment)
  deriving DecidableEq

structure AttachmentTask where
  key : Key
  phase : TaskPhase
  deriving DecidableEq

/-- The arguments of a call. -/
structure Call where
  remote : Bool
  key : Key
  expired : Option Text
  deriving DecidableEq

/-- How far a call has come. -/
inductive CallPhase where
  | started
  | queued (slot : ℕ)
  | locked (slot : ℕ)
  | awaiting (slot task : ℕ)
  | returned (result : Except VaultError VaultAttachment)
  | dropped
  deriving DecidableEq

structure Handle where
  call : Call
  phase : CallPhase
  deriving DecidableEq

structure World where
  localSelected : Bool := false
  state : AttachmentState := {}
  works : List AttachmentSlot := []
  tasks : List AttachmentTask := []
  handles : List Handle := []

def remoteVault : VaultError :=
  .invalidPath "SFTP vaults cannot attach to the local semantic daemon".toList

def alreadySelected : VaultError :=
  .daemonUnavailable "local fallback is already selected".toList

namespace World

variable (w : World)

def setPhase (i : ℕ) (phase : CallPhase) : World :=
  { w with handles := w.handles.modify i fun handle => { handle with phase := phase } }

def setSlot (s : ℕ) (slot : AttachmentSlot) : World :=
  { w with works := w.works.set s slot }

def setTask (t : ℕ) (phase : TaskPhase) : World :=
  { w with tasks := w.tasks.modify t fun task => { task with phase := phase } }

/-- A call arrives. -/
def call (call : Call) : World :=
  { w with handles := w.handles ++ [⟨call, .started⟩] }

/-- The call at an index, if it has come as far as asked. -/
def callIn (i : ℕ) (phase : CallPhase) : Option Call :=
  (w.handles[i]?.filter fun handle => handle.phase = phase).map Handle.call

/-! ## The sections of a call -/

/-- Up to the slot: the first look at the state. -/
def enter (i : ℕ) : Option World := do
  let call ← w.callIn i .started
  if call.remote then return w.setPhase i (.returned (.error remoteVault))
  else if w.localSelected then return w.setPhase i (.returned (.error alreadySelected))
  else
    match w.state.slots.lookup call.key with
    | some s => return w.setPhase i (.queued s)
    | none =>
        let s := w.works.length
        return { w.setPhase i (.queued s) with
          state := { w.state with slots := w.state.slots.insert call.key s }
          works := w.works ++ [{ key := call.key }] }

/-- The lock of the slot, when nobody has it. -/
def lock (i s : ℕ) : Option World := do
  let _ ← w.callIn i (.queued s)
  let slot ← w.works[s]?
  if slot.owner = none then
    return (w.setSlot s { slot with owner := some i }).setPhase i (.locked s)
  else none

/-- What the work of a slot has for a caller. -/
def heldFor (work : AttachmentWork) (expired : Option Text) : Option VaultAttachment :=
  work.held.filter fun attachment => expired ≠ some attachment.attachmentId

/-- The second look at the state, with the slot locked. A task that it starts is counted. -/
def check (i s : ℕ) : Option World := do
  let call ← w.callIn i (.locked s)
  let slot ← w.works[s]?
  if w.localSelected then
    return (w.setSlot s { slot with owner := none }).setPhase i (.returned (.error alreadySelected))
  else
    match heldFor slot.work call.expired with
    | some attachment =>
        return (w.setSlot s { slot with owner := none }).setPhase i (.returned (.ok attachment))
    | none =>
        match slot.work.acquisition with
        | some t =>
            return (w.setSlot s { slot with work := { slot.work with held := none } }).setPhase i
              (.awaiting s t)
        | none =>
            let t := w.tasks.length
            return { (w.setSlot s { slot with work := ⟨none, some t⟩ }).setPhase i (.awaiting s t) with
              state := { w.state with negotiating := w.state.negotiating + 1 }
              tasks := w.tasks ++ [⟨call.key, .negotiating⟩] }

/-- The task of the slot has finished; a success is held. -/
def resume (i s t : ℕ) : Option World := do
  let _ ← w.callIn i (.awaiting s t)
  let slot ← w.works[s]?
  let task ← w.tasks[t]?
  match task.phase with
  | .finished outcome =>
      let held :=
        match outcome with
        | .ok attachment => some attachment
        | .error _ => slot.work.held
      return (w.setSlot s { slot with owner := none, work := ⟨held, none⟩ }).setPhase i
        (.returned outcome)
  | _ => none

/-- A call that awaits something ends early and unlocks its slot. -/
def leave (i : ℕ) (phase : CallPhase) : Option World := do
  let handle ← w.handles[i]?
  match handle.phase with
  | .queued _ => return w.setPhase i phase
  | .awaiting s _ =>
      let slot ← w.works[s]?
      return (w.setSlot s { slot with owner := none }).setPhase i phase
  | _ => none

/-! ## The task -/

/-- The guard of a task is dropped with its outcome. -/
def settle (t : ℕ) (outcome : Except VaultError VaultAttachment) : Option World := do
  let task ← w.tasks[t]?
  if task.phase = .negotiating then
    let stricterScope :=
      match outcome with
      | .ok attachment => attachment.scopeId ≠ task.key.2.1
      | .error _ => false
    return { w.setTask t (.released outcome) with
      state := { w.state with
        stricterOwnerSeen := w.state.stricterOwnerSeen || stricterScope
        negotiating := w.state.negotiating - 1 } }
  else none

def finish (t : ℕ) : Option World := do
  let task ← w.tasks[t]?
  match task.phase with
  | .released outcome => return w.setTask t (.finished outcome)
  | _ => none

/-! ## The local fallback -/

def selectLocal : World × Bool :=
  if w.state.stricterOwnerSeen || 0 < w.state.negotiating then (w, false)
  else if w.localSelected then (w, true)
  else ({ w with localSelected := true, state := { w.state with slots := ∅ } }, true)

/-! ## Steps -/

inductive Action where
  | call (call : Call)
  | enter (i : ℕ)
  | lock (i s : ℕ)
  | check (i s : ℕ)
  | resume (i s t : ℕ)
  | timeout (i : ℕ)
  | cancel (i : ℕ)
  | settle (t : ℕ) (outcome : Except VaultError VaultAttachment)
  | finish (t : ℕ)
  | selectLocal

/-- One step; a call times out after some milliseconds. -/
def step (timeoutMs : ℕ) : Action → Option World
  | .call call => some (w.call call)
  | .enter i => w.enter i
  | .lock i s => w.lock i s
  | .check i s => w.check i s
  | .resume i s t => w.resume i s t
  | .timeout i => w.leave i (.returned (.error (.daemonTimeout "ensure_vault".toList timeoutMs)))
  | .cancel i => w.leave i .dropped
  | .settle t outcome => w.settle t outcome
  | .finish t => w.finish t
  | .selectLocal => some w.selectLocal.1

/-- The world after some steps. -/
def run (timeoutMs : ℕ) : List Action → World → Option World
  | [], w => some w
  | action :: actions, w => (w.step timeoutMs action).bind (run timeoutMs actions)

end World

end ObsidianMcp.RuntimeAttachments
