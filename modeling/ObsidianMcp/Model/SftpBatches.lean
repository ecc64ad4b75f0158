import ObsidianMcp.Model.SftpDirectories

/-! # Concurrent listings of a remote source

Up to eight directory jobs run at a time, and they end in any order. A stack is a list with its top
first, a set a list of its members. -/

namespace ObsidianMcp.Sftp

open Text

/-- A remote source under its canonical root. The view is the state in which the server answers the
job of a directory. -/
structure Remote (σ : Type) where
  server : Server σ
  canonical : Text
  view : Text → σ

variable {σ : Type} (remote : Remote σ)

def maxJobs : ℕ := 8

/-- Visit a directory of the source. A directory that has vanished has no entries, unless the
listing starts there. -/
def directoryJob {β : Type} (start directory : Text) (step : List β → Text → FileAttrs → List β) :
    Except VaultError (List β) :=
  match visitDirectory remote.server (absolute remote.canonical directory)
      (fun found name attrs => .ok (step found name attrs)) [] (remote.view directory) with
  | .ok found _ => .ok found
  | .error (.directoryNotFound path) _ =>
      if directory ≠ start then .ok [] else .error (.directoryNotFound path)
  | .error error _ => .error error

/-! ## Observing a batch of paths -/

/-- The names that are needed in each directory, and the requested paths. -/
structure Needed where
  children : Table Text (List Text) := ∅
  requested : List Text := []
  nameBytes : ℕ := 0

/-- Need a name in a directory; the second part is the path of the name. -/
def Needed.addName (state : Needed × Text) (name : Text) : Except VaultError (Needed × Text) :=
  let (needed, parent) := state
  let names := (needed.children.lookup parent).getD []
  if name ∈ names then .ok (needed, absolute parent name)
  else
    let nameBytes := needed.nameBytes + (byteLen parent + byteLen name)
    if maxReadBytes < nameBytes then
      .error (storageError "observe".toList [] .resourceLimit
        "batch path observation budget exceeded".toList)
    else
      .ok ({ needed with
        children := needed.children.insert parent (name :: names)
        nameBytes := nameBytes }, absolute parent name)

def Needed.addPath (needed : Needed) (path : OsString) : Except VaultError Needed := do
  let raw ← pathText path
  let normalized ← normalizeRemote path
  if normalized ≠ raw ∨ raw = [] then
    .error (.invalidPath "expected an exact observed remote key".toList)
  else do
    let (needed, _) ← (raw.splitOn '/').foldlM Needed.addName
      ({ needed with requested := needed.requested.insert raw }, [])
    return needed

def collectNeeded (paths : List OsString) : Except VaultError Needed :=
  paths.foldlM Needed.addPath {}

/-- What a job reports of an entry: the path, and whether it is a directory. -/
def observeHit (requested : List Text) (job : Text × List Text) (hits : List (Text × Bool))
    (name : Text) (attrs : FileAttrs) : List (Text × Bool) :=
  if name ∈ job.2 then
    match attrs.fileType with
    | some .directory => hits ++ [(absolute job.1 name, true)]
    | some .regularFile =>
        if absolute job.1 name ∈ requested then hits ++ [(absolute job.1 name, false)] else hits
    | _ => hits
  else hits

def observeJob (requested : List Text) (job : Text × List Text) :
    Except VaultError (List (Text × Bool)) :=
  directoryJob remote [] job.1 (observeHit requested job)

structure ObserveState where
  pending : List Text
  children : Table Text (List Text)
  jobs : List (Text × List Text)
  observed : List Text

def ObserveState.init (needed : Needed) : ObserveState :=
  ⟨[[]], needed.children, [], []⟩

/-- Start jobs for the pending directories while there is room. -/
def ObserveState.fillFrom (observed : List Text) :
    List Text → Table Text (List Text) → List (Text × List Text) → ObserveState
  | [], children, jobs => ⟨[], children, jobs, observed⟩
  | directory :: pending, children, jobs =>
      if maxJobs ≤ jobs.length then ⟨directory :: pending, children, jobs, observed⟩
      else
        match children.lookup directory with
        | none => fillFrom observed pending children jobs
        | some names =>
            fillFrom observed pending (children.erase directory) (jobs ++ [(directory, names)])

def ObserveState.fill (state : ObserveState) : ObserveState :=
  fillFrom state.observed state.pending state.children state.jobs

def ObserveState.receiveHit (state : ObserveState) (hit : Text × Bool) : ObserveState :=
  if hit.2 then { state with pending := hit.1 :: state.pending }
  else { state with observed := state.observed.insert hit.1 }

/-- Go on with the jobs that are left and the report of the job that has ended. -/
def ObserveState.receive (state : ObserveState) (jobs : List (Text × List Text))
    (hits : List (Text × Bool)) : ObserveState :=
  hits.foldl receiveHit { state with jobs := jobs }

/-- The states of the loop after the jobs of some directories have ended, in any order. The loop
goes on while a job is running. -/
inductive Observes (requested : List Text) (init : ObserveState) :
    List Text → ObserveState → Prop where
  | start : Observes requested init [] init
  | join {finished : List Text} {state : ObserveState} {job : Text × List Text}
      {before after : List (Text × List Text)} {hits : List (Text × Bool)}
      (h : Observes requested init finished state)
      (hjobs : state.fill.jobs = before ++ job :: after)
      (hjob : observeJob remote requested job = .ok hits) :
      Observes requested init (job.1 :: finished) (state.fill.receive (before ++ after) hits)

/-- The results of the observation of a batch: the requested and the observed paths. -/
inductive ObserveBatch (opening : σ) (paths : List OsString) :
    Except VaultError (List Text × List Text) → Prop where
  | moved {error : VaultError} {t : σ}
      (h : checkRoot remote.server "observe".toList remote.canonical opening = .error error t) :
      ObserveBatch opening paths (.error error)
  | refused {error : VaultError} {t : σ}
      (hroot : checkRoot remote.server "observe".toList remote.canonical opening = .ok () t)
      (h : collectNeeded paths = .error error) : ObserveBatch opening paths (.error error)
  | failed {needed : Needed} {finished : List Text} {state : ObserveState}
      {job : Text × List Text} {error : VaultError} {t : σ}
      (hroot : checkRoot remote.server "observe".toList remote.canonical opening = .ok () t)
      (hneeded : collectNeeded paths = .ok needed)
      (h : Observes remote needed.requested (.init needed) finished state)
      (hjob : job ∈ state.fill.jobs) (herror : observeJob remote needed.requested job = .error error) :
      ObserveBatch opening paths (.error error)
  | ended {needed : Needed} {finished : List Text} {state : ObserveState} {t : σ}
      (hroot : checkRoot remote.server "observe".toList remote.canonical opening = .ok () t)
      (hneeded : collectNeeded paths = .ok needed)
      (h : Observes remote needed.requested (.init needed) finished state)
      (hend : state.fill.jobs = []) :
      ObserveBatch opening paths (.ok (needed.requested, state.observed))

/-! ## Walking through the directories -/

/-- Gather the visible entries of a directory. -/
def walkHit (directory : Text) (found : List (Text × FileAttrs)) (name : Text)
    (attrs : FileAttrs) : List (Text × FileAttrs) :=
  if name.head? = some '.' then found else found ++ [(absolute directory name, attrs)]

def walkJob (start directory : Text) : Except VaultError (List (Text × FileAttrs)) :=
  directoryJob remote start directory (walkHit directory)

structure WalkState where
  pending : List Text
  jobs : List Text := []
  entries : List (Text × FileAttrs) := []
  nameBytes : ℕ := 0

/-- Start jobs for the pending directories while there is room. -/
def WalkState.fill (state : WalkState) : WalkState :=
  { state with
    pending := state.pending.drop (maxJobs - state.jobs.length)
    jobs := state.jobs ++ state.pending.take (maxJobs - state.jobs.length) }

def WalkState.receiveEntry (recursive : Bool) (state : WalkState) (entry : Text × FileAttrs) :
    Except VaultError WalkState :=
  let nameBytes := state.nameBytes + byteLen entry.1
  if maxEntries ≤ state.entries.length ∨ maxReadBytes < nameBytes then
    .error (storageError "list".toList [] .resourceLimit
      "source directory entry budget exceeded".toList)
  else
    .ok { state with
      pending :=
        if recursive ∧ entry.2.fileType = some .directory then entry.1 :: state.pending
        else state.pending
      entries := state.entries ++ [entry]
      nameBytes := nameBytes }

def WalkState.receive (recursive : Bool) (state : WalkState) (jobs : List Text)
    (found : List (Text × FileAttrs)) : Except VaultError WalkState :=
  found.foldlM (receiveEntry recursive) { state with jobs := jobs }

/-- The states of a walk after the jobs of some directories have ended, in any order. The walk goes
on while a job is running. -/
inductive Walks (start : Text) (recursive : Bool) : List Text → WalkState → Prop where
  | start : Walks start recursive [] { pending := [start] }
  | join {finished before after : List Text} {state next : WalkState} {directory : Text}
      {found : List (Text × FileAttrs)} (h : Walks start recursive finished state)
      (hjobs : state.fill.jobs = before ++ directory :: after)
      (hjob : walkJob remote start directory = .ok found)
      (hnext : state.fill.receive recursive (before ++ after) found = .ok next) :
      Walks start recursive (directory :: finished) next

/-- The results of a walk. -/
inductive WalkDirectories (start : Text) (recursive : Bool) :
    Except VaultError (List (Text × FileAttrs)) → Prop where
  | failed {finished : List Text} {state : WalkState} {directory : Text} {error : VaultError}
      (h : Walks remote start recursive finished state) (hjob : directory ∈ state.fill.jobs)
      (herror : walkJob remote start directory = .error error) :
      WalkDirectories start recursive (.error error)
  | exceeded {finished before after : List Text} {state : WalkState} {directory : Text}
      {found : List (Text × FileAttrs)} {error : VaultError}
      (h : Walks remote start recursive finished state)
      (hjobs : state.fill.jobs = before ++ directory :: after)
      (hjob : walkJob remote start directory = .ok found)
      (herror : state.fill.receive recursive (before ++ after) found = .error error) :
      WalkDirectories start recursive (.error error)
  | ended {finished : List Text} {state : WalkState}
      (h : Walks remote start recursive finished state) (hend : state.fill.jobs = []) :
      WalkDirectories start recursive (.ok state.entries)

end ObsidianMcp.Sftp
