import ObsidianMcp.Library.Results
import ObsidianMcp.Library.Worklist
import ObsidianMcp.Model.SftpBatches
import ObsidianMcp.Verification.Sftp.Confinement

/-! # Observing a batch of paths -/

namespace ObsidianMcp.Sftp

open Text

variable {σ β : Type} {remote : Remote σ}

/-! ## The remote tree -/

/-- The entries of a directory of the source; none where it cannot be listed. -/
def entriesOf (remote : Remote σ) (directory : Text) : List (Text × FileAttrs) :=
  match listDirectory remote.server (absolute remote.canonical directory)
      (remote.view directory) with
  | .ok found _ => found
  | .error _ _ => []

def ListedAs (remote : Remote σ) (kind : FileType) (directory name : Text) : Prop :=
  ∃ attrs, (name, attrs) ∈ entriesOf remote directory ∧ attrs.fileType = some kind

theorem wellListed_entriesOf (remote : Remote σ) (directory : Text) :
    WellListed [] (entriesOf remote directory) := by
  rw [entriesOf]
  cases h : listDirectory remote.server (absolute remote.canonical directory)
      (remote.view directory) with
  | ok found t => exact (listDirectory_ok.mp h).wellListed
  | error error t => constructor <;> simp

theorem directoryJob_of_list {start directory : Text} {step : List β → Text → FileAttrs → List β}
    {listing : List (Text × FileAttrs)} {t : σ}
    (h : listDirectory remote.server (absolute remote.canonical directory)
      (remote.view directory) = .ok listing t) :
    directoryJob remote start directory step =
      .ok (listing.foldl (fun found entry => step found entry.1 entry.2) []) := by
  rw [directoryJob, visitDirectory_ok.mpr
    ⟨listing, listDirectory_ok.mp h, @visitAll_total _ step listing []⟩]

/-- A job that succeeds has seen the entries of its directory. -/
theorem directoryJob_ok {start directory : Text} {step : List β → Text → FileAttrs → List β}
    {found : List β} (h : directoryJob remote start directory step = .ok found) :
    found = (entriesOf remote directory).foldl (fun found entry => step found entry.1 entry.2) [] := by
  rw [entriesOf]
  cases hlist : listDirectory remote.server (absolute remote.canonical directory)
      (remote.view directory) with
  | ok listing t =>
      rw [directoryJob_of_list hlist] at h
      exact (Except.ok.inj h).symm
  | error error t =>
      rw [directoryJob] at h
      split at h
      · rename_i visited u hvisit
        obtain ⟨listing, hlisted, -⟩ := visitDirectory_ok.mp hvisit
        rw [listDirectory_ok.mpr hlisted] at hlist
        contradiction
      · split_ifs at h
        exact (Except.ok.inj h).symm
      · contradiction

/-! ## Joining names -/

/-- The path of some names below the root. -/
def joined (names : List Text) : Text :=
  List.intercalate ['/'] names

/-- Names that may be joined and split again. -/
def Names (names : List Text) : Prop :=
  ∀ name ∈ names, name ≠ [] ∧ '/' ∉ name

theorem splitOn_joined {names : List Text} (h : Names names) (hne : names ≠ []) :
    (joined names).splitOn '/' = names :=
  List.splitOn_intercalate '/' (fun name hname => (h name hname).2) hne

theorem joined_ne_nil {names : List Text} (h : Names names) (hne : names ≠ []) :
    joined names ≠ [] := by
  intro hnil
  have hsplit := splitOn_joined h hne
  rw [hnil, List.splitOn_nil] at hsplit
  exact (h [] (hsplit ▸ List.mem_singleton_self _)).1 rfl

theorem getLast?_joined {names : List Text} (h : Names names) :
    (joined names).getLast? ≠ some '/' := by
  intro hlast
  obtain ⟨front, hfront⟩ := List.getLast?_eq_some_iff.mp hlast
  by_cases hne : names = []
  · simp [hne, joined] at hfront
  · have hsplit := splitOn_joined h hne
    rw [hfront, Unix.splitOn_append_sep, List.splitOn_nil] at hsplit
    exact (h [] (hsplit ▸ by simp)).1 rfl

theorem absolute_joined {names : List Text} {name : Text} (h : Names (names ++ [name])) :
    absolute (joined names) name = joined (names ++ [name]) := by
  have hname := h name (by simp)
  have hnames : Names names := fun other hother => h other (List.mem_append_left _ hother)
  rw [absolute, if_neg hname.1]
  by_cases hne : names = []
  · subst hne
    simp [joined]
  · rw [if_neg (joined_ne_nil hnames hne), trimEnd_eq_self (getLast?_joined hnames), joined, joined,
      intercalate_append hne (by simp)]
    simp

/-! ## What is needed -/

/-- The names that are needed in a directory. -/
def Needed.namesIn (needed : Needed) (directory : Text) : List Text :=
  (needed.children.lookup directory).getD []

/-- Every directory that is needed has names. -/
def Needed.Inhabited (needed : Needed) : Prop :=
  ∀ directory names, needed.children.lookup directory = some names → names ≠ []

theorem addName_ok {needed next : Needed} {parent parent' name : Text}
    (h : Needed.addName (needed, parent) name = .ok (next, parent')) :
    parent' = absolute parent name ∧ next.requested = needed.requested ∧
      (needed.Inhabited → next.Inhabited) ∧
      ∀ directory other, other ∈ next.namesIn directory ↔
        other ∈ needed.namesIn directory ∨ directory = parent ∧ other = name := by
  rw [Needed.addName] at h
  simp only at h
  split_ifs at h with hmem hbudget
  · obtain ⟨rfl, rfl⟩ : needed = next ∧ absolute parent name = parent' := by simpa using h
    refine ⟨rfl, rfl, id, fun directory other => ⟨.inl, ?_⟩⟩
    rintro (hother | ⟨rfl, rfl⟩)
    · exact hother
    · exact hmem
  · obtain ⟨rfl, rfl⟩ : _ = next ∧ absolute parent name = parent' := by simpa using h
    refine ⟨rfl, rfl, fun hinhabited directory names hlookup => ?_, fun directory other => ?_⟩
    · by_cases hdirectory : directory = parent
      · rw [hdirectory, AList.lookup_insert, Option.some.injEq] at hlookup
        simp [← hlookup]
      · rw [AList.lookup_insert_ne hdirectory] at hlookup
        exact hinhabited directory names hlookup
    · by_cases hdirectory : directory = parent
      · rw [hdirectory, Needed.namesIn, AList.lookup_insert]
        simp [Needed.namesIn, or_comm]
      · rw [Needed.namesIn, AList.lookup_insert_ne hdirectory]
        simp [Needed.namesIn, hdirectory]

/-- Adding the names of a path needs each of them in the path before it. -/
theorem addNames_ok {needed next : Needed} {front names : List Text} {last : Text}
    (hnames : Names (front ++ names))
    (h : names.foldlM Needed.addName (needed, joined front) = .ok (next, last)) :
    next.requested = needed.requested ∧ (needed.Inhabited → next.Inhabited) ∧
      ∀ directory other, other ∈ next.namesIn directory ↔ other ∈ needed.namesIn directory ∨
        ∃ before after, names = before ++ other :: after ∧ directory = joined (front ++ before) := by
  induction names generalizing needed front with
  | nil =>
      obtain ⟨rfl, -⟩ : needed = next ∧ joined front = last := by
        simpa [pure, Except.pure] using h
      refine ⟨rfl, id, fun directory other => ⟨.inl, ?_⟩⟩
      rintro (hother | ⟨before, after, heq, -⟩)
      · exact hother
      · simp at heq
  | cons name names ih =>
      rw [List.foldlM_cons, bind_ok_iff] at h
      obtain ⟨⟨middle, parent⟩, hname, hrest⟩ := h
      obtain ⟨rfl, hrequested, hinhabited, hin⟩ := addName_ok hname
      have hassoc : front ++ name :: names = (front ++ [name]) ++ names := by simp
      rw [hassoc] at hnames
      rw [absolute_joined fun other hother => hnames other (List.mem_append_left _ hother)] at hrest
      obtain ⟨hrequested', hinhabited', hin'⟩ := ih hnames hrest
      refine ⟨hrequested'.trans hrequested, hinhabited' ∘ hinhabited, fun directory other => ?_⟩
      rw [hin', hin]
      constructor
      · rintro ((hother | ⟨rfl, rfl⟩) | ⟨before, after, rfl, rfl⟩)
        · exact .inl hother
        · exact .inr ⟨[], names, rfl, by simp⟩
        · exact .inr ⟨name :: before, after, rfl, by simp⟩
      · rintro (hother | ⟨before, after, heq, rfl⟩)
        · exact .inl (.inl hother)
        · cases before with
          | nil =>
              obtain ⟨rfl, rfl⟩ : name = other ∧ names = after := by simpa using heq
              exact .inl (.inr ⟨by simp, rfl⟩)
          | cons first before =>
              obtain ⟨rfl, rfl⟩ : name = first ∧ names = before ++ other :: after := by
                simpa using heq
              exact .inr ⟨before, after, rfl, by simp⟩

/-- An accepted path is the text of its names. -/
theorem addPath_ok {needed next : Needed} {path : OsString}
    (h : Needed.addPath needed path = .ok next) :
    ∃ text last, path = utf8Bytes text ∧ Names (text.splitOn '/') ∧
      (text.splitOn '/').foldlM Needed.addName
        ({ needed with requested := needed.requested.insert text }, joined []) =
          .ok (next, last) := by
  rw [Needed.addPath, bind_ok_iff] at h
  obtain ⟨raw, hraw, h⟩ := h
  rw [bind_ok_iff] at h
  obtain ⟨normalized, hnormalized, h⟩ := h
  split_ifs at h with hexact
  rw [bind_ok_iff] at h
  obtain ⟨⟨result, last⟩, hfold, h⟩ := h
  obtain rfl : result = next := by simpa [pure, Except.pure] using h
  rw [not_or, not_not] at hexact
  obtain ⟨rfl, hne⟩ := hexact
  have htext : path.toStr = some normalized := by
    rw [pathText] at hraw
    cases htext : path.toStr with
    | none => simp [htext] at hraw
    | some text => simpa [htext] using hraw
  rw [normalizeRemote, bind_ok_iff] at hnormalized
  obtain ⟨text, htext', hparse⟩ := hnormalized
  obtain rfl : normalized = text := by
    rw [hraw] at htext'
    exact Except.ok.inj htext'
  rw [bind_ok_iff] at hparse
  obtain ⟨parsed, hparse, hparsed⟩ := hparse
  obtain ⟨-, -, names, hsteps, rfl⟩ := parse_eq_ok.mp hparse
  obtain rfl : List.intercalate ['/'] names = normalized := by
    simpa [pure, Except.pure] using hparsed
  have hportable := portableNames_of_steps hsteps
  have hnames : Names names := fun name hname =>
    ⟨(hportable name hname).ne_nil, (hportable name hname).slash⟩
  have hnil : names ≠ [] := by
    rintro rfl
    exact hne rfl
  refine ⟨List.intercalate ['/'] names, last, fromUtf8_eq_some.mp htext, ?_, hfold⟩
  rw [← joined, splitOn_joined hnames hnil]
  exact hnames

/-- What the requested paths need. -/
structure NeededFor (needed : Needed) (paths : List OsString) : Prop where
  requested : ∀ text, text ∈ needed.requested ↔ utf8Bytes text ∈ paths
  normal : ∀ text ∈ needed.requested, Names (text.splitOn '/')
  names : ∀ directory name, name ∈ needed.namesIn directory ↔ ∃ text ∈ needed.requested,
    ∃ before after, text.splitOn '/' = before ++ name :: after ∧ directory = joined before
  inhabited : needed.Inhabited

theorem utf8Bytes_injective {s t : Text} (h : utf8Bytes s = utf8Bytes t) : s = t := by
  have hdecoded := congrArg fromUtf8 h
  simpa using hdecoded

theorem NeededFor.addPath {needed next : Needed} {paths : List OsString} {path : OsString}
    (h : NeededFor needed paths) (hpath : Needed.addPath needed path = .ok next) :
    NeededFor next (paths ++ [path]) := by
  obtain ⟨text, last, rfl, hnames, hfold⟩ := addPath_ok hpath
  obtain ⟨hrequested, hinhabited, hin⟩ := @addNames_ok _ _ [] _ _ hnames hfold
  have hmem : ∀ other, other ∈ next.requested ↔ other = text ∨ other ∈ needed.requested := by
    intro other
    rw [hrequested]
    exact List.mem_insert_iff
  refine ⟨fun other => ?_, fun other hother => ?_, fun directory name => ?_,
    hinhabited h.inhabited⟩
  · rw [hmem, h.requested, List.mem_append, List.mem_singleton, or_comm]
    exact or_congr_right ⟨fun heq => heq ▸ rfl, utf8Bytes_injective⟩
  · obtain rfl | hother := (hmem other).mp hother
    · exact hnames
    · exact h.normal other hother
  · rw [hin]
    constructor
    · rintro (hname | ⟨before, after, heq, rfl⟩)
      · obtain ⟨other, hother, hsplit⟩ := (h.names directory name).mp hname
        exact ⟨other, (hmem other).mpr (.inr hother), hsplit⟩
      · exact ⟨text, (hmem text).mpr (.inl rfl), before, after, heq, rfl⟩
    · rintro ⟨other, hother, before, after, heq, rfl⟩
      obtain rfl | hother := (hmem other).mp hother
      · exact .inr ⟨before, after, heq, rfl⟩
      · exact .inl ((h.names _ name).mpr ⟨other, hother, before, after, heq, rfl⟩)

theorem neededFor_collected {paths : List OsString} {needed : Needed}
    (h : collectNeeded paths = .ok needed) : NeededFor needed paths := by
  have hall : ∀ (rest seen : List OsString) (first : Needed), NeededFor first seen →
      rest.foldlM Needed.addPath first = .ok needed → NeededFor needed (seen ++ rest) := by
    intro rest
    induction rest with
    | nil =>
        intro seen first hfirst hfold
        obtain rfl : first = needed := by simpa [pure, Except.pure] using hfold
        simpa using hfirst
    | cons path rest ih =>
        intro seen first hfirst hfold
        rw [List.foldlM_cons, bind_ok_iff] at hfold
        obtain ⟨next, hpath, hrest⟩ := hfold
        have happend := ih (seen ++ [path]) next (hfirst.addPath hpath) hrest
        simpa using happend
  refine hall paths [] {} ⟨?_, ?_, ?_, ?_⟩ h
  · simp
  · simp
  · simp [Needed.namesIn]
  · intro directory names hlookup
    simp at hlookup

/-! ## Jobs -/

variable {requested : List Text} {needed : Needed}

/-- What the job of a directory reports. -/
def hitsOf (remote : Remote σ) (requested : List Text) (job : Text × List Text) :
    List (Text × Bool) :=
  (entriesOf remote job.1).foldl
    (fun hits entry => observeHit requested job hits entry.1 entry.2) []

/-- A report of an entry. -/
inductive Reports (requested : List Text) (job : Text × List Text) (entry : Text × FileAttrs) :
    Text × Bool → Prop where
  | directory (hname : entry.1 ∈ job.2) (htype : entry.2.fileType = some .directory) :
      Reports requested job entry (absolute job.1 entry.1, true)
  | file (hname : entry.1 ∈ job.2) (htype : entry.2.fileType = some .regularFile)
      (hrequested : absolute job.1 entry.1 ∈ requested) :
      Reports requested job entry (absolute job.1 entry.1, false)

theorem reports_iff {job : Text × List Text} {entry : Text × FileAttrs} {hit : Text × Bool} :
    Reports requested job entry hit ↔ entry.1 ∈ job.2 ∧
      (entry.2.fileType = some .directory ∧ hit = (absolute job.1 entry.1, true) ∨
        entry.2.fileType = some .regularFile ∧ absolute job.1 entry.1 ∈ requested ∧
          hit = (absolute job.1 entry.1, false)) := by
  constructor
  · rintro (⟨hname, htype⟩ | ⟨hname, htype, hrequested⟩)
    · exact ⟨hname, .inl ⟨htype, rfl⟩⟩
    · exact ⟨hname, .inr ⟨htype, hrequested, rfl⟩⟩
  · rintro ⟨hname, ⟨htype, rfl⟩ | ⟨htype, hrequested, rfl⟩⟩
    · exact .directory hname htype
    · exact .file hname htype hrequested

theorem mem_observeHit {job : Text × List Text} {hits : List (Text × Bool)}
    {entry : Text × FileAttrs} {hit : Text × Bool} :
    hit ∈ observeHit requested job hits entry.1 entry.2 ↔
      hit ∈ hits ∨ Reports requested job entry hit := by
  rw [reports_iff, observeHit]
  by_cases hname : entry.1 ∈ job.2
  · cases htype : entry.2.fileType with
    | none => simp [hname]
    | some kind =>
        cases kind with
        | directory => simp [hname]
        | regularFile =>
            by_cases hrequested : absolute job.1 entry.1 ∈ requested
            · simp [hname, hrequested]
            · simp [hname, hrequested]
        | _ => simp [hname]
  · simp [hname]

theorem mem_hitsOf {job : Text × List Text} {hit : Text × Bool} :
    hit ∈ hitsOf remote requested job ↔
      ∃ entry ∈ entriesOf remote job.1, Reports requested job entry hit := by
  have hall : ∀ (entries : List (Text × FileAttrs)) (hits : List (Text × Bool)),
      hit ∈ entries.foldl (fun hits entry => observeHit requested job hits entry.1 entry.2) hits ↔
        hit ∈ hits ∨ ∃ entry ∈ entries, Reports requested job entry hit := by
    intro entries
    induction entries with
    | nil => simp
    | cons entry entries ih =>
        intro hits
        rw [List.foldl_cons, ih, mem_observeHit]
        simp [or_assoc]
  rw [hitsOf, hall]
  simp

/-! ## The loop -/

/-- The directories that a directory's job finds. -/
def foundDirectories (remote : Remote σ) (needed : Needed) (directory : Text) : List Text :=
  ((hitsOf remote needed.requested (directory, needed.namesIn directory)).filter
    fun hit => hit.2).map Prod.fst

def IsNeeded (needed : Needed) (directory : Text) : Prop :=
  (needed.children.lookup directory).isSome

/-- A state of the loop beside a state of a worklist. -/
structure Simulates (remote : Remote σ) (needed : Needed) (finished : List Text)
    (state : ObserveState) : Prop where
  reached : Worklist.Reached (foundDirectories remote needed) (IsNeeded needed) []
    ⟨state.pending, state.jobs.map Prod.fst, finished⟩
  children : ∀ directory, state.children.lookup directory =
    if directory ∈ state.jobs.map Prod.fst ++ finished then none
    else needed.children.lookup directory
  jobs : ∀ job ∈ state.jobs, needed.children.lookup job.1 = some job.2
  observed : ∀ text, text ∈ state.observed ↔ ∃ directory ∈ finished,
    (text, false) ∈ hitsOf remote needed.requested (directory, needed.namesIn directory)

theorem simulates_init : Simulates remote needed [] (.init needed) where
  reached := .start rfl
  children := by simp [ObserveState.init]
  jobs := by simp [ObserveState.init]
  observed := by simp [ObserveState.init]

theorem Simulates.fillFrom {finished observed pending : List Text}
    {children : Table Text (List Text)} {jobs : List (Text × List Text)}
    (h : Simulates remote needed finished ⟨pending, children, jobs, observed⟩) :
    Simulates remote needed finished (ObserveState.fillFrom observed pending children jobs) := by
  induction pending generalizing children jobs with
  | nil => exact h
  | cons directory pending ih =>
      rw [ObserveState.fillFrom]
      split_ifs with hroom
      · exact h
      · cases hlookup : children.lookup directory with
        | none =>
            apply ih
            refine ⟨h.reached.next (.skip ?_), h.children, h.jobs, h.observed⟩
            have hchildren := h.children directory
            simp only [hlookup] at hchildren
            split_ifs at hchildren with htaken
            · exact .inr (List.mem_append.mp htaken)
            · exact .inl (by simp [IsNeeded, ← hchildren])
        | some names =>
            have hchildren := h.children directory
            simp only [hlookup] at hchildren
            split_ifs at hchildren with htaken
            rw [List.mem_append, not_or] at htaken
            apply ih
            refine ⟨?_, fun other => ?_, fun job hjob => ?_, h.observed⟩
            · have hstart := h.reached.next
                (.start (by simp [IsNeeded, ← hchildren]) htaken.1 htaken.2)
              simpa using hstart
            · by_cases heq : other = directory
              · subst heq
                rw [AList.lookup_erase, if_pos (by simp)]
              · have hmem : other ∈ (jobs ++ [(directory, names)]).map Prod.fst ++ finished ↔
                    other ∈ jobs.map Prod.fst ++ finished := by
                  simp [heq]
                rw [AList.lookup_erase_ne heq, h.children other]
                simp only [hmem]
            · obtain hjob | hjob := List.mem_append.mp hjob
              · exact h.jobs job hjob
              · rw [List.mem_singleton.mp hjob]
                exact hchildren.symm

theorem Simulates.fill {finished : List Text} {state : ObserveState}
    (h : Simulates remote needed finished state) : Simulates remote needed finished state.fill :=
  h.fillFrom

/-- After the jobs have been started, no directory is pending unless a job is running. -/
theorem pending_fill {state : ObserveState} (h : state.fill.jobs = []) :
    state.fill.pending = [] := by
  have hall : ∀ (observed pending : List Text) (children : Table Text (List Text))
      (jobs : List (Text × List Text)),
      (ObserveState.fillFrom observed pending children jobs).jobs = [] →
        (ObserveState.fillFrom observed pending children jobs).pending = [] := by
    intro observed pending
    induction pending with
    | nil => exact fun _ _ _ => rfl
    | cons directory pending ih =>
        intro children jobs hjobs
        rw [ObserveState.fillFrom] at hjobs ⊢
        split_ifs at hjobs ⊢ with hroom
        · simp only at hjobs
          simp [hjobs, maxJobs] at hroom
        · cases hlookup : children.lookup directory with
          | none => exact ih _ _ (by simpa [hlookup] using hjobs)
          | some names => exact ih _ _ (by simpa [hlookup] using hjobs)
  exact hall _ _ _ _ h

theorem receive_eq (state : ObserveState) (jobs : List (Text × List Text))
    (hits : List (Text × Bool)) :
    (state.receive jobs hits).pending =
        ((hits.filter fun hit => hit.2).map Prod.fst).reverse ++ state.pending ∧
      (state.receive jobs hits).children = state.children ∧
      (state.receive jobs hits).jobs = jobs ∧
      ∀ text, text ∈ (state.receive jobs hits).observed ↔
        text ∈ state.observed ∨ (text, false) ∈ hits := by
  induction hits using List.reverseRecOn with
  | nil => simp [ObserveState.receive]
  | append_singleton hits hit ih =>
      obtain ⟨hpending, hchildren, hjobs, hobserved⟩ := ih
      have hlast : state.receive jobs (hits ++ [hit]) = (state.receive jobs hits).receiveHit hit := by
        simp [ObserveState.receive]
      rw [hlast]
      obtain ⟨path, directory⟩ := hit
      cases directory with
      | true =>
          refine ⟨?_, hchildren, hjobs, fun text => ?_⟩
          · simp [ObserveState.receiveHit, hpending]
          · simp [ObserveState.receiveHit, hobserved]
      | false =>
          refine ⟨?_, hchildren, hjobs, fun text => ?_⟩
          · simp [ObserveState.receiveHit, hpending]
          · simp only [ObserveState.receiveHit, List.mem_append, List.mem_singleton, Prod.mk.injEq, and_true, Bool.false_eq_true, if_false,
              List.mem_insert_iff, hobserved]
            tauto

theorem Observes.simulates {state : ObserveState} {finished : List Text}
    (h : Observes remote needed.requested (.init needed) finished state) :
    Simulates remote needed finished state := by
  induction h with
  | start => exact simulates_init
  | @join finished state job before after hits h hjobs hjob ih =>
      have hfill := ih.fill
      obtain ⟨hpending, hchildren, hjobs', hobserved⟩ :=
        receive_eq state.fill (before ++ after) hits
      have hnames : needed.namesIn job.1 = job.2 := by
        rw [Needed.namesIn, hfill.jobs job (hjobs ▸ by simp)]
        rfl
      have hhits : hits = hitsOf remote needed.requested job := directoryJob_ok hjob
      refine ⟨?_, fun directory => ?_, fun other hother => ?_, fun text => ?_⟩
      · have hreached := hfill.reached
        rw [hjobs, List.map_append, List.map_cons] at hreached
        have hnext := hreached.next .finish
        rw [hpending, hjobs', List.map_append, hhits]
        rw [foundDirectories, hnames] at hnext
        exact hnext
      · rw [hchildren, hjobs', hfill.children, hjobs]
        simp only [List.map_append, List.map_cons, List.mem_append, List.mem_cons]
        congr 1
        simp only [eq_iff_iff]
        tauto
      · rw [hjobs'] at hother
        refine hfill.jobs other (hjobs ▸ ?_)
        simp only [List.mem_append, List.mem_cons] at hother ⊢
        tauto
      · rw [hobserved, hfill.observed, List.exists_mem_cons_iff, hnames, ← hhits, or_comm]

/-! ## What is observed -/

/-- The directories above a path are listed as directories, one in the other, and the path itself is
listed as a regular file. -/
structure Observable (remote : Remote σ) (text : Text) : Prop where
  ancestors : ∀ front name rest, text.splitOn '/' = front ++ name :: rest → rest ≠ [] →
    ListedAs remote .directory (joined front) name
  file : ∀ front name, text.splitOn '/' = front ++ [name] →
    ListedAs remote .regularFile (joined front) name

theorem joined_injective {front names : List Text} (hfront : Names front) (hnames : Names names)
    (h : joined front = joined names) : front = names := by
  by_cases hf : front = []
  · by_cases hn : names = []
    · rw [hf, hn]
    · subst hf
      exact absurd h.symm (joined_ne_nil hnames hn)
  · by_cases hn : names = []
    · subst hn
      exact absurd h (joined_ne_nil hfront hf)
    · rw [← splitOn_joined hfront hf, h, splitOn_joined hnames hn]

theorem isNeeded_iff (h : needed.Inhabited) (directory : Text) :
    IsNeeded needed directory ↔ ∃ name, name ∈ needed.namesIn directory := by
  rw [IsNeeded, Needed.namesIn]
  cases hlookup : needed.children.lookup directory with
  | none => simp
  | some names => simpa using List.exists_mem_of_ne_nil names (h directory names hlookup)

/-- What a directory's job finds are its needed entries that are directories. -/
theorem mem_foundDirectories {directory path : Text} :
    path ∈ foundDirectories remote needed directory ↔ ∃ name ∈ needed.namesIn directory,
      path = absolute directory name ∧ ListedAs remote .directory directory name := by
  simp only [foundDirectories, List.mem_map, List.mem_filter, mem_hitsOf, reports_iff]
  constructor
  · rintro ⟨hit, ⟨⟨entry, hentry, hname, hreport⟩, hdirectory⟩, rfl⟩
    obtain ⟨htype, rfl⟩ | ⟨-, -, rfl⟩ := hreport
    · exact ⟨entry.1, hname, rfl, entry.2, hentry, htype⟩
    · simp at hdirectory
  · rintro ⟨name, hname, rfl, attrs, hentry, htype⟩
    exact ⟨(_, true), ⟨⟨(name, attrs), hentry, hname, .inl ⟨htype, rfl⟩⟩, rfl⟩, rfl⟩

theorem names_concat {names : List Text} {directory name : Text} {kind : FileType}
    (hnames : Names names) (h : ListedAs remote kind directory name) :
    Names (names ++ [name]) := by
  obtain ⟨attrs, hentry, -⟩ := h
  have hname := (wellListed_entriesOf remote directory).names _ hentry
  intro other hother
  obtain hother | hother := List.mem_append.mp hother
  · exact hnames other hother
  · rw [List.mem_singleton.mp hother]
    exact ⟨hname.ne_nil, hname.slash⟩

/-- Where a list with one more name at its end is split. -/
theorem split_concat {names front rest : List Text} {name other : Text}
    (h : names ++ [name] = front ++ other :: rest) :
    rest = [] ∧ names = front ∧ name = other ∨
      ∃ last, rest = last ++ [name] ∧ names = front ++ other :: last := by
  induction rest using List.reverseRecOn with
  | nil =>
      obtain ⟨hleft, hright⟩ := List.append_inj' h rfl
      exact .inl ⟨rfl, hleft, by simpa using hright⟩
  | append_singleton last final =>
      have hassoc : names ++ [name] = (front ++ other :: last) ++ [final] := by simpa using h
      obtain ⟨hleft, hright⟩ := List.append_inj' hassoc rfl
      exact .inr ⟨last, by rw [hright], hleft⟩

variable {paths : List OsString}

/-- The directories to be listed are the needed ones that lie one in the other. -/
theorem visits_iff (h : NeededFor needed paths) (directory : Text) :
    Worklist.Visits (foundDirectories remote needed) (IsNeeded needed) [] directory ↔
      IsNeeded needed directory ∧ ∃ names, Names names ∧ directory = joined names ∧
        ∀ front name rest, names = front ++ name :: rest →
          ListedAs remote .directory (joined front) name := by
  constructor
  · intro hvisits
    induction hvisits with
    | root hroot => exact ⟨hroot, [], by simp [Names], rfl, by simp⟩
    | next _ hb hneeded ih =>
        obtain ⟨-, names, hnames, rfl, hchain⟩ := ih
        obtain ⟨name, -, rfl, hlisted⟩ := mem_foundDirectories.mp hb
        have hmore := names_concat hnames hlisted
        refine ⟨hneeded, names ++ [name], hmore, absolute_joined hmore,
          fun front other rest heq => ?_⟩
        obtain ⟨-, rfl, rfl⟩ | ⟨last, -, hfront⟩ := split_concat heq
        · exact hlisted
        · exact hchain front other last hfront
  · rintro ⟨hneeded, names, hnames, rfl, hchain⟩
    induction names using List.reverseRecOn with
    | nil => exact .root hneeded
    | append_singleton names name ih =>
        have hfront : Names names := fun other hother => hnames other (List.mem_append_left _ hother)
        obtain ⟨next, hnext⟩ := (isNeeded_iff h.inhabited _).mp hneeded
        obtain ⟨text, htext, before, after, hsplit, heq⟩ := (h.names _ next).mp hnext
        have hbefore : Names before := fun other hother =>
          h.normal text htext other (hsplit ▸ List.mem_append_left _ hother)
        obtain rfl := joined_injective hnames hbefore heq
        have hname : name ∈ needed.namesIn (joined names) :=
          (h.names _ name).mpr ⟨text, htext, names, next :: after, by simp [hsplit], rfl⟩
        have hparent := ih hfront
          (fun front other rest heq => hchain front other (rest ++ [name]) (by simp [heq]))
          ((isNeeded_iff h.inhabited _).mpr ⟨name, hname⟩)
        exact .next hparent (mem_foundDirectories.mpr
          ⟨name, hname, (absolute_joined hnames).symm, hchain names name [] rfl⟩) hneeded

/-- When the loop ends, the observed paths are the requested ones that can be observed. -/
theorem mem_observed_iff (h : NeededFor needed paths) {finished : List Text} {state : ObserveState}
    (hsimulates : Simulates remote needed finished state)
    (hfinished : ∀ directory, directory ∈ finished ↔
      Worklist.Visits (foundDirectories remote needed) (IsNeeded needed) [] directory)
    (text : Text) : text ∈ state.observed ↔ text ∈ needed.requested ∧ Observable remote text := by
  rw [hsimulates.observed]
  constructor
  · rintro ⟨directory, hdirectory, hhit⟩
    obtain ⟨-, names, hnames, rfl, hchain⟩ :=
      (visits_iff h directory).mp ((hfinished directory).mp hdirectory)
    obtain ⟨entry, hentry, hreport⟩ := mem_hitsOf.mp hhit
    obtain ⟨hname, ⟨-, heq⟩ | ⟨htype, hrequested, heq⟩⟩ := reports_iff.mp hreport
    · simp at heq
    · obtain ⟨rfl, -⟩ := Prod.mk.inj heq
      have hlisted : ListedAs remote .regularFile (joined names) entry.1 :=
        ⟨entry.2, hentry, htype⟩
      have hmore := names_concat hnames hlisted
      have hsplit : (absolute (joined names) entry.1).splitOn '/' = names ++ [entry.1] := by
        rw [absolute_joined hmore, splitOn_joined hmore (by simp)]
      refine ⟨hrequested, fun front name rest heq hrest => ?_, fun front name heq => ?_⟩
      · rw [hsplit] at heq
        obtain ⟨hnil, -⟩ | ⟨last, -, hfront⟩ := split_concat heq
        · exact absurd hnil hrest
        · exact hchain front name last hfront
      · rw [hsplit] at heq
        obtain ⟨rfl, hlast⟩ := List.append_inj' heq rfl
        obtain rfl : entry.1 = name := by simpa using hlast
        exact hlisted
  · rintro ⟨hrequested, hobservable⟩
    have hne : text.splitOn '/' ≠ [] := List.splitOn_ne_nil _ _
    obtain ⟨names, name, hsplit⟩ : ∃ names name, text.splitOn '/' = names ++ [name] :=
      ⟨_, _, (List.dropLast_append_getLast hne).symm⟩
    have hall : Names (names ++ [name]) := hsplit ▸ h.normal text hrequested
    have hnames : Names names := fun other hother => hall other (List.mem_append_left _ hother)
    have hname : name ∈ needed.namesIn (joined names) :=
      (h.names _ name).mpr ⟨text, hrequested, names, [], hsplit, rfl⟩
    have htext : absolute (joined names) name = text := by
      rw [absolute_joined hall, joined, ← hsplit, List.intercalate_splitOn]
    obtain ⟨attrs, hentry, htype⟩ := hobservable.file names name hsplit
    refine ⟨joined names, (hfinished _).mpr ((visits_iff h _).mpr
      ⟨(isNeeded_iff h.inhabited _).mpr ⟨name, hname⟩, names, hnames, rfl,
        fun front other rest heq => ?_⟩), mem_hitsOf.mpr ⟨(name, attrs), hentry, ?_⟩⟩
    · exact hobservable.ancestors front other (rest ++ [name]) (by simp [hsplit, heq]) (by simp)
    · rw [← htext]
      exact .file hname htype (htext ▸ hrequested)

end ObsidianMcp.Sftp
