import ObsidianMcp.Verification.Sftp.Observation

/-! # Walking through remote directories -/

namespace ObsidianMcp.Sftp

open Text

variable {σ : Type} {remote : Remote σ} {start : Text} {recursive : Bool}

/-- The path of some names below a directory. -/
def place (start : Text) (names : List Text) : Text :=
  names.foldl absolute start

theorem place_concat (start : Text) (names : List Text) (name : Text) :
    place start (names ++ [name]) = absolute (place start names) name := by
  simp [place]

/-- The entries of a directory that are not hidden. -/
def visibleOf (remote : Remote σ) (directory : Text) : List (Text × FileAttrs) :=
  (entriesOf remote directory).filter fun entry => entry.1.head? ≠ some '.'

/-- The directories that a walk goes through, by their names below its start. -/
inductive WalkReaches (remote : Remote σ) (start : Text) (recursive : Bool) : List Text → Prop where
  | start : WalkReaches remote start recursive []
  | next {names : List Text} {name : Text} {attrs : FileAttrs}
      (h : WalkReaches remote start recursive names) (hrecursive : recursive = true)
      (hentry : (name, attrs) ∈ visibleOf remote (place start names))
      (htype : attrs.fileType = some .directory) :
      WalkReaches remote start recursive (names ++ [name])

/-- What a directory's job gathers. -/
def foundOf (remote : Remote σ) (start : Text) (names : List Text) : List (Text × FileAttrs) :=
  (visibleOf remote (place start names)).map fun entry =>
    (absolute (place start names) entry.1, entry.2)

/-- The directories that become pending after a job. -/
def subdirectories (remote : Remote σ) (start : Text) (recursive : Bool) (names : List Text) :
    List (List Text) :=
  ((visibleOf remote (place start names)).filter fun entry =>
    recursive = true ∧ entry.2.fileType = some .directory).map fun entry => names ++ [entry.1]

theorem walkJob_ok {names : List Text} {found : List (Text × FileAttrs)}
    (h : walkJob remote start (place start names) = .ok found) :
    found = foundOf remote start names := by
  have hall : ∀ (directory : Text) (entries found : List (Text × FileAttrs)),
      entries.foldl (fun found entry => walkHit directory found entry.1 entry.2) found =
        found ++ (entries.filter fun entry => entry.1.head? ≠ some '.').map fun entry =>
          (absolute directory entry.1, entry.2) := by
    intro directory entries
    induction entries with
    | nil => simp
    | cons entry entries ih =>
        intro found
        rw [List.foldl_cons, ih, walkHit]
        by_cases hhidden : entry.1.head? = some '.'
        · simp [hhidden]
        · simp [hhidden]
  rw [directoryJob_ok h, hall]
  rfl

theorem isForest_subdirectories (remote : Remote σ) (start : Text) (recursive : Bool) :
    Worklist.IsForest (subdirectories remote start recursive) [] where
  nodup names := by
    have hnodup : (entriesOf remote (place start names)).Nodup :=
      List.Nodup.of_map _ (wellListed_entriesOf remote _).nodup
    refine List.Nodup.map_on ?_ ((hnodup.filter _).filter _)
    intro entry hentry other hother heq
    have hname : entry.1 = other.1 := by simpa using heq
    exact List.inj_on_of_nodup_map (wellListed_entriesOf remote _).nodup
      (List.mem_of_mem_filter (List.mem_of_mem_filter hentry))
      (List.mem_of_mem_filter (List.mem_of_mem_filter hother)) hname
  parent := by
    intro a b c ha hb
    obtain ⟨entry, -, rfl⟩ := List.mem_map.mp ha
    obtain ⟨other, -, heq⟩ := List.mem_map.mp hb
    exact (List.append_inj_left' heq rfl).symm
  root names hmem := by
    obtain ⟨entry, -, heq⟩ := List.mem_map.mp hmem
    simp at heq

/-- The nodes that the walk's worklist visits are the directories that it should go through. -/
theorem visits_iff_walkReaches (names : List Text) :
    Worklist.Visits (subdirectories remote start recursive) (fun _ => True) [] names ↔
      WalkReaches remote start recursive names := by
  constructor
  · intro h
    induction h with
    | root => exact .start
    | next _ hb _ ih =>
        obtain ⟨entry, hentry, rfl⟩ := List.mem_map.mp hb
        rw [List.mem_filter, decide_eq_true_eq] at hentry
        exact .next ih hentry.2.1 hentry.1 hentry.2.2
  · intro h
    induction h with
    | start => exact .root trivial
    | next _ hrecursive hentry htype ih =>
        refine .next ih (List.mem_map.mpr ⟨_, List.mem_filter.mpr ⟨hentry, ?_⟩, rfl⟩) trivial
        simp [hrecursive, htype]

/-! ## The loop -/

/-- The directories that become pending with some entries. -/
def directoriesIn (recursive : Bool) (found : List (Text × FileAttrs)) : List Text :=
  (found.filter fun entry => recursive = true ∧ entry.2.fileType = some .directory).map Prod.fst

theorem directoriesIn_foundOf (names : List Text) :
    directoriesIn recursive (foundOf remote start names) =
      (subdirectories remote start recursive names).map (place start) := by
  rw [directoriesIn, foundOf, subdirectories, List.filter_map, List.map_map, List.map_map]
  refine List.map_congr_left fun entry _ => ?_
  exact (place_concat start names entry.1).symm

theorem receive_ok {state next : WalkState} {jobs : List Text}
    {found : List (Text × FileAttrs)} (h : state.receive recursive jobs found = .ok next) :
    next.pending = (directoriesIn recursive found).reverse ++ state.pending ∧
      next.jobs = jobs ∧ next.entries = state.entries ++ found ∧
      (state.entries.length ≤ maxEntries → next.entries.length ≤ maxEntries) := by
  have hall : ∀ (found : List (Text × FileAttrs)) (first : WalkState),
      found.foldlM (WalkState.receiveEntry recursive) first = .ok next →
        next.pending = (directoriesIn recursive found).reverse ++ first.pending ∧
          next.jobs = first.jobs ∧ next.entries = first.entries ++ found ∧
          (first.entries.length ≤ maxEntries → next.entries.length ≤ maxEntries) := by
    intro found
    induction found with
    | nil =>
        intro first hfold
        obtain rfl : first = next := by simpa [pure, Except.pure] using hfold
        simp [directoriesIn]
    | cons entry found ih =>
        intro first hfold
        rw [List.foldlM_cons, bind_ok_iff] at hfold
        obtain ⟨middle, hentry, hrest⟩ := hfold
        rw [WalkState.receiveEntry] at hentry
        split_ifs at hentry with hbudget hdirectory
        all_goals
          obtain rfl := Except.ok.inj hentry
          obtain ⟨hpending, hjobs, hentries, hbound⟩ := ih _ hrest
          rw [not_or, not_le] at hbudget
          refine ⟨?_, hjobs, ?_, fun _ => hbound ?_⟩
        · simp [hpending, directoriesIn, hdirectory.1, hdirectory.2]
        · simp [hentries]
        · simpa using hbudget.1
        · have hskip : directoriesIn recursive (entry :: found) = directoriesIn recursive found := by
            rw [directoriesIn, List.filter_cons_of_neg (by simpa using hdirectory), directoriesIn]
          rw [hpending, hskip]
        · simp [hentries]
        · simpa using hbudget.1
  exact hall found _ h

/-- A state of the walk beside a state of a worklist of names. -/
structure WalkSimulates (remote : Remote σ) (start : Text) (recursive : Bool)
    (finished : List Text) (state : WalkState) (pending running done : List (List Text)) : Prop where
  reached : Worklist.Reached (subdirectories remote start recursive) (fun _ => True) []
    ⟨pending, running, done⟩
  pending_eq : state.pending = pending.map (place start)
  jobs_eq : state.jobs = running.map (place start)
  finished_eq : finished = done.map (place start)
  entries_eq : state.entries = done.reverse.flatMap (foundOf remote start)

theorem WalkSimulates.fill {finished : List Text} {state : WalkState}
    {pending running done : List (List Text)}
    (h : WalkSimulates remote start recursive finished state pending running done) :
    WalkSimulates remote start recursive finished state.fill
      (pending.drop (maxJobs - running.length))
      (running ++ pending.take (maxJobs - running.length)) done := by
  have hlength : state.jobs.length = running.length := by simp [h.jobs_eq]
  refine ⟨?_, ?_, ?_, h.finished_eq, h.entries_eq⟩
  · refine Worklist.Reached.start_all (isForest_subdirectories remote start recursive)
      (fun _ => trivial) ?_
    rw [List.take_append_drop]
    exact h.reached
  · rw [WalkState.fill, hlength, h.pending_eq, List.map_drop]
  · rw [WalkState.fill, hlength, h.pending_eq, h.jobs_eq, List.map_append, List.map_take]

theorem Walks.simulates {finished : List Text} {state : WalkState}
    (h : Walks remote start recursive finished state) :
    ∃ pending running done,
      WalkSimulates remote start recursive finished state pending running done := by
  induction h with
  | start => exact ⟨[[]], [], [], ⟨.start rfl, rfl, rfl, rfl, rfl⟩⟩
  | @join finished before after state next directory found h hjobs hjob hnext ih =>
      obtain ⟨pending, running, done, hsimulates⟩ := ih
      have hfill := hsimulates.fill
      obtain ⟨hpending, hjobs', hentries, -⟩ := receive_ok hnext
      have hsplit := hfill.jobs_eq
      rw [hjobs] at hsplit
      obtain ⟨front, rest, hrunning, hfront, hrest⟩ := List.map_eq_append_iff.mp hsplit.symm
      obtain ⟨names, rest, rfl, rfl, hafter⟩ := List.map_eq_cons_iff.mp hrest
      have hfound := walkJob_ok hjob
      have hreached := hfill.reached
      rw [hrunning] at hreached
      refine ⟨_, front ++ rest, names :: done, hreached.next .finish, ?_, ?_, ?_, ?_⟩
      · rw [hpending, hfound, directoriesIn_foundOf, hfill.pending_eq, List.map_append,
          List.map_reverse]
      · rw [hjobs', List.map_append, hfront, hafter]
      · rw [hfill.finished_eq, List.map_cons]
      · rw [hentries, hfill.entries_eq, hfound, List.reverse_cons, List.flatMap_append,
          List.flatMap_singleton]

/-! ## Paths of a walk -/

theorem place_eq {names : List Text} (h : Names names) (hne : names ≠ []) :
    place start names = if start = [] then joined names
      else trimEndMatches '/' start ++ '/' :: joined names := by
  induction names using List.reverseRecOn with
  | nil => contradiction
  | append_singleton front name ih =>
      have hfront : Names front := fun other hother => h other (List.mem_append_left _ hother)
      have hname := h name (by simp)
      rw [place_concat]
      by_cases hnil : front = []
      · subst hnil
        by_cases hstart : start = []
        · simp [place, absolute, joined, hstart, hname.1]
        · simp [place, absolute, joined, hstart, hname.1]
      · rw [ih hfront hnil]
        by_cases hstart : start = []
        · rw [if_pos hstart, if_pos hstart, absolute_joined h]
        · have hlast : (trimEndMatches '/' start ++ '/' :: joined front).getLast? ≠ some '/' := by
            have hjoined := getLast?_joined hfront
            obtain ⟨c, rest, hcons⟩ := List.exists_cons_of_ne_nil (joined_ne_nil hfront hnil)
            rw [hcons] at hjoined ⊢
            rwa [List.getLast?_append_cons, List.getLast?_cons_cons]
          rw [if_neg hstart, if_neg hstart, absolute, if_neg hname.1, if_neg (by simp),
            trimEnd_eq_self hlast, joined, joined, intercalate_append hnil (by simp)]
          simp

/-- Different names lead to different paths. -/
theorem place_injective {names others : List Text} (hnames : Names names) (hothers : Names others)
    (h : place start names = place start others) : names = others := by
  have hstart : ∀ names : List Text, Names names → place start names = start → names = [] := by
    intro names hnames heq
    by_contra hne
    rw [place_eq hnames hne] at heq
    split_ifs at heq with hnil
    · exact joined_ne_nil hnames hne (heq.trans hnil)
    · have hlast : start.getLast? ≠ some '/' := by
        have hjoined := getLast?_joined hnames
        obtain ⟨c, rest, hcons⟩ := List.exists_cons_of_ne_nil (joined_ne_nil hnames hne)
        rw [hcons] at hjoined heq
        rw [← heq, List.getLast?_append_cons, List.getLast?_cons_cons]
        exact hjoined
      rw [trimEnd_eq_self hlast] at heq
      simpa using congrArg List.length heq
  by_cases hn : names = []
  · subst hn
    exact (hstart others hothers h.symm).symm
  · by_cases ho : others = []
    · subst ho
      exact hstart names hnames h
    · rw [place_eq hnames hn, place_eq hothers ho] at h
      split_ifs at h
      · exact joined_injective hnames hothers h
      · exact joined_injective hnames hothers (by simpa using h)

theorem names_of_visible {names : List Text} {directory : Text} {entry : Text × FileAttrs}
    (h : Names names) (hentry : entry ∈ visibleOf remote directory) :
    Names (names ++ [entry.1]) := by
  have hname := (wellListed_entriesOf remote directory).names _ (List.mem_of_mem_filter hentry)
  intro other hother
  obtain hother | hother := List.mem_append.mp hother
  · exact h other hother
  · rw [List.mem_singleton.mp hother]
    exact ⟨hname.ne_nil, hname.slash⟩

theorem WalkReaches.names {names : List Text} (h : WalkReaches remote start recursive names) :
    Names names := by
  induction h with
  | start => simp [Names]
  | next _ _ hentry _ ih => exact names_of_visible ih hentry

theorem mem_foundOf {names : List Text} {path : Text} {attrs : FileAttrs} :
    (path, attrs) ∈ foundOf remote start names ↔
      ∃ name, (name, attrs) ∈ visibleOf remote (place start names) ∧
        path = place start (names ++ [name]) := by
  rw [foundOf, List.mem_map]
  constructor
  · rintro ⟨entry, hentry, heq⟩
    obtain ⟨rfl, rfl⟩ := Prod.mk.inj heq
    exact ⟨entry.1, hentry, (place_concat start names entry.1).symm⟩
  · rintro ⟨name, hentry, rfl⟩
    exact ⟨(name, attrs), hentry, by rw [place_concat]⟩

/-- No path is gathered twice. -/
theorem nodup_paths {done : List (List Text)} (hdone : done.Nodup)
    (hnames : ∀ names ∈ done, Names names) :
    ((done.flatMap (foundOf remote start)).map Prod.fst).Nodup := by
  rw [List.map_flatMap, List.nodup_flatMap]
  refine ⟨fun names hmem => ?_, hdone.imp_of_mem fun ha hb hne => ?_⟩
  · have hnodup := ((wellListed_entriesOf remote (place start names)).nodup.of_map _).filter
      fun entry => entry.1.head? ≠ some '.'
    rw [foundOf, List.map_map]
    refine List.Nodup.map_on ?_ hnodup
    intro entry hentry other hother heq
    have hplace : place start (names ++ [entry.1]) = place start (names ++ [other.1]) := by
      rw [place_concat, place_concat]
      exact heq
    have hconcat := place_injective (names_of_visible (hnames names hmem) hentry)
      (names_of_visible (hnames names hmem) hother) hplace
    have hname : entry.1 = other.1 := by simpa using hconcat
    exact List.inj_on_of_nodup_map (wellListed_entriesOf remote _).nodup
      (List.mem_of_mem_filter hentry) (List.mem_of_mem_filter hother) hname
  · rename_i a b
    intro path hpath hother
    obtain ⟨⟨path, attrs⟩, hentry, rfl⟩ := List.mem_map.mp hpath
    obtain ⟨⟨other, attrs'⟩, hentry', heq⟩ := List.mem_map.mp hother
    obtain ⟨name, hvisible, hplace⟩ := mem_foundOf.mp hentry
    obtain ⟨name', hvisible', hplace'⟩ := mem_foundOf.mp hentry'
    have hconcat := place_injective (names_of_visible (hnames a ha) hvisible)
      (names_of_visible (hnames b hb) hvisible') (hplace.symm.trans (heq.symm.trans hplace'))
    exact hne (List.append_inj_left' hconcat rfl)

/-! ## Results -/

/-- What a walk that has ended returns. -/
structure WalkEnded (remote : Remote σ) (start : Text) (recursive : Bool)
    (entries : List (Text × FileAttrs)) : Prop where
  nodup : (entries.map Prod.fst).Nodup
  exact : ∀ path attrs, (path, attrs) ∈ entries ↔
    ∃ names name, WalkReaches remote start recursive names ∧
      (name, attrs) ∈ visibleOf remote (place start names) ∧ path = place start (names ++ [name])

theorem Walks.ended {finished : List Text} {state : WalkState}
    (h : Walks remote start recursive finished state) (hend : state.fill.jobs = []) :
    state.fill.pending = [] ∧ WalkEnded remote start recursive state.entries := by
  obtain ⟨pending, running, done, hsimulates⟩ := h.simulates
  have hfill := hsimulates.fill
  have hjobs : state.jobs = [] ∧ state.pending.take (maxJobs - state.jobs.length) = [] := by
    simpa [WalkState.fill] using hend
  have hpending : state.pending = [] := by
    have htake := hjobs.2
    rw [hjobs.1] at htake
    simpa [maxJobs] using htake
  obtain rfl : running = [] := by simpa [hjobs.1] using hsimulates.jobs_eq
  obtain rfl : pending = [] := by simpa [hpending] using hsimulates.pending_eq
  have hinvariant := hsimulates.reached.invariant
  have hdone : ∀ names, names ∈ done ↔ WalkReaches remote start recursive names := fun names =>
    (hinvariant.mem_done_iff rfl rfl names).trans (visits_iff_walkReaches names)
  have hnodup : done.Nodup := by simpa using hinvariant.nodup
  refine ⟨by simp [WalkState.fill, hpending], ?_, fun path attrs => ?_⟩
  · rw [hsimulates.entries_eq]
    exact nodup_paths (List.nodup_reverse.mpr hnodup) fun names hmem =>
      ((hdone names).mp (List.mem_reverse.mp hmem)).names
  · rw [hsimulates.entries_eq, List.mem_flatMap]
    constructor
    · rintro ⟨names, hmem, hentry⟩
      obtain ⟨name, hvisible, rfl⟩ := mem_foundOf.mp hentry
      exact ⟨names, name, (hdone names).mp (List.mem_reverse.mp hmem), hvisible, rfl⟩
    · rintro ⟨names, name, hreaches, hvisible, rfl⟩
      exact ⟨names, List.mem_reverse.mpr ((hdone names).mpr hreaches),
        mem_foundOf.mpr ⟨name, hvisible, rfl⟩⟩

/-- Two walks return the same entries, whatever the order of their jobs. -/
theorem WalkEnded.perm {entries others : List (Text × FileAttrs)}
    (h : WalkEnded remote start recursive entries)
    (h' : WalkEnded remote start recursive others) : entries.Perm others := by
  rw [List.perm_ext_iff_of_nodup (h.nodup.of_map _) (h'.nodup.of_map _)]
  rintro ⟨path, attrs⟩
  rw [h.exact, h'.exact]

/-- Every directory that is pending, running or finished has an entry, apart from the start. -/
theorem Walks.count_le {finished : List Text} {state : WalkState}
    (h : Walks remote start recursive finished state) :
    state.pending.length + state.jobs.length + finished.length ≤ state.entries.length + 1 ∧
      state.entries.length ≤ maxEntries := by
  induction h with
  | start => simp
  | @join finished before after state next directory found h hjobs hjob hnext ih =>
      obtain ⟨hpending, hjobs', hentries, hbound⟩ := receive_ok hnext
      have hfill : state.fill.pending.length + state.fill.jobs.length =
          state.pending.length + state.jobs.length := by
        simp only [WalkState.fill, List.length_drop, List.length_append, List.length_take]
        omega
      have hfound : (directoriesIn recursive found).length ≤ found.length := by
        rw [directoriesIn, List.length_map]
        exact List.length_filter_le _ _
      have hkept : state.fill.entries = state.entries := rfl
      rw [hjobs, List.length_append, List.length_cons] at hfill
      rw [hkept] at hentries hbound
      refine ⟨?_, hbound ih.2⟩
      rw [hpending, hjobs', hentries]
      simp only [List.length_append, List.length_reverse, List.length_cons]
      omega

/-! ## Runs -/

/-- What holds in every state of an observation: no directory is listed twice, only directories
above requested paths are listed, and whichever job ends next, the loop goes on or stops. -/
structure OrderlyObservation (remote : Remote σ) (paths : List OsString) (needed : Needed)
    (finished : List Text) (state : ObserveState) : Prop where
  bounded : finished.length ≤ needed.children.keys.length
  nodup : (finished ++ state.fill.jobs.map Prod.fst).Nodup
  above : ∀ directory ∈ finished ++ state.fill.jobs.map Prod.fst, ∃ text before after,
    utf8Bytes text ∈ paths ∧ text.splitOn '/' = before ++ after ∧ after ≠ [] ∧
      directory = joined before
  next : ∀ job ∈ state.fill.jobs,
    (∃ error, observeJob remote needed.requested job = .error error) ∨
      ∃ after, Observes remote needed.requested (.init needed) (job.1 :: finished) after
  ended : state.fill.jobs = [] → state.fill.pending = []

theorem Observes.orderly {paths : List OsString} {needed : Needed} {finished : List Text}
    {state : ObserveState} (hneeded : NeededFor needed paths)
    (h : Observes remote needed.requested (.init needed) finished state) :
    OrderlyObservation remote paths needed finished state := by
  have hinvariant := h.simulates.fill.reached.invariant
  have hnodup : (finished ++ state.fill.jobs.map Prod.fst).Nodup :=
    List.nodup_append_comm.mp hinvariant.nodup
  have hvisits : ∀ directory ∈ finished ++ state.fill.jobs.map Prod.fst,
      IsNeeded needed directory := fun directory hmem =>
    ((visits_iff hneeded directory).mp (hinvariant.visits directory
      (List.perm_append_comm.mem_iff.mp hmem))).1
  refine ⟨?_, hnodup, fun directory hmem => ?_, fun job hjob => ?_, pending_fill⟩
  · refine ((List.nodup_append.mp hnodup).1.subperm fun directory hmem => ?_).length_le
    exact AList.mem_keys.mp
      (AList.lookup_isSome.mp (hvisits directory (List.mem_append_left _ hmem)))
  · obtain ⟨name, hname⟩ := (isNeeded_iff hneeded.inhabited _).mp (hvisits directory hmem)
    obtain ⟨text, htext, before, after, hsplit, heq⟩ := (hneeded.names directory name).mp hname
    exact ⟨text, before, name :: after, (hneeded.requested text).mp htext, hsplit, by simp, heq⟩
  · obtain ⟨before, after, hjobs⟩ := List.append_of_mem hjob
    cases hrun : observeJob remote needed.requested job with
    | error error => exact .inl ⟨error, rfl⟩
    | ok hits => exact .inr ⟨_, h.join hjobs hrun⟩

/-- What holds in every state of a walk. -/
structure OrderlyWalk (remote : Remote σ) (start : Text) (recursive : Bool)
    (finished : List Text) (state : WalkState) : Prop where
  bounded : finished.length ≤ maxEntries + 1
  next : ∀ directory ∈ state.fill.jobs,
    (∃ error, WalkDirectories remote start recursive (.error error)) ∨
      ∃ after, Walks remote start recursive (directory :: finished) after
  ended : state.fill.jobs = [] → state.fill.pending = []

theorem Walks.orderly {finished : List Text} {state : WalkState}
    (h : Walks remote start recursive finished state) :
    OrderlyWalk remote start recursive finished state := by
  refine ⟨?_, fun directory hmem => ?_, fun hend => (h.ended hend).1⟩
  · have hcount := h.count_le
    omega
  · obtain ⟨before, after, hjobs⟩ := List.append_of_mem hmem
    cases hrun : walkJob remote start directory with
    | error error => exact .inl ⟨error, .failed h hmem hrun⟩
    | ok found =>
        cases hnext : state.fill.receive recursive (before ++ after) found with
        | error error => exact .inl ⟨error, .exceeded h hjobs hrun hnext⟩
        | ok next => exact .inr ⟨next, h.join hjobs hrun hnext⟩

/-- In whatever order the jobs end, an observation marks the requested paths that are there, and a
walk returns the visible entries that are reached through directories. -/
theorem observation_exact (remote : Remote σ) :
    (∀ (paths : List OsString) (needed : Needed) (finished : List Text) (state : ObserveState),
      collectNeeded paths = .ok needed →
      Observes remote needed.requested (.init needed) finished state →
      OrderlyObservation remote paths needed finished state) ∧
    (∀ (opening : σ) (paths : List OsString) (requested observed : List Text),
      ObserveBatch remote opening paths (.ok (requested, observed)) →
      ∀ text, text ∈ observed ↔ utf8Bytes text ∈ paths ∧ Observable remote text) ∧
    (∀ (start : Text) (recursive : Bool) (finished : List Text) (state : WalkState),
      Walks remote start recursive finished state →
      OrderlyWalk remote start recursive finished state) ∧
    (∀ (start : Text) (recursive : Bool) (entries : List (Text × FileAttrs)),
      WalkDirectories remote start recursive (.ok entries) →
      WalkEnded remote start recursive entries) ∧
    (∀ (start : Text) (recursive : Bool) (entries others : List (Text × FileAttrs)),
      WalkDirectories remote start recursive (.ok entries) →
      WalkDirectories remote start recursive (.ok others) → entries.Perm others) := by
  have hended : ∀ (start : Text) (recursive : Bool) (entries : List (Text × FileAttrs)),
      WalkDirectories remote start recursive (.ok entries) →
      WalkEnded remote start recursive entries := by
    intro start recursive entries h
    cases h with
    | ended h hend => exact (h.ended hend).2
  refine ⟨?_, ?_, ?_, hended, ?_⟩
  · intro paths needed finished state hneeded h
    exact h.orderly (neededFor_collected hneeded)
  · intro opening paths requested observed h text
    cases h with
    | @ended needed finished state t hroot hneeded h hend =>
        have hfor := neededFor_collected hneeded
        have hsimulates := h.simulates.fill
        have hpending := pending_fill hend
        have hinvariant := hsimulates.reached.invariant
        have hobserved : text ∈ state.fill.observed ↔ text ∈ state.observed := by
          rw [hsimulates.observed, h.simulates.observed]
        rw [← hobserved, mem_observed_iff hfor hsimulates (fun directory =>
          hinvariant.mem_done_iff hpending (by simp [hend]) directory), hfor.requested]
  · intro start recursive finished state h
    exact h.orderly
  · intro start recursive entries others h h'
    exact (hended start recursive entries h).perm (hended start recursive others h')

def noteRemote : Remote Bool :=
  ⟨noteServer, "/v".toList, fun _ => false⟩

def noteNeeded : Needed where
  children := AList.insert [] ["Note.md".toList] ∅
  requested := ["Note.md".toList]
  nameBytes := 7

theorem collectNeeded_note : collectNeeded [utf8Bytes "Note.md".toList] = .ok noteNeeded := by
  have htext : pathText (utf8Bytes "Note.md".toList) = .ok "Note.md".toList := by
    rw [pathText, OsString.toStr, fromUtf8_utf8Bytes]
  have hparse : normalizeRemote (utf8Bytes "Note.md".toList) = .ok "Note.md".toList := by
    rw [normalizeRemote, htext]
    rfl
  rw [collectNeeded, List.foldlM_cons, Needed.addPath, htext, hparse]
  rfl

theorem observeJob_note : observeJob noteRemote noteNeeded.requested ([], ["Note.md".toList]) =
    .ok [("Note.md".toList, false)] := by
  have hlist : listDirectory noteRemote.server (absolute noteRemote.canonical [])
      (noteRemote.view []) = .ok noteListing true := listDirectory_noteServer false
  rw [observeJob, directoryJob_of_list hlist]
  rfl

theorem note_observed :
    (∃ observed, ObserveBatch noteRemote false [utf8Bytes "Note.md".toList]
        (.ok (["Note.md".toList], observed)) ∧ "Note.md".toList ∈ observed) ∧
      Observable noteRemote "Note.md".toList := by
  have hroot : checkRoot noteServer "observe".toList "/v".toList false = .ok () false := by
    rw [checkRoot, estateM_bind, realpath_noteServer (by decide)]
    rfl
  have hjobs : (ObserveState.init noteNeeded).fill.jobs =
      [] ++ ([], ["Note.md".toList]) :: [] := rfl
  have hobserves := Observes.start.join hjobs observeJob_note
  have hbatch := ObserveBatch.ended hroot collectNeeded_note hobserves rfl
  have hmem : "Note.md".toList ∈ ["Note.md".toList] := List.mem_cons_self
  exact ⟨⟨_, hbatch, hmem⟩,
    (((observation_exact noteRemote).2.1 _ _ _ _ hbatch "Note.md".toList).mp hmem).2⟩

end ObsidianMcp.Sftp
