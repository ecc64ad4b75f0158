import ObsidianMcp.Model.LinkResolver

/-! # The link resolver and its set of paths

The stem table is a function of the set of paths. The path table keeps one path for each key, so
it also remembers which of several paths with one key was touched last. -/

namespace ObsidianMcp.LinkResolver

open Text

variable (u : PathText)

/-- One path enters or leaves the resolver. -/
inductive Event where
  | added (path : OsString)
  | removed (path : OsString)
  deriving DecidableEq

namespace Event

def path : Event → OsString
  | added path => path
  | removed path => path

def apply : Event → LinkResolver → LinkResolver
  | added path, resolver => resolver.addPath u path
  | removed path, resolver => resolver.removePath u path

def applyPaths : Event → Finset OsString → Finset OsString
  | added path, paths => Insert.insert path paths
  | removed path, paths => paths.erase path

end Event

/-- The mutations a vault makes. -/
inductive Op where
  | add (path : OsString)
  | remove (path : OsString)
  | rename (old new : OsString)
  deriving DecidableEq

def Op.apply : Op → LinkResolver → LinkResolver
  | add path, resolver => resolver.addPath u path
  | remove path, resolver => resolver.removePath u path
  | rename old new, resolver => resolver.renamePath u old new

def Op.events : Op → List Event
  | add path => [.added path]
  | remove path => [.removed path]
  | rename old new => [.removed old, .added new]

/-- The resolver of an initial listing after a sequence of mutations. -/
def mutate (initial : List OsString) (ops : List Op) : LinkResolver :=
  ops.foldl (fun resolver op => op.apply u resolver) (build u initial)

/-- The history of a resolver, its initial listing included. -/
def history (initial : List OsString) (ops : List Op) : List Event :=
  initial.map .added ++ ops.flatMap Op.events

/-- The net result of a history. -/
def netPaths (events : List Event) : Finset OsString :=
  events.foldl (fun paths event => event.applyPaths paths) ∅

/-- Every path that is added is absent at that time. -/
def AddsAbsent (paths : Finset OsString) : List Event → Prop
  | [] => True
  | event :: events =>
      (∀ path, event = .added path → path ∉ paths) ∧ AddsAbsent (event.applyPaths paths) events

/-- The last event on a path with a given key. -/
def lastWith (key : Text) (events : List Event) : Option Event :=
  events.reverse.find? fun event => pathKey u event.path = key

/-- Two resolvers answer a target alike. -/
structure SameAnswers (target : Text) (a b : LinkResolver) : Prop where
  resolve : a.resolve u target = b.resolve u target
  isResolved : a.isResolved u target = b.isResolved u target
  candidates : ∀ path, path ∈ a.resolveCandidates u target ↔ path ∈ b.resolveCandidates u target

/-! ## Runs of events -/

def run (events : List Event) (resolver : LinkResolver) : LinkResolver :=
  events.foldl (fun resolver event => event.apply u resolver) resolver

variable {u}

theorem run_append (events later : List Event) (resolver : LinkResolver) :
    run u (events ++ later) resolver = run u later (run u events resolver) :=
  List.foldl_append

theorem build_eq_run (paths : List OsString) : build u paths = run u (paths.map .added) ⟨∅, ∅⟩ := by
  rw [build, run, List.foldl_map]
  rfl

theorem mutate_eq_run (initial : List OsString) (ops : List Op) :
    mutate u initial ops = run u (history initial ops) ⟨∅, ∅⟩ := by
  have hops : ∀ resolver, ops.foldl (fun resolver op => op.apply u resolver) resolver =
      run u (ops.flatMap Op.events) resolver := by
    induction ops with
    | nil => exact fun _ => rfl
    | cons op ops ih =>
        intro resolver
        rw [List.foldl_cons, List.flatMap_cons, run_append, ih]
        cases op <;> rfl
  rw [mutate, history, run_append, ← build_eq_run, hops]

theorem netPaths_concat (events : List Event) (event : Event) :
    netPaths (events ++ [event]) = event.applyPaths (netPaths events) := by
  rw [netPaths, List.foldl_append]
  rfl

theorem addsAbsent_append {paths : Finset OsString} {events later : List Event} :
    AddsAbsent paths (events ++ later) ↔ AddsAbsent paths events ∧
      AddsAbsent (events.foldl (fun paths event => event.applyPaths paths) paths) later := by
  induction events generalizing paths with
  | nil => simp [AddsAbsent]
  | cons event events ih => simp only [List.cons_append, AddsAbsent, ih, List.foldl_cons, and_assoc]

/-! ## The path table -/

/-- The path an event leaves under its key. -/
def Event.kept : Event → Option OsString
  | .added path => some path
  | .removed _ => none

theorem lastWith_concat_self {key : Text} {event : Event} (h : pathKey u event.path = key)
    (events : List Event) : lastWith u key (events ++ [event]) = some event := by
  rw [lastWith, List.reverse_append, List.reverse_singleton, List.singleton_append,
    List.find?_cons_of_pos (by simpa using h)]

theorem lastWith_concat_of_ne {key : Text} {event : Event} (h : pathKey u event.path ≠ key)
    (events : List Event) : lastWith u key (events ++ [event]) = lastWith u key events := by
  rw [lastWith, List.reverse_append, List.reverse_singleton, List.singleton_append,
    List.find?_cons_of_neg (by simpa using h)]
  rfl

/-- The path table holds what the last event on each key left. -/
theorem lookup_byPath_run (events : List Event) (key : Text) :
    (run u events ⟨∅, ∅⟩).byPath.lookup key = (lastWith u key events).bind Event.kept := by
  induction events using List.reverseRecOn with
  | nil => rfl
  | append_singleton events event ih =>
      have hrun : run u (events ++ [event]) ⟨∅, ∅⟩ = event.apply u (run u events ⟨∅, ∅⟩) :=
        run_append events [event] _
      rw [hrun]
      by_cases h : pathKey u event.path = key
      · rw [lastWith_concat_self h]
        subst h
        cases event with
        | added path => exact AList.lookup_insert _
        | removed path => exact AList.lookup_erase _ _
      · rw [lastWith_concat_of_ne h, ← ih]
        cases event with
        | added path => exact AList.lookup_insert_ne (Ne.symm h)
        | removed path => exact AList.lookup_erase_ne (Ne.symm h)

/-- The path table of a listing holds the last path with each key. -/
theorem lookup_byPath_listing (paths : List OsString) (key : Text) :
    (build u paths).byPath.lookup key = paths.reverse.find? fun path => pathKey u path = key := by
  rw [build_eq_run, lookup_byPath_run, lastWith, ← List.map_reverse, List.find?_map]
  have hkey : (fun event : Event => decide (pathKey u event.path = key)) ∘ Event.added =
      fun path => decide (pathKey u path = key) := rfl
  rw [hkey]
  cases paths.reverse.find? fun path => decide (pathKey u path = key) with
  | none => rfl
  | some path => rfl

theorem mem_netPaths_of_lastWith {events : List Event} {key : Text} {path : OsString}
    (h : lastWith u key events = some (.added path)) :
    path ∈ netPaths events ∧ pathKey u path = key := by
  induction events using List.reverseRecOn with
  | nil => simp [lastWith] at h
  | append_singleton events event ih =>
      rw [netPaths_concat]
      by_cases hkey : pathKey u event.path = key
      · rw [lastWith_concat_self hkey, Option.some.injEq] at h
        subst h
        exact ⟨Finset.mem_insert_self _ _, hkey⟩
      · rw [lastWith_concat_of_ne hkey] at h
        have hmem := ih h
        refine ⟨?_, hmem.2⟩
        cases event with
        | added other => exact Finset.mem_insert_of_mem hmem.1
        | removed other =>
            refine Finset.mem_erase.mpr ⟨?_, hmem.1⟩
            intro heq
            exact hkey (by rw [← hmem.2, heq]; rfl)

/-- A path of the net result was added, so its key has been touched. -/
theorem exists_lastWith {events : List Event} {path : OsString} (h : path ∈ netPaths events) :
    ∃ event, lastWith u (pathKey u path) events = some event := by
  induction events using List.reverseRecOn with
  | nil => simp [netPaths] at h
  | append_singleton events event ih =>
      by_cases hkey : pathKey u event.path = pathKey u path
      · exact ⟨event, lastWith_concat_self hkey events⟩
      · rw [lastWith_concat_of_ne hkey]
        rw [netPaths_concat] at h
        apply ih
        cases event with
        | added other =>
            rcases Finset.mem_insert.mp h with rfl | h
            · exact absurd rfl hkey
            · exact h
        | removed other => exact Finset.mem_of_mem_erase h

/-! ## The stem table -/

/-- The stem table lists, without repetition, the paths of a set by their stems. -/
structure StemsOf (u : PathText) (paths : Finset OsString) (resolver : LinkResolver) : Prop where
  nodup : ∀ stem, ((resolver.byStem.lookup stem).getD []).Nodup
  mem : ∀ stem path, path ∈ (resolver.byStem.lookup stem).getD [] ↔
    path ∈ paths ∧ stemKey u path = stem

theorem lookup_removeStem (stem key : Text) (path : OsString)
    (byStem : Table Text (List OsString)) :
    ((removeStem stem path byStem).lookup key).getD [] =
      if key = stem then ((byStem.lookup key).getD []).filter fun p => p ≠ path
      else (byStem.lookup key).getD [] := by
  rw [removeStem]
  cases hstem : byStem.lookup stem with
  | none =>
      by_cases h : key = stem
      · subst h
        simp [hstem]
      · simp [h]
  | some paths =>
      dsimp only
      by_cases h : key = stem
      · subst h
        by_cases hempty : (paths.filter fun p => p ≠ path).isEmpty
        · rw [if_pos rfl, if_pos hempty, AList.lookup_erase, hstem, Option.getD_some,
            List.isEmpty_iff.mp hempty, Option.getD_none]
        · rw [if_pos rfl, if_neg hempty, AList.lookup_insert, hstem, Option.getD_some,
            Option.getD_some]
      · rw [if_neg h]
        by_cases hempty : (paths.filter fun p => p ≠ path).isEmpty
        · rw [if_pos hempty, AList.lookup_erase_ne h]
        · rw [if_neg hempty, AList.lookup_insert_ne h]

theorem StemsOf.added {paths : Finset OsString} {resolver : LinkResolver} {path : OsString}
    (h : StemsOf u paths resolver) (hpath : path ∉ paths) :
    StemsOf u (Insert.insert path paths) (resolver.addPath u path) := by
  have hlookup : ∀ stem, ((resolver.addPath u path).byStem.lookup stem).getD [] =
      if stem = stemKey u path then (resolver.byStem.lookup stem).getD [] ++ [path]
      else (resolver.byStem.lookup stem).getD [] := by
    intro stem
    by_cases hs : stem = stemKey u path
    · subst hs
      simp [addPath, LinkResolver.insert]
    · rw [if_neg hs, addPath, LinkResolver.insert, AList.lookup_insert_ne hs]
  constructor
  · intro stem
    rw [hlookup]
    by_cases hs : stem = stemKey u path
    · rw [if_pos hs, List.nodup_append]
      refine ⟨h.nodup stem, List.nodup_singleton _, ?_⟩
      intro p hp q hq heq
      rw [List.mem_singleton] at hq
      subst hq
      subst heq
      exact hpath ((h.mem stem p).mp hp).1
    · rw [if_neg hs]
      exact h.nodup stem
  · intro stem p
    rw [hlookup, Finset.mem_insert]
    by_cases hs : stem = stemKey u path
    · rw [if_pos hs, List.mem_append, List.mem_singleton, h.mem]
      constructor
      · intro hp
        rcases hp with hp | rfl
        · exact ⟨.inr hp.1, hp.2⟩
        · exact ⟨.inl rfl, hs.symm⟩
      · intro hp
        rcases hp with ⟨rfl | hp, hstem⟩
        · exact .inr rfl
        · exact .inl ⟨hp, hstem⟩
    · rw [if_neg hs, h.mem]
      constructor
      · exact fun hp => ⟨.inr hp.1, hp.2⟩
      · intro hp
        rcases hp with ⟨rfl | hp, hstem⟩
        · exact absurd hstem.symm hs
        · exact ⟨hp, hstem⟩

theorem StemsOf.removed {paths : Finset OsString} {resolver : LinkResolver}
    (h : StemsOf u paths resolver) (path : OsString) :
    StemsOf u (paths.erase path) (resolver.removePath u path) := by
  constructor
  · intro stem
    rw [removePath, lookup_removeStem]
    split
    · exact (h.nodup stem).filter _
    · exact h.nodup stem
  · intro stem p
    rw [removePath, lookup_removeStem, Finset.mem_erase]
    by_cases hs : stem = stemKey u path
    · rw [if_pos hs, List.mem_filter, h.mem]
      simp only [ne_eq, decide_not, Bool.not_eq_true', decide_eq_false_iff_not]
      constructor
      · exact fun hp => ⟨⟨hp.2, hp.1.1⟩, hp.1.2⟩
      · exact fun hp => ⟨⟨hp.1.2, hp.2⟩, hp.1.1⟩
    · rw [if_neg hs, h.mem]
      constructor
      · intro hp
        refine ⟨⟨?_, hp.1⟩, hp.2⟩
        intro heq
        exact hs (by rw [← hp.2, heq])
      · exact fun hp => ⟨hp.1.2, hp.2⟩

theorem stemsOf_run {events : List Event} (h : AddsAbsent ∅ events) :
    StemsOf u (netPaths events) (run u events ⟨∅, ∅⟩) := by
  induction events using List.reverseRecOn with
  | nil => exact ⟨fun stem => by simp [run], fun stem path => by simp [run, netPaths]⟩
  | append_singleton events event ih =>
      rw [addsAbsent_append] at h
      rw [netPaths_concat, run_append]
      have hstems := ih h.1
      cases event with
      | added path => exact hstems.added (h.2.1 path rfl)
      | removed path => exact hstems.removed path

/-! ## Answers -/

theorem single_perm {a b : List OsString} (h : a.Perm b) : single a = single b := by
  have hlen := h.length_eq
  match a, b with
  | [], [] => rfl
  | [p], [q] => rw [List.perm_singleton.mp h]
  | _ :: _ :: _, _ :: _ :: _ => rfl

theorem bind_single (paths : Option (List OsString)) :
    paths.bind single = single (paths.getD []) := by
  cases paths <;> rfl

/-- Resolvers over one set that agree on a target's path key answer it alike. -/
theorem StemsOf.sameAnswers {paths : Finset OsString} {a b : LinkResolver} {target : Text}
    (ha : StemsOf u paths a) (hb : StemsOf u paths b)
    (hpath : '/' ∈ normalizeTarget u target →
      a.byPath.lookup (normalizeTarget u target) = b.byPath.lookup (normalizeTarget u target)) :
    SameAnswers u target a b := by
  have hperm : ((a.byStem.lookup (normalizeTarget u target)).getD []).Perm
      ((b.byStem.lookup (normalizeTarget u target)).getD []) := by
    apply (List.perm_ext_iff_of_nodup (ha.nodup _) (hb.nodup _)).mpr
    intro path
    rw [ha.mem, hb.mem]
  have hresolve : a.resolve u target = b.resolve u target := by
    simp only [resolve]
    by_cases hslash : '/' ∈ normalizeTarget u target
    · simp only [hslash, if_true, hpath hslash]
    · simp only [hslash, if_false, bind_single, single_perm hperm]
  refine ⟨hresolve, by rw [isResolved, isResolved, hresolve], ?_⟩
  intro path
  simp only [resolveCandidates]
  split
  · rfl
  · by_cases hslash : '/' ∈ normalizeTarget u target
    · simp only [hslash, if_true, hpath hslash]
    · simp only [hslash, if_false]
      exact hperm.mem_iff

theorem normalizeTarget_toStringLossy (path : OsString) :
    normalizeTarget u (u.toStringLossy path) = pathKey u path := rfl

/-- A path with a folder is looked up by its own spelling in the path table. -/
theorem resolve_toStringLossy {path : OsString} (h : '/' ∈ pathKey u path)
    (resolver : LinkResolver) :
    resolver.resolve u (u.toStringLossy path) = resolver.byPath.lookup (pathKey u path) := by
  have hne : (pathKey u path).isEmpty = false := by
    cases hkey : pathKey u path with
    | nil => simp [hkey] at h
    | cons c rest => rfl
  rw [resolve, normalizeTarget_toStringLossy]
  simp only [hne, h, if_true, Bool.false_eq_true, if_false]

theorem netPaths_added (paths : List OsString) :
    netPaths (paths.map .added) = paths.toFinset := by
  induction paths using List.reverseRecOn with
  | nil => rfl
  | append_singleton paths path ih =>
      rw [List.map_append, List.map_singleton, netPaths_concat, ih, Event.applyPaths]
      ext p
      simp

theorem addsAbsent_added {paths : List OsString} (h : paths.Nodup) :
    AddsAbsent ∅ (paths.map .added) := by
  induction paths using List.reverseRecOn with
  | nil => trivial
  | append_singleton paths path ih =>
      rw [List.nodup_append] at h
      rw [List.map_append, List.map_singleton, addsAbsent_append]
      refine ⟨ih h.1, ?_, trivial⟩
      intro p hp hmem
      have hnet : p ∈ netPaths (paths.map .added) := hmem
      rw [netPaths_added, List.mem_toFinset] at hnet
      cases hp
      exact h.2.2 _ hnet _ (by simp) rfl

/-- The paths of a vault with Latin and Greek names. -/
def basicText : PathText :=
  { Unicode.basic with lossy := fun _ => [] }

/-- A path in a folder that a listing leaves under its key was the last with it in every history
that answers like the listing. -/
theorem lastWith_of_sameAnswers {events : List Event} {listing : List OsString} {path : OsString}
    (hslash : '/' ∈ pathKey u path)
    (hlisting : lastWith u (pathKey u path) (listing.map .added) = some (.added path))
    (hsame : SameAnswers u (u.toStringLossy path) (run u events ⟨∅, ∅⟩) (build u listing)) :
    lastWith u (pathKey u path) events = some (.added path) := by
  have hresolve := hsame.resolve
  rw [resolve_toStringLossy hslash, resolve_toStringLossy hslash, build_eq_run,
    lookup_byPath_run, lookup_byPath_run, hlisting] at hresolve
  cases hlast : lastWith u (pathKey u path) events with
  | none => simp [hlast, Event.kept] at hresolve
  | some event =>
      cases event with
      | added other =>
          simp only [hlast, Option.bind_some, Event.kept, Option.some.injEq] at hresolve
          rw [hresolve]
      | removed other => simp [hlast, Event.kept] at hresolve

/-- A history answers like a listing of the remaining paths when each of them that is in a folder
was the last with its key. -/
theorem run_sameAnswers {events : List Event} (habsent : AddsAbsent ∅ events)
    (h : ∀ path ∈ netPaths events, '/' ∈ pathKey u path →
      lastWith u (pathKey u path) events = some (.added path))
    {listing : List OsString} (hnodup : listing.Nodup) (hset : listing.toFinset = netPaths events)
    (target : Text) : SameAnswers u target (run u events ⟨∅, ∅⟩) (build u listing) := by
  have hlisting := stemsOf_run (addsAbsent_added hnodup) (u := u)
  rw [netPaths_added, hset, ← build_eq_run] at hlisting
  apply (stemsOf_run habsent).sameAnswers hlisting
  intro hslash
  rw [build_eq_run, lookup_byPath_run, lookup_byPath_run]
  generalize normalizeTarget u target = key at hslash
  cases hbuilt : lastWith u key (listing.map Event.added) with
  | none =>
      have hnone : ∀ path ∈ netPaths events, pathKey u path ≠ key := by
        intro path hpath hkey
        rw [← hset, ← netPaths_added] at hpath
        rcases exists_lastWith (u := u) hpath with ⟨event, hevent⟩
        rw [hkey, hbuilt] at hevent
        contradiction
      cases hlast : lastWith u key events with
      | none => rfl
      | some event =>
          cases event with
          | added path =>
              have hmem := mem_netPaths_of_lastWith hlast
              exact absurd hmem.2 (hnone path hmem.1)
          | removed path => rfl
  | some event =>
      have hadded : ∃ path, event = .added path := by
        have hmem : event ∈ listing.map Event.added :=
          List.mem_reverse.mp (List.mem_of_find?_eq_some hbuilt)
        rcases List.mem_map.mp hmem with ⟨path, -, rfl⟩
        exact ⟨path, rfl⟩
      rcases hadded with ⟨path, rfl⟩
      have hmem := mem_netPaths_of_lastWith hbuilt
      rw [netPaths_added, hset] at hmem
      have hlast := h path hmem.1 (by rw [hmem.2]; exact hslash)
      rw [hmem.2] at hlast
      rw [hlast]

/-- In a listing without two paths of one key, every path is the last with its key. -/
theorem lastWith_listing {listing : List OsString} {path : OsString} (hpath : path ∈ listing)
    (hkeys : ∀ other ∈ listing, pathKey u other = pathKey u path → other = path) :
    lastWith u (pathKey u path) (listing.map .added) = some (.added path) := by
  have hnet : path ∈ netPaths (listing.map .added) := by
    rw [netPaths_added]
    exact List.mem_toFinset.mpr hpath
  rcases exists_lastWith (u := u) hnet with ⟨event, hevent⟩
  have hmem : event ∈ listing.map Event.added :=
    List.mem_reverse.mp (List.mem_of_find?_eq_some hevent)
  rcases List.mem_map.mp hmem with ⟨other, hother, rfl⟩
  have hkey := (mem_netPaths_of_lastWith hevent).2
  rw [hevent, hkeys other hother hkey]

/-- After any history the answers are those of a resolver built from the remaining paths, in any
order, exactly when each remaining path in a folder was the last with its key to be touched. -/
theorem mutate_sameAnswers_iff (u : PathText) (initial : List OsString) (ops : List Op)
    (habsent : AddsAbsent ∅ (history initial ops)) :
    (∀ listing : List OsString, listing.Nodup →
        listing.toFinset = netPaths (history initial ops) →
        ∀ target, SameAnswers u target (mutate u initial ops) (build u listing)) ↔
      ∀ path ∈ netPaths (history initial ops), '/' ∈ pathKey u path →
        lastWith u (pathKey u path) (history initial ops) = some (.added path) := by
  rw [mutate_eq_run]
  constructor
  · intro h path hpath hslash
    -- the listing that ends with the path leaves it under its key
    let others := ((netPaths (history initial ops)).erase path).toList
    have hnodup : (others ++ [path]).Nodup := by
      rw [List.nodup_append]
      refine ⟨Finset.nodup_toList _, List.nodup_singleton _, ?_⟩
      intro p hp q hq heq
      rw [List.mem_singleton] at hq
      subst hq
      subst heq
      simp [others] at hp
    have hset : (others ++ [path]).toFinset = netPaths (history initial ops) := by
      ext p
      by_cases hp : p = path
      · simp [hp, hpath]
      · simp [others, hp]
    have hkey : pathKey u (Event.added path).path = pathKey u path := rfl
    have hself := lastWith_concat_self hkey (others.map Event.added)
    apply lastWith_of_sameAnswers hslash _ (h _ hnodup hset (u.toStringLossy path))
    rw [List.map_append, List.map_singleton]
    exact hself
  · intro h listing hnodup hset target
    exact run_sameAnswers habsent h hnodup hset target

/-- Two notes of one folder whose names differ in case. -/
def upperNote : OsString := utf8Bytes "a/B.md".toList
def lowerNote : OsString := utf8Bytes "a/b.md".toList

/-- Removing one of two notes with one key makes the other unreachable by its path. -/
theorem removal_hides_other_note :
    AddsAbsent ∅ (history [upperNote, lowerNote] [.remove lowerNote]) ∧
      [upperNote].toFinset = netPaths (history [upperNote, lowerNote] [.remove lowerNote]) ∧
      ¬SameAnswers basicText "a/b".toList
        (mutate basicText [upperNote, lowerNote] [.remove lowerNote])
        (build basicText [upperNote]) := by
  refine ⟨?_, by decide +kernel, ?_⟩
  · refine ⟨?_, ?_, ?_, trivial⟩
    · simp
    · intro path h
      cases h
      decide +kernel
    · simp
  · intro h
    exact absurd h.resolve (by decide +kernel)

/-- Notes with keys of their own survive any history. -/
theorem renamed_note_sameAnswers :
    (∀ listing : List OsString, listing.Nodup →
        listing.toFinset = netPaths (history [upperNote] [.rename upperNote lowerNote]) →
        ∀ target, SameAnswers basicText target
          (mutate basicText [upperNote] [.rename upperNote lowerNote])
          (build basicText listing)) ↔
      ∀ path ∈ netPaths (history [upperNote] [.rename upperNote lowerNote]),
        '/' ∈ pathKey basicText path →
          lastWith basicText (pathKey basicText path)
            (history [upperNote] [.rename upperNote lowerNote]) = some (.added path) := by
  apply mutate_sameAnswers_iff
  refine ⟨?_, ?_, ?_, trivial⟩
  · simp
  · simp
  · intro path h
    cases h
    decide +kernel

end ObsidianMcp.LinkResolver
