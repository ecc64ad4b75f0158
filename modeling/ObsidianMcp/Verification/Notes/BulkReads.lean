import ObsidianMcp.Model.NoteReads

/-! # Accounting of bulk reads

Every candidate comes to one outcome, a note or a skip, and the loop records exactly that outcome.
What the request returns is a function of the outcomes. -/

namespace ObsidianMcp.NoteReads

open Text

variable {σ τ : Type}

/-! ## Outcomes -/

/-- What a candidate comes to. -/
abbrev Outcome := NoteReadManyItem ⊕ NoteReadManySkipped

/-- The notes among some outcomes, in order. -/
def notesOf (outcomes : List Outcome) : List NoteReadManyItem :=
  outcomes.filterMap Sum.getLeft?

/-- The skips among some outcomes, in order. -/
def skipsOf (outcomes : List Outcome) : List NoteReadManySkipped :=
  outcomes.filterMap Sum.getRight?

def contentBytes (notes : List NoteReadManyItem) : ℕ :=
  (notes.map fun note => byteLen note.content).sum

@[simp] theorem notesOf_append (a b : List Outcome) : notesOf (a ++ b) = notesOf a ++ notesOf b :=
  List.filterMap_append

@[simp] theorem skipsOf_append (a b : List Outcome) : skipsOf (a ++ b) = skipsOf a ++ skipsOf b :=
  List.filterMap_append

@[simp] theorem notesOf_note (item : NoteReadManyItem) : notesOf [.inl item] = [item] := rfl

@[simp] theorem notesOf_skip (entry : NoteReadManySkipped) : notesOf [.inr entry] = [] := rfl

@[simp] theorem skipsOf_note (item : NoteReadManyItem) : skipsOf [.inl item] = [] := rfl

@[simp] theorem skipsOf_skip (entry : NoteReadManySkipped) : skipsOf [.inr entry] = [entry] := rfl

@[simp] theorem contentBytes_append (a b : List NoteReadManyItem) :
    contentBytes (a ++ b) = contentBytes a + contentBytes b := by
  simp [contentBytes]

/-- Every outcome is a note or a skip. -/
theorem length_notesOf_add_skipsOf (outcomes : List Outcome) :
    (notesOf outcomes).length + (skipsOf outcomes).length = outcomes.length := by
  induction outcomes with
  | nil => rfl
  | cons outcome outcomes ih =>
      cases outcome with
      | inl item =>
          simp only [notesOf, skipsOf, List.filterMap_cons, Sum.getLeft?_inl, Sum.getRight?_inl,
            List.length_cons] at ih ⊢
          omega
      | inr entry =>
          simp only [notesOf, skipsOf, List.filterMap_cons, Sum.getLeft?_inr, Sum.getRight?_inr,
            List.length_cons] at ih ⊢
          omega

/-! ## One candidate -/

section Candidate

variable (vault : Vault σ τ) (remaining : ℕ) (candidate : ReadCandidate) (s : σ)

/-- The candidate is a file with this resolved path and this size. -/
def Sized (path : OsString) (target : Option (ReadTarget τ)) (size : ℕ) (u : σ) : Prop :=
  ∃ t stat, vault.prepare candidate s = .ok (path, target) t ∧
    vault.stat path target t = .ok stat u ∧ stat.size = size

/-- The path under which a resolved candidate is reported. -/
def reportedPath (path : OsString) : Text :=
  path.toStr.getD candidate.displayPath

/-- Resolving, sizing or reading the candidate fails. -/
inductive Fails : Text → VaultError → σ → Prop where
  | prepare {error : VaultError} {t : σ} (h : vault.prepare candidate s = .error error t) :
      Fails candidate.displayPath error t
  | stat {path : OsString} {target : Option (ReadTarget τ)} {error : VaultError} {t u : σ}
      (h : vault.prepare candidate s = .ok (path, target) t)
      (hstat : vault.stat path target t = .error error u) :
      Fails (reportedPath candidate path) error u
  | read {path : OsString} {target : Option (ReadTarget τ)} {size : ℕ} {error : VaultError}
      {u w : σ} (h : Sized vault candidate s path target size u) (hsize : size ≤ remaining)
      (hread : vault.read path remaining target u = .error error w)
      (hlimit : ∀ resource actual limit, error ≠ .semanticResourceLimit resource actual limit) :
      Fails (reportedPath candidate path) error w

/-- The size of the candidate, the limit of its read or the length of its content exceeds what
remains. -/
inductive Exceeds : Text → σ → Prop where
  | stat {path : OsString} {target : Option (ReadTarget τ)} {size : ℕ} {u : σ}
      (h : Sized vault candidate s path target size u) (hsize : remaining < size) :
      Exceeds (reportedPath candidate path) u
  | limit {path : OsString} {target : Option (ReadTarget τ)} {size : ℕ} {u w : σ}
      {resource : Text} {actual limit : ℕ}
      (h : Sized vault candidate s path target size u) (hsize : size ≤ remaining)
      (hread : vault.read path remaining target u =
        .error (.semanticResourceLimit resource actual limit) w) :
      Exceeds (reportedPath candidate path) w
  | content {path : OsString} {target : Option (ReadTarget τ)} {size : ℕ} {u w : σ}
      {content : Text} (h : Sized vault candidate s path target size u) (hsize : size ≤ remaining)
      (hread : vault.read path remaining target u = .ok content w)
      (hlength : remaining < byteLen content) : Exceeds (reportedPath candidate path) w

/-- The candidate is read within what remains. -/
inductive Fits : Text → Text → σ → Prop where
  | read {path : OsString} {target : Option (ReadTarget τ)} {size : ℕ} {u w : σ}
      {content : Text} (h : Sized vault candidate s path target size u) (hsize : size ≤ remaining)
      (hread : vault.read path remaining target u = .ok content w)
      (hlength : byteLen content ≤ remaining) : Fits (reportedPath candidate path) content w

/-- What the candidate comes to when so many bytes remain. -/
inductive Settles : Outcome → σ → Prop where
  | failed {path : Text} {error : VaultError} {reason : NoteReadManySkipReason} {t : σ}
      (h : Fails vault remaining candidate s path error t) (hreason : skipReason error = some reason) :
      Settles (.inr ⟨path, reason⟩) t
  | oversized {path : Text} {t : σ} (h : Exceeds vault remaining candidate s path t) :
      Settles (.inr ⟨path, .byteLimit⟩) t
  | returned {path content : Text} {t : σ} (h : Fits vault remaining candidate s path content t) :
      Settles (.inl ⟨path, content⟩) t

end Candidate

/-- The state of the loop once an outcome is recorded. -/
def Gathered.record (gathered : Gathered) : Outcome → Gathered
  | .inl item =>
      { gathered with
        contentBytes := gathered.contentBytes + byteLen item.content
        notes := gathered.notes ++ [item] }
  | .inr entry => recordSkipped gathered entry.path entry.reason

variable {vault : Vault σ τ} {maxBytes remaining : ℕ} {gathered g : Gathered}
  {candidate : ReadCandidate} {candidates : List ReadCandidate} {s t : σ}

theorem recordFileError_eq_ok {error : VaultError} {path : Text} :
    recordFileError error path gathered = .ok g ↔
      ∃ reason, skipReason error = some reason ∧ recordSkipped gathered path reason = g := by
  cases h : skipReason error <;> simp [recordFileError, h]

theorem attempt_eq_ok {ε α : Type} {x : EStateM ε σ α} {r : Except ε α} :
    attempt x s = .ok r t ↔
      (∃ a, r = .ok a ∧ x s = .ok a t) ∨ ∃ e, r = .error e ∧ x s = .error e t := by
  cases r with
  | ok a => simp [attempt_eq_result]
  | error e => simp [attempt_eq_failure]

/-- A round records exactly one outcome, the one the candidate comes to. -/
theorem settles_of_readCandidate (h : readCandidate vault maxBytes gathered candidate s = .ok g t) :
    ∃ outcome, Settles vault (maxBytes - gathered.contentBytes) candidate s outcome t ∧
      g = gathered.record outcome := by
  rw [readCandidate, estateM_bind_ok] at h
  obtain ⟨prepared, u, hattempt, h⟩ := h
  obtain ⟨⟨path, target⟩, rfl, hprepare⟩ | ⟨error, rfl, hprepare⟩ := attempt_eq_ok.mp hattempt
  · simp only [estateM_bind_ok] at h
    obtain ⟨stated, w, hattempt, h⟩ := h
    obtain ⟨stat, rfl, hstat⟩ | ⟨error, rfl, hstat⟩ := attempt_eq_ok.mp hattempt
    · have hsized : Sized vault candidate s path target stat.size w := ⟨u, stat, hprepare, hstat, rfl⟩
      simp only at h
      split at h
      · rename_i hsize
        obtain ⟨rfl, rfl⟩ : _ ∧ _ := by simpa using h
        exact ⟨_, .oversized (.stat hsized hsize), rfl⟩
      · rename_i hsize
        have hsize : stat.size ≤ maxBytes - gathered.contentBytes := not_lt.mp hsize
        rw [estateM_bind_ok] at h
        obtain ⟨answer, x, hattempt, h⟩ := h
        split at h
        · have hread := attempt_eq_failure.mp hattempt
          obtain ⟨rfl, rfl⟩ : _ ∧ _ := by simpa using h
          exact ⟨_, .oversized (.limit hsized hsize hread), rfl⟩
        · rename_i error hlimit
          have hread := attempt_eq_failure.mp hattempt
          obtain ⟨hrecord, rfl⟩ := raise_eq_ok.mp h
          obtain ⟨reason, hreason, rfl⟩ := recordFileError_eq_ok.mp hrecord
          exact ⟨_, .failed (.read hsized hsize hread fun resource actual limit heq =>
            hlimit resource actual limit (heq ▸ rfl)) hreason, rfl⟩
        · rename_i content
          have hread := attempt_eq_result.mp hattempt
          split at h
          · rename_i hlength
            obtain ⟨rfl, rfl⟩ : _ ∧ _ := by simpa using h
            exact ⟨_, .oversized (.content hsized hsize hread hlength), rfl⟩
          · rename_i hlength
            obtain ⟨rfl, rfl⟩ : _ ∧ _ := by simpa using h
            exact ⟨_, .returned (.read hsized hsize hread (not_lt.mp hlength)), rfl⟩
    · obtain ⟨hrecord, rfl⟩ := raise_eq_ok.mp h
      obtain ⟨reason, hreason, rfl⟩ := recordFileError_eq_ok.mp hrecord
      exact ⟨_, .failed (.stat hprepare hstat) hreason, rfl⟩
  · obtain ⟨hrecord, rfl⟩ := raise_eq_ok.mp h
    obtain ⟨reason, hreason, rfl⟩ := recordFileError_eq_ok.mp hrecord
    exact ⟨_, .failed (.prepare hprepare) hreason, rfl⟩

/-- The vault answers in one way from a state. -/
theorem Sized.unique {path path' : OsString} {target target' : Option (ReadTarget τ)}
    {size size' : ℕ} {u u' : σ} (h : Sized vault candidate s path target size u)
    (h' : Sized vault candidate s path' target' size' u') :
    path = path' ∧ target = target' ∧ size = size' ∧ u = u' := by
  obtain ⟨t, stat, hprepare, hstat, rfl⟩ := h
  obtain ⟨t', stat', hprepare', hstat', rfl⟩ := h'
  obtain ⟨⟨rfl, rfl⟩, rfl⟩ : (path = path' ∧ target = target') ∧ t = t' := by
    simpa [hprepare] using hprepare'
  obtain ⟨rfl, rfl⟩ : stat = stat' ∧ u = u' := by simpa [hstat] using hstat'
  exact ⟨rfl, rfl, rfl, rfl⟩

/-- Where the candidate exceeds what remains, it is skipped for the limit. -/
theorem Settles.eq_skip {outcome : Outcome} {path : Text} {u : σ}
    (h : Settles vault remaining candidate s outcome u)
    (hexceeds : Exceeds vault remaining candidate s path t) :
    outcome = .inr ⟨path, .byteLimit⟩ := by
  cases h with
  | failed h hreason =>
      cases h <;> cases hexceeds <;> grind [Sized.unique, Sized]
  | oversized h =>
      cases h <;> cases hexceeds <;> grind [Sized.unique]
  | returned h =>
      cases h
      cases hexceeds <;> grind [Sized.unique]

/-- Where the candidate fits, it is returned. -/
theorem Settles.eq_note {outcome : Outcome} {path content : Text} {u : σ}
    (h : Settles vault remaining candidate s outcome u)
    (hfits : Fits vault remaining candidate s path content t) :
    outcome = .inl ⟨path, content⟩ := by
  cases h with
  | failed h hreason =>
      cases hfits
      cases h <;> grind [Sized.unique, Sized]
  | oversized h =>
      cases hfits
      cases h <;> grind [Sized.unique]
  | returned h =>
      cases h
      cases hfits
      grind [Sized.unique]

/-! ## The loop -/

/-- What the loop holds after some outcomes. -/
structure Summarizes (gathered : Gathered) (outcomes : List Outcome) : Prop where
  notes_eq : gathered.notes = notesOf outcomes
  skipped_eq : gathered.skipped = (skipsOf outcomes).take maxSkippedDetails
  skippedCount_eq : gathered.skippedCount = (skipsOf outcomes).length
  contentBytes_eq : gathered.contentBytes = contentBytes (notesOf outcomes)

theorem summarizes_nil : Summarizes {} [] := by
  constructor <;> rfl

theorem Summarizes.record {outcomes : List Outcome} (h : Summarizes gathered outcomes)
    (outcome : Outcome) : Summarizes (gathered.record outcome) (outcomes ++ [outcome]) := by
  obtain ⟨hnotes, hskipped, hcount, hbytes⟩ := h
  cases outcome with
  | inl item =>
      constructor <;> simp [Gathered.record, hnotes, hskipped, hcount, hbytes, contentBytes]
  | inr entry =>
      refine ⟨by simpa [Gathered.record, recordSkipped], ?_,
        by simp [Gathered.record, recordSkipped, hcount],
        by simpa [Gathered.record, recordSkipped]⟩
      have hlength : gathered.skipped.length = min maxSkippedDetails (skipsOf outcomes).length := by
        rw [hskipped, List.length_take]
      rw [skipsOf_append, List.take_append, skipsOf_skip, ← hskipped]
      by_cases hroom : gathered.skipped.length < maxSkippedDetails
      · have hslots : 1 ≤ maxSkippedDetails - (skipsOf outcomes).length := by omega
        simp [Gathered.record, recordSkipped, hroom, List.take_of_length_le, hslots]
      · have hslots : maxSkippedDetails - (skipsOf outcomes).length = 0 := by omega
        simp [Gathered.record, recordSkipped, hroom, hslots]

theorem Settles.length_le {item : NoteReadManyItem}
    (h : Settles vault remaining candidate s (.inl item) t) : byteLen item.content ≤ remaining := by
  cases h with
  | returned h => cases h with
    | read _ _ _ hlength => exact hlength

/-- Recording what a candidate comes to keeps the content within the limit. -/
theorem Settles.contentBytes_record_le {outcome : Outcome}
    (h : Settles vault (maxBytes - gathered.contentBytes) candidate s outcome t)
    (hle : gathered.contentBytes ≤ maxBytes) :
    (gathered.record outcome).contentBytes ≤ maxBytes := by
  cases outcome with
  | inl item =>
      have hlength := h.length_le
      simp only [Gathered.record]
      omega
  | inr entry => simpa [Gathered.record, recordSkipped] using hle

/-- The turn of a candidate in a loop: what the loop holds when it comes to the candidate, and what
the candidate then comes to. -/
structure Turn (vault : Vault σ τ) (maxBytes : ℕ) (start : Gathered) (s : σ)
    (before : List ReadCandidate) (candidate : ReadCandidate) (earlier : List Outcome)
    (outcome : Outcome) (gathered : Gathered) (u t : σ) : Prop where
  run : readCandidates vault maxBytes start before s = .ok gathered u
  contentBytes_eq : gathered.contentBytes = contentBytes (notesOf earlier)
  contentBytes_le : gathered.contentBytes ≤ maxBytes
  settles : Settles vault (maxBytes - gathered.contentBytes) candidate u outcome t

/-- The loop gives every candidate its turn and records its outcome. -/
theorem turns_of_readCandidates {earlier : List Outcome}
    (h : readCandidates vault maxBytes gathered candidates s = .ok g t)
    (hsum : Summarizes gathered earlier) (hle : gathered.contentBytes ≤ maxBytes) :
    ∃ outcomes : List Outcome, outcomes.length = candidates.length ∧
      Summarizes g (earlier ++ outcomes) ∧ g.contentBytes ≤ maxBytes ∧
      ∀ before candidate after, candidates = before ++ candidate :: after →
        ∃ outcome held u w, outcomes[before.length]? = some outcome ∧
          Turn vault maxBytes gathered s before candidate
            (earlier ++ outcomes.take before.length) outcome held u w := by
  induction candidates generalizing gathered earlier s with
  | nil =>
      obtain ⟨rfl, rfl⟩ : gathered = g ∧ s = t := by simpa [readCandidates] using h
      exact ⟨[], rfl, by simpa using hsum, hle, by simp⟩
  | cons candidate candidates ih =>
      rw [readCandidates, estateM_bind_ok] at h
      obtain ⟨next, u, hround, hrest⟩ := h
      obtain ⟨outcome, hsettles, rfl⟩ := settles_of_readCandidate hround
      obtain ⟨outcomes, hlength, hsum', hle', hturns⟩ :=
        ih hrest (hsum.record outcome) (hsettles.contentBytes_record_le hle)
      refine ⟨outcome :: outcomes, by simp [hlength], by simpa using hsum', hle', ?_⟩
      intro before candidate' after hsplit
      cases before with
      | nil =>
          obtain ⟨rfl, rfl⟩ : candidate = candidate' ∧ candidates = after := by simpa using hsplit
          exact ⟨outcome, gathered, s, u, rfl, rfl, by simpa using hsum.contentBytes_eq, hle,
            hsettles⟩
      | cons first before =>
          obtain ⟨rfl, hrest'⟩ : candidate = first ∧ candidates = before ++ candidate' :: after := by
            simpa using hsplit
          obtain ⟨outcome', held, v, w, hget, hturn⟩ := hturns before candidate' after hrest'
          refine ⟨outcome', held, v, w, by simpa using hget, ?_, ?_, hturn.contentBytes_le,
            hturn.settles⟩
          · rw [readCandidates, estateM_bind_ok]
            exact ⟨_, u, hround, hturn.run⟩
          · simpa using hturn.contentBytes_eq

/-! ## The request -/

/-- The skips of the candidates that are not inspected. -/
def leftOut (candidates : List ReadCandidate) : List NoteReadManySkipped :=
  candidates.map fun candidate => ⟨candidate.displayPath, .fileLimit⟩

/-- The accounting of a bulk read whose batch is open in state `s`. -/
structure Accounts (vault : Vault σ τ) (maxFiles maxBytes : ℕ) (candidates : List ReadCandidate)
    (s : σ) (outcomes : List Outcome) (output : NoteReadManyOutput) : Prop where
  /-- Every one of the first candidates has an outcome. -/
  length_eq : outcomes.length = (candidates.take maxFiles).length
  /-- The notes are those of the outcomes, in the order of the candidates. -/
  notes_eq : output.notes = notesOf outcomes
  contentBytes_eq : output.contentBytes = contentBytes output.notes
  contentBytes_le : output.contentBytes ≤ maxBytes
  total_eq : output.notes.length + output.skippedCount = candidates.length
  skippedCount_eq :
    output.skippedCount = (skipsOf outcomes ++ leftOut (candidates.drop maxFiles)).length
  skipped_eq :
    output.skipped =
      (skipsOf outcomes ++ leftOut (candidates.drop maxFiles)).take maxSkippedDetails
  /-- Every candidate has its turn, whatever became of those before it: what is then left of the
  limit is an exact difference, the candidate is skipped when it exceeds it and returned when it
  fits. -/
  turn : ∀ before candidate after, candidates.take maxFiles = before ++ candidate :: after →
    ∃ outcome held u w, outcomes[before.length]? = some outcome ∧
      Turn vault maxBytes {} s before candidate (outcomes.take before.length) outcome held u w ∧
      (∀ path v, Exceeds vault (maxBytes - held.contentBytes) candidate u path v →
        outcome = .inr ⟨path, .byteLimit⟩) ∧
      ∀ path content v, Fits vault (maxBytes - held.contentBytes) candidate u path content v →
        outcome = .inl ⟨path, content⟩

theorem adaptExcept_eq_ok {ε ε' α : Type} {x : EStateM ε σ α} {f : ε → ε'} {a : α} :
    (x.adaptExcept f) s = .ok a t ↔ x s = .ok a t := by
  rw [EStateM.adaptExcept]
  cases x s <;> simp

/-- Behind the skips of the loop come those of the candidates left out. -/
theorem skips_finish {outcomes : List Outcome} (hsum : Summarizes g outcomes) (maxFiles : ℕ) :
    (finish g candidates (min candidates.length maxFiles)).skippedCount =
        (skipsOf outcomes ++ leftOut (candidates.drop maxFiles)).length ∧
      (finish g candidates (min candidates.length maxFiles)).skipped =
        (skipsOf outcomes ++ leftOut (candidates.drop maxFiles)).take maxSkippedDetails := by
  have hdrop : candidates.drop (min candidates.length maxFiles) = candidates.drop maxFiles := by
    rcases le_total candidates.length maxFiles with h | h
    · simp [h]
    · rw [min_eq_right h]
  have hdetails : maxSkippedDetails - g.skipped.length =
      maxSkippedDetails - (skipsOf outcomes).length := by
    rw [hsum.skipped_eq, List.length_take]
    omega
  constructor
  · simp only [finish, hsum.skippedCount_eq, leftOut, List.length_append, List.length_map,
      List.length_drop]
    omega
  · simp only [finish, hdrop, hdetails]
    rw [List.take_append, leftOut, List.map_take, hsum.skipped_eq]

/-- A bulk read that succeeds accounts for all of its candidates. -/
theorem bulk_read_accounted {params : NoteReadManyParams} {output : NoteReadManyOutput}
    (h : noteReadMany vault params s = .ok output t) :
    ∃ maxFiles maxBytes candidates u w outcomes,
      validatedLimit params.maxFiles defaultMaxFiles maxFilesCap "max_files".toList =
          .ok maxFiles ∧
        validatedLimit params.maxBytes defaultMaxBytes maxBytesCap "max_bytes".toList =
          .ok maxBytes ∧
        candidatesOf vault params s = .ok candidates u ∧
        openBatch vault params candidates u = .ok () w ∧
        Accounts vault maxFiles maxBytes candidates w outcomes output := by
  simp only [noteReadMany, estateM_bind_ok, raise_eq_ok, adaptExcept_eq_ok] at h
  obtain ⟨maxFiles, _, ⟨hfiles, rfl⟩, maxBytes, _, ⟨hbytes, rfl⟩, candidates, u, hcandidates, _, w,
    hopen, g, v, hloop, houtput⟩ := h
  obtain ⟨rfl, rfl⟩ : finish g candidates (min candidates.length maxFiles) = output ∧ v = t := by
    simpa using houtput
  have htake : candidates.take (min candidates.length maxFiles) = candidates.take maxFiles := by
    rw [min_comm, ← List.take_eq_take_min]
  rw [htake] at hloop
  obtain ⟨outcomes, hlength, hsum, hle, hturns⟩ :=
    turns_of_readCandidates hloop summarizes_nil (Nat.zero_le _)
  rw [List.nil_append] at hsum
  obtain ⟨hcount, hskipped⟩ := skips_finish hsum maxFiles
  refine ⟨maxFiles, maxBytes, candidates, u, w, outcomes, hfiles, hbytes, hcandidates, hopen,
    hlength, hsum.notes_eq, ?_, hle, ?_, hcount, hskipped, ?_⟩
  · simp only [finish]
    rw [hsum.contentBytes_eq, hsum.notes_eq]
  · have htotal := length_notesOf_add_skipsOf outcomes
    rw [hcount]
    simp only [finish, hsum.notes_eq, leftOut, List.length_append, List.length_map,
      List.length_drop]
    rw [List.length_take] at hlength
    omega
  · intro before candidate after hsplit
    obtain ⟨outcome, held, x, y, hget, hturn⟩ := hturns before candidate after hsplit
    exact ⟨outcome, held, x, y, hget, hturn, fun _ _ hexceeds => hturn.settles.eq_skip hexceeds,
      fun _ _ _ hfits => hturn.settles.eq_note hfits⟩

/-- A batch over three names: a note that is too large, a missing one and a small one. -/
def notesVault : Vault Unit Unit where
  isScoped := false
  listRegularFiles := fun _ _ _ => return []
  storage := return ()
  readBatch := return ()
  validatePath := fun _ => return ()
  canonicalExistingRelativePath := fun path => return path
  fileStat := fun _ => return ⟨0, none, none⟩
  readNoteBounded := fun _ _ => return []
  batchValidate := fun _ => return ()
  batchPrepare := fun path =>
    if path = utf8Bytes "gone.md".toList then throw (.noteNotFound "gone.md".toList)
    else return ⟨path, ()⟩
  batchStat := fun target =>
    if target.relative = utf8Bytes "long.md".toList then return ⟨20, none, none⟩
    else return ⟨2, none, none⟩
  batchRead := fun target _ =>
    if target.relative = utf8Bytes "grown.md".toList then return "grown beyond".toList
    else return "ok".toList

def notesParams : NoteReadManyParams where
  paths := some ["long.md".toList, "gone.md".toList, "grown.md".toList, "small.md".toList,
    "late.md".toList]
  maxFiles := some 4
  maxBytes := some 10

def notesOutput : NoteReadManyOutput where
  notes := [⟨"small.md".toList, "ok".toList⟩]
  skipped :=
    [⟨"long.md".toList, .byteLimit⟩, ⟨"gone.md".toList, .notFound⟩,
      ⟨"grown.md".toList, .byteLimit⟩, ⟨"late.md".toList, .fileLimit⟩]
  skippedCount := 4
  contentBytes := 2

/-- The small note is returned behind two that exceed the limit. -/
theorem notesVault_accounted :
    noteReadMany notesVault notesParams () = .ok notesOutput () ∧
      ∃ candidates outcomes, candidates.length = 5 ∧
        Accounts notesVault 4 10 candidates () outcomes notesOutput := by
  have hreads : noteReadMany notesVault notesParams () = .ok notesOutput () := rfl
  obtain ⟨maxFiles, maxBytes, candidates, _, _, outcomes, hfiles, hbytes, _, _, haccounts⟩ :=
    bulk_read_accounted hreads
  obtain rfl : 4 = maxFiles := Except.ok.inj hfiles
  obtain rfl : 10 = maxBytes := Except.ok.inj hbytes
  exact ⟨hreads, candidates, outcomes, haccounts.total_eq.symm, haccounts⟩

end ObsidianMcp.NoteReads
