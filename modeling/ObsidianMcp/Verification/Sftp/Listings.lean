import ObsidianMcp.Model.SftpDirectories

/-! # What a visit sees of a directory -/

namespace ObsidianMcp.Sftp

open Text

variable {σ β : Type} {server : Server σ} {path : Text}
  {visit : β → Text → FileAttrs → Except VaultError β}

/-- Hand the entries of a listing to a visitor. -/
def visitAll (visit : β → Text → FileAttrs → Except VaultError β) :
    List (Text × FileAttrs) → β → Except VaultError β
  | [], acc => .ok acc
  | entry :: entries, acc =>
      match visit acc entry.1 entry.2 with
      | .ok acc => visitAll visit entries acc
      | .error error => .error error

theorem visitAll_append {before after : List (Text × FileAttrs)} {acc result : β} :
    visitAll visit (before ++ after) acc = .ok result ↔
      ∃ middle, visitAll visit before acc = .ok middle ∧
        visitAll visit after middle = .ok result := by
  induction before generalizing acc with
  | nil => simp [visitAll]
  | cons entry before ih =>
      cases h : visit acc entry.1 entry.2 with
      | error error => simp [visitAll, h]
      | ok acc => simp [visitAll, h, ih]

theorem visitAll_total {step : β → Text → FileAttrs → β} (entries : List (Text × FileAttrs))
    (acc : β) : visitAll (fun acc name attrs => .ok (step acc name attrs)) entries acc =
      .ok (entries.foldl (fun acc entry => step acc entry.1 entry.2) acc) := by
  induction entries generalizing acc with
  | nil => rfl
  | cons entry entries ih => simp [visitAll, ih]

/-! ## The entries of a page -/

/-- What a page's entries add to a listing. -/
inductive EntriesListed (server : Server σ) (path : Text) :
    List NameEntry → Listed → σ → List (Text × FileAttrs) → Listed → σ → Prop where
  | nil {listed : Listed} {s : σ} : EntriesListed server path [] listed s [] listed s
  | pass {entry : NameEntry} {entries : List NameEntry} {listed next last : Listed}
      {found : List (Text × FileAttrs)} {s t : σ}
      (hallow : admitName path listed entry = .ok (next, none))
      (hrest : EntriesListed server path entries next s found last t) :
      EntriesListed server path (entry :: entries) listed s found last t
  | visit {entry : NameEntry} {entries : List NameEntry} {listed next last : Listed}
      {name : Text} {attrs : FileAttrs} {found : List (Text × FileAttrs)} {s u t : σ}
      (hallow : admitName path listed entry = .ok (next, some name))
      (hattrs : entryAttrs server path name entry s = .ok attrs u)
      (hrest : EntriesListed server path entries next u found last t) :
      EntriesListed server path (entry :: entries) listed s ((name, attrs) :: found) last t

theorem visitEntries_ok {entries : List NameEntry} {listed last : Listed} {acc result : β}
    {s t : σ} : visitEntries server path visit entries (listed, acc) s = .ok (last, result) t ↔
      ∃ found, EntriesListed server path entries listed s found last t ∧
        visitAll visit found acc = .ok result := by
  induction entries generalizing listed acc s with
  | nil =>
      rw [visitEntries]
      constructor
      · intro h
        obtain ⟨⟨rfl, rfl⟩, rfl⟩ : (listed = last ∧ acc = result) ∧ s = t := by simpa using h
        exact ⟨[], .nil, rfl⟩
      · rintro ⟨found, hlisted, hvisit⟩
        cases hlisted
        obtain rfl : acc = result := by simpa [visitAll] using hvisit
        rfl
  | cons entry entries ih =>
      rw [visitEntries, estateM_bind_ok]
      constructor
      · rintro ⟨⟨next, acc'⟩, u, hentry, hrest⟩
        rw [visitEntry, estateM_bind_ok] at hentry
        obtain ⟨⟨listed', found⟩, v, hallow, hentry⟩ := hentry
        obtain ⟨hadmitted, rfl⟩ := raise_eq_ok.mp hallow
        obtain ⟨more, hlisted, hvisit⟩ := ih.mp hrest
        cases found with
        | none =>
            obtain ⟨⟨rfl, rfl⟩, rfl⟩ : (listed' = next ∧ acc = acc') ∧ s = u := by
              simpa using hentry
            exact ⟨more, .pass hadmitted hlisted, hvisit⟩
        | some name =>
            simp only [estateM_bind_ok, raise_eq_ok, estateM_pure, EStateM.Result.ok.injEq,
              Prod.mk.injEq] at hentry
            obtain ⟨attrs, w, hattrs, acc'', x, ⟨hstep, rfl⟩, ⟨rfl, rfl⟩, rfl⟩ := hentry
            exact ⟨(name, attrs) :: more, .visit hadmitted hattrs hlisted, by
              simpa [visitAll, hstep] using hvisit⟩
      · rintro ⟨found, hlisted, hvisit⟩
        cases hlisted with
        | pass hallow hrest =>
            refine ⟨(_, acc), s, ?_, ih.mpr ⟨found, hrest, hvisit⟩⟩
            rw [visitEntry, hallow]
            rfl
        | visit hallow hattrs hrest =>
            rename_i next name attrs more u
            cases hstep : visit acc name attrs with
            | error error => simp [visitAll, hstep] at hvisit
            | ok acc' =>
                refine ⟨(next, acc'), u, ?_, ih.mpr ⟨more, hrest, by
                  simpa [visitAll, hstep] using hvisit⟩⟩
                rw [visitEntry, hallow, raise_ok]
                change (entryAttrs server path name entry >>= _) s = _
                rw [estateM_bind, hattrs]
                simp only [hstep, raise_ok]
                rfl

/-! ## The pages of a directory -/

/-- What the pages of a directory list. -/
inductive PagesListed (server : Server σ) (path : Text) (handle : Bytes) :
    Listed → σ → List (Text × FileAttrs) → σ → Prop where
  | stop {listed : Listed} {page : DirectoryPage} {s t : σ}
      (hpage : Session.readdir server handle s = .ok page t)
      (hbudget : (listed.countSkipped page).overBudget = false)
      (hempty : page.entries = [] ∧ page.skippedCount = 0) :
      PagesListed server path handle listed s [] t
  | page {listed next : Listed} {page : DirectoryPage} {found more : List (Text × FileAttrs)}
      {s u v t : σ} (hpage : Session.readdir server handle s = .ok page u)
      (hbudget : (listed.countSkipped page).overBudget = false)
      (hempty : ¬(page.entries = [] ∧ page.skippedCount = 0))
      (hentries : EntriesListed server path page.entries (listed.countSkipped page) u found next v)
      (hrest : PagesListed server path handle next v more t) :
      PagesListed server path handle listed s (found ++ more) t

theorem visitPage_stop {handle : Bytes} {listed : Listed} {acc result : β} {s t : σ} :
    visitPage server path visit handle (listed, acc) s = .ok (.inr result) t ↔
      ∃ page, Session.readdir server handle s = .ok page t ∧
        (listed.countSkipped page).overBudget = false ∧
        (page.entries = [] ∧ page.skippedCount = 0) ∧ acc = result := by
  rw [visitPage, estateM_bind_ok]
  constructor
  · rintro ⟨page, u, hpage, h⟩
    split_ifs at h with hbudget hempty
    · simp at h
    · obtain ⟨rfl, rfl⟩ : acc = result ∧ u = t := by simpa using h
      exact ⟨page, hpage, by simpa using hbudget, hempty, rfl⟩
    · simp only [estateM_bind_ok, estateM_pure, EStateM.Result.ok.injEq, reduceCtorEq, false_and,
        and_false, exists_false] at h
  · rintro ⟨page, hpage, hbudget, hempty, rfl⟩
    refine ⟨page, t, hpage, ?_⟩
    rw [if_neg (by simp [hbudget]), if_pos hempty]
    rfl

theorem visitPage_next {handle : Bytes} {listed next : Listed} {acc result : β} {s t : σ} :
    visitPage server path visit handle (listed, acc) s = .ok (.inl (next, result)) t ↔
      ∃ page u, Session.readdir server handle s = .ok page u ∧
        (listed.countSkipped page).overBudget = false ∧
        ¬(page.entries = [] ∧ page.skippedCount = 0) ∧
        visitEntries server path visit page.entries (listed.countSkipped page, acc) u =
          .ok (next, result) t := by
  rw [visitPage, estateM_bind_ok]
  constructor
  · rintro ⟨page, u, hpage, h⟩
    split_ifs at h with hbudget hempty
    · simp at h
    · simp at h
    · simp only [estateM_bind_ok, estateM_pure, EStateM.Result.ok.injEq, Sum.inl.injEq] at h
      obtain ⟨state, v, hentries, rfl, rfl⟩ := h
      exact ⟨page, u, hpage, by simpa using hbudget, hempty, hentries⟩
  · rintro ⟨page, u, hpage, hbudget, hempty, hentries⟩
    refine ⟨page, u, hpage, ?_⟩
    rw [if_neg (by simp [hbudget]), if_neg hempty, estateM_bind, hentries]
    rfl

theorem visitPages_ok {handle : Bytes} {listed : Listed} {acc result : β} {s t : σ} :
    (visitPages server path visit handle).run (listed, acc) s = .ok result t ↔
      ∃ found, PagesListed server path handle listed s found t ∧
        visitAll visit found acc = .ok result := by
  constructor
  · intro h
    have hall : ∀ state s, (visitPages server path visit handle).run state s = .ok result t →
        ∃ found, PagesListed server path handle state.1 s found t ∧
          visitAll visit found state.2 = .ok result := by
      intro state s
      induction state, s using (visitPages server path visit handle).induct with | h state s ih =>
      intro hrun
      cases hround : (visitPages server path visit handle).round state s with
      | error error u => simp [Loop.run_of_error hround] at hrun
      | ok next u =>
          cases next with
          | inl next =>
              rw [Loop.run_of_next hround] at hrun
              obtain ⟨more, hmore, hvisit⟩ := ih next u hround hrun
              obtain ⟨page, v, hpage, hbudget, hempty, hentries⟩ := visitPage_next.mp hround
              obtain ⟨found, hfound, hvisited⟩ := visitEntries_ok.mp hentries
              exact ⟨found ++ more, .page hpage hbudget hempty hfound hmore,
                visitAll_append.mpr ⟨_, hvisited, hvisit⟩⟩
          | inr last =>
              rw [Loop.run_of_stop hround] at hrun
              obtain ⟨rfl, rfl⟩ : last = result ∧ u = t := by simpa using hrun
              obtain ⟨page, hpage, hbudget, hempty, hacc⟩ := visitPage_stop.mp hround
              exact ⟨[], .stop hpage hbudget hempty, by rw [visitAll, hacc]⟩
    exact hall _ s h
  · rintro ⟨found, hlisted, hvisit⟩
    induction hlisted generalizing acc with
    | stop hpage hbudget hempty =>
        obtain rfl : acc = result := by simpa [visitAll] using hvisit
        exact Loop.run_of_stop (visitPage_stop.mpr ⟨_, hpage, hbudget, hempty, rfl⟩)
    | page hpage hbudget hempty hentries hrest ih =>
        obtain ⟨middle, hfirst, hsecond⟩ := visitAll_append.mp hvisit
        have hround := visitPage_next.mpr
          ⟨_, _, hpage, hbudget, hempty, visitEntries_ok.mpr ⟨_, hentries, hfirst⟩⟩
        exact (Loop.run_of_next (l := visitPages server path visit handle) hround).trans
          (ih hsecond)

/-! ## Directories -/

/-- A directory that is listed without an error. -/
structure DirectoryListed (server : Server σ) (path : Text) (s : σ)
    (found : List (Text × FileAttrs)) (t : σ) : Prop where
  pages : ∃ handle u v, Session.opendir server path s = .ok handle u ∧
    PagesListed server path handle {} u found v ∧ Session.close server handle v = .ok () t

/-- A visit without errors hands over the entries of the listing one after the other. -/
theorem visitDirectory_ok {init result : β} {s t : σ} :
    visitDirectory server path visit init s = .ok result t ↔
      ∃ found, DirectoryListed server path s found t ∧ visitAll visit found init = .ok result := by
  rw [visitDirectory, estateM_bind_ok]
  constructor
  · rintro ⟨opened, u, hopened, h⟩
    cases opened with
    | error error => simp at h
    | ok handle =>
        simp only [estateM_bind_ok] at h
        obtain ⟨visited, v, hvisited, closed, w, hclosed, h⟩ := h
        cases visited with
        | error error => simp at h
        | ok acc =>
            cases closed with
            | error error => simp at h
            | ok =>
                obtain ⟨rfl, rfl⟩ : acc = result ∧ w = t := by simpa using h
                obtain ⟨found, hpages, hvisit⟩ := visitPages_ok.mp (attempt_eq_result.mp hvisited)
                exact ⟨found, ⟨handle, u, v, attempt_eq_result.mp hopened, hpages,
                  attempt_eq_result.mp hclosed⟩, hvisit⟩
  · rintro ⟨found, ⟨handle, u, v, hopen, hpages, hclose⟩, hvisit⟩
    refine ⟨.ok handle, u, attempt_eq_result.mpr hopen, ?_⟩
    simp only [estateM_bind_ok]
    exact ⟨.ok result, v, attempt_eq_result.mpr (visitPages_ok.mpr ⟨found, hpages, hvisit⟩),
      .ok (), t, attempt_eq_result.mpr hclose, rfl⟩

theorem listDirectory_ok {found : List (Text × FileAttrs)} {s t : σ} :
    listDirectory server path s = .ok found t ↔ DirectoryListed server path s found t := by
  have hcollect : ∀ entries acc : List (Text × FileAttrs),
      entries.foldl (fun acc entry => acc ++ [(entry.1, entry.2)]) acc = acc ++ entries := by
    intro entries
    induction entries with
    | nil => simp
    | cons entry entries ih => simp [ih]
  rw [listDirectory, visitDirectory_ok]
  constructor
  · rintro ⟨entries, hlisted, hvisit⟩
    rw [visitAll_total, hcollect] at hvisit
    obtain rfl : entries = found := by simpa using hvisit
    exact hlisted
  · intro hlisted
    exact ⟨found, hlisted, by rw [visitAll_total, hcollect]; rfl⟩

/-! ## Well-formed listings -/

/-- A name that a listing may contain. -/
structure IsEntryName (name : Text) : Prop where
  ne_nil : name ≠ []
  slash : '/' ∉ name
  backslash : '\\' ∉ name
  control : name.any isControl = false
  ne_curDir : name ≠ ['.']
  ne_parentDir : name ≠ ['.', '.']

/-- What a listing may be after some names have been seen. -/
structure WellListed (seen : List Text) (found : List (Text × FileAttrs)) : Prop where
  names : ∀ entry ∈ found, IsEntryName entry.1
  typed : ∀ entry ∈ found, entry.2.fileType ≠ none
  nodup : (found.map Prod.fst).Nodup
  fresh : ∀ entry ∈ found, entry.1 ∉ seen

theorem admitName_none {listed next : Listed} {entry : NameEntry}
    (h : admitName path listed entry = .ok (next, none)) : next.seen = listed.seen := by
  rw [admitName] at h
  cases hname : entry.filename.toStr with
  | none => simp [hname] at h
  | some name =>
      simp only [hname] at h
      split_ifs at h with hbudget hinvalid hdots hskip hseen
      · obtain rfl : _ = next := by simpa using h
        rfl
      · obtain rfl : _ = next := by simpa using h
        rfl
      · simp at h

theorem admitName_some {listed next : Listed} {entry : NameEntry} {name : Text}
    (h : admitName path listed entry = .ok (next, some name)) :
    IsEntryName name ∧ name ∉ listed.seen ∧ next.seen = name :: listed.seen := by
  rw [admitName] at h
  cases hname : entry.filename.toStr with
  | none => simp [hname] at h
  | some text =>
      simp only [hname] at h
      split_ifs at h with hbudget hinvalid hdots hskip hseen
      · simp at h
      · simp at h
      · obtain ⟨rfl, rfl⟩ : _ = next ∧ text = name := by simpa using h
        simp only [not_or, Bool.not_eq_true] at hinvalid hdots hskip
        exact ⟨⟨hinvalid.1, hinvalid.2.1, hskip.1, hskip.2, hdots.1, hdots.2⟩, hseen, rfl⟩

theorem entryAttrs_typed {name : Text} {entry : NameEntry} {attrs : FileAttrs} {s t : σ}
    (h : entryAttrs server path name entry s = .ok attrs t) : attrs.fileType ≠ none := by
  rw [entryAttrs, estateM_bind_ok] at h
  obtain ⟨a, u, -, h⟩ := h
  split_ifs at h with hnone
  · simp at h
  · obtain ⟨rfl, -⟩ : a = attrs ∧ u = t := by simpa using h
    exact hnone

theorem EntriesListed.seen {entries : List NameEntry} {listed last : Listed}
    {found : List (Text × FileAttrs)} {s t : σ}
    (h : EntriesListed server path entries listed s found last t) (name : Text) :
    name ∈ last.seen ↔ name ∈ found.map Prod.fst ∨ name ∈ listed.seen := by
  induction h with
  | nil => simp
  | pass hallow _ ih => rw [ih, admitName_none hallow]
  | visit hallow _ _ ih =>
      rw [ih, (admitName_some hallow).2.2]
      simp only [List.map_cons, List.mem_cons]
      tauto

theorem EntriesListed.wellListed {entries : List NameEntry} {listed last : Listed}
    {found : List (Text × FileAttrs)} {s t : σ}
    (h : EntriesListed server path entries listed s found last t) :
    WellListed listed.seen found := by
  induction h with
  | nil => constructor <;> simp
  | pass hallow _ ih => exact admitName_none hallow ▸ ih
  | visit hallow hattrs _ ih =>
      obtain ⟨hname, hfresh, hseen⟩ := admitName_some hallow
      rw [hseen] at ih
      refine ⟨?_, ?_, ?_, ?_⟩
      · simpa [hname] using ih.names
      · simpa [entryAttrs_typed hattrs] using ih.typed
      · rw [List.map_cons, List.nodup_cons]
        refine ⟨fun hmem => ?_, ih.nodup⟩
        obtain ⟨entry, hentry, heq⟩ := List.mem_map.mp hmem
        exact ih.fresh entry hentry (heq ▸ List.mem_cons_self)
      · intro entry hentry
        obtain rfl | hentry := List.mem_cons.mp hentry
        · exact hfresh
        · exact fun hmem => ih.fresh entry hentry (List.mem_cons_of_mem _ hmem)

theorem PagesListed.wellListed {handle : Bytes} {listed : Listed}
    {found : List (Text × FileAttrs)} {s t : σ}
    (h : PagesListed server path handle listed s found t) : WellListed listed.seen found := by
  induction h with
  | stop => constructor <;> simp
  | page _ _ _ hentries _ ih =>
      have hfirst := hentries.wellListed
      refine ⟨?_, ?_, ?_, ?_⟩
      · intro entry hentry
        obtain hentry | hentry := List.mem_append.mp hentry
        · exact hfirst.names entry hentry
        · exact ih.names entry hentry
      · intro entry hentry
        obtain hentry | hentry := List.mem_append.mp hentry
        · exact hfirst.typed entry hentry
        · exact ih.typed entry hentry
      · rw [List.map_append]
        refine hfirst.nodup.append ih.nodup fun name hname hother => ?_
        obtain ⟨entry, hentry, rfl⟩ := List.mem_map.mp hother
        exact ih.fresh entry hentry ((hentries.seen _).mpr (.inl hname))
      · intro entry hentry
        obtain hentry | hentry := List.mem_append.mp hentry
        · exact hfirst.fresh entry hentry
        · exact fun hmem => ih.fresh entry hentry ((hentries.seen _).mpr (.inr hmem))

/-- The names of a listing are distinct names, and the types of its entries are known. -/
theorem DirectoryListed.wellListed {found : List (Text × FileAttrs)} {s t : σ}
    (h : DirectoryListed server path s found t) : WellListed [] found := by
  obtain ⟨handle, u, v, -, hpages, -⟩ := h.pages
  exact hpages.wellListed

end ObsidianMcp.Sftp
