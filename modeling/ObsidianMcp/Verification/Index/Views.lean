import ObsidianMcp.Model.ReadView
import ObsidianMcp.Verification.Index.Graph
import ObsidianMcp.Verification.Links.Suffix

/-! # What a read view shows

A view depends on the notes that are not admitted only through the links that the resolver of the
whole vault lets it keep. -/

namespace ObsidianMcp.VaultIndex

open Text LinkResolver

variable {source : NoteSource} {exclude : ExcludeSet} {contents : Table OsString Text}
  {resolver : LinkResolver} {left right view : VaultIndex} {path : OsString}

/-! ## Statements -/

/-- Two states agree on the notes whose contents are admitted. -/
def SameContents (contents : Table OsString Text) (left right : VaultIndex) : Prop :=
  ∀ path, (contents.lookup path).isSome →
    (left.notes.lookup path).map NoteMetadata.stat = (right.notes.lookup path).map NoteMetadata.stat

/-- The same state with its notes listed in any order. -/
def Reordered (index other : VaultIndex) : Prop :=
  ∃ notes, (∀ path, notes.lookup path = index.notes.lookup path) ∧ other = { index with notes }

/-- A note that a view shows. -/
def Admitted (source : NoteSource) (exclude : ExcludeSet) (contents : Table OsString Text)
    (index : VaultIndex) (path : OsString) : Prop :=
  ∃ metadata, index.notes.lookup path = some metadata ∧
    (admittedNote source exclude contents path metadata).isSome

/-- The links of the admitted notes do not tell the other notes apart, and no retained link names
the path of two admitted notes. -/
structure Discreet (source : NoteSource) (exclude : ExcludeSet) (contents : Table OsString Text)
    (left right : VaultIndex) : Prop where
  retained : ∀ path metadata content note, left.notes.lookup path = some metadata →
    admittedNote source exclude contents path metadata = some (content, note) →
    ∀ link ∈ note.links,
      retainsLink source contents left.linkResolver link =
        retainsLink source contents right.linkResolver link
  unique : ∀ path metadata content note, left.notes.lookup path = some metadata →
    admittedNote source exclude contents path metadata = some (content, note) →
    ∀ link ∈ note.links, retainsLink source contents left.linkResolver link = true →
      '/' ∈ normalizeTarget source.text link.target →
      ∀ a b, Admitted source exclude contents left a → Admitted source exclude contents left b →
        pathKey source.text a = normalizeTarget source.text link.target →
        pathKey source.text b = normalizeTarget source.text link.target → a = b

/-! ## The notes of a view -/

/-- A note as a view shows it. -/
def shownNote (source : NoteSource) (exclude : ExcludeSet) (contents : Table OsString Text)
    (resolver : LinkResolver) (path : OsString) (metadata : NoteMetadata) : Option NoteMetadata :=
  (admittedNote source exclude contents path metadata).map fun admitted =>
    { admitted.2 with links := admitted.2.links.filter (retainsLink source contents resolver) }

/-- The notes of a list of entries as a view shows them. -/
def shownEntries (source : NoteSource) (exclude : ExcludeSet) (contents : Table OsString Text)
    (resolver : LinkResolver) (entries : List (OsString × NoteMetadata)) :
    List (OsString × NoteMetadata) :=
  entries.filterMap fun entry =>
    (shownNote source exclude contents resolver entry.1 entry.2).map (entry.1, ·)

/-- A view while it is built. -/
structure Viewed (source : NoteSource) (exclude : ExcludeSet) (contents : Table OsString Text)
    (resolver : LinkResolver) (done : List (OsString × NoteMetadata)) (view : VaultIndex) :
    Prop where
  notes : view.notes.toPairs = (shownEntries source exclude contents resolver done).reverse
  tags : Inverse.Exact (HasTag source view.notes) view.tags
  attachments : view.attachments = ∅
  attachmentBytes : view.attachmentBytes = 0
  excluded : view.excludedNotePaths = ∅

theorem Viewed.lookup_eq_none {done : List (OsString × NoteMetadata)}
    (h : Viewed source exclude contents resolver done view) (hnew : path ∉ done.map Prod.fst) :
    view.notes.lookup path = none := by
  by_contra hsome
  rcases Option.ne_none_iff_exists'.mp hsome with ⟨note, hnote⟩
  have hmem := Table.mem_toPairs.mpr hnote
  rw [h.notes, List.mem_reverse, shownEntries, List.mem_filterMap] at hmem
  rcases hmem with ⟨entry, hentry, hshown⟩
  rcases Option.map_eq_some_iff.mp hshown with ⟨shown, -, heq⟩
  rw [Prod.mk.injEq] at heq
  apply hnew
  rw [← heq.1]
  exact List.mem_map_of_mem hentry

theorem viewNote_viewed {done : List (OsString × NoteMetadata)} {entry : OsString × NoteMetadata}
    (h : Viewed source exclude contents resolver done view) (hnew : entry.1 ∉ done.map Prod.fst) :
    Viewed source exclude contents resolver (done ++ [entry])
      (viewNote source exclude contents resolver view entry) := by
  have habsent := h.lookup_eq_none hnew
  unfold viewNote
  cases hadmitted : admittedNote source exclude contents entry.1 entry.2 with
  | none =>
      have hentries : shownEntries source exclude contents resolver (done ++ [entry]) =
          shownEntries source exclude contents resolver done := by
        rw [shownEntries, List.filterMap_append]
        simp [shownEntries, shownNote, hadmitted]
      exact { h with notes := by rw [hentries, h.notes] }
  | some admitted =>
      rcases admitted with ⟨content, metadata⟩
      dsimp only
      constructor
      case notes =>
        rw [Table.toPairs_insert, Table.erase_of_lookup_eq_none habsent, h.notes, shownEntries,
          shownEntries, List.filterMap_append, List.reverse_append]
        simp [shownNote, hadmitted]
      case tags =>
        apply (addTags_exact h.tags entry.1 metadata.tags).congr
        intro p tag
        constructor
        · intro htag
          rcases htag with ⟨note, hnote, htag⟩ | ⟨rfl, htag⟩
          · refine ⟨note, ?_, htag⟩
            rw [AList.lookup_insert_ne, hnote]
            intro heq
            rw [heq, habsent] at hnote
            contradiction
          · exact ⟨_, AList.lookup_insert _, htag⟩
        · intro htag
          rcases htag with ⟨note, hnote, htag⟩
          by_cases heq : p = entry.1
          · rw [heq, AList.lookup_insert, Option.some.injEq] at hnote
            rw [← hnote] at htag
            exact .inr ⟨heq, htag⟩
          · rw [AList.lookup_insert_ne heq] at hnote
            exact .inl ⟨note, hnote, htag⟩
      case attachments => exact h.attachments
      case attachmentBytes => exact h.attachmentBytes
      case excluded => exact h.excluded

theorem viewNotes_viewed {entries : List (OsString × NoteMetadata)}
    (hnodup : (entries.map Prod.fst).Nodup) :
    Viewed source exclude contents resolver entries
      (entries.foldl (viewNote source exclude contents resolver) empty) := by
  induction entries using List.reverseRecOn with
  | nil => exact ⟨rfl, holds_empty.consistent.tags, rfl, rfl, rfl⟩
  | append_singleton entries entry ih =>
      rw [List.map_append, List.nodup_append] at hnodup
      rw [List.foldl_append]
      apply viewNote_viewed (ih hnodup.1)
      intro hmem
      exact hnodup.2.2 _ hmem _ List.mem_cons_self rfl

theorem nodup_fst_toPairs {V : Type*} (t : Table OsString V) : (t.toPairs.map Prod.fst).Nodup := by
  have hkeys : t.toPairs.map Prod.fst = t.keys := by
    rw [Table.toPairs, List.map_map]
    rfl
  rw [hkeys]
  exact t.keys_nodup

theorem readView_viewed (source : NoteSource) (exclude : ExcludeSet)
    (contents : Table OsString Text) (index : VaultIndex) :
    Viewed source exclude contents index.linkResolver index.notes.toPairs
      (index.readView source exclude contents) := by
  have h := @viewNotes_viewed source exclude contents index.linkResolver _
    (nodup_fst_toPairs index.notes)
  exact ⟨h.notes, h.tags, h.attachments, h.attachmentBytes, h.excluded⟩

theorem mem_shownEntries {entries : List (OsString × NoteMetadata)} {entry : OsString × NoteMetadata} :
    entry ∈ shownEntries source exclude contents resolver entries ↔
      ∃ metadata, (entry.1, metadata) ∈ entries ∧
        shownNote source exclude contents resolver entry.1 metadata = some entry.2 := by
  rw [shownEntries, List.mem_filterMap]
  constructor
  · intro h
    rcases h with ⟨listed, hlisted, hshown⟩
    rcases Option.map_eq_some_iff.mp hshown with ⟨shown, hkept, rfl⟩
    exact ⟨listed.2, hlisted, hkept⟩
  · intro h
    rcases h with ⟨metadata, hmetadata, hshown⟩
    exact ⟨(entry.1, metadata), hmetadata, by rw [hshown]; rfl⟩

theorem lookup_readView (source : NoteSource) (exclude : ExcludeSet)
    (contents : Table OsString Text) (index : VaultIndex) (path : OsString) :
    (index.readView source exclude contents).notes.lookup path =
      (index.notes.lookup path).bind
        (shownNote source exclude contents index.linkResolver path) := by
  apply Option.ext
  intro note
  rw [← Table.mem_toPairs, (readView_viewed source exclude contents index).notes,
    List.mem_reverse, mem_shownEntries, Option.bind_eq_some_iff]
  constructor
  · intro h
    rcases h with ⟨metadata, hmetadata, hshown⟩
    exact ⟨metadata, Table.mem_toPairs.mp hmetadata, hshown⟩
  · intro h
    rcases h with ⟨metadata, hmetadata, hshown⟩
    exact ⟨metadata, Table.mem_toPairs.mpr hmetadata, hshown⟩

/-- What an admitted note takes from its path and its content. -/
theorem admittedNote_source {metadata note : NoteMetadata} {content : Text}
    (h : admittedNote source exclude contents path metadata = some (content, note)) :
    contents.lookup path = some content ∧ note.path = path ∧
      note.links = extractWikilinks source.md content := by
  unfold admittedNote at h
  cases hcontent : contents.lookup path with
  | none =>
      rw [hcontent] at h
      contradiction
  | some text =>
      rw [hcontent] at h
      dsimp only at h
      by_cases hrefused : (!exclude.allowsSource path text) = true
      · rw [if_pos hrefused] at h
        contradiction
      · rw [if_neg hrefused, parseNoteMetadata] at h
        cases hfrontmatter : parseFrontmatter source.yaml text with
        | error error =>
            rw [hfrontmatter] at h
            contradiction
        | ok frontmatter =>
            rw [hfrontmatter] at h
            have hnote := Prod.mk.inj (Option.some.inj h)
            rw [← hnote.1, ← hnote.2]
            exact ⟨rfl, rfl, rfl⟩

theorem content_of_admitted {metadata : NoteMetadata}
    (h : (admittedNote source exclude contents path metadata).isSome) :
    (contents.lookup path).isSome := by
  cases hcontent : contents.lookup path with
  | none =>
      rw [admittedNote, hcontent] at h
      contradiction
  | some content => rfl

/-- What is admitted of a note depends on its stat only. -/
theorem admittedNote_congr {metadata metadata' : NoteMetadata}
    (h : metadata.stat = metadata'.stat) :
    admittedNote source exclude contents path metadata =
      admittedNote source exclude contents path metadata' := by
  rw [admittedNote, admittedNote, h]

theorem shownNote_eq_some {metadata note : NoteMetadata} :
    shownNote source exclude contents resolver path metadata = some note ↔
      ∃ content admitted, admittedNote source exclude contents path metadata =
        some (content, admitted) ∧
        note = { admitted with
          links := admitted.links.filter (retainsLink source contents resolver) } := by
  rw [shownNote, Option.map_eq_some_iff]
  constructor
  · intro h
    rcases h with ⟨admitted, hadmitted, hnote⟩
    exact ⟨admitted.1, admitted.2, hadmitted, hnote.symm⟩
  · intro h
    rcases h with ⟨content, admitted, hadmitted, hnote⟩
    exact ⟨(content, admitted), hadmitted, hnote.symm⟩

/-! ## The graph of a view -/

/-- The admitted paths in the order in which the index lists them. -/
def shownPaths (source : NoteSource) (exclude : ExcludeSet) (contents : Table OsString Text)
    (index : VaultIndex) : List OsString :=
  (shownEntries source exclude contents index.linkResolver index.notes.toPairs).map Prod.fst

theorem mem_shownPaths {index : VaultIndex} :
    path ∈ shownPaths source exclude contents index ↔
      Admitted source exclude contents index path := by
  rw [shownPaths, List.mem_map]
  constructor
  · intro h
    rcases h with ⟨entry, hentry, rfl⟩
    rcases mem_shownEntries.mp hentry with ⟨metadata, hmetadata, hshown⟩
    rcases shownNote_eq_some.mp hshown with ⟨content, admitted, hadmitted, -⟩
    exact ⟨metadata, Table.mem_toPairs.mp hmetadata, by rw [hadmitted]; rfl⟩
  · intro h
    rcases h with ⟨metadata, hmetadata, hadmitted⟩
    rcases Option.isSome_iff_exists.mp hadmitted with ⟨admitted, hadmitted⟩
    have hshown := (@shownNote_eq_some source exclude contents index.linkResolver _ _ _).mpr
      ⟨admitted.1, admitted.2, hadmitted, rfl⟩
    exact ⟨(path, _), mem_shownEntries.mpr ⟨metadata, Table.mem_toPairs.mpr hmetadata, hshown⟩, rfl⟩

theorem nodup_shownPaths (index : VaultIndex) :
    (shownPaths source exclude contents index).Nodup := by
  have hview := (readView_viewed source exclude contents index).notes
  have hnodup := nodup_fst_toPairs (index.readView source exclude contents).notes
  rw [hview, List.map_reverse, List.nodup_reverse] at hnodup
  exact hnodup

/-- The resolver of a view lists its notes the other way round. -/
theorem readView_resolver (source : NoteSource) (exclude : ExcludeSet)
    (contents : Table OsString Text) (index : VaultIndex) :
    (index.readView source exclude contents).linkResolver =
      build source.text (shownPaths source exclude contents index).reverse := by
  have hview := (readView_viewed source exclude contents index).notes
  have hpaths : (index.readView source exclude contents).notes.toPairs.map (fun e => e.2.path) =
      (shownPaths source exclude contents index).reverse := by
    rw [hview, shownPaths, List.map_reverse]
    congr 1
    apply List.map_congr_left
    intro entry hentry
    rcases mem_shownEntries.mp hentry with ⟨metadata, -, hshown⟩
    rcases shownNote_eq_some.mp hshown with ⟨content, admitted, hadmitted, hnote⟩
    have hpath := (admittedNote_source hadmitted).2.1
    rw [hnote, hpath]
  rw [← hpaths]
  rfl

theorem admitted_iff (h : SameContents contents left right) :
    Admitted source exclude contents left path ↔ Admitted source exclude contents right path := by
  have himp : ∀ {a b : VaultIndex}, SameContents contents a b →
      Admitted source exclude contents a path → Admitted source exclude contents b path := by
    intro a b hsame hadmitted
    rcases hadmitted with ⟨metadata, hmetadata, hadmitted⟩
    have hstat := hsame path (content_of_admitted hadmitted)
    rw [hmetadata, Option.map_some] at hstat
    rcases Option.map_eq_some_iff.mp hstat.symm with ⟨other, hother, hstat⟩
    exact ⟨other, hother, by rwa [admittedNote_congr hstat]⟩
  exact ⟨himp h, himp fun p hp => (h p hp).symm⟩

theorem Discreet.notes (h : Discreet source exclude contents left right)
    (hsame : SameContents contents left right) (path : OsString) :
    (left.readView source exclude contents).notes.lookup path =
      (right.readView source exclude contents).notes.lookup path := by
  rw [lookup_readView, lookup_readView]
  cases hcontent : contents.lookup path with
  | none =>
      have hnone : ∀ resolver metadata,
          shownNote source exclude contents resolver path metadata = none := by
        intro resolver metadata
        rw [shownNote, admittedNote, hcontent]
        rfl
      cases left.notes.lookup path <;> cases right.notes.lookup path <;> simp [hnone]
  | some content =>
      have hstat := hsame path (by rw [hcontent]; rfl)
      cases hleft : left.notes.lookup path with
      | none =>
          rw [hleft, Option.map_none] at hstat
          rw [Option.map_eq_none_iff.mp hstat.symm]
          rfl
      | some metadata =>
          rw [hleft, Option.map_some] at hstat
          rcases Option.map_eq_some_iff.mp hstat.symm with ⟨other, hother, hstat⟩
          rw [hother, Option.bind_some, Option.bind_some, shownNote, shownNote,
            admittedNote_congr hstat]
          cases hadmitted : admittedNote source exclude contents path metadata with
          | none => rfl
          | some admitted =>
              have hlinks := h.retained path metadata admitted.1 admitted.2 hleft hadmitted
              rw [Option.map_some, Option.map_some, List.filter_congr hlinks]

/-- The resolvers of the two views answer a retained link alike. -/
theorem Discreet.sameAnswers (h : Discreet source exclude contents left right)
    (hsame : SameContents contents left right) {note : NoteMetadata}
    (hnote : (left.readView source exclude contents).notes.lookup path = some note)
    {link : WikiLink} (hlink : link ∈ note.links) :
    SameAnswers source.text link.target (left.readView source exclude contents).linkResolver
      (right.readView source exclude contents).linkResolver := by
  rw [lookup_readView, Option.bind_eq_some_iff] at hnote
  rcases hnote with ⟨metadata, hmetadata, hshown⟩
  rcases shownNote_eq_some.mp hshown with ⟨content, admitted, hadmitted, rfl⟩
  have hkept := List.mem_filter.mp hlink
  rw [readView_resolver, readView_resolver]
  apply build_sameAnswers
  · exact List.nodup_reverse.mpr (nodup_shownPaths left)
  · exact List.nodup_reverse.mpr (nodup_shownPaths right)
  · intro p
    rw [List.mem_reverse, List.mem_reverse, mem_shownPaths, mem_shownPaths]
    exact admitted_iff hsame
  · intro hslash a ha b hb
    rw [List.mem_reverse, mem_shownPaths] at ha hb
    exact h.unique path metadata content admitted hmetadata hadmitted link hkept.1 hkept.2 hslash
      a b ha hb

theorem Reordered.refl (index : VaultIndex) : Reordered index index :=
  ⟨index.notes, fun _ => rfl, rfl⟩

theorem Reordered.lookup {index other : VaultIndex} (h : Reordered index other) (path : OsString) :
    other.notes.lookup path = index.notes.lookup path := by
  rcases h with ⟨notes, hnotes, rfl⟩
  exact hnotes path

theorem Reordered.linkResolver {index other : VaultIndex} (h : Reordered index other) :
    other.linkResolver = index.linkResolver := by
  rcases h with ⟨notes, -, rfl⟩
  rfl

theorem Reordered.admitted {index other : VaultIndex} (h : Reordered index other) :
    Admitted source exclude contents other path ↔ Admitted source exclude contents index path := by
  rw [Admitted, Admitted, h.lookup]

end ObsidianMcp.VaultIndex
