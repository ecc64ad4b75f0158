import ObsidianMcp.Model.VaultIndex

/-! # Read views

A view is built from the contents that a reader may see. The order of its notes follows the order in
which the index lists them. -/

namespace ObsidianMcp.VaultIndex

open Text

variable (source : NoteSource) (exclude : ExcludeSet) (contents : Table OsString Text)

/-- The metadata of an admitted note, read from its content. -/
def admittedNote (path : OsString) (metadata : NoteMetadata) : Option (Text × NoteMetadata) :=
  match contents.lookup path with
  | none => none
  | some content =>
      if !exclude.allowsSource path content then none
      else
        match parseNoteMetadata source path content metadata.stat with
        | .error _ => none
        | .ok metadata => some (content, metadata)

/-- A link that resolves to no note, or to one that is admitted. -/
def retainsLink (resolver : LinkResolver) (link : WikiLink) : Bool :=
  (resolver.resolve source.text link.target).all fun target => (contents.lookup target).isSome

/-- One step of the loop over the notes. -/
def viewNote (resolver : LinkResolver) (view : VaultIndex) (entry : OsString × NoteMetadata) :
    VaultIndex :=
  match admittedNote source exclude contents entry.1 entry.2 with
  | none => view
  | some (content, metadata) =>
      let metadata := { metadata with
        links := metadata.links.filter (retainsLink source contents resolver) }
      { view with
        tags := addTags source entry.1 metadata.tags view.tags
        sourceRevisions := view.sourceRevisions.insert entry.1 (source.sourceRevision content)
        notes := view.notes.insert entry.1 metadata }

/-- Build an isolated metadata and graph projection. -/
def readView (index : VaultIndex) : VaultIndex :=
  let view := index.notes.toPairs.foldl (viewNote source exclude contents index.linkResolver) empty
  let view := { view with
    linkResolver := LinkResolver.build source.text
      (view.notes.toPairs.map fun entry : OsString × NoteMetadata => entry.2.path) }
  let view := view.rebuildBacklinks source
  { view with stats := view.recomputeStats }

/-- The links that resolve to no note. -/
def brokenLinks (index : VaultIndex) : List (OsString × WikiLink) :=
  index.notes.toPairs.flatMap fun entry : OsString × NoteMetadata =>
    (entry.2.links.filter fun link =>
      !link.target.isEmpty && !index.linkResolver.isResolved source.text link.target).map
        (entry.2.path, ·)

end ObsidianMcp.VaultIndex
