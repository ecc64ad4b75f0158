import ObsidianMcp.Library.Percent
import ObsidianMcp.Library.Fence
import ObsidianMcp.Model.Frontmatter
import ObsidianMcp.Model.EmbeddingCache
import ObsidianMcp.Model.Patch
import ObsidianMcp.Verification.Embeddings.Store
import ObsidianMcp.Verification.Frontmatter.Block
import ObsidianMcp.Verification.Frontmatter.BodyEdits
import ObsidianMcp.Verification.Frontmatter.FieldEdits
import ObsidianMcp.Verification.Frontmatter.Patch
import ObsidianMcp.Library.Interleaving
import ObsidianMcp.Model.EmbeddingCoordinator
import ObsidianMcp.Verification.Links.Suffix
import ObsidianMcp.Verification.Headings.Targets
import ObsidianMcp.Verification.Index.Loads
import ObsidianMcp.Verification.Notes.BulkReads
import ObsidianMcp.Verification.Watcher.Events
import ObsidianMcp.Verification.Lexical.Agreement
import ObsidianMcp.Verification.Lexical.Publication
import ObsidianMcp.Model.LexicalIndex
import ObsidianMcp.Verification.Index.Views
import ObsidianMcp.Verification.Periodic.Formats
import ObsidianMcp.Verification.Periodic.Templates
import ObsidianMcp.Verification.Sftp.Admission
import ObsidianMcp.Verification.Embeddings.Requests
import ObsidianMcp.Verification.Embeddings.Responses
import ObsidianMcp.Verification.Source.HeadingPages
import ObsidianMcp.Verification.Semantic.Ranking
import ObsidianMcp.Verification.Semantic.Rendering
import ObsidianMcp.Verification.Exclude.Policies
import ObsidianMcp.Verification.Links.Reports
import ObsidianMcp.Verification.Access.Provider
import ObsidianMcp.Verification.Paths.Normalization
import ObsidianMcp.Verification.Watcher.Lookup
import ObsidianMcp.Verification.Sftp.Walks
import ObsidianMcp.Verification.Sftp.Reads
import ObsidianMcp.Verification.Chunks.InlineTags
import ObsidianMcp.Verification.Sftp.Budgets
import ObsidianMcp.Model.EmbeddingPreparation
import ObsidianMcp.Verification.Chunks.Sections
import ObsidianMcp.Verification.Source.Locations
import ObsidianMcp.Verification.Chunks.Progress
import ObsidianMcp.Verification.Chunks.Entries
import ObsidianMcp.Model.SourceLocation
import ObsidianMcp.Verification.Daemon.Fallback
