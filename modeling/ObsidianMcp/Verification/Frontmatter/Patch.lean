import ObsidianMcp.Model.Patch
import ObsidianMcp.Verification.Frontmatter.Block

/-! # Frontmatter patches

Patching delimits the block with a scanner of its own, which trims every line. Both scanners
are compared, and the metadata of the result is read back with the scanner of the reader. -/

namespace ObsidianMcp

open Text

/-! ## The trimming scanner -/

/-- The YAML between the offsets of a range. -/
def FrontmatterRange.yaml (range : FrontmatterRange) (content : Text) : Text :=
  takeBytes (range.yamlEnd - range.yamlStart) (dropBytes range.yamlStart content)

end ObsidianMcp
