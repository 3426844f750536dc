import CssWorkbench.Url.File
import CssWorkbench.Workspace.Search

/-!
# The index by URLs

The index of a workspace whose documents are named by URLs.
-/

namespace CssWorkbench

/-- The custom properties of a workspace, by the URLs of its documents. -/
abbrev VariableIndex := PropertyIndex Url

end CssWorkbench
