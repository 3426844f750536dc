import CssWorkbench.Workspace.FilePath

/-!
# File trees

The files that the program can see: texts, files that are no UTF-8 text, and folders. A folder can
also hold what is neither a file nor a folder, such as a socket; nothing is read of it.
-/

namespace CssWorkbench

/-- A file, a folder, or an entry of a folder that is neither. -/
inductive FileTree
  | text (contents : String)
  | binary
  | special
  | folder (entries : List (String × FileTree))
deriving Repr, Inhabited

namespace FileTree

/-- The tree without files. -/
def empty : FileTree := .folder []

/-- The entries of a folder; anything else has none. -/
def entries : FileTree → List (String × FileTree)
  | folder entries => entries
  | text _ => []
  | binary => []
  | special => []

/-- Whether a tree is no folder. -/
def isLeaf : FileTree → Bool
  | text _ => true
  | binary => true
  | special => true
  | folder _ => false

/-- The tree that names lead to; `above` holds the folders that the tree is in, the nearest first.
The root is its own folder. -/
def walk? (above : List FileTree) (t : FileTree) : List String → Option FileTree
  | [] => some t
  | ".." :: names => if t.isLeaf then none else walk? (above.drop 1) (above.headD t) names
  | name :: names => (t.entries.lookup name).bind fun below => walk? (t :: above) below names

/-- The tree at a path. A relative path starts where the names `here` lead to. -/
def at? (t : FileTree) (path : FilePath) (here : List String := []) : Option FileTree :=
  (walk? [] t (if path.absolute then path.names else here ++ path.names)).filter fun found =>
    !(path.folderOnly && found.isLeaf)

/-- The entries of a folder after a new tree was put below it; `put` does the same one level
down. -/
def putEntry (put : FileTree → FileTree) (name : String) :
    List (String × FileTree) → List (String × FileTree)
  | [] => [(name, put .empty)]
  | (n, t) :: rest => if n = name then (n, put t) :: rest else (n, t) :: putEntry put name rest

/-- Put a tree where names lead. Folders on the way are made. -/
def put (new : FileTree) : FileTree → List String → FileTree
  | _, [] => new
  | t, name :: names => .folder (putEntry (fun below => put new below names) name t.entries)

end FileTree

end CssWorkbench
