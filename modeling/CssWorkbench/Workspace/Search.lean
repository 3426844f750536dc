import CssWorkbench.Workspace.Addressing
import CssWorkbench.Workspace.FileTree
import CssWorkbench.Workspace.PropertyIndex

/-!
# Indexing files

A file is read at its path and indexed by the address that is made from it; a relative path has no
address. The stylesheets below a folder are indexed by a search that takes turns: one turn takes a
folder off a stack, looks at one of its entries, reads one file or indexes one text. Between two
turns others may change the files and the index. `PropertyIndex.scanFolder` makes a whole search
while nobody else does anything.
-/

namespace CssWorkbench

/-- Why files could not be indexed; the path is given as it was asked for. -/
inductive FileError
  | unreadable (path : String)
  | unlistable (path : String)
  | relative (path : String)
deriving DecidableEq, Repr, Inhabited

/-- The wording of an error. -/
def FileError.message : FileError → String
  | .unreadable path => "failed to read " ++ path
  | .unlistable path => "failed to list " ++ path
  | .relative path => "not an absolute path: " ++ path

/-! ## Names -/

/-- Folders that are not searched. -/
def skippedFolders : List String := ["node_modules", "target", "dist"]

/-- Whether a folder is searched. -/
def isSearched (folder : String) : Bool :=
  folder.toList.head? ≠ some '.' && !skippedFolders.contains folder

/-- The extension of the name of a file: what follows the last point, unless that opens the name. -/
def extension? (name : String) : Option String :=
  let backwards := name.toList.reverse
  let extension := backwards.takeWhile (· ≠ '.')
  match backwards.drop extension.length with
  | _ :: stem => if stem.isEmpty then none else some (String.ofList extension.reverse)
  | [] => none

/-- Whether a file is a stylesheet by its name. -/
def isStylesheetName (name : String) : Bool :=
  (extension? name).any fun extension => Text.lower extension = "css"

/-! ## Single files -/

variable {U : Type} [DecidableEq U] [Addressing U]

/-- Index the text of the file at a path by the address of the path, if that has one. -/
def PropertyIndex.indexAt? (index : PropertyIndex U) (path : FilePath) (contents : String) :
    Option (PropertyIndex U) :=
  (Addressing.ofFile? path).map fun uri => index.indexText uri contents

/-- Index the file at a path. The number is that of the custom properties it declares. -/
def PropertyIndex.indexFile (index : PropertyIndex U) (files : FileTree) (path : String)
    (here : List String := []) : Except FileError (Nat × PropertyIndex U) :=
  match files.at? (.ofString path) here with
  | some (.text contents) =>
    match index.indexAt? (.ofString path) contents with
    | some index => .ok ((declaredIn contents).length, index)
    | none => .error (.relative path)
  | _ => .error (.unreadable path)

/-! ## Searches by turns -/

/-- A search under way: the folders that are still to be looked through, the one found last in
front; the folder in hand with the entries of it that are still to be looked at; the stylesheet in
hand, with its text once that was read; and how many stylesheets were indexed. -/
structure Search where
  folders : List FilePath
  folder : FilePath
  entries : List (String × FileTree)
  file : Option (FilePath × Option String)
  indexed : Nat
deriving Repr, Inhabited

namespace Search

/-- A search below a folder, at its start. -/
def start (root : FilePath) : Search := ⟨[root], root, [], none, 0⟩

/-- A search that has nothing to look at. -/
def finished : Search := ⟨[], default, [], none, 0⟩

/-- A search that is at its end has nothing more to look at. -/
def isOver (s : Search) : Bool := s.folders.isEmpty && s.entries.isEmpty && s.file.isNone

/-- Look at an entry of the folder in hand. A folder is put on the stack and a stylesheet taken in
hand; anything else is passed over. Whether a stylesheet can be read is seen later. -/
def look (skip : U → Bool) (s : Search) (name : String) : FileTree → Search
  | .folder _ =>
    if isSearched name then { s with folders := s.folder.child name :: s.folders } else s
  | .text _ | .binary =>
    if isStylesheetName name && !(Addressing.ofFile? (s.folder.child name)).any skip then
      { s with file := some (s.folder.child name, none) }
    else s
  | .special => s

/-- The text of a file at a path. -/
def textAt? (files : FileTree) (path : FilePath) (here : List String) : Option String :=
  match files.at? path here with
  | some (.text contents) => some contents
  | _ => none

/-- One turn: a text in hand is indexed, a file in hand is read, an entry is looked at, or else the
next folder is taken off the stack. There is none when that cannot be listed. A file that cannot be
read or has no address is let go. -/
def turn (files : FileTree) (here : List String) (skip : U → Bool) (s : Search)
    (index : PropertyIndex U) : Option (Search × PropertyIndex U) :=
  match s.file, s.entries, s.folders with
  | some (path, some contents), _, _ =>
    match index.indexAt? path contents with
    | some index => some ({ s with file := none, indexed := s.indexed + 1 }, index)
    | none => some ({ s with file := none }, index)
  | some (path, none), _, _ =>
    some ({ s with file := (textAt? files path here).map fun contents => (path, some contents) },
      index)
  | none, (name, t) :: entries, _ => some (look skip { s with entries } name t, index)
  | none, [], path :: folders =>
    match files.at? path here with
    | some (.folder entries) => some ({ s with folders, folder := path, entries }, index)
    | _ => none
  | none, [], [] => some (s, index)

/-- Some turns, one after the other. -/
def turns (files : FileTree) (here : List String) (skip : U → Bool) :
    Nat → Search → PropertyIndex U → Option (Search × PropertyIndex U)
  | 0, s, index => some (s, index)
  | n + 1, s, index =>
    (s.turn files here skip index).bind fun next => turns files here skip n next.1 next.2

end Search

/-! ## Whole searches -/

/-- The stylesheets among the entries of a folder at a path, with their texts. -/
def stylesheetsAmong (path : FilePath) (entries : List (String × FileTree)) :
    List (FilePath × String) :=
  entries.filterMap fun entry =>
    match entry.2 with
    | .text contents =>
      if isStylesheetName entry.1 then some (path.child entry.1, contents) else none
    | _ => none

mutual

/-- The stylesheets below a folder at a path, with their texts: first its own, then those of the
folders in it. Anything else has none below it. -/
def FileTree.stylesheets (path : FilePath) : FileTree → List (FilePath × String)
  | .text _ => []
  | .binary => []
  | .special => []
  | .folder entries => stylesheetsAmong path entries ++ stylesheetsBelow path entries

/-- The stylesheets below the folders that are searched among the entries of a folder at a path. The
last of these folders comes first. -/
def stylesheetsBelow (path : FilePath) : List (String × FileTree) → List (FilePath × String)
  | [] => []
  | (name, t) :: rest =>
    stylesheetsBelow path rest ++ if isSearched name then t.stylesheets (path.child name) else []

end

/-- The files of some that have an address which is not one to skip, by their addresses. -/
def addressed (skip : U → Bool) (found : List (FilePath × String)) : List (U × String) :=
  found.filterMap fun f =>
    ((Addressing.ofFile? f.1).filter fun uri => !skip uri).map fun uri => (uri, f.2)

namespace PropertyIndex

/-- Index some stylesheets, each by the address of its file. -/
def indexFound (index : PropertyIndex U) (found : List (U × String)) : PropertyIndex U :=
  found.foldl (fun index f => index.indexText f.1 f.2) index

/-- Index the stylesheets below a folder, those that `skip` names aside. The number is that of the
files indexed. -/
def scanFolder (index : PropertyIndex U) (files : FileTree) (path : String) (skip : U → Bool)
    (here : List String := []) : Except FileError (Nat × PropertyIndex U) :=
  match files.at? (.ofString path) here with
  | some (.folder entries) =>
    let found := addressed skip ((FileTree.folder entries).stylesheets (.ofString path))
    .ok (found.length, index.indexFound found)
  | _ => .error (.unlistable path)

end PropertyIndex

end CssWorkbench
