import CssWorkbench.Workspace.FilePath

/-!
# Addresses

An editor names documents by their addresses. How these are spelled is none of the session's
business: it reads and writes them, resolves references against them, and goes back and forth
between an address and the path of a file. `Addressing` gives a type of addresses these functions;
`LawfulAddressing` says what may be relied on where files are told apart by their addresses.
-/

namespace CssWorkbench

/-- A type of addresses of documents. -/
class Addressing (U : Type) where
  /-- The address that a text spells. -/
  read? : String → Option U
  /-- The address that a reference in the document at an address stands for. -/
  join? : U → String → Option U
  /-- An address as it is written. -/
  written : U → String
  /-- The address of the file at a path. -/
  ofFile? : FilePath → Option U
  /-- The path of the file that an address leads to. -/
  filePath? : U → Option FilePath

/-- Every absolute path has an address, and no relative one; whether a path leads to a folder only
does not show in its address; and the address of a path leads back by its names. -/
class LawfulAddressing (U : Type) [Addressing U] : Prop where
  isSome_ofFile? : ∀ path : FilePath, (Addressing.ofFile? (U := U) path).isSome = path.absolute
  ofFile?_folderOnly : ∀ (path : FilePath) (folderOnly : Bool),
    Addressing.ofFile? (U := U) { path with folderOnly } = Addressing.ofFile? path
  filePath?_of_ofFile? : ∀ {path : FilePath} {u : U}, path.IsProper →
    Addressing.ofFile? path = some u →
      ∃ folderOnly, Addressing.filePath? u = some { path with folderOnly }

namespace Addressing

variable {U : Type} [Addressing U] {path path' : FilePath} {u : U}

/-- An address that is the one made from its path, if it has a path. -/
def IsCanonical (u : U) : Prop := ∀ path, filePath? u = some path → ofFile? path = some u

variable [LawfulAddressing U]

/-- Paths of one address go by the same names. -/
theorem names_inj (hproper : path.IsProper) (hproper' : path'.IsProper)
    (h : ofFile? path = some u) (h' : ofFile? path' = some u) : path.names = path'.names := by
  obtain ⟨_, hpath⟩ := LawfulAddressing.filePath?_of_ofFile? hproper h
  obtain ⟨_, hpath'⟩ := LawfulAddressing.filePath?_of_ofFile? hproper' h'
  exact (FilePath.mk.inj (Option.some.inj (hpath.symm.trans hpath'))).1

end Addressing

end CssWorkbench
