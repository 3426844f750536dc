import CssWorkbench.Text.Parts

/-!
# File paths

A path leads by names: an absolute one from the root of the files, a relative one from the folder
that the program was started in. The name `..` goes back to the folder above. A path that is written
with a slash or a point at its end leads to a folder only.
-/

namespace CssWorkbench

/-- A path. -/
structure FilePath where
  names : List String
  folderOnly : Bool
  absolute : Bool
deriving DecidableEq, Repr, Inhabited

namespace FilePath

/-- The path that texts between slashes spell. Empty ones and points lead nowhere. -/
def ofParts (absolute : Bool) (parts : List String) : FilePath :=
  ⟨parts.filter fun name => name ≠ "" && name ≠ ".",
    parts.getLast?.any fun name => name = "" || name = ".", absolute⟩

/-- The path that a text spells. It is absolute if the text starts with a slash. No file has the
empty path. -/
def ofString (text : String) : FilePath :=
  if text = "" then ⟨[""], false, false⟩
  else
    ofParts (text.toList.head? = some '/')
      ((Text.splitAtEach (· = '/') text.toList).map String.ofList)

/-- The path of an entry of the folder at a path. -/
def child (path : FilePath) (name : String) : FilePath :=
  ⟨path.names ++ [name], false, path.absolute⟩

/-- A name that may stand on a path: it is not empty, no point, and has no slash in it. -/
def IsName (name : String) : Prop := name ≠ "" ∧ name ≠ "." ∧ '/' ∉ name.toList

instance (name : String) : Decidable (IsName name) :=
  inferInstanceAs (Decidable (_ ∧ _ ∧ _))

/-- All names on a path are names. -/
def IsProper (path : FilePath) : Prop := ∀ name ∈ path.names, IsName name

variable {path : FilePath} {name text : String}

/-- The path of an entry ends with the name of the entry. -/
@[simp] theorem names_child (path : FilePath) (name : String) :
    (path.child name).names = path.names ++ [name] := rfl

/-- The path of an entry starts where that of the folder does. -/
@[simp] theorem absolute_child (path : FilePath) (name : String) :
    (path.child name).absolute = path.absolute := rfl

/-- A proper path that leads on by a name is proper. -/
theorem IsProper.child (h : path.IsProper) (hname : IsName name) : (path.child name).IsProper :=
  List.forall_mem_append.mpr ⟨h, List.forall_mem_singleton.mpr hname⟩

/-- A path that is read off a text is proper, unless the text is empty. -/
theorem isProper_ofString (h : text ≠ "") : (ofString text).IsProper := by
  rw [ofString, if_neg h]
  intro name hname
  obtain ⟨hmem, hkept⟩ := List.mem_filter.mp hname
  obtain ⟨part, hpart, rfl⟩ := List.mem_map.mp hmem
  simp only [ne_eq, decide_not, Bool.and_eq_true, Bool.not_eq_true', decide_eq_false_iff_not]
    at hkept
  refine ⟨hkept.1, hkept.2, fun hslash => ?_⟩
  rw [String.toList_ofList] at hslash
  simpa using Text.forall_of_mem_splitAtEach hpart _ hslash

/-- The empty path is not absolute, so that an absolute path that is read off a text is proper. -/
theorem isProper_ofString_of_absolute (h : (ofString text).absolute = true) :
    (ofString text).IsProper := by
  refine isProper_ofString fun hempty => ?_
  subst hempty
  cases h

end FilePath

end CssWorkbench
