import CssWorkbench.Custom.Values
import CssWorkbench.Tree.Parser

/-!
# The index of a workspace

Every document contributes the custom properties that it declares, under its address. A name is
looked up in the document that was indexed last of those that declare it. When that document goes,
another one that declares the name takes over: the one that was indexed first.
-/

namespace CssWorkbench

/-- The custom properties of a workspace: those of each document, and for every name the document
that owns it with its value there. -/
structure PropertyIndex (U : Type) where
  documents : Dictionary U CustomValues
  latest : Dictionary String (U × String)
deriving DecidableEq, Repr, Inhabited

/-- The custom properties that a text declares, by name, with the blanks around their values
dropped. -/
def declaredIn (text : String) : CustomValues :=
  (((parse text).1.customValues text).map fun p => (p.1, Text.trimString p.2)).mergeSort
    fun a b => a.1 < b.1 || (a.1 = b.1 && a.2 ≤ b.2)

namespace PropertyIndex

variable {U : Type}

/-- The index without documents. -/
def empty : PropertyIndex U := ⟨[], []⟩

/-- The value of a name. -/
def resolve (index : PropertyIndex U) (name : String) : Option String :=
  (index.latest.get? name).map Prod.snd

variable [DecidableEq U]

/-- Whether a document is in the index. -/
def has (index : PropertyIndex U) (uri : U) : Bool :=
  index.documents.has uri

/-- The first document that declares a name, with its value there. -/
def declarer? (documents : Dictionary U CustomValues) (name : String) : Option (U × String) :=
  documents.findSome? fun d => (d.2.get? name).map fun value => (d.1, value)

/-- Let go of a name if a document owns it, and give it to another document that declares it. -/
def release (uri : U) (index : PropertyIndex U) (name : String) : PropertyIndex U :=
  if (index.latest.get? name).any fun owner => owner.1 ≠ uri then index
  else
    match declarer? index.documents name with
    | some owner => { index with latest := index.latest.put name owner }
    | none => { index with latest := index.latest.erase name }

/-- Take a document out. -/
def remove (index : PropertyIndex U) (uri : U) : PropertyIndex U :=
  match index.documents.get? uri with
  | some entries =>
    (entries.map Prod.fst).foldl (release uri)
      { index with documents := index.documents.erase uri }
  | none => index

/-- Make a document the owner of the names that it declares. -/
def takeOver (uri : U) (latest : Dictionary String (U × String)) (entries : CustomValues) :
    Dictionary String (U × String) :=
  entries.foldl (fun latest p => latest.put p.1 (uri, p.2)) latest

/-- Put what a document declares in the place of what it declared before. -/
def insert (index : PropertyIndex U) (uri : U) (entries : CustomValues) : PropertyIndex U :=
  let index := index.remove uri
  ⟨index.documents.put uri entries, takeOver uri index.latest entries⟩

/-- Index the text of a document. -/
def indexText (index : PropertyIndex U) (uri : U) (text : String) : PropertyIndex U :=
  index.insert uri (declaredIn text)

end PropertyIndex

end CssWorkbench
