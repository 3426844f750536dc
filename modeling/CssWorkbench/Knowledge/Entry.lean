import CssWorkbench.Text.Blank

/-!
# Known names

What is known of the language is kept in tables of names with descriptions. A name is looked up
in any letter case; whether it is known may also be asked of the name behind a vendor's mark, as
in `-webkit-appearance`.
-/

namespace CssWorkbench.Knowledge

/-- A known name with its description, and whether its use is discouraged. -/
structure Entry where
  name : String
  description : String
  obsolete : Bool
deriving DecidableEq, Repr, Inhabited

/-- An entry in use. -/
def entry (name description : String) : Entry := ⟨name, description, false⟩

/-- An entry that is no longer to be used. -/
def oldEntry (name description : String) : Entry := ⟨name, description, true⟩

/-- What stands behind `mark` in `text`, if it opens the text. -/
def behind? (mark text : List Char) : Option (List Char) :=
  if mark.isPrefixOf text then some (text.drop mark.length) else none

/-- The marks that vendors put in front of names of their own. -/
def vendorMarks : List String := ["-webkit-", "-moz-", "-ms-", "-o-"]

/-- A name without the vendor's mark in front. -/
def unprefixed (name : String) : String :=
  match vendorMarks.findSome? fun mark => behind? mark.toList name.toList with
  | some bare => String.ofList bare
  | none => name

namespace Entry

/-- The entry of a name in a table, in any letter case. -/
def find? (table : List Entry) (name : String) : Option Entry :=
  let name := Text.lower name
  List.find? (fun e => e.name = name) table

/-- Whether a table has a name, by itself or behind a vendor's mark. -/
def knows (table : List Entry) (name : String) : Bool :=
  let name := Text.lower name
  let bare := unprefixed name
  table.any fun e => e.name = name || e.name = bare

end Entry

end CssWorkbench.Knowledge
