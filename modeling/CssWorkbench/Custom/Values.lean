import CssWorkbench.Dictionary
import CssWorkbench.Tree.Walk

/-!
# The values of custom properties

The custom properties that a stylesheet declares, each with the source text of its value. Of
several declarations of one property the last one counts.
-/

namespace CssWorkbench

/-- The text of the value of a declaration, as the source has it. -/
def Declaration.valueText (source : String) (d : Declaration) : String :=
  match d.value with
  | some v => v.span.text source
  | none => ""

/-- Texts by the names of custom properties. -/
abbrev CustomValues := Dictionary String String

/-- The values in the order of their names. -/
def CustomValues.sorted (values : CustomValues) : CustomValues :=
  values.mergeSort fun a b => a.1 ≤ b.1

namespace Stylesheet

/-- The declarations of custom properties, in source order. -/
def customDeclarations (sheet : Stylesheet) : List Declaration :=
  (sheet.declarations.map Prod.fst).filter Declaration.isCustom

/-- The values of the custom properties that a stylesheet declares. -/
def customValues (sheet : Stylesheet) (source : String) : CustomValues :=
  sheet.customDeclarations.foldl (fun values d => values.put d.name (d.valueText source)) []

end Stylesheet

end CssWorkbench
