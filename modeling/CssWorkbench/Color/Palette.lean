import CssWorkbench.Text.Edit
import CssWorkbench.Tree.Walk
import CssWorkbench.Color.Search
import CssWorkbench.Color.Spelling

/-!
# The colors of a stylesheet

The colors in the values of all declarations, and the edits that spell one of them differently.
-/

namespace CssWorkbench

/-- Every color in the value of a declaration, in source order. References are followed if there is
a resolver. -/
def Stylesheet.colors (sheet : Stylesheet) (resolver : Option Resolver) : List ColorMatch :=
  sheet.declarations.flatMap fun d => allColors resolver d.1.tokens

/-- The offer to spell a color differently. -/
structure Respelling where
  spelling : Spelling
  edit : TextEdit
deriving DecidableEq, Repr, Inhabited

/-- The title under which a respelling is offered. -/
def Respelling.title (r : Respelling) : String :=
  "Convert to " ++ r.spelling.name ++ ": " ++ r.edit.newText

/-- The respellings of the color at an offset into what it is not yet spelled as. -/
def Stylesheet.respellingsAt (sheet : Stylesheet) (source : String) (offset : Nat) :
    List Respelling :=
  match (sheet.colors none).find? fun c => c.span.contains offset with
  | some found =>
    let current := Spelling.ofText? (found.span.text source)
    (Spelling.all.filter fun s => current ≠ some s).map fun s =>
      ⟨s, ⟨found.span, found.color.spell s⟩⟩
  | none => []

end CssWorkbench
