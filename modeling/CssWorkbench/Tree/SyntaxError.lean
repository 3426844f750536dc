import CssWorkbench.Text.Span

/-!
# Syntax errors

What can be wrong in a source. A parse never stops at an error: it notes the cause and the place
and goes on behind it.
-/

namespace CssWorkbench

/-- What is wrong. -/
inductive SyntaxFault
  | expectedBlockEnd | strayBlockEnd | straySemicolon | nestedTooDeeply | expectedProperty
  | expectedColon | expectedBlock | expectedEndOfAtRule
deriving DecidableEq, Repr, Inhabited

/-- The wording of a fault. -/
def SyntaxFault.message : SyntaxFault → String
  | .expectedBlockEnd => "expected '\x7d'"
  | .strayBlockEnd => "unexpected '\x7d'"
  | .straySemicolon => "unexpected ';'"
  | .nestedTooDeeply => "blocks nested too deeply"
  | .expectedProperty => "expected property name"
  | .expectedColon => "expected ':'"
  | .expectedBlock => "expected '\x7b'"
  | .expectedEndOfAtRule => "expected ';' or '\x7b'"

/-- A fault and where it was met. -/
structure SyntaxError where
  fault : SyntaxFault
  span : Span
deriving DecidableEq, Repr, Inhabited

/-- The wording of the fault. -/
def SyntaxError.message (e : SyntaxError) : String := e.fault.message

/-- An error is shown with its place. -/
protected def SyntaxError.toString (e : SyntaxError) : String :=
  e.message ++ " at " ++ e.span.toString

end CssWorkbench
