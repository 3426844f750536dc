import CssWorkbench.Token.Basic
import CssWorkbench.Token.Stretch
import CssWorkbench.Decimal.Numeral

/-!
# Numbers and units

A dimension token keeps its number and its unit in one text. `splitDimension` parts them again,
by the same rule by which the scanner took the number.
-/

namespace CssWorkbench

/-- The text of the number at the front of a dimension, and its unit. -/
def splitDimension (text : String) : String × String :=
  let parts := splitNumber text.toList
  (String.ofList parts.1, String.ofList parts.2)

namespace Token

/-- The number that a number, percentage or dimension stands for. -/
def number? (t : Token) : Option Float :=
  match t.kind with
  | .number | .percentage => readFloat? t.value
  | .dimension => readFloat? (splitDimension t.value).1
  | _ => none

/-- The unit of a dimension in lower case. -/
def unit? (t : Token) : Option String :=
  if t.kind = .dimension then some (Text.lower (splitDimension t.value).2) else none

end Token

end CssWorkbench
