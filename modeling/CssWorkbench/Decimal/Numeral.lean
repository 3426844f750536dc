/-!
# Reading decimal numerals

A numeral is a sign, digits, a point with digits behind it, and a power of ten; of the digits
before and behind the point at least one must be there. `Numeral.toFloat` gives the nearest
64-bit number, a tie going to the even one. What digits cannot spell, infinity and what is not a
number, is spelled by words.
-/

namespace CssWorkbench

/-- A decimal numeral: `digits` times ten to the `exponent`, perhaps negated. -/
structure Numeral where
  negative : Bool
  digits : Nat
  exponent : Int
deriving DecidableEq, Repr, Inhabited

namespace Numeral

/-- The number that decimal digits spell. -/
def natural (cs : List Char) : Nat :=
  cs.foldl (fun n c => 10 * n + (c.toNat - '0'.toNat)) 0

/-- A sign at the front: whether it is a minus, and what follows. -/
def takeSign : List Char → Bool × List Char
  | '-' :: cs => (true, cs)
  | '+' :: cs => (false, cs)
  | cs => (false, cs)

/-- The exponent behind the digits: nothing, or `e` with a sign and digits. -/
def readExponent : List Char → Option Int
  | [] => some 0
  | c :: cs =>
    let (negative, digits) := takeSign cs
    if (c = 'e' || c = 'E') && !digits.isEmpty && digits.all Char.isDigit then
      some (if negative then -(natural digits : Int) else natural digits)
    else none

/-- Read a numeral that takes up the whole text. -/
def ofList? (cs : List Char) : Option Numeral :=
  let (negative, unsigned) := takeSign cs
  let whole := unsigned.takeWhile Char.isDigit
  let (fraction, rest) :=
    match unsigned.dropWhile Char.isDigit with
    | '.' :: behind => (behind.takeWhile Char.isDigit, behind.dropWhile Char.isDigit)
    | behind => ([], behind)
  if whole.isEmpty && fraction.isEmpty then none
  else
    (readExponent rest).map fun e => ⟨negative, natural (whole ++ fraction), e - fraction.length⟩

/-- The nearest 64-bit number. -/
def toFloat (n : Numeral) : Float :=
  let magnitude := Float.ofScientific n.digits (n.exponent < 0) n.exponent.natAbs
  if n.negative then -magnitude else magnitude

end Numeral

/-- The words for infinity and for what is not a number, in any letter case. -/
def wordValue? (cs : List Char) : Option Float :=
  match String.ofList (cs.map Char.toLower) with
  | "inf" | "infinity" => some (1.0 / 0.0)
  | "nan" => some (0.0 / 0.0)
  | _ => none

/-- The number that a text spells. -/
def readFloat? (s : String) : Option Float :=
  let (negative, unsigned) := Numeral.takeSign s.toList
  match wordValue? unsigned with
  | some value => some (if negative then -value else value)
  | none => (Numeral.ofList? s.toList).map Numeral.toFloat

end CssWorkbench
