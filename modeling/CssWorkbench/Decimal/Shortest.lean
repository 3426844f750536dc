import CssWorkbench.Decimal.Binary

/-!
# The fewest digits that read back

Of all decimal numerals that read back as a given 64-bit number, the shortest is the one on the
coarsest decimal grid that has a point in the interval of reals rounding to that number. If two
points of that grid do, the nearer one is taken.
-/

namespace CssWorkbench.Decimal

/-- The reals that round to a number, as multiples of a quarter of its last binary place: the two
ends, the number itself between them, and whether the ends belong. -/
structure Rounding where
  low : Nat
  value : Nat
  high : Nat
  closed : Bool
deriving DecidableEq, Repr

/-- The rounding interval of a number. Below a power of two the neighbours are half as far. -/
def Rounding.of (b : Binary) : Rounding :=
  let m := b.mantissa
  let narrow := m = 0x10000000000000 ∧ -1074 < b.exponent
  ⟨if narrow then 4 * m - 1 else 4 * m - 2, 4 * m, 4 * m + 2, m % 2 = 0⟩

/-- Whether `point / scale` lies in the interval. -/
def Rounding.holds (r : Rounding) (point scale : Nat) : Bool :=
  if r.closed then r.low * scale ≤ point && point ≤ r.high * scale
  else r.low * scale < point && point < r.high * scale

/-- The digits of the point of the grid `10 ^ exponent` that lies in the interval, nearest to the
number; quarters are worth `2 ^ quarter`. -/
def gridDigits? (r : Rounding) (quarter exponent : Int) : Option Nat :=
  let num := Nat.pow 2 quarter.toNat * Nat.pow 10 (-exponent).toNat
  let den := Nat.pow 2 (-quarter).toNat * Nat.pow 10 exponent.toNat
  let below := r.value * num / den
  let hit (n : Nat) := 0 < n && r.holds (n * den) num
  match hit below, hit (below + 1) with
  | true, true =>
    let up := (below + 1) * den - r.value * num
    let down := r.value * num - below * den
    some (if down < up || (down = up && below % 2 = 0) then below else below + 1)
  | true, false => some below
  | false, true => some (below + 1)
  | false, false => none

/-- The first grid from `exponent` downwards that has a point in the interval: its digits and its
power of ten. -/
def coarsest (r : Rounding) (quarter : Int) : (grids : Nat) → (exponent : Int) → Nat × Int
  | 0, exponent => (0, exponent)
  | grids + 1, exponent =>
    match gridDigits? r quarter exponent with
    | some digits => (digits, exponent)
    | none => coarsest r quarter grids (exponent - 1)

/-- The shortest digits of a number other than zero, and the power of ten they are multiplied
by. -/
def shortest (b : Binary) : Nat × Int :=
  coarsest (Rounding.of b) (b.exponent - 2) 700 309

/-- A number as JSON writes it: always with a fraction or an exponent, positional for up to sixteen
digits before the point and up to five places of zeros behind it. -/
def jsonFloat (x : Float) : String :=
  match Binary.ofFloat? x with
  | none => "null"
  | some b =>
    let sign := if b.negative then "-" else ""
    if b.mantissa = 0 then sign ++ "0.0"
    else
      let (digits, exponent) := shortest b
      let text := (toString digits).toList
      let point := (text.length : Int) + exponent
      let body :=
        if 0 ≤ exponent && point ≤ 16 then
          text ++ List.replicate exponent.toNat '0' ++ ['.', '0']
        else if 0 < point && point ≤ 16 then
          text.take point.toNat ++ '.' :: text.drop point.toNat
        else if -5 < point && point ≤ 0 then
          ['0', '.'] ++ List.replicate (-point).toNat '0' ++ text
        else
          let mantissa := text.take 1 ++ (if text.length = 1 then [] else '.' :: text.drop 1)
          mantissa ++ 'e' :: (toString (point - 1)).toList
      sign ++ String.ofList body

end CssWorkbench.Decimal
