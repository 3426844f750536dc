/-!
# The exact value of a 64-bit number

A finite number is plus or minus `mantissa * 2 ^ exponent`. Everything that is said about its
decimal digits is said of that value, in natural numbers.
-/

namespace CssWorkbench

/-- A finite binary number: `mantissa` times two to the `exponent`, perhaps negated. -/
structure Binary where
  negative : Bool
  mantissa : Nat
  exponent : Int
deriving DecidableEq, Repr, Inhabited

namespace Binary

/-- The value of a 64-bit number, if it is finite. -/
def ofFloat? (x : Float) : Option Binary :=
  let bits := x.toBits.toNat
  let negative := 0x8000000000000000 ≤ bits
  let exponent : Nat := bits / 0x10000000000000 % 0x800
  let fraction : Nat := bits % 0x10000000000000
  if exponent = 2047 then none
  else if exponent = 0 then some ⟨negative, fraction, -1074⟩
  else some ⟨negative, 0x10000000000000 + fraction, (exponent : Int) - 1075⟩

/-- The magnitude as a quotient of two natural numbers, the second not zero. -/
def quotient (b : Binary) : Nat × Nat :=
  (b.mantissa * Nat.pow 2 b.exponent.toNat, Nat.pow 2 (-b.exponent).toNat)

end Binary

/-- What is left of `x` when as many whole `y` as fit are taken away; the sign is that of `x`. The
result is exact. -/
def remainder (x y : Float) : Float :=
  match Binary.ofFloat? x, Binary.ofFloat? y with
  | some a, some b =>
    if b.mantissa = 0 then 0.0 / 0.0
    else
      let low := min a.exponent b.exponent
      let num := a.mantissa * Nat.pow 2 (a.exponent - low).toNat
      let den := b.mantissa * Nat.pow 2 (b.exponent - low).toNat
      let rest := (Float.ofNat (num % den)).scaleB low
      if a.negative then -rest else rest
  | some _, none => if y.isNaN then y else x
  | none, _ => 0.0 / 0.0

/-- The remainder that lies between zero and the magnitude of `y`. -/
def wrap (x y : Float) : Float :=
  let r := remainder x y
  if r < 0.0 then r + y.abs else r

/-! ## The longest side of a right triangle -/

/-- The longest side from the two shorter ones, `y` not above `x`, both near enough to one that
squares are in range. A correction makes up for most of what the rounding of the square root
lost. -/
def longestSideNear (x y : Float) : Float :=
  let h := Float.sqrt (x * x + y * y)
  let error :=
    if h <= 2.0 * y then
      let d := h - y
      x * (2.0 * d - x) + (d - 2.0 * (x - y)) * d
    else
      let d := h - x
      2.0 * d * (x - 2.0 * y) + ((4.0 * d - y) * y + d * d)
  h - error / (2.0 * h)

/-- The longest side from the two shorter ones, both not negative and `y` not above `x`. A side that
is too small beside the other to be seen is just added; sides whose squares are out of range are
brought into it first. -/
def longestSide (x y : Float) : Float :=
  let unseen := Float.scaleB 1.0 (-54)
  if Float.scaleB 1.0 511 < x then
    if y <= x * unseen then x + y
    else (longestSideNear (x.scaleB (-600)) (y.scaleB (-600))).scaleB 600
  else if y < Float.scaleB 1.0 (-459) then
    if x >= y / unseen then x + y
    else (longestSideNear (x.scaleB 600) (y.scaleB 600)).scaleB (-600)
  else if y <= x * unseen then x + y
  else longestSideNear x y

/-- The length of the longest side of a right triangle with the shorter sides `x` and `y`. It is
infinite as soon as one of them is. -/
def hypotenuse (x y : Float) : Float :=
  if x.isInf || y.isInf then 1.0 / 0.0
  else if x.isNaN || y.isNaN then 0.0 / 0.0
  else if x.abs < y.abs then longestSide y.abs x.abs
  else longestSide x.abs y.abs

end CssWorkbench
