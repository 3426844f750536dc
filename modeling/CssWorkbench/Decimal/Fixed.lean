import CssWorkbench.Decimal.Binary

/-!
# Fixed places

`fixed places x` writes the exact value of `x` with that many digits behind the point. A value
half-way between two such numerals goes to the one with the even last digit.
-/

namespace CssWorkbench.Decimal

/-- The natural number nearest to `num / den`; a half goes to the even neighbour. -/
def roundDiv (num den : Nat) : Nat :=
  let q := num / den
  let r := num % den
  if 2 * r < den then q else if den < 2 * r then q + 1 else if q % 2 = 0 then q else q + 1

/-- The rounded quotient is within half a unit of the quotient. -/
theorem roundDiv_near (num : Nat) {den : Nat} (pos : 0 < den) :
    2 * num ≤ 2 * (roundDiv num den * den) + den ∧
      2 * (roundDiv num den * den) ≤ 2 * num + den := by
  have whole : num = num / den * den + num % den := by
    rw [Nat.mul_comm]; exact (Nat.div_add_mod num den).symm
  have next : (num / den + 1) * den = num / den * den + den := Nat.succ_mul _ _
  have := Nat.mod_lt num pos
  simp only [roundDiv]
  split
  · omega
  · split
    · omega
    · split <;> omega

/-- The decimal digits of a number, at least `width` of them. -/
def padded (width n : Nat) : String :=
  let digits := toString n
  String.ofList (List.replicate (width - digits.length) '0') ++ digits

/-- A number of `units`, each ten to the minus `places`, with its point. -/
def withPoint (places units : Nat) : String :=
  if places = 0 then toString units
  else toString (units / Nat.pow 10 places) ++ "." ++ padded places (units % Nat.pow 10 places)

/-- The exact value of `x` to `places` digits behind the point. -/
def fixed (places : Nat) (x : Float) : String :=
  match Binary.ofFloat? x with
  | some b =>
    let (num, den) := b.quotient
    (if b.negative then "-" else "") ++ withPoint places (roundDiv (num * Nat.pow 10 places) den)
  | none => if x.isNaN then "NaN" else if x < 0.0 then "-inf" else "inf"

end CssWorkbench.Decimal
