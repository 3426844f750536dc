/-!
# Punycode

The label of a domain that has characters outside ASCII is written in ASCII: first its ASCII
characters and a hyphen, then a number for each of the others in the order of their code points. A
number tells how many steps the writer of the label takes, over all places and code points, from one
insertion to the next. Numbers have digits of varying worth, least first, and a last digit that is
below a threshold; the thresholds follow the size of the numbers before.
-/

namespace CssWorkbench.Url.Punycode

/-- A digit below 36: the letters come first. -/
def digitChar (d : Nat) : Char :=
  if d < 26 then Char.ofNat ('a'.toNat + d) else Char.ofNat ('0'.toNat + d - 26)

/-- The value of a digit. -/
def digitValue? (c : Char) : Option Nat :=
  if c.isLower then some (c.toNat - 'a'.toNat)
  else if c.isUpper then some (c.toNat - 'A'.toNat)
  else if c.isDigit then some (c.toNat - '0'.toNat + 26)
  else none

/-- The digit at `place`, which counts in steps of 36, is the last one if it is below this. -/
def threshold (place bias : Nat) : Nat :=
  if place ≤ bias then 1 else if bias + 26 ≤ place then 26 else place - bias

/-- A threshold is never zero. -/
theorem threshold_pos (place bias : Nat) : 0 < threshold place bias := by
  unfold threshold
  split
  · omega
  · split <;> omega

/-- Divide a number until it is small, and count the divisions in steps of 36. -/
def shrink (number place : Nat) : Nat × Nat :=
  if 455 < number then shrink (number / 35) (place + 36) else (number, place)
termination_by number
decreasing_by exact Nat.div_lt_self (by omega) (by omega)

/-- The bias after a number, when `length` characters are written. -/
def adapt (number length : Nat) (first : Bool) : Nat :=
  let number := if first then number / 700 else number / 2
  let (small, place) := shrink (number + number / length) 0
  place + 36 * small / (small + 38)

/-! ## Writing -/

/-- What is left for the higher digits of a number is less than the number. -/
theorem higherDigits_lt {number place bias : Nat} (h : ¬ number < threshold place bias) :
    (number - threshold place bias) / (36 - threshold place bias) < number :=
  have := threshold_pos place bias
  Nat.lt_of_le_of_lt (Nat.div_le_self _ _) (by omega)

/-- The digits of a number from a place on. -/
def digits (bias place number : Nat) : List Char :=
  let t := threshold place bias
  if number < t then [digitChar number]
  else
    digitChar (t + (number - t) % (36 - t)) ::
      digits bias (place + 36) ((number - t) / (36 - t))
termination_by number
decreasing_by exact higherDigits_lt ‹_›

/-- What is known between two insertions: the digits so far, newest first, the steps since the last
insertion, the bias and the number of characters written. -/
structure Writing where
  digits : List Char
  steps : Nat
  bias : Nat
  length : Nat

/-- Pass a character of the label on the way through code point `n`. -/
def pass (ascii n : Nat) (w : Writing) (c : Char) : Writing :=
  if c.toNat < n then { w with steps := w.steps + 1 }
  else if c.toNat = n then
    ⟨(Punycode.digits w.bias 36 w.steps).reverse ++ w.digits, 0,
      adapt w.steps (w.length + 1) (w.length = ascii), w.length + 1⟩
  else w

/-- Write the characters of a label with the given code points, which grow; `n` is the code point
that was reached. -/
def insertions (label : List Char) (ascii : Nat) : List Nat → Nat → Writing → Writing
  | [], _, w => w
  | m :: ms, n, w =>
    let w := { w with steps := w.steps + (m - n) * (w.length + 1) }
    let w := label.foldl (pass ascii m) w
    insertions label ascii ms (m + 1) { w with steps := w.steps + 1 }

/-- The code points of a label outside ASCII, each once, from the least to the greatest. -/
def codePoints (label : List Char) : List Nat :=
  (((label.map Char.toNat).filter (0x80 ≤ ·)).mergeSort (· ≤ ·)).eraseReps

/-- A label in ASCII. -/
def encode (label : List Char) : List Char :=
  let ascii := label.filter fun c => c.toNat < 0x80
  let w := insertions label ascii.length (codePoints label) 0x80 ⟨[], 0, 72, ascii.length⟩
  ascii ++ (if ascii.isEmpty then [] else ['-']) ++ w.digits.reverse

/-! ## Reading -/

/-- What is known while the digits of a number are read: the characters so far, the code point, the
place of the last insertion, the number so far, the worth of the next digit and its place, and the
bias. -/
structure Reading where
  label : List Char
  code : Nat
  start : Nat
  number : Nat
  worth : Nat
  place : Nat
  bias : Nat

/-- Insert the character that a number tells. -/
def Reading.insert? (r : Reading) : Option Reading :=
  let length := r.label.length + 1
  let steps := r.start + r.number
  let code := r.code + steps / length
  if code.isValidChar then
    some ⟨r.label.insertIdx (steps % length) (Char.ofNat code), code, steps % length + 1, 0, 1, 36,
      adapt r.number length (r.start = 0)⟩
  else none

/-- Read digits. A number that breaks off makes the whole unreadable. -/
def readDigits? (r : Reading) : List Char → Option (List Char)
  | [] => if r.place = 36 then some r.label else none
  | c :: cs =>
    (digitValue? c).bind fun d =>
      let t := threshold r.place r.bias
      let r := { r with number := r.number + d * r.worth }
      if d < t then r.insert?.bind fun r => readDigits? r cs
      else readDigits? { r with worth := r.worth * (36 - t), place := r.place + 36 } cs

/-- The label that a text in ASCII stands for. -/
def decode? (cs : List Char) : Option (List Char) :=
  let numbers := (cs.reverse.takeWhile (· ≠ '-')).reverse
  let ascii := (cs.take (cs.length - numbers.length)).dropLast
  if cs.all fun c => c.toNat < 0x80 then readDigits? ⟨ascii, 0x80, 0, 0, 1, 36, 72⟩ numbers
  else none

end CssWorkbench.Url.Punycode
