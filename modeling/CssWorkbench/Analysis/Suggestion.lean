import CssWorkbench.Knowledge.Property

/-!
# Spelling suggestions

The known properties whose names are close to a misspelled one. The distance of two names is the
least number of bytes to put in, take out or change.
-/

namespace CssWorkbench

/-- The farthest that a suggestion may be from what was written. -/
def maxDistance : Nat := 2

/-- How many suggestions are made. -/
def maxSuggestions : Nat := 3

/-- One row of the table of distances: those of a text that ends in `x` to the starts of a second
text, of which `ys` is left. `above` holds the distances without that `x`, and `left` is the one
computed last. -/
def distanceRow (x : UInt8) (left : Nat) : (ys : List UInt8) → (above : List Nat) → List Nat
  | y :: ys, corner :: up :: above =>
    let here := min (min (corner + if x = y then 0 else 1) (up + 1)) (left + 1)
    here :: distanceRow x here ys (up :: above)
  | _, _ => []

/-- The rows of the table behind `row`, the last of them kept; `count` bytes are already in. -/
def lastDistanceRow (ys : List UInt8) (count : Nat) (row : List Nat) : List UInt8 → List Nat
  | [] => row
  | x :: xs =>
    lastDistanceRow ys (count + 1) ((count + 1) :: distanceRow x (count + 1) ys row) xs

/-- The distance of two lists of bytes. -/
def bytesDistance (xs ys : List UInt8) : Nat :=
  (lastDistanceRow ys 0 (List.range (ys.length + 1)) xs).getLastD 0

/-- The distance of two texts. -/
def editDistance (a b : String) : Nat :=
  bytesDistance a.toUTF8.toList b.toUTF8.toList

/-- The properties in use that are close to a name, the closest first. -/
def suggestProperties (name : String) : List String :=
  let lower := Text.lower name
  let known := Knowledge.properties.filter fun p => !p.obsolete
  let scored := known.map fun p => (editDistance lower p.name, p.name)
  let near := scored.filter fun s => s.1 ≤ maxDistance
  let ordered := near.mergeSort fun s t => s.1 < t.1 || (s.1 = t.1 && s.2 ≤ t.2)
  (ordered.take maxSuggestions).map Prod.snd

end CssWorkbench
