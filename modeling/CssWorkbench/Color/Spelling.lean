import CssWorkbench.Decimal.Fixed
import CssWorkbench.Color.Conversion

/-!
# Spellings of a color

A color is offered as a hex code and by the functions of its bytes or of its hue, saturation and
lightness. The opacity is spelled out only if it is not full.
-/

namespace CssWorkbench

/-- The ways to spell a color. -/
inductive Spelling
  | hex | rgb | hsl
deriving DecidableEq, Repr, Inhabited

/-- The spellings, in the order in which they are offered. -/
def Spelling.all : List Spelling := [.hex, .rgb, .hsl]

/-- What a spelling is called. -/
def Spelling.name : Spelling → String
  | .hex => "hex"
  | .rgb => "rgb"
  | .hsl => "hsl"

namespace Decimal

/-- A number to two places, a half going away from zero, without zeros at the end. -/
def short (x : Float) : String :=
  let digits := (fixed 2 ((x * 100.0).round / 100.0)).toList
  let text := String.ofList (Text.dropEndWhile (· = '.') (Text.dropEndWhile (· = '0') digits))
  if text = "" || text = "-0" then "0" else text

/-- Two hex digits of a byte. -/
def hexByte (n : Nat) : String :=
  String.ofList [Nat.digitChar (n / 16), Nat.digitChar (n % 16)]

end Decimal

namespace Color

/-- A channel as a byte, a half going up. -/
def byte (x : Float) : Nat := (x * 255.0).round.toUInt8.toNat

/-- The channels as bytes. -/
def bytes (c : Color) : List Nat :=
  [byte c.red, byte c.green, byte c.blue, byte c.alpha]

/-- A color as a hex code. -/
def hex (c : Color) : String :=
  let full := byte c.alpha = 255
  "#" ++ Decimal.hexByte (byte c.red) ++ Decimal.hexByte (byte c.green) ++
    Decimal.hexByte (byte c.blue) ++ (if full then "" else Decimal.hexByte (byte c.alpha))

/-- A function of three arguments and, if the color is not opaque, its opacity. -/
def call (c : Color) (name first second third : String) : String :=
  if c.alpha >= 1.0 then
    name ++ "(" ++ first ++ ", " ++ second ++ ", " ++ third ++ ")"
  else
    name ++ "a(" ++ first ++ ", " ++ second ++ ", " ++ third ++ ", " ++ Decimal.short c.alpha ++ ")"

/-- A color by the function of its bytes. -/
def rgbCall (c : Color) : String :=
  c.call "rgb" (toString (byte c.red)) (toString (byte c.green)) (toString (byte c.blue))

/-- A color by the function of its hue, saturation and lightness, each rounded to a whole number. -/
def hslCall (c : Color) : String :=
  let (h, s, l) := Conversion.rgbToHsl c.red c.green c.blue
  c.call "hsl" (Decimal.fixed 0 (remainder h.round 360.0))
    (Decimal.fixed 0 (s * 100.0).round ++ "%") (Decimal.fixed 0 (l * 100.0).round ++ "%")

/-- A color in one of its spellings. -/
def spell (c : Color) : Spelling → String
  | .hex => c.hex
  | .rgb => c.rgbCall
  | .hsl => c.hslCall

/-- All spellings of a color. -/
def spellings (c : Color) : List String := Spelling.all.map c.spell

end Color

/-- The spelling that a color is already written in, if it is one of those offered. -/
def Spelling.ofText? (text : String) : Option Spelling :=
  let front := Text.trimStart text.toList
  if Text.startsIgnoringCase ['#'] front then some .hex
  else if Text.startsIgnoringCase ['r', 'g', 'b'] front then some .rgb
  else if Text.startsIgnoringCase ['h', 's', 'l'] front then some .hsl
  else none

end CssWorkbench
