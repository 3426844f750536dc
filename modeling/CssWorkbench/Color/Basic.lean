import CssWorkbench.Knowledge.NamedColor
import CssWorkbench.Token.Stretch

/-!
# Colors

A color has three channels and an opacity, each between zero and one. Colors are built from
arbitrary numbers by moving every channel into that range, from packed bytes, and from hex digits.
-/

namespace CssWorkbench

/-- A color by its red, green and blue channels and its opacity. -/
structure Color where
  red : Float
  green : Float
  blue : Float
  alpha : Float
deriving Repr, Inhabited

/-- A number moved into the range from `low` to `high`. -/
def clampTo (low high x : Float) : Float :=
  if x < low then low else if high < x then high else x

namespace Color

/-- A number moved into the range of a channel; what is not a number becomes zero. -/
def channel (x : Float) : Float :=
  if x.isNaN then 0.0 else clampTo 0.0 1.0 x

/-- The color of some channels, each moved into its range. -/
def ofChannels (red green blue alpha : Float) : Color :=
  ⟨channel red, channel green, channel blue, channel alpha⟩

/-- The color of four bytes. -/
def ofBytes (red green blue alpha : Nat) : Color :=
  let unit (n : Nat) : Float := n.toFloat / 255.0
  ofChannels (unit red) (unit green) (unit blue) (unit alpha)

/-- The color of four bytes packed into a number, the red one highest. -/
def ofPacked (packed : Nat) : Color :=
  ofBytes (packed / 0x1000000 % 256) (packed / 0x10000 % 256) (packed / 0x100 % 256) (packed % 256)

/-- The color that some hex digits spell: one or two digits for each channel, the opacity last or
left out. -/
def ofHexDigits? : List Nat → Option Color
  | [r, g, b] => some (ofBytes (17 * r) (17 * g) (17 * b) 255)
  | [r, g, b, a] => some (ofBytes (17 * r) (17 * g) (17 * b) (17 * a))
  | [r, r₀, g, g₀, b, b₀] => some (ofBytes (16 * r + r₀) (16 * g + g₀) (16 * b + b₀) 255)
  | [r, r₀, g, g₀, b, b₀, a, a₀] =>
    some (ofBytes (16 * r + r₀) (16 * g + g₀) (16 * b + b₀) (16 * a + a₀))
  | _ => none

/-- The color of a hash without its `#`. -/
def ofHex? (text : String) : Option Color :=
  if text.toList.all isHexDigit then ofHexDigits? (text.toList.map hexValue) else none

/-- The color of a name. The keyword `currentcolor` names the color around it, not one of its
own. -/
def ofName? (name : String) : Option Color :=
  if Text.sameIgnoringCase name "currentcolor" then none
  else (Knowledge.namedColor? name).map ofPacked

end Color

end CssWorkbench
