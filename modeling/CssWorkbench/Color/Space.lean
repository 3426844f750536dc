import CssWorkbench.Color.Conversion

/-!
# Color spaces

A color function names a space and gives three channels in the ranges usual there: bytes for red,
green and blue, percents for saturation, whiteness and the like, degrees for hues.
-/

namespace CssWorkbench

/-- The spaces that color functions spell colors in. -/
inductive ColorSpace
  | rgb | hsl | hwb | lab | lch | oklab | oklch
deriving DecidableEq, Repr, Inhabited

/-- The three channels of a space and the opacity. -/
structure Channels where
  first : Float
  second : Float
  third : Float
  alpha : Float
deriving Repr, Inhabited

namespace ColorSpace

/-- The space of a color function, in any letter case. -/
def ofFunction? (name : String) : Option ColorSpace :=
  match Text.lower name with
  | "rgb" | "rgba" => some .rgb
  | "hsl" | "hsla" => some .hsl
  | "hwb" => some .hwb
  | "lab" => some .lab
  | "lch" => some .lch
  | "oklab" => some .oklab
  | "oklch" => some .oklch
  | _ => none

/-- The letters by which the channels of an origin color are called. -/
def channelNames : ColorSpace → String × String × String
  | rgb => ("r", "g", "b")
  | hsl => ("h", "s", "l")
  | hwb => ("h", "w", "b")
  | lab | oklab => ("l", "a", "b")
  | lch | oklch => ("l", "c", "h")

/-- Which of the channels, counted from zero, is a hue. -/
def hueChannel? : ColorSpace → Option Nat
  | hsl | hwb => some 0
  | lch | oklch => some 2
  | rgb | lab | oklab => none

/-- What a hundred percent of a channel stand for; the opacity is channel three. A hue takes no
percents. -/
def percentBase? (space : ColorSpace) (channel : Nat) : Option Float :=
  if channel = 3 then some 1.0
  else if space.hueChannel? = some channel then none
  else
    match space, channel with
    | rgb, _ => some 255.0
    | hsl, _ | hwb, _ => some 100.0
    | lab, 0 | lch, 0 => some 100.0
    | lab, _ => some 125.0
    | lch, _ => some 150.0
    | oklab, 0 | oklch, 0 => some 1.0
    | oklab, _ | oklch, _ => some 0.4

open Conversion

/-- The red, green and blue of three channels. -/
def toRgb (space : ColorSpace) (x y z : Float) : Float × Float × Float :=
  match space with
  | rgb => (x / 255.0, y / 255.0, z / 255.0)
  | hsl => hslToRgb x (y / 100.0) (z / 100.0)
  | hwb => hwbToRgb x (y / 100.0) (z / 100.0)
  | lab => labToRgb x y z
  | lch =>
    let (a, b) := polarToAxes y z
    labToRgb x a b
  | oklab => oklabToRgb x y z
  | oklch =>
    let (a, b) := polarToAxes y z
    oklabToRgb x a b

/-- The three channels of a red, green and blue. -/
def ofRgb (space : ColorSpace) (r g b : Float) : Float × Float × Float :=
  match space with
  | rgb => (r * 255.0, g * 255.0, b * 255.0)
  | hsl =>
    let (h, s, l) := rgbToHsl r g b
    (h, s * 100.0, l * 100.0)
  | hwb =>
    let (h, white, black) := rgbToHwb r g b
    (h, white * 100.0, black * 100.0)
  | lab => rgbToLab r g b
  | lch =>
    let (l, a, b) := rgbToLab r g b
    (l, axesToPolar a b)
  | oklab => rgbToOklab r g b
  | oklch =>
    let (l, a, b) := rgbToOklab r g b
    (l, axesToPolar a b)

/-- The color of some channels. -/
def toColor (space : ColorSpace) (c : Channels) : Color :=
  let (r, g, b) := space.toRgb c.first c.second c.third
  .ofChannels r g b c.alpha

/-- The channels of a color. -/
def ofColor (space : ColorSpace) (c : Color) : Channels :=
  let (x, y, z) := space.ofRgb c.red c.green c.blue
  ⟨x, y, z, c.alpha⟩

end ColorSpace

end CssWorkbench
