import CssWorkbench.Decimal.Binary
import CssWorkbench.Color.Basic

/-!
# Conversions between color spaces

Every conversion works on plain numbers and goes from or to the red, green and blue of the screen,
each between zero and one. Hues are in degrees. Nothing is moved into range here, except where a
formula asks for it.
-/

namespace CssWorkbench.Conversion

/-- The ratio of a circle's circumference to its diameter. -/
def pi : Float := 3.141592653589793

/-- The greater of two numbers; what is not a number counts as the lesser. Of two equal ones it is
the second, so that of two zeros the second gives the sign. -/
def greater (x y : Float) : Float :=
  if y.isNaN || y < x then x else y

/-- The lesser of two numbers; what is not a number counts as the greater. Of two equal ones it is
the second, so that of two zeros the second gives the sign. -/
def lesser (x y : Float) : Float :=
  if y.isNaN || x < y then x else y

/-- An angle with its unit, in degrees. -/
def degrees? (value : Float) (unit : String) : Option Float :=
  match Text.lower unit with
  | "deg" => some value
  | "rad" => some (value * 180.0 / pi)
  | "grad" => some (value * 0.9)
  | "turn" => some (value * 360.0)
  | _ => none

/-- The hue on the circle that an angle stands for. An angle without end stands for zero. -/
def normalHue (h : Float) : Float :=
  if h.isFinite then wrap h 360.0 else 0.0

/-- A channel of the hexagon between the bounds `p` and `q`, at `t` turns. -/
def hexagonChannel (p q t : Float) : Float :=
  let t := wrap t 1.0
  if t < 1.0 / 6.0 then p + (q - p) * 6.0 * t
  else if t < 0.5 then q
  else if t < 2.0 / 3.0 then p + (q - p) * (2.0 / 3.0 - t) * 6.0
  else p

/-- Hue, saturation and lightness to red, green and blue. -/
def hslToRgb (h s l : Float) : Float × Float × Float :=
  let h := normalHue h / 360.0
  let s := clampTo 0.0 1.0 s
  let l := clampTo 0.0 1.0 l
  if s == 0.0 then (l, l, l)
  else
    let q := if l < 0.5 then l * (1.0 + s) else l + s - l * s
    let p := 2.0 * l - q
    (hexagonChannel p q (h + 1.0 / 3.0), hexagonChannel p q h, hexagonChannel p q (h - 1.0 / 3.0))

/-- The hue of a color whose channels reach `high` and are spread over `spread`. -/
def hueOf (r g b high spread : Float) : Float :=
  let sixths :=
    if high == r then (g - b) / spread + (if g < b then 6.0 else 0.0)
    else if high == g then (b - r) / spread + 2.0
    else (r - g) / spread + 4.0
  normalHue (sixths * 60.0)

/-- Red, green and blue to hue, saturation and lightness. -/
def rgbToHsl (r g b : Float) : Float × Float × Float :=
  let high := greater (greater r g) b
  let low := lesser (lesser r g) b
  let l := (high + low) / 2.0
  let spread := high - low
  if spread == 0.0 then (0.0, 0.0, l)
  else
    let s := if l > 0.5 then spread / (2.0 - high - low) else spread / (high + low)
    (hueOf r g b high spread, s, l)

/-- Hue, whiteness and blackness to red, green and blue. If white and black add up to more than
one, both are scaled down. -/
def hwbToRgb (h w b : Float) : Float × Float × Float :=
  let w := greater w 0.0
  let b := greater b 0.0
  let sum := w + b
  let (w, b) := if sum >= 1.0 then (w / sum, b / sum) else (w, b)
  let (red, green, blue) := hslToRgb h 1.0 0.5
  let scale := 1.0 - w - b
  (red * scale + w, green * scale + w, blue * scale + w)

/-- Red, green and blue to hue, whiteness and blackness. -/
def rgbToHwb (r g b : Float) : Float × Float × Float :=
  let high := greater (greater r g) b
  let low := lesser (lesser r g) b
  let spread := high - low
  (if spread == 0.0 then 0.0 else hueOf r g b high spread, low, 1.0 - high)

/-- A channel of light to a channel of the screen. -/
def gammaEncode (c : Float) : Float :=
  if c <= 0.0031308 then 12.92 * c else 1.055 * Float.pow c (1.0 / 2.4) - 0.055

/-- A channel of the screen to a channel of light. -/
def gammaDecode (c : Float) : Float :=
  if c <= 0.04045 then c / 12.92 else Float.pow ((c + 0.055) / 1.055) 2.4

/-- The white of daylight. -/
def whiteX : Float := 0.95047

/-- The white of daylight; its second coordinate is one. -/
def whiteZ : Float := 1.08883

/-- Below this light, lightness grows in proportion to it. -/
def labEpsilon : Float := 216.0 / 24389.0

/-- How lightness grows with little light. -/
def labKappa : Float := 24389.0 / 27.0

/-- Lightness and the two opponent axes to red, green and blue. -/
def labToRgb (l a b : Float) : Float × Float × Float :=
  let fy := (l + 16.0) / 116.0
  let fx := fy + a / 500.0
  let fz := fy - b / 200.0
  let light (t : Float) : Float :=
    let cube := t * t * t
    if cube > labEpsilon then cube else (116.0 * t - 16.0) / labKappa
  let yr := if l > labKappa * labEpsilon then fy * fy * fy else l / labKappa
  let x := light fx * whiteX
  let y := yr * 1.0
  let z := light fz * whiteZ
  let red := 3.2404542 * x - 1.5371385 * y - 0.4985314 * z
  let green := -0.9692660 * x + 1.8760108 * y + 0.0415560 * z
  let blue := 0.0556434 * x - 0.2040259 * y + 1.0572252 * z
  (gammaEncode red, gammaEncode green, gammaEncode blue)

/-- Red, green and blue to lightness and the two opponent axes. -/
def rgbToLab (r g b : Float) : Float × Float × Float :=
  let r := gammaDecode r
  let g := gammaDecode g
  let b := gammaDecode b
  let x := (0.4124564 * r + 0.3575761 * g + 0.1804375 * b) / whiteX
  let y := (0.2126729 * r + 0.7151522 * g + 0.0721750 * b) / 1.0
  let z := (0.0193339 * r + 0.1191920 * g + 0.9503041 * b) / whiteZ
  let f (t : Float) : Float := if t > labEpsilon then t.cbrt else (labKappa * t + 16.0) / 116.0
  (116.0 * f y - 16.0, 500.0 * (f x - f y), 200.0 * (f y - f z))

/-- Even lightness and the two even axes to red, green and blue. -/
def oklabToRgb (l a b : Float) : Float × Float × Float :=
  let long := l + 0.3963377774 * a + 0.2158037573 * b
  let medium := l - 0.1055613458 * a - 0.0638541728 * b
  let short := l - 0.0894841775 * a - 1.2914855480 * b
  let long := long * long * long
  let medium := medium * medium * medium
  let short := short * short * short
  let red := 4.0767416621 * long - 3.3077115913 * medium + 0.2309699292 * short
  let green := -1.2684380046 * long + 2.6097574011 * medium - 0.3413193965 * short
  let blue := -0.0041960863 * long - 0.7034186147 * medium + 1.7076147010 * short
  (gammaEncode red, gammaEncode green, gammaEncode blue)

/-- Red, green and blue to even lightness and the two even axes. -/
def rgbToOklab (r g b : Float) : Float × Float × Float :=
  let r := gammaDecode r
  let g := gammaDecode g
  let b := gammaDecode b
  let long := (0.4122214708 * r + 0.5363325363 * g + 0.0514459929 * b).cbrt
  let medium := (0.2119034982 * r + 0.6806995451 * g + 0.1073969566 * b).cbrt
  let short := (0.0883024619 * r + 0.2817188376 * g + 0.6299787005 * b).cbrt
  (0.2104542553 * long + 0.7936177850 * medium - 0.0040720468 * short,
    1.9779984951 * long - 2.4285922050 * medium + 0.4505937099 * short,
    0.0259040371 * long + 0.7827717662 * medium - 0.8086757660 * short)

/-- Chroma and hue to the two axes. -/
def polarToAxes (c h : Float) : Float × Float :=
  let angle := normalHue h * (pi / 180.0)
  (greater c 0.0 * angle.cos, greater c 0.0 * angle.sin)

/-- The two axes to chroma and hue. Without chroma there is no hue to speak of, and it is zero. -/
def axesToPolar (a b : Float) : Float × Float :=
  let c := hypotenuse a b
  (c, if c < 1e-9 then 0.0 else normalHue (Float.atan2 b a * (180.0 / pi)))

end CssWorkbench.Conversion
