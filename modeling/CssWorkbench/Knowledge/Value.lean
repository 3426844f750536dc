import CssWorkbench.Knowledge.Entry

/-!
# Known functions, keywords and units

What a value can hold besides the keywords of its own property.
-/

namespace CssWorkbench.Knowledge

/-- The functions of values, in the order in which they are offered. -/
def functions : List Entry := [
  entry "abs" "Absolute value of a calculation.",
  entry "attr" "Value of an attribute of the selected element.",
  entry "calc" "Performs a calculation to determine a value.",
  entry "clamp" "Clamps a value between an upper and lower bound.",
  entry "color" "Color in a predefined color space.",
  entry "color-mix" "Mixes two colors in a given color space.",
  entry "conic-gradient" "Gradient with color transitions rotated around a center.",
  entry "counter" "Current value of a named counter.",
  entry "counters" "Nested values of a named counter.",
  entry "cubic-bezier" "Cubic Bézier easing curve.",
  entry "env" "Value of a user-agent environment variable.",
  entry "fit-content" "Size clamped between min-content and a limit.",
  entry "hsl" "Color from hue, saturation and lightness.",
  oldEntry "hsla" "Legacy alias of hsl() with alpha.",
  entry "hwb" "Color from hue, whiteness and blackness.",
  entry "image-set" "Set of images for different resolutions.",
  entry "lab" "Color in the CIE Lab color space.",
  entry "lch" "Color in the CIE LCH color space.",
  entry "linear-gradient" "Gradient along a straight line.",
  entry "max" "Largest of a list of values.",
  entry "min" "Smallest of a list of values.",
  entry "minmax" "Size range of a grid track.",
  entry "oklab" "Color in the Oklab color space.",
  entry "oklch" "Color in the Oklch color space.",
  entry "radial-gradient" "Gradient radiating from an origin.",
  entry "repeat" "Repeated fragment of a grid track list.",
  entry "repeating-linear-gradient" "Repeating gradient along a straight line.",
  entry "repeating-radial-gradient" "Repeating gradient radiating from an origin.",
  entry "rgb" "Color from red, green and blue channels.",
  oldEntry "rgba" "Legacy alias of rgb() with alpha.",
  entry "rotate" "Rotation transform.",
  entry "round" "Rounds a value to a multiple of an interval.",
  entry "scale" "Scaling transform.",
  entry "steps" "Stepped easing function.",
  entry "translate" "Translation transform.",
  entry "url" "Reference to an external resource.",
  entry "var" "Value of a custom property."]

/-- The functions that spell a color. -/
def colorFunctions : List String := [
  "rgb", "rgba", "hsl", "hsla", "hwb", "lab", "lch", "oklab", "oklch"]

/-- The keywords that every property takes. -/
def globalKeywords : List String := [
  "inherit", "initial", "unset", "revert", "revert-layer"]

/-- The units of dimensions. -/
def units : List String := [
  "px", "em", "rem", "ex", "ch", "cap", "ic", "lh", "rlh", "vw", "vh", "vmin", "vmax", "svw", "svh",
  "lvw", "lvh", "dvw", "dvh", "cqw", "cqh", "cqi", "cqb", "cm", "mm", "q", "in", "pt", "pc", "deg",
  "rad", "grad", "turn", "s", "ms", "hz", "khz", "dpi", "dpcm", "dppx", "x", "fr"]

/-- The function of a name, in any letter case. -/
def function? (name : String) : Option Entry :=
  Entry.find? functions name

end CssWorkbench.Knowledge
