import CssWorkbench.Knowledge.Entry

/-!
# Known at-rules

The at-rules of the language, by their names without `@`.
-/

namespace CssWorkbench.Knowledge

/-- The at-rules, in the order in which they are offered. -/
def atRules : List Entry := [
  entry "charset" "Specifies the character encoding of the style sheet.",
  entry "color-profile" "Defines a color profile usable by the color() function.",
  entry "container" "Applies styles based on the size or style of a query container.",
  entry "counter-style" "Defines a custom counter style.",
  oldEntry "document" "Restricts rules to documents matching given URLs.",
  entry "font-face" "Declares a custom font to load.",
  entry "font-feature-values" "Names OpenType feature indexes for font-variant-alternates.",
  entry "font-palette-values" "Defines a custom color palette for a color font.",
  entry "import" "Imports rules from another style sheet.",
  entry "keyframes" "Defines the intermediate steps of an animation.",
  entry "layer" "Declares a cascade layer.",
  entry "media" "Applies styles when the media query matches.",
  entry "namespace" "Defines an XML namespace prefix for the style sheet.",
  entry "page" "Modifies margins, orientation and size of printed pages.",
  entry "property" "Registers a custom property with a syntax, inheritance and initial value.",
  entry "scope" "Limits selectors to a DOM subtree.",
  entry "starting-style" "Defines starting values for transitions on first style update.",
  entry "supports" "Applies styles when the browser supports the given features.",
  oldEntry "viewport" "Sets the initial viewport. Use the viewport meta tag instead."]

/-- The at-rules whose block holds declarations instead of rules. -/
def declarationAtRules : List String := [
  "font-face", "page", "property", "counter-style", "font-palette-values", "viewport",
  "color-profile"]

/-- The at-rule of a name, in any letter case. -/
def atRule? (name : String) : Option Entry :=
  Entry.find? atRules name

/-- The at-rule of a name, by itself or behind a vendor's mark. -/
def anyAtRule? (name : String) : Option Entry :=
  (atRule? name).or (atRule? (unprefixed (Text.lower name)))

/-- Whether an at-rule is known, by itself or behind a vendor's mark. -/
def knowsAtRule (name : String) : Bool :=
  Entry.knows atRules name

end CssWorkbench.Knowledge
