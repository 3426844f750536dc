import CssWorkbench.Analysis.Specificity
import CssWorkbench.Color.Search
import CssWorkbench.Custom.Occurrence
import CssWorkbench.Custom.Values
import CssWorkbench.Knowledge.AtRule
import CssWorkbench.Knowledge.Property

/-!
# Hovers

What is shown, as Markdown, about the place at an offset: the value of a custom property, the
description of a property or at-rule, or the specificity of a selector.
-/

namespace CssWorkbench

/-- A text in Markdown and the span it is about. -/
structure Hover where
  contents : String
  span : Span
deriving DecidableEq, Repr, Inhabited

/-- A line of a stylesheet in Markdown. -/
def codeBlock (line : String) : String :=
  "```css\n" ++ line ++ "\n```"

/-- A name with its description. -/
def described (name description : String) (obsolete : Bool) : String :=
  "**" ++ name ++ "**\n\n" ++ description ++ if obsolete then "\n\n*Deprecated*" else ""

/-- The words of a text between ASCII blanks. -/
def words (cs : List Char) : List (List Char) :=
  (cs.splitBy fun a b => !Text.isAsciiBlank a && !Text.isAsciiBlank b).filter fun word =>
    !word.all Text.isAsciiBlank

/-- A text with every run of blanks as one space, and none at its ends. -/
def joinWords (text : String) : String :=
  " ".intercalate ((words text.toList).map String.ofList)

/-- What is shown about a custom property with a text, if it has one. -/
def customHover (name : String) : Option String → String
  | some value => codeBlock (name ++ ": " ++ Text.trimString value)
  | none => codeBlock name ++ "\nNo value found"

/-- What is shown about a declaration. -/
def Declaration.hover? (d : Declaration) (offset : Nat) : Option Hover :=
  if d.property.span.contains offset then
    (Knowledge.anyProperty? d.name).map fun p =>
      ⟨described p.name p.description p.obsolete, d.property.span⟩
  else none

/-- What is shown about an at-rule. -/
def AtRule.hover? (rule : AtRule) (offset : Nat) : Option Hover :=
  if rule.nameSpan.contains offset then
    (Knowledge.anyAtRule? rule.name).map fun e =>
      ⟨described ("@" ++ e.name) e.description e.obsolete, rule.nameSpan⟩
  else none

/-- What is shown about a ruleset. -/
def Ruleset.hover? (rule : Ruleset) (source : String) (offset : Nat) : Option Hover :=
  (rule.selectors.selectors.find? fun s => s.span.contains offset).map fun s =>
    ⟨codeBlock (joinWords (s.span.text source)) ++ "\nSelector specificity: " ++
      s.specificity.toString, s.span⟩

/-- What is shown about a place. -/
def Place.hover? (source : String) (offset : Nat) : Place → Option Hover
  | .sheet _ => none
  | .node (.ruleset rule _) => rule.hover? source offset
  | .node (.atRule rule _) => rule.hover? offset
  | .node (.declaration d) => d.hover? offset
  | .node (.comment _) => none

/-- What is shown at an offset. The text of a custom property is looked for in the stylesheet first,
and then by the resolver. -/
def Stylesheet.hoverAt? (sheet : Stylesheet) (source : String) (offset : Nat)
    (resolver : Option Resolver) : Option Hover :=
  match sheet.occurrenceAt? offset with
  | some symbol =>
    let resolve := chained (sheet.customValues source).get? resolver
    some ⟨customHover symbol.name (resolve symbol.name), symbol.nameSpan⟩
  | none => (sheet.placeAt offset).hover? source offset

end CssWorkbench
