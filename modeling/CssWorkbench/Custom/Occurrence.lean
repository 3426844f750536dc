import CssWorkbench.Text.Edit
import CssWorkbench.Token.Bracket
import CssWorkbench.Token.Stretch
import CssWorkbench.Tree.Walk

/-!
# Where custom properties occur

A custom property, such as `--brand`, is written by declarations and read by references
`var(--brand)`. From an offset on any of its occurrences all the others are found, and all of them
can be renamed at once.
-/

namespace CssWorkbench

/-- What an occurrence does with its property. -/
inductive Access
  | write | read
deriving DecidableEq, Repr, Inhabited

/-- An occurrence of a custom property. The span of a declaration is that of its name; the span of
a reference runs from `var(` to the closing parenthesis. -/
structure Occurrence where
  name : String
  span : Span
  nameSpan : Span
  access : Access
deriving DecidableEq, Repr, Inhabited

/-- The reference that the token in front of a run opens, if it is one. -/
def reference? (t : Token) (behind : List Token) : Option Occurrence :=
  if t.isFunction "var" then
    match behind.find? fun t => !t.isTrivia with
    | some name =>
      if name.is .ident && name.isCustomName then
        some ⟨name.value, ⟨t.start, max (blockStop t behind) name.stop⟩, name.span, .read⟩
      else none
    | none => none
  else none

/-- The references in a run, those in the fallback of another one included. -/
def references : List Token → List Occurrence
  | [] => []
  | t :: ts =>
    match reference? t ts with
    | some found => found :: references ts
    | none => references ts

/-- The occurrences in a declaration: its name first. -/
def Declaration.occurrences (d : Declaration) : List Occurrence :=
  (if d.isCustom then [⟨d.name, d.property.span, d.property.span, .write⟩] else []) ++
    references d.tokens

namespace Occurrence

/-- How close an occurrence is to an offset that its span touches: an occurrence touched on its
name is closer than one touched elsewhere, else a shorter one is closer than a longer one. -/
def closer (offset : Nat) (o p : Occurrence) : Bool :=
  let off (o : Occurrence) := !o.nameSpan.contains offset
  (!off o && off p) || (off o = off p && o.span.length < p.span.length)

/-- The occurrence closest to an offset; of equally close ones the first. -/
def closest? (offset : Nat) : List Occurrence → Option Occurrence
  | [] => none
  | o :: os =>
    match closest? offset os with
    | some p => if p.closer offset o then some p else some o
    | none => some o

end Occurrence

namespace Stylesheet

/-- Every occurrence of a custom property, in source order. -/
def occurrences (sheet : Stylesheet) : List Occurrence :=
  sheet.declarations.flatMap fun d => d.1.occurrences

/-- The occurrences of one custom property. -/
def occurrencesOf (sheet : Stylesheet) (name : String) : List Occurrence :=
  sheet.occurrences.filter fun o => o.name = name

/-- The occurrence at an offset. -/
def occurrenceAt? (sheet : Stylesheet) (offset : Nat) : Option Occurrence :=
  Occurrence.closest? offset (sheet.occurrences.filter fun o => o.span.contains offset)

/-- All occurrences of the custom property at an offset. -/
def highlightsAt (sheet : Stylesheet) (offset : Nat) : List Occurrence :=
  match sheet.occurrenceAt? offset with
  | some symbol => sheet.occurrencesOf symbol.name
  | none => []

/-- The spans of all occurrences of the custom property at an offset. -/
def referencesAt (sheet : Stylesheet) (offset : Nat) : List Span :=
  (sheet.highlightsAt offset).map (·.span)

/-- The names of all declarations of the custom property at an offset. -/
def definitionsAt (sheet : Stylesheet) (offset : Nat) : List Span :=
  ((sheet.highlightsAt offset).filter fun o => o.access = .write).map (·.span)

end Stylesheet

/-- The name of a custom property that was asked for. Blanks around it do not count, and the dashes
in front may be left out. -/
def customName? (wanted : String) : Option String :=
  let trimmed := Text.trim wanted.toList
  let bare := if ['-', '-'].isPrefixOf trimmed then trimmed.drop 2 else trimmed
  if !bare.isEmpty && bare.all isNameChar then some (String.ofList ('-' :: '-' :: bare)) else none

/-- The edits that give the custom property at an offset a new name. -/
def Stylesheet.rename? (sheet : Stylesheet) (offset : Nat) (wanted : String) :
    Option (List TextEdit) :=
  match sheet.occurrenceAt? offset, customName? wanted with
  | some symbol, some name => some ((sheet.occurrencesOf symbol.name).map (⟨·.nameSpan, name⟩))
  | _, _ => none

end CssWorkbench
