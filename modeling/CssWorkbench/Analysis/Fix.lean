import CssWorkbench.Analysis.Diagnostic
import CssWorkbench.Analysis.Suggestion
import CssWorkbench.Text.Edit

/-!
# Quick fixes

A misspelled property can be replaced by a known one, and a property that was already set can be
taken out.
-/

namespace CssWorkbench

/-- A way to resolve a finding by one edit. -/
inductive Fix
  | respell (property : Span) (name : String)
  | remove (removed : Span) (name : String)
deriving DecidableEq, Repr, Inhabited

namespace Fix

/-- The title under which a fix is offered. -/
def title : Fix → String
  | respell _ name => "Did you mean '" ++ name ++ "'?"
  | remove _ name => "Remove duplicate property '" ++ name ++ "'"

/-- The kind of finding that a fix resolves. -/
def code : Fix → DiagnosticCode
  | respell .. => .unknownProperty
  | remove .. => .duplicateProperty

/-- What a fix does. -/
def edit : Fix → TextEdit
  | respell property name => ⟨property, name⟩
  | remove removed _ => ⟨removed, ""⟩

end Fix

mutual

/-- The declaration at an offset inside a node, with the declarations of the ruleset that it stands
in; and whether the search ends with this node. -/
def Node.declarationAt (offset : Nat) : Node → Option (List Declaration × Declaration) × Bool
  | .ruleset rule children =>
    if rule.span.contains offset then
      match declarationAmong offset children with
      | some found => (some found, true)
      | none =>
        let own := declarationsIn children
        ((own.find? fun d => d.span.contains offset).map fun d => (own, d), true)
    else (none, false)
  | .atRule rule children =>
    if rule.span.contains offset && rule.block.isSome then (declarationAmong offset children, true)
    else (none, false)
  | .declaration _ => (none, false)
  | .comment _ => (none, false)

/-- The declaration at an offset inside the first ruleset or block that the offset touches. -/
def declarationAmong (offset : Nat) : List Node → Option (List Declaration × Declaration)
  | [] => none
  | n :: ns =>
    match n.declarationAt offset with
    | (found, true) => found
    | (_, false) => declarationAmong offset ns

end

/-- The blanks that indent a line. -/
def isIndent (c : Char) : Bool := c = ' ' || c = '\t'

/-- How many bytes a line break at the front takes up. -/
def lineBreakLength : List Char → Nat
  | '\n' :: _ => 1
  | '\r' :: '\n' :: _ => 2
  | _ => 0

/-- The span to take out with a declaration: the blanks behind it go too, and the whole line if
nothing stands in front of it there. -/
def removalSpan (source : String) (span : Span) : Span :=
  let front := ((Span.mk 0 span.start).chars source.toList).reverse
  let indent := front.takeWhile isIndent
  let alone := ((front.dropWhile isIndent).head?).all (· = '\n')
  let behind := (Span.mk span.stop (Text.size source)).chars source.toList
  let gap := behind.takeWhile isIndent
  let lineBreak := if alone then lineBreakLength (behind.dropWhile isIndent) else 0
  ⟨if alone then span.start - indent.length else span.start, span.stop + gap.length + lineBreak⟩

/-- The fixes for the declaration at an offset. -/
def Stylesheet.fixesAt (sheet : Stylesheet) (source : String) (offset : Nat) : List Fix :=
  match declarationAmong offset sheet.children with
  | some (siblings, d) =>
    if d.isCustom then []
    else
      let respellings :=
        if Knowledge.knowsProperty d.name then []
        else (suggestProperties d.name).map (Fix.respell d.property.span)
      let earlier := siblings.takeWhile fun e => e.span.start < d.span.start
      let repeated := earlier.any fun e => Text.sameIgnoringCase e.name d.name
      respellings ++ if repeated then [Fix.remove (removalSpan source d.span) d.name] else []
  | none => []

end CssWorkbench
