import CssWorkbench.Knowledge.AtRule
import CssWorkbench.Knowledge.Property
import CssWorkbench.Text.Position
import CssWorkbench.Tree.Basic
import CssWorkbench.Tree.SyntaxError

/-!
# Diagnostics

What is reported about a stylesheet: properties and at-rules that are not known, properties that a
ruleset sets twice, rulesets that set nothing, and behind these the errors met while reading.
-/

namespace CssWorkbench

/-- How grave a finding is. -/
inductive Severity
  | error | warning | information | hint
deriving DecidableEq, Repr, Inhabited

/-- The rank of a severity, the gravest being one. -/
def Severity.rank : Severity → Nat
  | .error => 1
  | .warning => 2
  | .information => 3
  | .hint => 4

/-- What a severity is called in a report. -/
def Severity.label : Severity → String
  | .error => "error"
  | .warning => "warning"
  | .information => "info"
  | .hint => "hint"

/-- The kinds of findings. -/
inductive DiagnosticCode
  | unknownProperty | duplicateProperty | unknownAtRule | emptyRuleset | syntaxError
deriving DecidableEq, Repr, Inhabited

/-- The name of a kind of finding. -/
def DiagnosticCode.name : DiagnosticCode → String
  | .unknownProperty => "unknown-property"
  | .duplicateProperty => "duplicate-property"
  | .unknownAtRule => "unknown-at-rule"
  | .emptyRuleset => "empty-ruleset"
  | .syntaxError => "syntax-error"

/-- What was found. -/
inductive Finding
  | unknownProperty (name : String)
  | duplicateProperty (name : String)
  | unknownAtRule (name : String)
  | emptyRuleset
  | syntaxFault (fault : SyntaxFault)
deriving DecidableEq, Repr, Inhabited

namespace Finding

/-- The kind of a finding. -/
def code : Finding → DiagnosticCode
  | unknownProperty _ => .unknownProperty
  | duplicateProperty _ => .duplicateProperty
  | unknownAtRule _ => .unknownAtRule
  | emptyRuleset => .emptyRuleset
  | syntaxFault _ => .syntaxError

/-- How grave a finding is. -/
def severity : Finding → Severity
  | unknownProperty _ => .warning
  | duplicateProperty _ => .warning
  | unknownAtRule _ => .warning
  | emptyRuleset => .hint
  | syntaxFault _ => .error

/-- The wording of a finding. -/
def message : Finding → String
  | unknownProperty name => "unknown property '" ++ name ++ "'"
  | duplicateProperty name => "duplicate property '" ++ name ++ "'"
  | unknownAtRule name => "unknown at-rule '@" ++ name ++ "'"
  | emptyRuleset => "empty ruleset"
  | syntaxFault fault => fault.message

end Finding

/-- A finding and its place. -/
structure Diagnostic where
  finding : Finding
  span : Span
deriving DecidableEq, Repr, Inhabited

namespace Diagnostic

/-- The kind of the finding. -/
def code (d : Diagnostic) : DiagnosticCode := d.finding.code

/-- How grave the finding is. -/
def severity (d : Diagnostic) : Severity := d.finding.severity

/-- The wording of the finding. -/
def message (d : Diagnostic) : String := d.finding.message

/-- The place by lines and columns. -/
def range (source : String) (d : Diagnostic) : Range := d.span.range source

end Diagnostic

/-- The findings on the declarations of a ruleset, where the properties `seen` are already set.
Custom properties may be called and set as one likes. -/
def lintDeclarations (seen : List String) : List Declaration → List Diagnostic
  | [] => []
  | d :: ds =>
    if d.isCustom then lintDeclarations seen ds
    else
      let lower := Text.lower d.name
      (if Knowledge.knowsProperty d.name then []
        else [⟨.unknownProperty d.name, d.property.span⟩]) ++
      (if seen.contains lower then [⟨.duplicateProperty d.name, d.span⟩] else []) ++
      lintDeclarations (lower :: seen) ds

/-- The findings on a ruleset, those on the nodes in its block aside. -/
def lintRuleset (rule : Ruleset) (children : List Node) : List Diagnostic :=
  if isEmptyBlock children then [⟨.emptyRuleset, rule.span⟩]
  else lintDeclarations [] (declarationsIn children)

mutual

/-- The findings on a node. -/
def Node.lint : Node → List Diagnostic
  | .ruleset rule children => lintRuleset rule children ++ lintNodes children
  | .atRule rule children =>
    (if Knowledge.knowsAtRule rule.name then [] else [⟨.unknownAtRule rule.name, rule.nameSpan⟩]) ++
      lintNodes children
  | .declaration _ => []
  | .comment _ => []

/-- The findings on a list of nodes. -/
def lintNodes : List Node → List Diagnostic
  | [] => []
  | n :: ns => n.lint ++ lintNodes ns

end

/-- The findings on a stylesheet, errors aside. -/
def Stylesheet.lint (sheet : Stylesheet) : List Diagnostic :=
  lintNodes sheet.children

/-- A syntax error as a diagnostic. -/
def SyntaxError.diagnostic (e : SyntaxError) : Diagnostic :=
  ⟨.syntaxFault e.fault, e.span⟩

/-- The findings on a stylesheet, with the errors met while reading it behind them. -/
def Stylesheet.diagnostics (sheet : Stylesheet) (errors : List SyntaxError) : List Diagnostic :=
  sheet.lint ++ errors.map SyntaxError.diagnostic

end CssWorkbench
