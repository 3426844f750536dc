import CssWorkbench.Layout.Text

/-!
# The outline of a stylesheet

Rulesets, at-rules and the declarations of custom properties, nested as in the tree.
-/

namespace CssWorkbench

/-- What an entry of the outline stands for. -/
inductive SymbolKind
  | ruleset | atRule | variable
deriving DecidableEq, Repr, Inhabited

/-- An entry of the outline. The selection is the part that names it: the selectors, the at-keyword
or the property. -/
inductive Symbol
  | entry (name : String) (kind : SymbolKind) (span selection : Span) (children : List Symbol)
deriving Repr, Inhabited

mutual

/-- The entries that a node contributes. -/
def Node.symbols (source : String) : Node → List Symbol
  | .ruleset rule children =>
    [.entry (rule.selectors.text source) .ruleset rule.span rule.selectors.span
      (symbolsOf source children)]
  | .atRule rule children =>
    [.entry (rule.head source) .atRule rule.span rule.nameSpan (symbolsOf source children)]
  | .declaration d =>
    if d.isCustom then [.entry d.name .variable d.span d.property.span []] else []
  | .comment _ => []

/-- The entries that a list of nodes contributes. -/
def symbolsOf (source : String) : List Node → List Symbol
  | [] => []
  | n :: ns => n.symbols source ++ symbolsOf source ns

end

/-- The outline of a stylesheet. -/
def Stylesheet.symbols (sheet : Stylesheet) (source : String) : List Symbol :=
  symbolsOf source sheet.children

mutual

/-- An entry at a depth, followed by those below it. -/
def Symbol.flatten (depth : Nat) : Symbol → List (Nat × Symbol)
  | .entry name kind span selection children =>
    (depth, .entry name kind span selection children) :: flattenSymbols (depth + 1) children

/-- Entries at a depth, each followed by those below it. -/
def flattenSymbols (depth : Nat) : List Symbol → List (Nat × Symbol)
  | [] => []
  | s :: ss => s.flatten depth ++ flattenSymbols depth ss

end

end CssWorkbench
