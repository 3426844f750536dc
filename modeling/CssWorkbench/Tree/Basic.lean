import CssWorkbench.Token.Basic

/-!
# The tree of a stylesheet

A stylesheet is a list of nodes: rulesets and at-rules, which may hold nodes of their own in a
block, declarations, and comments. Every node keeps the span it was read from and the tokens
whose text it stands for.
-/

namespace CssWorkbench

/-- What joins two compounds of a selector. -/
inductive Combinator
  | descendant | child | nextSibling | subsequentSibling
deriving DecidableEq, Repr, Inhabited

/-- How a combinator is written. -/
def Combinator.text : Combinator → String
  | .descendant => " "
  | .child => ">"
  | .nextSibling => "+"
  | .subsequentSibling => "~"

/-- A part of a selector: a run of simple selectors such as `a.btn:hover`, or what stands between
two of them. -/
inductive SelectorPart
  | compound (span : Span) (tokens : List Token)
  | combinator (span : Span) (kind : Combinator)
deriving DecidableEq, Repr, Inhabited

namespace SelectorPart

/-- The span of a part. -/
def span : SelectorPart → Span
  | compound span _ => span
  | combinator span _ => span

/-- Whether the part is a compound. -/
def isCompound : SelectorPart → Bool
  | compound .. => true
  | combinator .. => false

end SelectorPart

/-- One selector of a list. -/
structure Selector where
  span : Span
  parts : List SelectorPart
deriving DecidableEq, Repr, Inhabited

/-- The selectors in front of a block, parted by commas. -/
structure SelectorList where
  span : Span
  selectors : List Selector
deriving DecidableEq, Repr, Inhabited

/-- The value of a declaration. -/
structure Value where
  span : Span
  tokens : List Token
deriving DecidableEq, Repr, Inhabited

/-- A property with its value. -/
structure Declaration where
  span : Span
  property : Token
  value : Option Value
  important : Bool
  semicolon : Bool
deriving DecidableEq, Repr, Inhabited

namespace Declaration

/-- The name of the property. -/
def name (d : Declaration) : String := d.property.value

/-- Whether the declaration sets a custom property. -/
def isCustom (d : Declaration) : Bool := d.property.isCustomName

/-- The tokens of the value. -/
def tokens (d : Declaration) : List Token :=
  match d.value with
  | some v => v.tokens
  | none => []

end Declaration

/-- What a ruleset says of itself, its children aside. The block runs from `{` to `}`, or to the
end of the source if that is missing. -/
structure Ruleset where
  span : Span
  selectors : SelectorList
  block : Span
deriving DecidableEq, Repr, Inhabited

/-- What an at-rule says of itself, the children of its block aside. The name stands without `@`,
its span with it. A statement that ends in `;` has no block. -/
structure AtRule where
  span : Span
  name : String
  nameSpan : Span
  prelude : List Token
  block : Option Span
deriving DecidableEq, Repr, Inhabited

/-- A node of the tree. The children are those of the block. -/
inductive Node
  | ruleset (rule : Ruleset) (children : List Node)
  | atRule (rule : AtRule) (children : List Node)
  | declaration (decl : Declaration)
  | comment (span : Span)
deriving Repr, Inhabited

namespace Node

/-- The span of a node. -/
def span : Node → Span
  | ruleset rule _ => rule.span
  | atRule rule _ => rule.span
  | declaration decl => decl.span
  | comment span => span

/-- The nodes in the block of a node. -/
def children : Node → List Node
  | ruleset _ children => children
  | atRule _ children => children
  | declaration _ => []
  | comment _ => []

/-- Whether the node is a comment. -/
def isComment : Node → Bool
  | comment _ => true
  | _ => false

/-- The declaration that the node is, if it is one. -/
def declaration? : Node → Option Declaration
  | declaration decl => some decl
  | _ => none

end Node

/-- The declarations directly in a block. -/
def declarationsIn (children : List Node) : List Declaration :=
  children.filterMap Node.declaration?

/-- Whether a block holds nothing to apply; comments alone count as nothing. -/
def isEmptyBlock (children : List Node) : Bool :=
  children.all Node.isComment

/-- A whole source, as a tree. -/
structure Stylesheet where
  span : Span
  children : List Node
deriving Repr, Inhabited

end CssWorkbench
