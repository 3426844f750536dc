import CssWorkbench.Tree.Basic
import CssWorkbench.Token.Bracket

/-!
# Building selectors

The tokens in front of a block are parted at the commas outside brackets, and each group becomes a
selector: compounds, with the combinators between them. Blanks and comments between two compounds
are a descendant combinator; combinators behind the last compound are dropped. A combinator in
front of the first compound stays, so that a nested selector such as `> b` survives.
-/

namespace CssWorkbench

/-- Part tokens at the commas outside brackets, of which `depth` are open. -/
def splitCommasFrom (depth : Nat) : List Token → List (List Token)
  | [] => [[]]
  | t :: ts =>
    if t.kind = .comma && depth = 0 then [] :: splitCommasFrom 0 ts
    else
      match splitCommasFrom (t.kind.inlineDepth depth) ts with
      | group :: groups => (t :: group) :: groups
      | [] => [[t]]

/-- The groups of tokens between the commas outside brackets. -/
def splitCommas (tokens : List Token) : List (List Token) :=
  splitCommasFrom 0 tokens

/-- The combinator that a token is, if it is one. -/
def Token.combinator? (t : Token) : Option Combinator :=
  if t.isDelim '>' then some .child
  else if t.isDelim '+' then some .nextSibling
  else if t.isDelim '~' then some .subsequentSibling
  else none

/-- A selector in the making: the finished parts and the tokens of the pending compound, newest
first; the gap behind the last compound; the number of open brackets. -/
structure SelectorDraft where
  parts : List SelectorPart
  pending : List Token
  gap : Option Span
  depth : Nat
deriving DecidableEq, Repr, Inhabited

/-- The span from the first to the last of some tokens. -/
def spanOfTokens (first last : Token) : Span :=
  ⟨first.start, last.stop⟩

namespace SelectorDraft

/-- The draft that nothing was put into. -/
def empty : SelectorDraft := ⟨[], [], none, 0⟩

/-- Close the pending compound. -/
def flush (d : SelectorDraft) : SelectorDraft :=
  match d.pending, d.pending.getLast? with
  | last :: _, some first =>
    { d with
      parts := .compound (spanOfTokens first last) d.pending.reverse :: d.parts
      pending := [] }
  | _, _ => d

/-- Whether the newest part is a compound. -/
def endsInCompound (d : SelectorDraft) : Bool :=
  d.parts.head?.any SelectorPart.isCompound

/-- Put a blank or comment outside brackets behind the draft. -/
def addTrivia (d : SelectorDraft) (t : Token) : SelectorDraft :=
  let d := d.flush
  if d.endsInCompound then
    { d with gap := some (match d.gap with | some gap => gap.union t.span | none => t.span) }
  else d

/-- Put a combinator outside brackets behind the draft. -/
def addCombinator (d : SelectorDraft) (t : Token) (kind : Combinator) : SelectorDraft :=
  let d := d.flush
  { d with parts := .combinator t.span kind :: d.parts, gap := none }

/-- Turn a gap behind a compound into a descendant combinator. -/
def closeGap (d : SelectorDraft) : SelectorDraft :=
  match d.gap with
  | some gap =>
    if d.pending.isEmpty && d.endsInCompound then
      { d with parts := .combinator gap .descendant :: d.parts, gap := none }
    else { d with gap := none }
  | none => d

/-- Put a token into the pending compound. -/
def addSimple (d : SelectorDraft) (t : Token) : SelectorDraft :=
  { d with pending := t :: d.pending, depth := t.kind.inlineDepth d.depth }

/-- Put the next token of a selector behind the draft. -/
def add (d : SelectorDraft) (t : Token) : SelectorDraft :=
  if d.depth = 0 then
    if t.isTrivia then d.addTrivia t
    else
      match t.combinator? with
      | some kind => d.addCombinator t kind
      | none => d.closeGap.addSimple t
  else d.addSimple t

/-- The parts of the finished draft, in order, up to the last compound. -/
def finish (d : SelectorDraft) : List SelectorPart :=
  (d.flush.parts.dropWhile fun p => !p.isCompound).reverse

end SelectorDraft

/-- The selector that a group of tokens spells, if it holds a compound. -/
def Selector.ofTokens? (tokens : List Token) : Option Selector :=
  let parts := (tokens.foldl SelectorDraft.add .empty).finish
  match parts.head?, parts.getLast? with
  | some first, some last => some ⟨⟨first.span.start, last.span.stop⟩, parts⟩
  | _, _ => none

/-- The selectors that tokens in front of a block spell; `behind` is where the block starts. -/
def SelectorList.ofTokens (tokens : List Token) (behind : Nat) : SelectorList :=
  let selectors := (splitCommas tokens).filterMap Selector.ofTokens?
  match selectors.head?, selectors.getLast? with
  | some first, some last => ⟨⟨first.span.start, last.span.stop⟩, selectors⟩
  | _, _ => ⟨Span.single behind, []⟩

end CssWorkbench
