import CssWorkbench.Token.Scanner
import CssWorkbench.Tree.Walk

/-!
# Growing selections

Around an offset lie ever larger spans that make sense to select: a token, a value, a declaration,
the inside of a block, the block, the ruleset, the stylesheet. The chains of several offsets are kept
in one list of links, each of which knows the link around it by its index.
-/

namespace CssWorkbench

/-- A block without its braces. -/
def Span.inside (block : Span) : Span :=
  ⟨min (block.start + 1) block.stop, max (block.stop - 1) block.start⟩

/-- The spans that a ruleset offers around an offset, outermost first. -/
def Ruleset.selections (rule : Ruleset) (offset : Nat) : List Span :=
  if rule.selectors.span.contains offset && offset ≤ rule.block.start then
    [rule.span, rule.selectors.span] ++
      ((rule.selectors.selectors.find? fun s => s.span.contains offset).map (·.span)).toList
  else [rule.span, rule.block, rule.block.inside]

/-- The span of the tokens of a run, blanks and comments around them aside. -/
def significantSpan? (tokens : List Token) : Option Span :=
  match (significant tokens).head?, (significant tokens).getLast? with
  | some first, some last => some ⟨first.start, last.stop⟩
  | _, _ => none

/-- The spans that an at-rule offers around an offset, outermost first. -/
def AtRule.selections (rule : AtRule) (offset : Nat) : List Span :=
  match rule.block with
  | some block =>
    if block.start < offset then [rule.span, block, block.inside]
    else rule.span :: (significantSpan? rule.prelude).toList
  | none => rule.span :: (significantSpan? rule.prelude).toList

/-- The spans that a place offers around an offset, outermost first. -/
def Place.selections (offset : Nat) : Place → List Span
  | .sheet s => [s.span]
  | .node (.ruleset rule _) => rule.selections offset
  | .node (.atRule rule _) => rule.selections offset
  | .node (.declaration d) => d.span :: (d.value.map (·.span)).toList
  | .node (.comment span) => [span]

/-- The last token at an offset, blanks aside. -/
def tokenAt? (tokens : List Token) (offset : Nat) : Option Token :=
  (tokens.filter fun t => !t.is .whitespace && !t.is .eof && t.span.contains offset).getLast?

/-- Put a span inside the innermost one, if it touches the offset and is smaller. -/
def growInwards (offset : Nat) (chain : List Span) (span : Span) : List Span :=
  let nested :=
    match chain with
    | last :: _ => last.covers span && last ≠ span && !span.isEmpty
    | [] => true
  if nested && span.contains offset then span :: chain else chain

/-- The spans around an offset, innermost first. An offset past the end counts as the end. -/
def Stylesheet.selectionsAt (sheet : Stylesheet) (source : String) (offset : Nat) : List Span :=
  let offset := min offset (Text.size source)
  let offered := (sheet.pathAt offset).flatMap (Place.selections offset) ++
    ((tokenAt? (scan source) offset).map (·.span)).toList
  offered.foldl (growInwards offset) []

/-- A span of a chain, and the index of the link around it. -/
structure SelectionLink where
  span : Span
  parent : Option Nat
deriving DecidableEq, Repr, Inhabited

/-- The links of several chains. For each chain `innermost` has the index of its smallest span. The
link around another one stands in front of it, so that every chain comes to an end. -/
structure SelectionChains where
  links : List SelectionLink
  innermost : List Nat
  parent_lt : ∀ (i : Nat) (link : SelectionLink), links[i]? = some link →
    ∀ parent ∈ link.parent, parent < i

namespace SelectionChains

/-- No chain. -/
def empty : SelectionChains := ⟨[], [], by simp⟩

/-- The spans from a link outwards. -/
def chain (c : SelectionChains) (index : Nat) : List Span :=
  match h : c.links[index]? with
  | none => []
  | some link =>
    match hparent : link.parent with
    | none => [link.span]
    | some parent =>
      have := c.parent_lt index link h parent hparent
      link.span :: c.chain parent
termination_by index

/-- All chains, each from its smallest span outwards. -/
def chains (c : SelectionChains) : List (List Span) :=
  c.innermost.map c.chain

/-- The links of spans that are given outermost first, when `count` links stand in front of them and
`parent` is around the first. -/
def linksFrom (count : Nat) (parent : Option Nat) : List Span → List SelectionLink
  | [] => []
  | span :: spans => ⟨span, parent⟩ :: linksFrom (count + 1) (some count) spans

/-- The parent of a link is one that was found earlier. -/
theorem parent_lt_of_linksFrom {count i : Nat} {around : Option Nat} {spans : List Span}
    {link : SelectionLink} (haround : ∀ parent ∈ around, parent < count)
    (h : (linksFrom count around spans)[i]? = some link) :
    ∀ parent ∈ link.parent, parent < count + i := by
  induction spans generalizing count i around with
  | nil => cases h
  | cons span spans ih =>
    cases i with
    | zero =>
      obtain rfl := Option.some.inj h
      exact haround
    | succ i =>
      have hfirst : ∀ parent ∈ some count, parent < count + 1 := by simp
      have hlt := ih hfirst h
      rwa [Nat.add_right_comm] at hlt

/-- Put a chain, outermost first, behind the others. -/
def add (c : SelectionChains) (spans : List Span) : SelectionChains where
  links := c.links ++ linksFrom c.links.length none spans
  innermost := c.innermost ++
    [match spans with | [] => 0 | _ :: inner => c.links.length + inner.length]
  parent_lt i link h := by
    rcases Nat.lt_or_ge i c.links.length with hlt | hle
    · rw [List.getElem?_append_left hlt] at h
      exact c.parent_lt i link h
    · rw [List.getElem?_append_right hle] at h
      have hlinks := parent_lt_of_linksFrom (by simp) h
      rwa [Nat.add_sub_cancel' hle] at hlinks

end SelectionChains

/-- The chains of spans around some offsets, in their order. -/
def Stylesheet.selectionChains (sheet : Stylesheet) (source : String) (offsets : List Nat) :
    SelectionChains :=
  offsets.foldl (fun c offset => c.add (sheet.selectionsAt source offset).reverse) .empty

end CssWorkbench
