import CssWorkbench.Tree.Basic

/-!
# Walking the tree

The nodes of a tree in source order, its declarations with the rulesets around them, and the path
from the stylesheet down to an offset.
-/

namespace CssWorkbench

/-- A place in the tree: the whole stylesheet or one of its nodes. -/
inductive Place
  | sheet (sheet : Stylesheet)
  | node (node : Node)
deriving Repr, Inhabited

namespace Place

/-- The span of a place. -/
def span : Place → Span
  | sheet s => s.span
  | node n => n.span

/-- The nodes directly below a place. -/
def children : Place → List Node
  | sheet s => s.children
  | node n => n.children

end Place

mutual

/-- A node at a depth, followed by the nodes below it; those below a node that `enter` refuses are
left out. -/
def Node.walk (enter : Node → Bool) (depth : Nat) : Node → List (Nat × Node)
  | .ruleset rule children =>
    (depth, .ruleset rule children) ::
      if enter (.ruleset rule children) then walkNodes enter (depth + 1) children else []
  | .atRule rule children =>
    (depth, .atRule rule children) ::
      if enter (.atRule rule children) then walkNodes enter (depth + 1) children else []
  | .declaration decl => [(depth, .declaration decl)]
  | .comment span => [(depth, .comment span)]

/-- The nodes of a list at a depth, each followed by those below it. -/
def walkNodes (enter : Node → Bool) (depth : Nat) : List Node → List (Nat × Node)
  | [] => []
  | n :: ns => n.walk enter depth ++ walkNodes enter depth ns

end

namespace Stylesheet

/-- All places with their depths, outermost first and in source order. What lies below a place that
`enter` refuses is left out. -/
def walk (enter : Place → Bool) (sheet : Stylesheet) : List (Nat × Place) :=
  (0, .sheet sheet) ::
    if enter (.sheet sheet) then
      (walkNodes (fun n => enter (.node n)) 1 sheet.children).map fun (depth, n) =>
        (depth, .node n)
    else []

/-- All nodes, each before those below it. -/
def nodes (sheet : Stylesheet) : List Node :=
  (walkNodes (fun _ => true) 1 sheet.children).map Prod.snd

end Stylesheet

mutual

/-- The declarations of a node, each with the closest ruleset around it. -/
def Node.declarations (around : Option Ruleset) : Node → List (Declaration × Option Ruleset)
  | .ruleset rule children => declarationsBelow (some rule) children
  | .atRule _ children => declarationsBelow around children
  | .declaration decl => [(decl, around)]
  | .comment _ => []

/-- The declarations in a list of nodes, each with the closest ruleset around it. -/
def declarationsBelow (around : Option Ruleset) : List Node → List (Declaration × Option Ruleset)
  | [] => []
  | n :: ns => n.declarations around ++ declarationsBelow around ns

end

/-- Every declaration in source order, with the closest ruleset around it. -/
def Stylesheet.declarations (sheet : Stylesheet) : List (Declaration × Option Ruleset) :=
  declarationsBelow none sheet.children

mutual

/-- The path from a node down to an offset, the node itself aside. -/
def Node.pathBelow (offset : Nat) : Node → List Node
  | .ruleset _ children => pathTo offset children
  | .atRule _ children => pathTo offset children
  | .declaration _ => []
  | .comment _ => []

/-- The path to an offset through the last of some siblings that the offset touches. Neighbours can
share a boundary, and a cursor at the start of a node belongs to that node. -/
def pathTo (offset : Nat) : List Node → List Node
  | [] => []
  | n :: ns =>
    match pathTo offset ns with
    | [] => if n.span.contains offset then n :: n.pathBelow offset else []
    | path => path

end

namespace Stylesheet

/-- The places that an offset touches, the stylesheet first. -/
def pathAt (sheet : Stylesheet) (offset : Nat) : List Place :=
  .sheet sheet :: (pathTo offset sheet.children).map .node

/-- The innermost place that an offset touches. -/
def placeAt (sheet : Stylesheet) (offset : Nat) : Place :=
  (sheet.pathAt offset).getLastD (.sheet sheet)

end Stylesheet

end CssWorkbench
