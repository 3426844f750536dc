import CssWorkbench.Custom.Occurrence
import CssWorkbench.Proofs.Tree.Reading

/-!
# The declarations of a tree

All declarations in source order, whatever rulesets and at-rules they stand in. The occurrences of
custom properties are found in them, so that the rest of the tree can be left aside.
-/

namespace CssWorkbench

/-- The declarations in some nodes and below them, in source order. -/
def declarationsOf (nodes : List Node) : List Declaration :=
  (declarationsBelow none nodes).map Prod.fst

mutual

/-- Which ruleset is around a node does not matter to its declarations. -/
theorem Node.map_fst_declarations (around : Option Ruleset) :
    ∀ n : Node, (n.declarations around).map Prod.fst = (n.declarations none).map Prod.fst
  | .ruleset _ _ => rfl
  | .atRule _ children => map_fst_declarationsBelow around children
  | .declaration _ => rfl
  | .comment _ => rfl

/-- Which declarations are found does not go by the ruleset around. -/
theorem map_fst_declarationsBelow (around : Option Ruleset) :
    ∀ nodes : List Node, (declarationsBelow around nodes).map Prod.fst =
      (declarationsBelow none nodes).map Prod.fst
  | [] => rfl
  | n :: ns => by
    rw [declarationsBelow, declarationsBelow, List.map_append, List.map_append,
      n.map_fst_declarations around, map_fst_declarationsBelow around ns]

end

/-- Without nodes there are no declarations. -/
@[simp] theorem declarationsOf_nil : declarationsOf [] = [] := rfl

/-- The declarations of nodes in a row are those of both parts. -/
theorem declarationsOf_append (ms ns : List Node) :
    declarationsOf (ms ++ ns) = declarationsOf ms ++ declarationsOf ns := by
  induction ms with
  | nil => rfl
  | cons m ms ih =>
    simp only [declarationsOf, List.cons_append, declarationsBelow, List.map_append,
      List.append_assoc] at ih ⊢
    rw [ih]

/-- The declarations of a node that is none itself are those of its children. -/
theorem declarationsOf_cons {node : Node} (h : node.declaration? = none) (nodes : List Node) :
    declarationsOf (node :: nodes) = declarationsOf node.children ++ declarationsOf nodes := by
  rw [declarationsOf, declarationsBelow, List.map_append]
  cases node with
  | ruleset rule children =>
    rw [Node.declarations, map_fst_declarationsBelow]
    rfl
  | atRule | comment => rfl
  | declaration => cases h

/-- A declaration in front is the first one. -/
theorem declarationsOf_declaration (d : Declaration) (nodes : List Node) :
    declarationsOf (.declaration d :: nodes) = d :: declarationsOf nodes := rfl

/-- The occurrences of a stylesheet are those in its declarations. -/
theorem occurrences_eq (sheet : Stylesheet) :
    sheet.occurrences = (declarationsOf sheet.children).flatMap Declaration.occurrences := by
  rw [Stylesheet.occurrences, Stylesheet.declarations, declarationsOf, List.flatMap_map]

variable {stop n : Nat} {t : Token} {ts left : List Token} {node : Node}
  {errors : List SyntaxError}

/-- An at-rule without a block is no declaration and has none below it. -/
theorem ReadsStatement.no_declaration (h : ReadsStatement stop t ts node left errors) :
    node.declaration? = none ∧ node.children = [] := by
  cases h with
  | ended | broken => exact ⟨rfl, rfl⟩

/-- A rule is no declaration, and has the children that it was made of. -/
theorem Heads.no_declaration {opener : Token} {inner : List Token}
    {make : List Node → Span → Node} (h : Heads n t ts opener inner make) (children : List Node)
    (block : Span) :
    (make children block).declaration? = none ∧ (make children block).children = children := by
  cases h with
  | atRule | bare | ruleset => exact ⟨rfl, rfl⟩

end CssWorkbench
