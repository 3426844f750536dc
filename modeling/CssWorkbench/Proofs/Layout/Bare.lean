import CssWorkbench.Token.Scanner
import CssWorkbench.Tree.Walk

/-!
# What a tree says apart from its places

Two trees say the same when they differ only in where things stand, in the blanks between tokens
and in the semicolons behind declarations. `bare` takes these away; what it leaves is what the
layout of a source must keep.
-/

namespace CssWorkbench

/-- The span that stands for every place. -/
def Span.nowhere : Span := ⟨0, 0⟩

/-- The token without its place. -/
def Token.bare (t : Token) : Token := { t with span := .nowhere }

/-- The tokens without their places and without the blanks between them. -/
def bareTokens (ts : List Token) : List Token :=
  (ts.filter fun t => !t.is .whitespace).map Token.bare

namespace SelectorPart

/-- The part without places and blanks. -/
def bare : SelectorPart → SelectorPart
  | compound _ tokens => compound .nowhere (bareTokens tokens)
  | combinator _ kind => combinator .nowhere kind

end SelectorPart

/-- The selector without places and blanks. -/
def Selector.bare (s : Selector) : Selector :=
  ⟨.nowhere, s.parts.map SelectorPart.bare⟩

/-- The selectors without places and blanks. -/
def SelectorList.bare (list : SelectorList) : SelectorList :=
  ⟨.nowhere, list.selectors.map Selector.bare⟩

/-- The value without places and blanks. -/
def Value.bare (v : Value) : Value :=
  ⟨.nowhere, bareTokens v.tokens⟩

/-- The declaration without places and blanks, and as if no semicolon stood behind it. -/
def Declaration.bare (d : Declaration) : Declaration :=
  { span := .nowhere
    property := d.property.bare
    value := d.value.map Value.bare
    important := d.important
    semicolon := false }

/-- The ruleset without places and blanks. -/
def Ruleset.bare (rule : Ruleset) : Ruleset :=
  ⟨.nowhere, rule.selectors.bare, .nowhere⟩

/-- The at-rule without places and blanks. -/
def AtRule.bare (rule : AtRule) : AtRule :=
  ⟨.nowhere, rule.name, .nowhere, bareTokens rule.prelude, rule.block.map fun _ => .nowhere⟩

mutual

/-- The node without places, blanks and semicolons. -/
def Node.bare : Node → Node
  | .ruleset rule children => .ruleset rule.bare (bareNodes children)
  | .atRule rule children => .atRule rule.bare (bareNodes children)
  | .declaration decl => .declaration decl.bare
  | .comment _ => .comment .nowhere

/-- The nodes without places, blanks and semicolons. -/
def bareNodes : List Node → List Node
  | [] => []
  | n :: ns => n.bare :: bareNodes ns

end

/-- The stylesheet without places, blanks and semicolons. -/
def Stylesheet.bare (sheet : Stylesheet) : Stylesheet :=
  ⟨.nowhere, bareNodes sheet.children⟩

/-- Bare nodes in a row are those of both parts. -/
theorem bareNodes_append (ms ns : List Node) :
    bareNodes (ms ++ ns) = bareNodes ms ++ bareNodes ns := by
  induction ms with
  | nil => rfl
  | cons m ms ih => rw [List.cons_append, bareNodes, bareNodes, ih, List.cons_append]

/-- Without tokens there are no bare ones. -/
@[simp] theorem bareTokens_nil : bareTokens [] = [] := rfl

/-- A blank does not show in bare tokens. -/
theorem bareTokens_cons_blank {t : Token} (h : t.kind = .whitespace) (ts : List Token) :
    bareTokens (t :: ts) = bareTokens ts := by
  rw [bareTokens, List.filter_cons_of_neg (by simp [Token.is, h]), bareTokens]

/-- Any other token shows as it is when bare. -/
theorem bareTokens_cons {t : Token} (h : t.kind ≠ .whitespace) (ts : List Token) :
    bareTokens (t :: ts) = t.bare :: bareTokens ts := by
  rw [bareTokens, List.filter_cons_of_pos (by simp [Token.is, h]), bareTokens, List.map_cons]

/-- Bare tokens in a row are those of both parts. -/
theorem bareTokens_append (ts us : List Token) :
    bareTokens (ts ++ us) = bareTokens ts ++ bareTokens us := by
  rw [bareTokens, List.filter_append, List.map_append, bareTokens, bareTokens]

end CssWorkbench
