import CssWorkbench.Proofs.Token.FirmCut
import CssWorkbench.Proofs.Tree.MovedReading

/-!
# Moving a tree by some bytes

`shift k` moves all that is said of a place by `k` bytes: the spans of tokens, nodes and errors, and
of everything that a node is made of. It is one of the ways to move a tree that keep the order of
offsets, so that moved tokens are read as moved nodes.
-/

namespace CssWorkbench

namespace SelectorPart

/-- The part `k` bytes further on. -/
def shift (k : Nat) : SelectorPart → SelectorPart
  | compound span tokens => compound (span.shift k) (tokens.map (Token.shift k))
  | combinator span kind => combinator (span.shift k) kind

end SelectorPart

/-- The selector `k` bytes further on. -/
def Selector.shift (k : Nat) (s : Selector) : Selector :=
  ⟨s.span.shift k, s.parts.map (SelectorPart.shift k)⟩

/-- The selectors `k` bytes further on. -/
def SelectorList.shift (k : Nat) (list : SelectorList) : SelectorList :=
  ⟨list.span.shift k, list.selectors.map (Selector.shift k)⟩

/-- The value `k` bytes further on. -/
def Value.shift (k : Nat) (v : Value) : Value :=
  ⟨v.span.shift k, v.tokens.map (Token.shift k)⟩

/-- The declaration `k` bytes further on. -/
def Declaration.shift (k : Nat) (d : Declaration) : Declaration :=
  { d with
    span := d.span.shift k
    property := d.property.shift k
    value := d.value.map (Value.shift k) }

/-- The ruleset `k` bytes further on. -/
def Ruleset.shift (k : Nat) (rule : Ruleset) : Ruleset :=
  ⟨rule.span.shift k, rule.selectors.shift k, rule.block.shift k⟩

/-- The at-rule `k` bytes further on. -/
def AtRule.shift (k : Nat) (rule : AtRule) : AtRule :=
  { rule with
    span := rule.span.shift k
    nameSpan := rule.nameSpan.shift k
    prelude := rule.prelude.map (Token.shift k)
    block := rule.block.map (Span.shift k) }

mutual

/-- The node, with all below it, `k` bytes further on. -/
def Node.shift (k : Nat) : Node → Node
  | .ruleset rule children => .ruleset (rule.shift k) (shiftNodes k children)
  | .atRule rule children => .atRule (rule.shift k) (shiftNodes k children)
  | .declaration decl => .declaration (decl.shift k)
  | .comment span => .comment (span.shift k)

/-- The nodes, with all below them, `k` bytes further on. -/
def shiftNodes (k : Nat) : List Node → List Node
  | [] => []
  | n :: ns => n.shift k :: shiftNodes k ns

end

/-- The error `k` bytes further on. -/
def SyntaxError.shift (k : Nat) (e : SyntaxError) : SyntaxError :=
  { e with span := e.span.shift k }

variable {stop n e : Nat} {ts rest : List Token} {nodes : List Node} {errors : List SyntaxError}

mutual

/-- To shift a node is to move its offsets on. -/
theorem Node.shift_eq_move (k : Nat) : ∀ node : Node, node.shift k = node.move (k + ·)
  | .ruleset _ children => by
    rw [Node.shift, Node.move, shiftNodes_eq_moveNodes k children]
    rfl
  | .atRule _ children => by
    rw [Node.shift, Node.move, shiftNodes_eq_moveNodes k children]
    rfl
  | .declaration _ => rfl
  | .comment _ => rfl

/-- To shift nodes is to move their offsets on. -/
theorem shiftNodes_eq_moveNodes (k : Nat) :
    ∀ nodes : List Node, shiftNodes k nodes = moveNodes (k + ·) nodes
  | [] => rfl
  | node :: nodes => by
    rw [shiftNodes, moveNodes, node.shift_eq_move k, shiftNodes_eq_moveNodes k nodes]

end

/-- Tokens that stand further on are read as nodes and errors that do. -/
theorem Reads.shift (k : Nat) (h : Reads stop n ts nodes e rest errors) :
    Reads (k + stop) n (ts.map (Token.shift k)) (shiftNodes k nodes) (k + e)
      (rest.map (Token.shift k)) (errors.map (SyntaxError.shift k)) := by
  have hmono : Monotone (k + ·) := fun _ _ hle => Nat.add_le_add_left hle k
  rw [shiftNodes_eq_moveNodes]
  exact h.move hmono

end CssWorkbench
