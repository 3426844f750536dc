import CssWorkbench.Tree.Parser

/-!
# Fragments

Single statements can be read one after another off one source, outside any block: each reading
goes on where the one before stopped.
-/

namespace CssWorkbench

/-- Read an at-rule outside any block. At the end of the source it has no name. -/
def readAtRuleAlone (stop : Nat) : (ts : List Token) → Step Node ts.length
  | [] => readAtRule stop (Token.eof stop) [] fun opener ts _ => readBlock stop 0 opener ts
  | keyword :: ts =>
    (readAtRule stop keyword ts fun opener inner _ => readBlock stop 0 opener inner).behind

/-- Read a ruleset outside any block. -/
def readRulesetAlone (stop : Nat) : (ts : List Token) → Step (Option Node) ts.length
  | [] => .toEnd none [⟨.expectedBlock, Span.single stop⟩]
  | first :: ts =>
    (readRuleset stop false first ts fun opener inner _ => readBlock stop 0 opener inner).behind

/-- What to read. -/
inductive FragmentKind
  | declaration | ruleset | atRule | stylesheet
deriving DecidableEq, Repr, Inhabited

/-- What was read: a node, if there was one, or all that was left as a stylesheet. -/
inductive Fragment
  | node (node : Option Node)
  | sheet (sheet : Stylesheet)
deriving Repr, Inhabited

/-- What is still to be read of a source, and the errors met so far. -/
structure FragmentReader where
  stop : Nat
  rest : List Token
  errors : List SyntaxError
deriving DecidableEq, Repr, Inhabited

namespace FragmentReader

/-- The start of a source. -/
def ofSource (source : String) : FragmentReader :=
  ⟨Text.size source, (scan source).dropLast, []⟩

/-- Note what a step left and the errors it met. -/
def advance {α : Type} {n : Nat} (r : FragmentReader) (s : Step α n) : FragmentReader :=
  { r with rest := s.rest, errors := r.errors ++ s.errors }

/-- Read the next fragment of a kind. -/
def read (r : FragmentReader) : FragmentKind → Fragment × FragmentReader
  | .declaration =>
    let s := readDeclaration r.stop r.rest
    (.node (s.value.map .declaration), r.advance s)
  | .ruleset =>
    let s := readRulesetAlone r.stop r.rest
    (.node s.value, r.advance s)
  | .atRule =>
    let s := readAtRuleAlone r.stop r.rest
    (.node (some s.value), r.advance s)
  | .stylesheet =>
    let (children, errors) := readStatements r.stop r.rest
    (.sheet ⟨⟨0, r.stop⟩, children⟩, { r with rest := [], errors := r.errors ++ errors })

end FragmentReader

end CssWorkbench
