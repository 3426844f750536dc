import CssWorkbench.Tree.Parser

/-!
# What the parser can do, as a relation

`Reads` says in one inductive relation what can happen to a list of tokens: each constructor is one
decision of the parser, with everything that it looks at and everything that it leaves. A
stylesheet is read with no block open, the body of a block with at least one. The relation holds of
what the parser computes, and of nothing else; statements about trees are proved by induction on
it and never open the parser.
-/

namespace CssWorkbench

/-- Where the next token stands, or the end of the source. -/
def placeOf (stop : Nat) : List Token → Span
  | [] => Span.single stop
  | t :: _ => t.span

/-- Take a `;` off the front, if there is one. -/
def takeSemicolon : List Token → Option Token × List Token
  | [] => (none, [])
  | t :: ts => if t.kind = .semicolon then (some t, ts) else (none, t :: ts)

/-- The declaration of `property` behind whose colon stand the tokens `run` and perhaps a `;`. -/
def declarationNode (property colon : Token) (run : List Token) (semicolon : Option Token) :
    Declaration :=
  let tokens := trimTrailingBlanks run
  let before := beforeImportant? tokens
  let valueEnd := match tokens.getLast? with
    | some last => max last.stop colon.stop
    | none => colon.stop
  { span := ⟨property.start, (semicolon.map Token.stop).getD valueEnd⟩
    property := property
    value := Value.ofTokens? (match before with
      | some front => trimTrailingBlanks front
      | none => tokens)
    important := before.isSome
    semicolon := semicolon.isSome }

/-- The at-rule of a keyword and a prelude. -/
def atRuleNode (keyword : Token) (prelude : List Token) (stop : Nat) (block : Option Span)
    (children : List Node) : Node :=
  .atRule ⟨⟨keyword.start, stop⟩, keyword.value, keyword.span, trimBlanks prelude, block⟩ children

/-- What an at-rule says of itself. -/
def atRuleOf (keyword : Token) (prelude : List Token) (stop : Nat) (block : Option Span) : AtRule :=
  ⟨⟨keyword.start, stop⟩, keyword.value, keyword.span, trimBlanks prelude, block⟩

/-- The node of an at-rule holds the rule and its children. -/
theorem atRuleNode_eq (keyword : Token) (prelude : List Token) (stop : Nat) (block : Option Span)
    (children : List Node) : atRuleNode keyword prelude stop block children =
      .atRule (atRuleOf keyword prelude stop block) children := rfl

/-- Whether a declaration starts with `t`, when `ts` stands behind it. -/
def StartsDeclaration (t : Token) (ts : List Token) : Prop :=
  t.kind = .ident ∧ ∃ colon behind, ts.dropWhile (·.is .whitespace) = colon :: behind ∧
    colon.kind = .colon

/-- The kinds of a token that have a meaning of their own in front of a statement; any other
starts a ruleset, unless a declaration starts there. -/
def TokenKind.leads : TokenKind → Bool
  | .rbrace | .whitespace | .semicolon | .cdo | .cdc | .comment | .atKeyword => true
  | _ => false

/-- A token that is passed over in front of a statement, when `nesting` blocks are open. -/
def Passed (nesting : Nat) (kind : TokenKind) : Prop :=
  kind = .whitespace ∨ kind = .cdo ∨ kind = .cdc ∨ (kind = .semicolon ∧ 0 < nesting)

/-- A token that no statement can start with outside blocks, and what is wrong about it. -/
inductive Stray : TokenKind → SyntaxFault → Prop
  | blockEnd : Stray .rbrace .strayBlockEnd
  | semicolon : Stray .semicolon .straySemicolon

/-- A block opens with `opener`, behind the head that starts with the first token. The last index
makes the node out of the children and the span of the block. -/
inductive Heads (nesting : Nat) :
    Token → List Token → Token → List Token → (List Node → Span → Node) → Prop
  | atRule {t opener : Token} {ts prelude inner : List Token} (keyword : t.kind = .atKeyword)
      (run : takePrelude 0 ts = (prelude, opener :: inner)) (brace : opener.kind = .lbrace) :
      Heads nesting t ts opener inner fun children block =>
        atRuleNode t prelude block.stop (some block) children
  | bare {t : Token} {ts : List Token} (brace : t.kind = .lbrace) :
      Heads nesting t ts t ts (rulesetNode t.start [] t)
  | ruleset {t opener : Token} {ts head inner : List Token} (leads : t.kind.leads = false)
      (notBrace : t.kind ≠ .lbrace) (notDeclared : 0 < nesting → ¬ StartsDeclaration t ts)
      (run : takePrelude (t.kind.inlineDepth 0) ts = (head, opener :: inner))
      (brace : opener.kind = .lbrace) :
      Heads nesting t ts opener inner (rulesetNode t.start (t :: head) opener)

/-- An at-rule without a block, and what it leaves. -/
inductive ReadsStatement (stop : Nat) (t : Token) (ts : List Token) :
    Node → List Token → List SyntaxError → Prop
  | ended {semicolon : Token} {prelude rest : List Token}
      (run : takePrelude 0 ts = (prelude, semicolon :: rest)) (kind : semicolon.kind = .semicolon) :
      ReadsStatement stop t ts (atRuleNode t prelude semicolon.stop none []) rest []
  | broken {prelude rest : List Token} (run : takePrelude 0 ts = (prelude, rest))
      (kind : ∀ u ∈ rest.head?, u.kind = .rbrace) :
      ReadsStatement stop t ts
        (atRuleNode t prelude (lastSignificantStop t.stop prelude) none []) rest
        [⟨.expectedEndOfAtRule, placeOf stop rest⟩]

/-- What is left of a run of tokens that no block follows: a `;` goes with the run, and outside
blocks a `}` does. -/
def afterBroken (nesting : Nat) : List Token → List Token
  | [] => []
  | t :: ts => if t.kind = .semicolon ∨ nesting = 0 then ts else t :: ts

/-- What the parser makes of tokens with `nesting` blocks open: the nodes, where the block ends,
what is left behind it, and the errors on the way. -/
inductive Reads (stop : Nat) :
    Nat → List Token → List Node → Nat → List Token → List SyntaxError → Prop
  | finish : Reads stop 0 [] [] stop [] []
  | unclosed {n : Nat} :
      Reads stop (n + 1) [] [] stop [] [⟨.expectedBlockEnd, Span.single stop⟩]
  | close {n : Nat} {t : Token} {ts : List Token} (kind : t.kind = .rbrace) :
      Reads stop (n + 1) (t :: ts) [] t.stop ts []
  | stray {t : Token} {ts rest : List Token} {fault : SyntaxFault} {nodes : List Node} {e : Nat}
      {errors : List SyntaxError} (kind : Stray t.kind fault)
      (behind : Reads stop 0 ts nodes e rest errors) :
      Reads stop 0 (t :: ts) nodes e rest (⟨fault, t.span⟩ :: errors)
  | pass {n : Nat} {t : Token} {ts rest : List Token} {nodes : List Node} {e : Nat}
      {errors : List SyntaxError} (kind : Passed n t.kind)
      (behind : Reads stop n ts nodes e rest errors) :
      Reads stop n (t :: ts) nodes e rest errors
  | comment {n : Nat} {t : Token} {ts rest : List Token} {nodes : List Node} {e : Nat}
      {errors : List SyntaxError} (kind : t.kind = .comment)
      (behind : Reads stop n ts nodes e rest errors) :
      Reads stop n (t :: ts) (.comment t.span :: nodes) e rest errors
  | declaration {n : Nat} {t colon : Token} {ts behindColon run left rest : List Token}
      {nodes : List Node} {e : Nat} {errors : List SyntaxError} (kind : t.kind = .ident)
      (gap : ts.dropWhile (·.is .whitespace) = colon :: behindColon)
      (colonKind : colon.kind = .colon)
      (value : takeValue (behindColon.dropWhile (·.is .whitespace)) = (run, left))
      (behind : Reads stop (n + 1) (takeSemicolon left).2 nodes e rest errors) :
      Reads stop (n + 1) (t :: ts)
        (.declaration (declarationNode t colon run (takeSemicolon left).1) :: nodes) e rest errors
  | statement {n : Nat} {t : Token} {ts left rest : List Token} {node : Node} {nodes : List Node}
      {e : Nat} {first errors : List SyntaxError} (keyword : t.kind = .atKeyword)
      (rule : ReadsStatement stop t ts node left first)
      (behind : Reads stop n left nodes e rest errors) :
      Reads stop n (t :: ts) (node :: nodes) e rest (first ++ errors)
  | block {n : Nat} {t opener : Token} {ts inner left rest : List Token}
      {node : List Node → Span → Node} {children nodes : List Node} {inside e : Nat}
      {first errors : List SyntaxError} (head : Heads n t ts opener inner node)
      (shallow : n < maxNesting) (body : Reads stop (n + 1) inner children inside left first)
      (behind : Reads stop n left nodes e rest errors) :
      Reads stop n (t :: ts) (node children ⟨opener.start, inside⟩ :: nodes) e rest
        (first ++ errors)
  | deepBlock {n : Nat} {t opener : Token} {ts inner rest : List Token}
      {node : List Node → Span → Node} {nodes : List Node} {e : Nat} {errors : List SyntaxError}
      (head : Heads n t ts opener inner node) (deep : maxNesting ≤ n)
      (behind : Reads stop n (skipBlock stop 1 inner).2 nodes e rest errors) :
      Reads stop n (t :: ts) (node [] ⟨opener.start, (skipBlock stop 1 inner).1⟩ :: nodes) e rest
        (⟨.nestedTooDeeply, opener.span⟩ :: errors)
  | broken {n : Nat} {t : Token} {ts head left rest : List Token} {nodes : List Node} {e : Nat}
      {errors : List SyntaxError} (leads : t.kind.leads = false) (notBrace : t.kind ≠ .lbrace)
      (notDeclared : 0 < n → ¬ StartsDeclaration t ts)
      (run : takePrelude (t.kind.inlineDepth 0) ts = (head, left))
      (noBrace : ∀ u ∈ left.head?, u.kind ≠ .lbrace)
      (behind : Reads stop n (afterBroken n left) nodes e rest errors) :
      Reads stop n (t :: ts) nodes e rest (⟨.expectedBlock, placeOf stop left⟩ :: errors)

/-- In a block the tokens cannot end without an error. -/
theorem Reads.ne_nil {stop n e : Nat} {ts rest : List Token} {nodes : List Node}
    {errors : List SyntaxError} (h : Reads stop (n + 1) ts nodes e rest errors)
    (hclean : errors = []) : ts ≠ [] := by
  rintro rfl
  cases h
  cases hclean

end CssWorkbench
