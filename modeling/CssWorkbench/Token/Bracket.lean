import CssWorkbench.Token.Basic

/-!
# Brackets

One counter follows all kinds of brackets. It goes up at every opener and down at every closer,
never below zero, and the block that an opener starts ends where the count comes back to zero.
-/

namespace CssWorkbench

namespace TokenKind

/-- Functions, parentheses, brackets and braces open a block. -/
def opens : TokenKind → Bool
  | .function | .lparen | .lbracket | .lbrace => true
  | _ => false

/-- The closers of a block. -/
def closes : TokenKind → Bool
  | .rparen | .rbracket | .rbrace => true
  | _ => false

/-- Functions, parentheses and brackets nest inside a selector or a prelude. -/
def opensInline : TokenKind → Bool
  | .function | .lparen | .lbracket => true
  | _ => false

/-- The closers that count inside a selector or a prelude. -/
def closesInline : TokenKind → Bool
  | .rparen | .rbracket => true
  | _ => false

/-- The bracket count of a selector or prelude behind a token of a kind. -/
def inlineDepth (depth : Nat) (kind : TokenKind) : Nat :=
  if kind.opensInline then depth + 1
  else if kind.closesInline then depth - 1
  else depth

end TokenKind

/-- How many tokens stand between the front of a run, where `depth` blocks are open, and the token
that closes the last of them. A run that ends first closes at its last token, the end token
aside; `passed` counts the tokens already behind. -/
def closeDistanceFrom (depth passed : Nat) : List Token → Nat
  | [] => passed - 1
  | t :: ts =>
    if t.kind.opens then closeDistanceFrom (depth + 1) (passed + 1) ts
    else if t.kind.closes then
      if depth ≤ 1 then passed else closeDistanceFrom (depth - 1) (passed + 1) ts
    else if t.kind = .eof then passed - 1
    else closeDistanceFrom depth (passed + 1) ts

/-- How far behind the opener at the front of a run its closing token stands. -/
def closeDistance (tokens : List Token) : Nat :=
  closeDistanceFrom 0 0 tokens

/-- The end of the block that a token opens in front of a run, or of the token itself if it opens
none. -/
def blockStop (opener : Token) (behind : List Token) : Nat :=
  ((opener :: behind)[closeDistance (opener :: behind)]?.getD opener).stop

/-- The index of the token that closes the block opened at `opener`, or of the last token before
the end if there is none. -/
def matchingClose (tokens : List Token) (opener : Nat) : Nat :=
  opener + closeDistance (tokens.drop opener)

end CssWorkbench
