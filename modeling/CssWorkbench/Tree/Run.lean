import CssWorkbench.Token.Bracket
import CssWorkbench.Tree.Selector
import CssWorkbench.Tree.SyntaxError

/-!
# Runs of tokens

The parts of a statement that hold no blocks of their own: values, selectors and preludes. Each
is the run of tokens up to one that halts it outside brackets; which kinds halt and which brackets
count is all in which they differ.
-/

namespace CssWorkbench

/-- The tokens up to the first of a halting kind outside brackets, and the rest with that token.
`count` gives the number of open brackets behind a token, of which `depth` are open at the
front. -/
def takeRun (halts : TokenKind → Bool) (count : Nat → TokenKind → Nat) (depth : Nat) :
    List Token → List Token × List Token
  | [] => ([], [])
  | t :: ts =>
    if depth = 0 && halts t.kind then ([], t :: ts)
    else
      let r := takeRun halts count (count depth t.kind) ts
      (t :: r.1, r.2)

/-- A run and what follows it make up the tokens. -/
theorem takeRun_append (halts : TokenKind → Bool) (count : Nat → TokenKind → Nat) (depth : Nat)
    (ts : List Token) :
    (takeRun halts count depth ts).1 ++ (takeRun halts count depth ts).2 = ts := by
  induction ts generalizing depth with
  | nil => rfl
  | cons t ts ih =>
    unfold takeRun
    split
    · rfl
    · simp [ih]

/-- A run leaves no more tokens than there were. -/
theorem takeRun_length_le (halts : TokenKind → Bool) (count : Nat → TokenKind → Nat)
    (depth : Nat) (ts : List Token) : (takeRun halts count depth ts).2.length ≤ ts.length := by
  have whole := congrArg List.length (takeRun_append halts count depth ts)
  simp only [List.length_append] at whole
  omega

/-- A value ends at `;` and `}`. -/
def haltsValue : TokenKind → Bool
  | .semicolon | .rbrace => true
  | _ => false

/-- Functions and parentheses nest in a value; square brackets do not count. -/
def valueDepth (depth : Nat) : TokenKind → Nat
  | .function | .lparen => depth + 1
  | .rparen => depth - 1
  | _ => depth

/-- Selectors and preludes end at `;`, `{` and `}`. -/
def haltsPrelude : TokenKind → Bool
  | .semicolon | .lbrace | .rbrace => true
  | _ => false

/-- The tokens of a value, and what follows. -/
def takeValue (ts : List Token) : List Token × List Token :=
  takeRun haltsValue valueDepth 0 ts

/-- The tokens of a selector list or prelude of which `depth` brackets are open, and what
follows. -/
def takePrelude (depth : Nat) (ts : List Token) : List Token × List Token :=
  takeRun haltsPrelude TokenKind.inlineDepth depth ts

/-- The tokens before the last one that is not trivia, and that token. -/
def splitLastSignificant? (ts : List Token) : Option (List Token × Token) :=
  match ts.reverse.dropWhile Token.isTrivia with
  | last :: before => some (before.reverse, last)
  | [] => none

/-- The tokens in front of an `!important` that closes a value. -/
def beforeImportant? (ts : List Token) : Option (List Token) :=
  match splitLastSignificant? ts with
  | some (front, word) =>
    if word.kind = .ident && word.value = "important" then
      match splitLastSignificant? front with
      | some (value, mark) => if mark.isDelim '!' then some value else none
      | none => none
    else none
  | none => none

/-- The value that tokens spell, if there are any. -/
def Value.ofTokens? (ts : List Token) : Option Value :=
  match ts.head?, ts.getLast? with
  | some first, some last => some ⟨spanOfTokens first last, ts⟩
  | _, _ => none

/-- Drop the blanks around a prelude. -/
def trimBlanks (ts : List Token) : List Token :=
  trimTrailingBlanks (ts.dropWhile (·.is .whitespace))

end CssWorkbench
