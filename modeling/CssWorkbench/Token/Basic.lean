import CssWorkbench.Text.Span

/-!
# Tokens

A token is a lexical unit of a stylesheet: its kind, the span it was read from, and the value
that the source spells there. Identifiers, functions and at-keywords carry their name without
`(` or `@`, hashes their name without `#`, strings their body with the escapes undone, numbers
and percentages the text of the number, dimensions number and unit run together, comments their
body without delimiters, and everything else its source text.
-/

namespace CssWorkbench

/-- The lexical classes. -/
inductive TokenKind
  | ident | atKeyword | hash | string | badString | number | percentage | dimension | url | badUrl
  | function | colon | semicolon | comma | lbrace | rbrace | lparen | rparen | lbracket | rbracket
  | delim | whitespace | comment | cdo | cdc | eof
deriving DecidableEq, Repr, Inhabited

/-- A lexical unit with its place and its decoded value. -/
structure Token where
  kind : TokenKind
  span : Span
  value : String
deriving DecidableEq, Repr, Inhabited

namespace Token

/-- The token that ends every scan. -/
def eof (offset : Nat) : Token := ⟨.eof, Span.single offset, ""⟩

/-- Where the token starts. -/
def start (t : Token) : Nat := t.span.start

/-- Where the token ends. -/
def stop (t : Token) : Nat := t.span.stop

/-- Whether the token is of a kind. -/
def is (t : Token) (kind : TokenKind) : Bool := t.kind = kind

/-- Whether the token only separates others. -/
def isTrivia (t : Token) : Bool := t.kind = .whitespace || t.kind = .comment

/-- Whether the token is the single character `c`. -/
def isDelim (t : Token) (c : Char) : Bool := t.kind = .delim && t.value.toList = [c]

/-- A token that is a single character is a delimiter. -/
theorem kind_of_isDelim {t : Token} {c : Char} (h : t.isDelim c = true) : t.kind = .delim :=
  of_decide_eq_true (Bool.and_eq_true_iff.mp h).1

/-- The value of a token that is a single character is that character. -/
theorem value_of_isDelim {t : Token} {c : Char} (h : t.isDelim c = true) :
    t.value.toList = [c] :=
  of_decide_eq_true (Bool.and_eq_true_iff.mp h).2

/-- Whether the token is the identifier `name`, in any letter case. -/
def isIdent (t : Token) (name : String) : Bool :=
  t.kind = .ident && Text.sameIgnoringCase t.value name

/-- Whether the token opens the function `name`, in any letter case. -/
def isFunction (t : Token) (name : String) : Bool :=
  t.kind = .function && Text.sameIgnoringCase t.value name

/-- The source text of the token. -/
def text (t : Token) (source : String) : String := t.span.text source

/-- Whether the token names a custom property. -/
def isCustomName (t : Token) : Bool := ['-', '-'].isPrefixOf t.value.toList

end Token

/-- The tokens other than blanks and comments. -/
def significant (tokens : List Token) : List Token :=
  tokens.filter fun t => !t.isTrivia

/-- Drop the blanks at the end. -/
def trimTrailingBlanks (tokens : List Token) : List Token :=
  (tokens.reverse.dropWhile (·.is .whitespace)).reverse

end CssWorkbench
