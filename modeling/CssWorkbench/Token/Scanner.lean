import CssWorkbench.Token.Basic
import CssWorkbench.Token.Stretch

/-!
# The scanner

`lexeme` takes the first token off a text that is not empty and leaves the rest; `scan` repeats
it up to the end and closes the list with the end token. The two lemmas on `lexeme`, that it
loses nothing and that it takes something, are all that `scan` needs to end, and they make the
spans of its tokens meet one another.
-/

namespace CssWorkbench

/-- The first token of a text: its kind, its characters, the value they spell, and what
follows. -/
structure Lexeme where
  kind : TokenKind
  taken : List Char
  value : List Char
  rest : List Char
deriving DecidableEq, Repr, Inhabited

namespace Lexeme

/-- A lexeme of a kind from a stretch, with characters in front that have no value. -/
def ofStretch (kind : TokenKind) (front : List Char) (s : Stretch) : Lexeme :=
  ⟨kind, front ++ s.taken, s.value, s.rest⟩

/-- A lexeme whose value is its text. -/
def verbatim (kind : TokenKind) (taken rest : List Char) : Lexeme :=
  ⟨kind, taken, taken, rest⟩

end Lexeme

/-- The kind of a character that is a token by itself. -/
def punctuationKind (c : Char) : TokenKind :=
  match c with
  | ':' => .colon
  | ';' => .semicolon
  | ',' => .comma
  | '{' => .lbrace
  | '}' => .rbrace
  | '(' => .lparen
  | ')' => .rparen
  | '[' => .lbracket
  | ']' => .rbracket
  | _ => .delim

/-- A number with what is written against it: a percent sign or a unit. -/
def numericLexeme (cs : List Char) : Lexeme :=
  let number := (splitNumber cs).1
  let rest := (splitNumber cs).2
  match rest with
  | '%' :: behind => ⟨.percentage, number ++ ['%'], number, behind⟩
  | _ =>
    if startsIdent rest then
      ⟨.dimension, number ++ (name rest).taken, number ++ (name rest).value, (name rest).rest⟩
    else .verbatim .number number rest

/-- A name with what is written against it. A `(` makes it a function, unless the name is `url`
and no quote comes next: that is an unquoted url. -/
def nameLexeme (cs : List Char) : Lexeme :=
  let s := name cs
  match s.rest with
  | '(' :: behind =>
    let opened : Lexeme := ⟨.function, s.taken ++ ['('], s.value, behind⟩
    if s.value.map Char.toLower = ['u', 'r', 'l'] then
      let blanks := behind.takeWhile Text.isAsciiBlank
      let body := behind.dropWhile Text.isAsciiBlank
      if body.head?.any fun c => c = '"' || c = '\'' then opened
      else
        let u := urlTail body
        let taken := s.taken ++ '(' :: blanks ++ u.taken
        if u.malformed then .verbatim .badUrl taken u.rest else ⟨.url, taken, u.value, u.rest⟩
    else opened
  | _ => .ofStretch .ident [] s

/-- The first token of the text `c :: cs`. -/
def lexeme (c : Char) (cs : List Char) : Lexeme :=
  if Text.isAsciiBlank c then
    .verbatim .whitespace ((c :: cs).takeWhile Text.isAsciiBlank)
      ((c :: cs).dropWhile Text.isAsciiBlank)
  else if ['/', '*'].isPrefixOf (c :: cs) then
    let s := commentTail (cs.drop 1)
    ⟨.comment, c :: cs.take 1 ++ s.taken, s.value, s.rest⟩
  else if c = '"' || c = '\'' then
    let s := stringTail c cs
    .ofStretch (if s.malformed then .badString else .string) [c] s
  else if startsNumber (c :: cs) then numericLexeme (c :: cs)
  else if c = '#' && startsNamePart cs then .ofStretch .hash [c] (name cs)
  else if c = '@' && startsIdent cs then .ofStretch .atKeyword [c] (name cs)
  else if ['<', '!', '-', '-'].isPrefixOf (c :: cs) then
    .verbatim .cdo (c :: cs.take 3) (cs.drop 3)
  else if ['-', '-', '>'].isPrefixOf (c :: cs) then
    .verbatim .cdc (c :: cs.take 2) (cs.drop 2)
  else if startsIdent (c :: cs) then nameLexeme (c :: cs)
  else .verbatim (punctuationKind c) [c] cs

/-- A lexeme that starts with a number and what follows it make up the text. -/
theorem numericLexeme_append (cs : List Char) :
    (numericLexeme cs).taken ++ (numericLexeme cs).rest = cs := by
  have split := splitNumber_append cs
  unfold numericLexeme
  simp only
  split
  · rename_i behind h
    rw [h] at split
    simpa using split
  · split
    · rw [List.append_assoc, name_append, split]
    · exact split

/-- A lexeme that starts with a name and what follows it make up the text. -/
theorem nameLexeme_append (cs : List Char) :
    (nameLexeme cs).taken ++ (nameLexeme cs).rest = cs := by
  have whole := name_append cs
  unfold nameLexeme
  simp only
  split
  · rename_i behind h
    rw [h] at whole
    have blanks := List.takeWhile_append_dropWhile (p := Text.isAsciiBlank) (l := behind)
    have body := urlTail_append (behind.dropWhile Text.isAsciiBlank)
    split
    · split
      · simp [whole]
      · split
        · simp [Lexeme.verbatim, body, blanks, whole]
        · simp [body, blanks, whole]
    · simp [whole]
  · exact whole

/-- A lexeme and what it leaves make up the text again. -/
theorem lexeme_append (c : Char) (cs : List Char) :
    (lexeme c cs).taken ++ (lexeme c cs).rest = c :: cs := by
  unfold lexeme
  split
  · exact List.takeWhile_append_dropWhile
  split
  · have body := commentTail_append (cs.drop 1)
    rw [List.append_assoc, body, List.cons_append, List.take_append_drop]
  split
  · simp [Lexeme.ofStretch, stringTail_append]
  split
  · exact numericLexeme_append _
  split
  · simp [Lexeme.ofStretch, name_append]
  split
  · simp [Lexeme.ofStretch, name_append]
  split
  · simp [Lexeme.verbatim]
  split
  · simp [Lexeme.verbatim]
  split
  · exact nameLexeme_append _
  · rfl

/-- A lexeme that starts with a number is not empty. -/
theorem numericLexeme_taken_ne_nil {cs : List Char} (h : startsNumber cs = true) :
    (numericLexeme cs).taken ≠ [] := by
  have number := splitNumber_ne_nil h
  unfold numericLexeme
  simp only
  split
  · simp
  · split
    · simp [number]
    · exact number

/-- A lexeme that starts with a name is not empty. -/
theorem nameLexeme_taken_ne_nil {cs : List Char} (h : startsIdent cs = true) :
    (nameLexeme cs).taken ≠ [] := by
  have taken := name_taken_ne_nil (startsNamePart_of_startsIdent h)
  unfold nameLexeme
  simp only
  split
  · split
    · split
      · simp
      · split <;> simp [Lexeme.verbatim]
    · simp
  · simpa [Lexeme.ofStretch] using taken

/-- A lexeme takes something. -/
theorem lexeme_taken_ne_nil (c : Char) (cs : List Char) : (lexeme c cs).taken ≠ [] := by
  unfold lexeme
  split
  · rename_i h
    simp [Lexeme.verbatim, h]
  split
  · simp
  split
  · simp [Lexeme.ofStretch]
  split
  · rename_i h
    exact numericLexeme_taken_ne_nil h
  split
  · simp [Lexeme.ofStretch]
  split
  · simp [Lexeme.ofStretch]
  split
  · simp [Lexeme.verbatim]
  split
  · simp [Lexeme.verbatim]
  split
  · rename_i h
    exact nameLexeme_taken_ne_nil h
  · simp [Lexeme.verbatim]

/-- Every lexeme takes something, so that less is left behind it. -/
theorem lexeme_rest_length (c : Char) (cs : List Char) :
    (lexeme c cs).rest.length < (c :: cs).length := by
  have whole := congrArg List.length (lexeme_append c cs)
  have taken := List.length_pos_iff.mpr (lexeme_taken_ne_nil c cs)
  simp only [List.length_append] at whole
  omega

/-- The token of a lexeme that starts at `offset`. -/
def Lexeme.token (x : Lexeme) (offset : Nat) : Token :=
  ⟨x.kind, ⟨offset, offset + Text.byteLength x.taken⟩, String.ofList x.value⟩

/-- The tokens of a text that starts at `offset`, closed by the end token. -/
def scanFrom (offset : Nat) : List Char → List Token
  | [] => [Token.eof offset]
  | c :: cs =>
    (lexeme c cs).token offset ::
      scanFrom (offset + Text.byteLength (lexeme c cs).taken) (lexeme c cs).rest
termination_by cs => cs.length
decreasing_by exact lexeme_rest_length c cs

/-- The tokens of a source, closed by the end token. -/
def scan (source : String) : List Token :=
  scanFrom 0 source.toList

end CssWorkbench
