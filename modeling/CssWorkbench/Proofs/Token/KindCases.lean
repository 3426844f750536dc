import CssWorkbench.Proofs.Token.LexemeCases
import CssWorkbench.Proofs.Token.UrlSequel

/-!
# What the kind of a token says of its text

Each branch of the scanner gives kinds of its own. The kind of a lexeme therefore tells which
branch it came from, and with it how its text is made up.
-/

namespace CssWorkbench

variable {c : Char} {cs : List Char} {x : Lexeme}

/-- The branches of the scanner, apart from which of its kinds a branch gives. -/
inductive TokenFamily
  | blank | comment | string | number | hash | atKeyword | cdo | cdc | name | punctuation
deriving DecidableEq

/-- The branch of the scanner that a kind comes from. -/
def TokenKind.family : TokenKind → TokenFamily
  | .whitespace => .blank
  | .comment => .comment
  | .string | .badString => .string
  | .number | .percentage | .dimension => .number
  | .hash => .hash
  | .atKeyword => .atKeyword
  | .cdo => .cdo
  | .cdc => .cdc
  | .ident | .function | .url | .badUrl => .name
  | _ => .punctuation

/-- Whatever starts with a number is of the family of numbers. -/
theorem numericLexeme_family (cs : List Char) : (numericLexeme cs).kind.family = .number := by
  unfold numericLexeme
  simp only
  split
  · rfl
  · split <;> rfl

/-- Whatever starts with a name is of the family of names. -/
theorem nameLexeme_family (cs : List Char) : (nameLexeme cs).kind.family = .name := by
  have hx := isNameLexeme_nameLexeme cs
  generalize nameLexeme cs = x at hx ⊢
  cases hx with
  | function | ident => rfl
  | @url behind => rcases urlLexeme_kind (name cs).taken behind with hk | hk <;> rw [hk] <;> rfl

/-- A character by itself is of the family of punctuation. -/
theorem punctuationKind_family (c : Char) : (punctuationKind c).family = .punctuation := by
  unfold punctuationKind
  split <;> rfl

/-- What a lexeme of a branch is. Only the branches are listed whose text is asked for. -/
def IsOfFamily (c : Char) (cs : List Char) (x : Lexeme) : TokenFamily → Prop
  | .blank => Text.isAsciiBlank c = true ∧ x.rest = (c :: cs).dropWhile Text.isAsciiBlank
  | .comment => ∃ body, c = '/' ∧ cs = '*' :: body ∧ x = ⟨.comment,
      '/' :: '*' :: (commentTail body).taken, (commentTail body).value, (commentTail body).rest⟩
  | .string => (c = '"' || c = '\'') = true ∧
      x = .ofStretch (if (stringTail c cs).malformed then .badString else .string) [c] (stringTail c cs)
  | .number => startsNumber (c :: cs) = true ∧ x = numericLexeme (c :: cs)
  | .atKeyword => c = '@' ∧ x = .ofStretch .atKeyword ['@'] (name cs)
  | .name => x = nameLexeme (c :: cs)
  | .punctuation => x = .verbatim (punctuationKind c) [c] cs
  | _ => True

/-- The kind of a lexeme tells its branch. -/
theorem IsLexeme.isOfFamily (hx : IsLexeme c cs x) : IsOfFamily c cs x x.kind.family := by
  cases hx with
  | blank blank => exact ⟨blank, rfl⟩
  | atKeyword => exact ⟨rfl, rfl⟩
  | name =>
    rw [nameLexeme_family]
    exact rfl
  | punctuation =>
    rw [Lexeme.verbatim, punctuationKind_family]
    exact rfl
  | number _ _ _ number =>
    rw [numericLexeme_family]
    exact ⟨number, rfl⟩
  | string quote =>
    rw [Lexeme.ofStretch, show (if (stringTail c cs).malformed then TokenKind.badString
      else .string).family = .string by split <;> rfl]
    exact ⟨quote, rfl⟩
  | comment => exact ⟨_, rfl, rfl, rfl⟩
  | hash | cdo | cdc => trivial

/-- A lexeme of the family of names is read as a name. -/
theorem IsLexeme.eq_nameLexeme (hx : IsLexeme c cs x) (h : x.kind.family = .name) :
    x = nameLexeme (c :: cs) := by
  have hfamily := hx.isOfFamily
  rwa [h] at hfamily

/-- A lexeme of the family of numbers is read as a number. -/
theorem IsLexeme.eq_numericLexeme (hx : IsLexeme c cs x) (h : x.kind.family = .number) :
    startsNumber (c :: cs) = true ∧ x = numericLexeme (c :: cs) := by
  have hfamily := hx.isOfFamily
  rwa [h] at hfamily

/-- A lexeme of the family of punctuation is a character by itself. -/
theorem IsLexeme.eq_punctuation (hx : IsLexeme c cs x) (h : x.kind.family = .punctuation) :
    x = .verbatim (punctuationKind c) [c] cs := by
  have hfamily := hx.isOfFamily
  rwa [h] at hfamily

/-- Only blanks start with a blank. -/
theorem IsLexeme.isAsciiBlank_iff (hx : IsLexeme c cs x) :
    Text.isAsciiBlank c = true ↔ x.kind = .whitespace := by
  constructor
  · intro hblank
    rw [← hx.lexeme_eq, lexeme, if_pos hblank]
    rfl
  · intro hkind
    have hfamily := hx.isOfFamily
    rw [hkind] at hfamily
    exact hfamily.1

/-- Behind blanks comes no blank. -/
theorem IsLexeme.rest_of_blank (hx : IsLexeme c cs x) (hkind : x.kind = .whitespace) :
    x.rest.head?.any Text.isAsciiBlank = false := by
  have hfamily := hx.isOfFamily
  rw [hkind] at hfamily
  rw [hfamily.2]
  exact head?_dropWhile_any _ _

/-- A keyword is an at sign and a name. -/
theorem IsLexeme.eq_atKeyword (hx : IsLexeme c cs x) (hkind : x.kind = .atKeyword) :
    c = '@' ∧ x = .ofStretch .atKeyword ['@'] (CssWorkbench.name cs) := by
  have hfamily := hx.isOfFamily
  rwa [hkind] at hfamily

/-- A comment is its brackets and its body. -/
theorem IsLexeme.eq_comment (hx : IsLexeme c cs x) (hkind : x.kind = .comment) :
    ∃ body, c = '/' ∧ cs = '*' :: body ∧ x = ⟨.comment, '/' :: '*' :: (commentTail body).taken,
      (commentTail body).value, (commentTail body).rest⟩ := by
  have hfamily := hx.isOfFamily
  rwa [hkind] at hfamily

/-- An identifier is a name, and no parenthesis stands against it. -/
theorem nameLexeme_of_ident (h : (nameLexeme cs).kind = .ident) :
    nameLexeme cs = .ofStretch .ident [] (name cs) ∧ (name cs).rest.head? ≠ some '(' := by
  have hx := isNameLexeme_nameLexeme cs
  generalize nameLexeme cs = x at hx h ⊢
  cases hx with
  | function => cases h
  | ident closed => exact ⟨rfl, closed⟩
  | @url behind =>
    rcases urlLexeme_kind (name cs).taken behind with hk | hk <;> (rw [hk] at h; cases h)

/-- Behind an identifier neither a name goes on nor a parenthesis opens. -/
theorem IsLexeme.rest_of_ident (hx : IsLexeme c cs x) (hkind : x.kind = .ident) :
    startsNamePart x.rest = false ∧ x.rest.head? ≠ some '(' := by
  obtain rfl := hx.eq_nameLexeme (by rw [hkind]; rfl)
  obtain ⟨hname, hclosed⟩ := nameLexeme_of_ident hkind
  rw [hname]
  exact ⟨startsNamePart_name_rest _, hclosed⟩

/-- The opening of a function is its name with the parenthesis, and only a quote follows `url(`. -/
theorem nameLexeme_of_function (h : (nameLexeme cs).kind = .function) :
    (nameLexeme cs).taken = (name cs).taken ++ ['('] ∧ (nameLexeme cs).value = (name cs).value ∧
      (spellsUrl (nameLexeme cs).value → quotedNext (nameLexeme cs).rest = true) := by
  have hx := isNameLexeme_nameLexeme cs
  generalize nameLexeme cs = x at hx h ⊢
  cases hx with
  | function _ quoted => exact ⟨rfl, rfl, quoted⟩
  | ident => cases h
  | @url behind =>
    rcases urlLexeme_kind (name cs).taken behind with hk | hk <;> (rw [hk] at h; cases h)

/-- Only a quote keeps `url(` a function. -/
theorem IsLexeme.quotedNext_of_url (hx : IsLexeme c cs x) (hkind : x.kind = .function)
    (hurl : spellsUrl x.value) : quotedNext x.rest = true := by
  obtain rfl := hx.eq_nameLexeme (by rw [hkind]; rfl)
  exact (nameLexeme_of_function hkind).2.2 hurl

/-- A punctuation mark that has a kind of its own is told by its kind. -/
theorem eq_of_punctuationKind_eq {d : Char} (h : punctuationKind c = punctuationKind d)
    (hd : punctuationKind d ≠ .delim) : c = d := by
  generalize hk : punctuationKind d = kind at h hd
  unfold punctuationKind at h hk
  split at h <;> subst h
  all_goals first | exact absurd rfl hd | (split at hk <;> first | rfl | cases hk)

/-- The characters of a punctuation mark that has a kind of its own. -/
theorem IsLexeme.taken_of_punctuation {d : Char} (hx : IsLexeme c cs x)
    (hkind : x.kind = punctuationKind d) (hd : punctuationKind d ≠ .delim) : x.taken = [d] := by
  obtain rfl := hx.eq_punctuation (by rw [hkind, punctuationKind_family])
  exact congrArg (fun e => [e]) (eq_of_punctuationKind_eq hkind hd)

end CssWorkbench
