import CssWorkbench.Proofs.Token.NameSequel

/-!
# The tokens that can stand at the front of a text

`IsLexeme` says in one inductive relation which token a text starts with: each constructor is one
branch of the scanner, with what it tests. The relation holds of the lexeme of a text and of no
other one.
-/

namespace CssWorkbench

variable {c : Char} {cs : List Char} {x : Lexeme}

/-- What the scanner tests in front of a token that is neither a blank, a comment, a string nor a
number. -/
structure PlainStart (c : Char) (cs : List Char) : Prop where
  notBlank : ¬ Text.isAsciiBlank c = true
  notComment : ¬ ['/', '*'].isPrefixOf (c :: cs) = true
  notQuote : ¬ (c = '"' || c = '\'') = true
  notNumber : ¬ startsNumber (c :: cs) = true

/-- What the scanner tests in front of a token that starts with neither a hash, an at sign nor a
comment bracket. -/
structure BareStart (c : Char) (cs : List Char) : Prop extends PlainStart c cs where
  notHash : ¬ (c = '#' && startsNamePart cs) = true
  notAt : ¬ (c = '@' && startsIdent cs) = true
  notOpen : ¬ ['<', '!', '-', '-'].isPrefixOf (c :: cs) = true
  notClose : ¬ ['-', '-', '>'].isPrefixOf (c :: cs) = true

/-- The tokens that a text can start with. -/
inductive IsLexeme : Char → List Char → Lexeme → Prop
  | blank {c : Char} {cs : List Char} (blank : Text.isAsciiBlank c = true) :
      IsLexeme c cs (.verbatim .whitespace ((c :: cs).takeWhile Text.isAsciiBlank)
        ((c :: cs).dropWhile Text.isAsciiBlank))
  | comment {cs : List Char} :
      IsLexeme '/' ('*' :: cs) ⟨.comment, '/' :: '*' :: (commentTail cs).taken,
        (commentTail cs).value, (commentTail cs).rest⟩
  | string {c : Char} {cs : List Char} (quote : (c = '"' || c = '\'') = true) :
      IsLexeme c cs (.ofStretch (if (stringTail c cs).malformed then .badString else .string) [c]
        (stringTail c cs))
  | number {c : Char} {cs : List Char} (notBlank : ¬ Text.isAsciiBlank c = true)
      (notComment : ¬ ['/', '*'].isPrefixOf (c :: cs) = true)
      (notQuote : ¬ (c = '"' || c = '\'') = true) (number : startsNumber (c :: cs) = true) :
      IsLexeme c cs (numericLexeme (c :: cs))
  | hash {cs : List Char} (plain : PlainStart '#' cs) (part : startsNamePart cs = true) :
      IsLexeme '#' cs (.ofStretch .hash ['#'] (name cs))
  | atKeyword {cs : List Char} (plain : PlainStart '@' cs) (ident : startsIdent cs = true) :
      IsLexeme '@' cs (.ofStretch .atKeyword ['@'] (name cs))
  | cdo {cs : List Char} :
      IsLexeme '<' ('!' :: '-' :: '-' :: cs) (.verbatim .cdo ['<', '!', '-', '-'] cs)
  | cdc {cs : List Char} : IsLexeme '-' ('-' :: '>' :: cs) (.verbatim .cdc ['-', '-', '>'] cs)
  | name {c : Char} {cs : List Char} (bare : BareStart c cs) (ident : startsIdent (c :: cs) = true) :
      IsLexeme c cs (nameLexeme (c :: cs))
  | punctuation {c : Char} {cs : List Char} (bare : BareStart c cs)
      (notIdent : ¬ startsIdent (c :: cs) = true) :
      IsLexeme c cs (.verbatim (punctuationKind c) [c] cs)

/-- A token that a text can start with is the one that the scanner takes. -/
theorem IsLexeme.lexeme_eq (h : IsLexeme c cs x) : lexeme c cs = x := by
  cases h with
  | blank blank => rw [lexeme, if_pos blank]
  | comment =>
    rw [lexeme, if_neg (by decide), if_pos (by simp [List.isPrefixOf])]
    rfl
  | string quote =>
    have hcases : c = '"' ∨ c = '\'' := by simpa using quote
    rw [lexeme, if_neg (by rcases hcases with rfl | rfl <;> decide),
      if_neg (by rcases hcases with rfl | rfl <;> simp [List.isPrefixOf]), if_pos quote]
  | number notBlank notComment notQuote number =>
    rw [lexeme, if_neg notBlank, if_neg notComment, if_neg notQuote, if_pos number]
  | hash plain part =>
    rw [lexeme, if_neg plain.notBlank, if_neg plain.notComment, if_neg plain.notQuote,
      if_neg plain.notNumber, if_pos (by simp [part])]
  | atKeyword plain ident =>
    rw [lexeme, if_neg plain.notBlank, if_neg plain.notComment, if_neg plain.notQuote,
      if_neg plain.notNumber, if_neg (by simp), if_pos (by simp [ident])]
  | cdo => simp [lexeme, Text.isAsciiBlank, List.isPrefixOf, startsNumber, startsUnsigned]
  | cdc => simp [lexeme, Text.isAsciiBlank, List.isPrefixOf, startsNumber, startsUnsigned]
  | name bare ident =>
    rw [lexeme, if_neg bare.notBlank, if_neg bare.notComment, if_neg bare.notQuote,
      if_neg bare.notNumber, if_neg bare.notHash, if_neg bare.notAt, if_neg bare.notOpen,
      if_neg bare.notClose, if_pos ident]
  | punctuation bare notIdent =>
    rw [lexeme, if_neg bare.notBlank, if_neg bare.notComment, if_neg bare.notQuote,
      if_neg bare.notNumber, if_neg bare.notHash, if_neg bare.notAt, if_neg bare.notOpen,
      if_neg bare.notClose, if_neg notIdent]

/-- A text that starts with some characters is those characters with something behind them. -/
theorem exists_of_isPrefixOf {p text : List Char} (h : p.isPrefixOf text = true) :
    ∃ behind, text = p ++ behind := by
  obtain ⟨behind, hbehind⟩ := List.isPrefixOf_iff_prefix.mp h
  exact ⟨behind, hbehind.symm⟩

/-- Some token always stands at the front. -/
theorem exists_isLexeme (c : Char) (cs : List Char) : ∃ x, IsLexeme c cs x := by
  by_cases hblank : Text.isAsciiBlank c = true
  · exact ⟨_, .blank hblank⟩
  by_cases hcomment : ['/', '*'].isPrefixOf (c :: cs) = true
  · obtain ⟨behind, heq⟩ := exists_of_isPrefixOf hcomment
    obtain ⟨rfl, hcs⟩ := List.cons.inj heq
    obtain rfl : cs = '*' :: behind := hcs
    exact ⟨_, .comment⟩
  by_cases hquote : (c = '"' || c = '\'') = true
  · exact ⟨_, .string hquote⟩
  by_cases hnumber : startsNumber (c :: cs) = true
  · exact ⟨_, .number hblank hcomment hquote hnumber⟩
  have hplain : PlainStart c cs := ⟨hblank, hcomment, hquote, hnumber⟩
  by_cases hhash : (c = '#' && startsNamePart cs) = true
  · obtain ⟨rfl, hpart⟩ : c = '#' ∧ startsNamePart cs = true := by simpa using hhash
    exact ⟨_, .hash hplain hpart⟩
  by_cases hat : (c = '@' && startsIdent cs) = true
  · obtain ⟨rfl, hident⟩ : c = '@' ∧ startsIdent cs = true := by simpa using hat
    exact ⟨_, .atKeyword hplain hident⟩
  by_cases hopen : ['<', '!', '-', '-'].isPrefixOf (c :: cs) = true
  · obtain ⟨behind, heq⟩ := exists_of_isPrefixOf hopen
    obtain ⟨rfl, hcs⟩ := List.cons.inj heq
    obtain rfl : cs = '!' :: '-' :: '-' :: behind := hcs
    exact ⟨_, .cdo⟩
  by_cases hclose : ['-', '-', '>'].isPrefixOf (c :: cs) = true
  · obtain ⟨behind, heq⟩ := exists_of_isPrefixOf hclose
    obtain ⟨rfl, hcs⟩ := List.cons.inj heq
    obtain rfl : cs = '-' :: '>' :: behind := hcs
    exact ⟨_, .cdc⟩
  have hbare : BareStart c cs := ⟨hplain, hhash, hat, hopen, hclose⟩
  by_cases hident : startsIdent (c :: cs) = true
  · exact ⟨_, .name hbare hident⟩
  · exact ⟨_, .punctuation hbare hident⟩

/-- The lexeme of a text is a token that it can start with. -/
theorem isLexeme_lexeme (c : Char) (cs : List Char) : IsLexeme c cs (lexeme c cs) := by
  obtain ⟨x, hx⟩ := exists_isLexeme c cs
  rw [hx.lexeme_eq]
  exact hx

/-- A lexeme and what follows it make up the text. -/
theorem IsLexeme.append (h : IsLexeme c cs x) : x.taken ++ x.rest = c :: cs := by
  rw [← h.lexeme_eq]
  exact lexeme_append c cs

/-- No lexeme is empty. -/
theorem IsLexeme.taken_ne_nil (h : IsLexeme c cs x) : x.taken ≠ [] := by
  rw [← h.lexeme_eq]
  exact lexeme_taken_ne_nil c cs

end CssWorkbench
