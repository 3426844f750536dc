import CssWorkbench.Proofs.Token.KindCases
import CssWorkbench.Proofs.Token.LexemeSequel

/-!
# Tokens that nothing can be written against

Braces, semicolons, blanks, comments and the opening of `var(` end where they end, whatever comes
next. These are the tokens behind which a name can be exchanged for another one.
-/

namespace CssWorkbench

variable {c : Char} {cs ds es : List Char} {x : Lexeme}

/-- The kinds of a token that ends where it ends, whatever comes next. -/
def TokenKind.isFirm : TokenKind → Bool
  | .lbrace | .rbrace | .semicolon | .whitespace | .comment | .cdo | .cdc => true
  | _ => false

/-- Whether a token ends where it ends: its kind says so or it opens `var(`. -/
def Token.isFirm (t : Token) : Bool := t.kind.isFirm || t.isFunction "var"

/-- A character that is inert and no blank is a token by itself. -/
theorem isLexeme_inert (hc : isInert c = true) (hblank : ¬ Text.isAsciiBlank c = true) :
    IsLexeme c cs (.verbatim (punctuationKind c) [c] cs) := by
  obtain ⟨hslash, hdot, hdash, hplus, -, -, -, -, -, hcomment, hquote, hapostrophe⟩ :=
    ne_of_isInert hc
  have hcases := isInert_cases hc
  have hident : ¬ startsIdent (c :: cs) = true := by
    rw [startsIdent_of_ne hdash, isNameStart_of_isInert hc, startsEscape_of_ne hslash]
    decide
  refine .punctuation ⟨⟨hblank, ?_, ?_, ?_⟩, ?_, ?_, ?_, ?_⟩ hident
  · simp [List.isPrefixOf, hcomment.symm]
  · simp [hquote, hapostrophe]
  · rw [startsNumber, if_neg (by simp [hplus, hdash]), startsUnsigned_of_ne hdot,
      isDigit_of_isInert hc]
    decide
  · have hhash : c ≠ '#' := by rintro rfl; cases hc
    simp [hhash]
  · have hat : c ≠ '@' := by rintro rfl; cases hc
    simp [hat]
  · have hopen : '<' ≠ c := by rintro rfl; cases hc
    simp [List.isPrefixOf, hopen]
  · simp [List.isPrefixOf, hdash.symm]

/-- A name is no shorter than what it spells. -/
theorem name_value_length_le (cs : List Char) :
    (name cs).value.length ≤ (name cs).taken.length := by
  have hescape : ∀ cs, (escape cs).value.length = 1 := by
    intro cs
    unfold escape
    split
    · rfl
    · split
      · simp only
        split
        · split <;> rfl
        · rfl
      · rfl
  fun_induction name cs with
  | case1 => exact Nat.le_refl _
  | case2 c cs _ ih => simpa [Stretch.after] using ih
  | case3 c cs _ _ ih =>
    simp only [Stretch.after, List.length_append, List.length_cons, hescape]
    omega
  | case4 => exact Nat.le_refl _

/-- Of the characters by themselves the braces and the semicolon are firm. -/
theorem punctuationKind_isFirm (h : (punctuationKind c).isFirm = true) :
    c = '{' ∨ c = '}' ∨ c = ';' := by
  unfold punctuationKind at h
  split at h <;> simp_all [TokenKind.isFirm]

/-- Neither numbers nor names are firm, a function that opens `var(` apart. -/
theorem not_isFirm_of_family {kind : TokenKind} (h : kind.family = .number ∨ kind.family = .name) :
    kind.isFirm = false := by
  cases kind <;> first | rfl | (rcases h with h | h <;> cases h)

/-- Whether a lexeme ends where it ends, whatever comes next. -/
def Lexeme.IsFirm (x : Lexeme) : Prop :=
  x.kind.isFirm = true ∨ x.kind = .function ∧ x.value.map Char.toLower = ['v', 'a', 'r']

/-- The token of a lexeme is firm when the lexeme is. -/
theorem isFirm_token_iff {offset : Nat} : (x.token offset).isFirm = true ↔ x.IsFirm := by
  rw [Token.isFirm, Bool.or_eq_true, Token.isFunction, Bool.and_eq_true, decide_eq_true_eq,
    Lexeme.IsFirm]
  simp [Text.sameIgnoringCase, Lexeme.token]

/-- The opening of `var(` has a parenthesis at its end and more than two characters before it. -/
theorem taken_of_var {front : List Char} (hfunction : (nameLexeme (c :: cs)).kind = .function)
    (hvalue : (nameLexeme (c :: cs)).value.map Char.toLower = ['v', 'a', 'r'])
    (htaken : (nameLexeme (c :: cs)).taken = c :: front) :
    3 ≤ front.length ∧ (c :: front).getLast? ≠ some '\\' := by
  obtain ⟨htakenEq, hvalueEq, -⟩ := nameLexeme_of_function hfunction
  refine ⟨?_, ?_⟩
  · have hthree := congrArg List.length (hvalueEq ▸ hvalue)
    have hname := name_value_length_le (c :: cs)
    have hfront := congrArg List.length (htaken.symm.trans htakenEq)
    simp only [List.length_map, List.length_append, List.length_cons, List.length_nil]
      at hthree hfront
    omega
  · rw [← htaken, htakenEq, List.getLast?_concat]
    decide

/-- The firm tokens that a text can start with. -/
inductive IsFirmLexeme : Char → List Char → Lexeme → Prop
  | blank {c : Char} {cs : List Char} (blank : Text.isAsciiBlank c = true) :
      IsFirmLexeme c cs (.verbatim .whitespace ((c :: cs).takeWhile Text.isAsciiBlank)
        ((c :: cs).dropWhile Text.isAsciiBlank))
  | comment {cs : List Char} :
      IsFirmLexeme '/' ('*' :: cs) ⟨.comment, '/' :: '*' :: (commentTail cs).taken,
        (commentTail cs).value, (commentTail cs).rest⟩
  | cdo {cs : List Char} :
      IsFirmLexeme '<' ('!' :: '-' :: '-' :: cs) (.verbatim .cdo ['<', '!', '-', '-'] cs)
  | cdc {cs : List Char} : IsFirmLexeme '-' ('-' :: '>' :: cs) (.verbatim .cdc ['-', '-', '>'] cs)
  | var {c : Char} {cs : List Char} (bare : BareStart c cs) (ident : startsIdent (c :: cs) = true)
      (function : (nameLexeme (c :: cs)).kind = .function)
      (value : (nameLexeme (c :: cs)).value.map Char.toLower = ['v', 'a', 'r']) :
      IsFirmLexeme c cs (nameLexeme (c :: cs))
  | bracket {c : Char} {cs : List Char} (inert : isInert c = true)
      (notBlank : ¬ Text.isAsciiBlank c = true) :
      IsFirmLexeme c cs (.verbatim (punctuationKind c) [c] cs)

/-- The branches of the scanner that lead to a firm token. -/
theorem IsLexeme.firm (hx : IsLexeme c cs x) (hfirm : x.IsFirm) : IsFirmLexeme c cs x := by
  cases hx with
  | blank blank => exact .blank blank
  | comment => exact .comment
  | string quote =>
    rw [Lexeme.IsFirm, Lexeme.ofStretch] at hfirm
    simp only at hfirm
    split at hfirm <;> simp [TokenKind.isFirm] at hfirm
  | number =>
    have hnumber := numericLexeme_family (c :: cs)
    rw [Lexeme.IsFirm, not_isFirm_of_family (.inl hnumber)] at hfirm
    rw [(hfirm.resolve_left Bool.false_ne_true).1] at hnumber
    cases hnumber
  | hash | atKeyword => simp [Lexeme.IsFirm, Lexeme.ofStretch, TokenKind.isFirm] at hfirm
  | cdo => exact .cdo
  | cdc => exact .cdc
  | name bare ident =>
    rw [Lexeme.IsFirm, not_isFirm_of_family (.inr (nameLexeme_family _))] at hfirm
    obtain ⟨hfunction, hvalue⟩ := hfirm.resolve_left Bool.false_ne_true
    exact .var bare ident hfunction hvalue
  | punctuation =>
    have hfirmKind : (punctuationKind c).isFirm = true :=
      hfirm.resolve_right fun hfunction => by
        have hfamily := punctuationKind_family c
        rw [show punctuationKind c = .function from hfunction.1] at hfamily
        cases hfamily
    rcases punctuationKind_isFirm hfirmKind with rfl | rfl | rfl <;>
      exact .bracket (by decide) (by decide)

/-- A token with something behind it, or with nothing behind it if it ends a statement or a
block. -/
def Lexeme.IsClosed (x : Lexeme) : Prop :=
  x.rest ≠ [] ∨ x.kind = .rbrace ∨ x.kind = .semicolon

/-- Something stands behind a token that is closed, if it does not end a statement or a block. -/
theorem Lexeme.IsClosed.rest_ne_nil (h : x.IsClosed)
    (hends : ¬ (x.kind = .rbrace ∨ x.kind = .semicolon)) : x.rest ≠ [] :=
  h.resolve_right hends

/-- A firm token is read again in front of any text; only blanks want no blank to follow. -/
theorem IsLexeme.sequel_of_firm (hx : IsLexeme c cs x) (hfirm : x.IsFirm) (hclosed : x.IsClosed)
    (hnext : x.kind = .whitespace → ds.head?.any Text.isAsciiBlank = false)
    (hes : x.taken ++ ds = c :: es) : IsLexeme c es (x.inFrontOf ds) := by
  obtain ⟨front, htaken, hcs, rfl⟩ := hx.split hes
  cases hx.firm hfirm with
  | blank blank => exact isLexeme_blanks blank (hnext rfl) hes
  | comment =>
    obtain rfl := (List.cons.inj htaken).2
    exact isLexeme_comment (absurd · (hclosed.rest_ne_nil nofun))
  | cdo =>
    obtain rfl := (List.cons.inj htaken).2
    exact .cdo
  | cdc =>
    obtain rfl := (List.cons.inj htaken).2
    exact .cdc
  | var bare ident hfunction hvalue =>
    have hne := hclosed.rest_ne_nil (by simp [hfunction])
    obtain ⟨hlength, hlast⟩ := taken_of_var hfunction hvalue htaken
    have alike := @Alike.of_length_le 4 _ ds (c :: front) (Nat.succ_le_succ hlength) hne
      fun heq => absurd heq hlast
    have behind := @Alike.of_length_le 3 _ ds front hlength hne fun heq => by
      obtain ⟨d, front, rfl⟩ :=
        List.exists_cons_of_length_pos (Nat.lt_of_lt_of_le (by decide) hlength)
      rw [List.getLast?_cons_cons] at hlast
      exact absurd heq hlast
    rw [List.cons_append, ← hcs] at alike
    rw [← hcs] at behind
    rw [← nameLexeme_sequel (absurd · hne) (fun hno => by rw [hfunction] at hno; cases hno)
      (fun _ hurl => by rw [spellsUrl, hvalue] at hurl; cases hurl), hes]
    refine .name (bare.sequel alike behind) ?_
    obtain ⟨suffix, hsuffix⟩ := nameLexeme_taken (c :: cs)
    rw [← hes, hsuffix, List.append_assoc, startsIdent_append ident]
  | bracket inert notBlank =>
    obtain rfl : [] = front := (List.cons.inj htaken).2
    exact isLexeme_inert inert notBlank

/-- A comment that is closed ends with a slash. -/
theorem getLast?_commentTail (h : (commentTail cs).rest ≠ []) :
    (commentTail cs).taken.getLast? = some '/' := by
  fun_induction commentTail cs with
  | case1 => exact absurd rfl h
  | case2 => rfl
  | case3 c cs _ ih =>
    obtain ⟨front, hfront⟩ := List.getLast?_eq_some_iff.mp (ih h)
    rw [Stretch.after_taken, hfront, ← List.append_assoc, List.getLast?_concat]

/-- A firm token starts with an inert character or takes as many characters as are looked at, and
then something stands behind it. -/
theorem IsLexeme.shape_of_firm (hx : IsLexeme c cs x) (hfirm : x.IsFirm) (hclosed : x.IsClosed) :
    isInert c = true ∨ 3 ≤ x.taken.length ∧ x.taken.getLast? ≠ some '\\' ∧ x.rest ≠ [] := by
  cases hx.firm hfirm with
  | blank blank => exact .inl (by simp [isInert, blank])
  | @comment body =>
    have hne := hclosed.rest_ne_nil (by simp)
    obtain ⟨front, hfront⟩ := List.getLast?_eq_some_iff.mp (getLast?_commentTail hne)
    have htaken : '/' :: '*' :: (commentTail body).taken = '/' :: '*' :: front ++ ['/'] := by
      rw [hfront]
      rfl
    refine .inr ⟨by simp [hfront], ?_, hne⟩
    rw [htaken, List.getLast?_concat]
    decide
  | cdo | cdc =>
    have hne := hclosed.rest_ne_nil (by simp [Lexeme.verbatim])
    exact .inr ⟨by simp [Lexeme.verbatim], by simp [Lexeme.verbatim], hne⟩
  | var bare ident hfunction hvalue =>
    obtain ⟨d, front, htaken⟩ := List.exists_cons_of_ne_nil (nameLexeme_taken_ne_nil ident)
    have happend := nameLexeme_append (c :: cs)
    rw [htaken] at happend
    obtain rfl : d = c := (List.cons.inj happend).1
    obtain ⟨hlength, hlast⟩ := taken_of_var hfunction hvalue htaken
    have hne := hclosed.rest_ne_nil (by simp [hfunction])
    rw [htaken]
    exact .inr ⟨Nat.le_succ_of_le hlength, hlast, hne⟩
  | bracket inert => exact .inl inert

end CssWorkbench
