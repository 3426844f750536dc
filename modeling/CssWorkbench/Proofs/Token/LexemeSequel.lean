import CssWorkbench.Proofs.Token.LexemeCases

/-!
# Tokens in front of another text

A token is read again in front of another text if that text is alike, as far as the scanner looks
ahead. What stands in front of the rest decides nothing else, so that a text can be cut between
two tokens, and what follows the cut can be written differently.
-/

namespace CssWorkbench

variable {c : Char} {cs ds es : List Char} {x : Lexeme}

/-- What a text must be like to follow a lexeme in the place of what followed it. -/
structure Lexeme.Precedes (x : Lexeme) (ds : List Char) : Prop where
  alike : Alike 3 x.rest ds
  same : endsInEscape x.taken = true ∨ x.kind = .whitespace → SameNext x.rest ds
  broken : x.kind = .badString → ds.head? = x.rest.head?
  quoted : x.kind = .function → spellsUrl x.value → quotedNext ds = true

/-- A lexeme starts with the first character of its text, and a text put behind it is cut where
the old one was. -/
theorem IsLexeme.split (hx : IsLexeme c cs x) (h : x.taken ++ ds = c :: es) :
    ∃ front, x.taken = c :: front ∧ cs = front ++ x.rest ∧ es = front ++ ds := by
  have happend := hx.append
  obtain ⟨d, front, htaken⟩ := List.exists_cons_of_ne_nil hx.taken_ne_nil
  rw [htaken] at happend h
  obtain ⟨rfl, hcs⟩ := List.cons.inj happend
  exact ⟨front, htaken, hcs.symm, (List.cons.inj h).2.symm⟩

/-- What is not tested true in front of a text is not in front of one that is alike. -/
theorem PlainStart.sequel (h : PlainStart c cs) (alike : Alike 4 (c :: cs) (c :: es)) :
    PlainStart c es := by
  refine ⟨h.notBlank, ?_, h.notQuote, ?_⟩
  · have hno := alike.isPrefixOf_eq_false (p := ['/', '*']) (by decide) rfl
      (Bool.eq_false_iff.mpr h.notComment)
    exact Bool.eq_false_iff.mp hno
  · exact Bool.eq_false_iff.mp
      (alike.startsNumber_eq_false (Bool.eq_false_iff.mpr h.notNumber))

/-- A character starts nothing longer in front of other text that looks alike. -/
theorem BareStart.sequel (h : BareStart c cs) (alike : Alike 4 (c :: cs) (c :: es))
    (behind : Alike 3 cs es) : BareStart c es := by
  refine ⟨h.toPlainStart.sequel alike, fun hhash => h.notHash ?_, fun hat => h.notAt ?_, ?_, ?_⟩
  · rw [Bool.and_eq_true] at hhash ⊢
    refine ⟨hhash.1, Bool.not_eq_false _ |>.mp fun hno => ?_⟩
    rw [behind.startsNamePart_eq_false hno] at hhash
    exact Bool.false_ne_true hhash.2
  · rw [Bool.and_eq_true] at hat ⊢
    refine ⟨hat.1, Bool.not_eq_false _ |>.mp fun hno => ?_⟩
    rw [behind.startsIdent_eq_false hno] at hat
    exact Bool.false_ne_true hat.2
  · have hno := alike.isPrefixOf_eq_false (p := ['<', '!', '-', '-']) (by decide) rfl
      (Bool.eq_false_iff.mpr h.notOpen)
    exact Bool.eq_false_iff.mp hno
  · have hno := alike.isPrefixOf_eq_false (p := ['-', '-', '>']) (by decide) rfl
      (Bool.eq_false_iff.mpr h.notClose)
    exact Bool.eq_false_iff.mp hno

/-- What follows the front of a text goes with what the rest is replaced by. -/
theorem Lexeme.Precedes.behind {front : List Char} (h : x.Precedes ds)
    (htaken : x.taken = c :: front) :
    Alike 4 (c :: (front ++ x.rest)) (c :: (front ++ ds)) ∧
      Alike 3 (front ++ x.rest) (front ++ ds) := by
  have hsame : endsInEscape (c :: front) = true → SameNext x.rest ds := fun hopen =>
    h.same (.inl (htaken ▸ hopen))
  have hbehind := h.alike.append fun hlast =>
    hsame (endsInEscape_append [c] (endsInEscape_of_getLast? hlast))
  refine ⟨.same (fun hc => ?_) hbehind, hbehind⟩
  refine .append fun hnil => hsame (endsInEscape_of_getLast? ?_)
  rw [hnil, hc]
  rfl

/-- Blanks are taken together in front of anything else. -/
theorem isLexeme_blanks (hblank : Text.isAsciiBlank c = true)
    (hnext : ds.head?.any Text.isAsciiBlank = false)
    (hes : (c :: cs).takeWhile Text.isAsciiBlank ++ ds = c :: es) :
    IsLexeme c es (.verbatim .whitespace ((c :: cs).takeWhile Text.isAsciiBlank) ds) := by
  obtain ⟨htake, hdrop⟩ := @takeWhile_sequel (c :: cs) _ _ hnext
  rw [hes] at htake hdrop
  have hx := @IsLexeme.blank c es hblank
  rwa [htake, hdrop] at hx

/-- A comment is the same in front of other text, unless it ended with the text. -/
theorem isLexeme_comment (hend : (commentTail cs).rest = [] → ds = []) :
    IsLexeme '/' ('*' :: ((commentTail cs).taken ++ ds)) ⟨.comment,
      '/' :: '*' :: (commentTail cs).taken, (commentTail cs).value, ds⟩ := by
  have hx := @IsLexeme.comment ((commentTail cs).taken ++ ds)
  rwa [commentTail_sequel hend] at hx

/-- The first token of a text is read again in front of another rest. -/
theorem IsLexeme.sequel (hx : IsLexeme c cs x) (h : x.Precedes ds)
    (hes : x.taken ++ ds = c :: es) : IsLexeme c es (x.inFrontOf ds) := by
  obtain ⟨front, htaken, hcs, rfl⟩ := hx.split hes
  obtain ⟨alike, behind⟩ := h.behind htaken
  rw [← hcs] at alike behind
  have hend : x.rest = [] → ds = [] := fun hnil => (hnil ▸ h.alike).eq_nil
  cases hx with
  | blank blank =>
    refine isLexeme_blanks blank ?_ hes
    rcases h.same (.inr rfl) with rfl | hnext
    · rfl
    · rw [hnext]
      exact head?_dropWhile_any _ _
  | comment =>
    obtain rfl := (List.cons.inj htaken).2
    exact isLexeme_comment hend
  | string quote =>
    obtain rfl : (stringTail c cs).taken = front := (List.cons.inj htaken).2
    have hbreak : (stringTail c cs).malformed = true → ds.head? = (stringTail c cs).rest.head? :=
      fun hmalformed => h.broken (by simp [Lexeme.ofStretch, hmalformed])
    have hnew := @IsLexeme.string c ((stringTail c cs).taken ++ ds) quote
    rwa [stringTail_inFrontOf hend hbreak] at hnew
  | number notBlank notComment notQuote number =>
    rw [← numericLexeme_sequel number h.alike fun hopen => h.same (.inl hopen), hes]
    refine .number notBlank (Bool.eq_false_iff.mp ?_) notQuote ?_
    · exact alike.isPrefixOf_eq_false (by decide) rfl (Bool.eq_false_iff.mpr notComment)
    · obtain ⟨unit, hunit⟩ := numericLexeme_taken (c :: cs)
      rw [← hes, hunit, List.append_assoc, startsNumber_append number]
  | hash plain part =>
    obtain rfl : (CssWorkbench.name cs).taken = front := (List.cons.inj htaken).2
    have hstop := h.alike.startsNamePart_eq_false (startsNamePart_name_rest cs)
    have hnew := IsLexeme.hash (plain.sequel alike) (startsNamePart_append part)
    rwa [name_sequel hstop fun hopen => h.same (.inl (endsInEscape_append [_] hopen))] at hnew
  | atKeyword plain ident =>
    obtain rfl : (CssWorkbench.name cs).taken = front := (List.cons.inj htaken).2
    have hstop := h.alike.startsNamePart_eq_false (startsNamePart_name_rest cs)
    have hnew := IsLexeme.atKeyword (plain.sequel alike) (startsIdent_append ident)
    rwa [name_sequel hstop fun hopen => h.same (.inl (endsInEscape_append [_] hopen))] at hnew
  | cdo =>
    obtain rfl := (List.cons.inj htaken).2
    exact .cdo
  | cdc =>
    obtain rfl := (List.cons.inj htaken).2
    exact .cdc
  | name bare ident =>
    rw [← nameLexeme_sequel hend (fun _ => ⟨h.alike, fun hopen => h.same (.inl hopen)⟩) h.quoted,
      hes]
    refine .name (bare.sequel alike behind) ?_
    obtain ⟨suffix, hsuffix⟩ := nameLexeme_taken (c :: cs)
    rw [← hes, hsuffix, List.append_assoc, startsIdent_append ident]
  | punctuation bare notIdent =>
    obtain rfl : [] = front := (List.cons.inj htaken).2
    exact .punctuation (bare.sequel alike behind) (Bool.eq_false_iff.mp
      (alike.startsIdent_eq_false (Bool.eq_false_iff.mpr notIdent)))

end CssWorkbench
