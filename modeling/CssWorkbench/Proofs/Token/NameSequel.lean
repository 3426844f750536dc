import CssWorkbench.Proofs.Token.NumberSequel

/-!
# Names and what is written against them

A lexeme that starts with a name or a number is read again in front of another text. A unit and an
identifier want a text that is alike, a parenthesis behind a name and a closed url let any text
follow; only `url(` is a function because of the quote that comes next.
-/

namespace CssWorkbench

variable {n : Nat} {c : Char} {cs ds : List Char}

/-- The same lexeme with another text behind it. -/
def Lexeme.inFrontOf (x : Lexeme) (ds : List Char) : Lexeme :=
  ⟨x.kind, x.taken, x.value, ds⟩

/-- A name goes on as long as it can. -/
theorem startsNamePart_name_rest (cs : List Char) : startsNamePart (name cs).rest = false := by
  fun_induction name cs with
  | case1 => rfl
  | case2 c cs _ ih => exact ih
  | case3 c cs _ _ ih => exact ih
  | case4 c cs hc hesc => simp [Stretch.nothing, startsNamePart, hc, hesc]

/-- An escape that a name starts with is part of the name. -/
theorem startsEscape_name_append (hc : ¬ isNameChar c = true)
    (h : startsEscape (c :: cs) = true) :
    startsEscape ((name (c :: cs)).taken ++ ds) = true := by
  obtain ⟨rfl, hne⟩ := startsEscape_cons h
  have hfirst := escape_head? ((name (escape cs).rest).taken ++ ds) hne
  rw [name, if_neg hc, if_pos h, Stretch.after_taken, List.cons_append, List.cons_append,
    List.append_assoc, startsEscape_congr fun _ => hfirst, h]

/-- A name goes on over every character of a name. -/
theorem name_cons_taken (hc : isNameChar c = true) :
    (name (c :: cs)).taken = c :: (name cs).taken := by
  rw [name, if_pos hc]
  rfl

/-- What makes a name start is part of the name. -/
theorem startsNamePart_append (h : startsNamePart cs = true) :
    startsNamePart ((name cs).taken ++ ds) = true := by
  cases cs with
  | nil => cases h
  | cons c cs =>
    by_cases hc : isNameChar c = true
    · rw [name_cons_taken hc, List.cons_append, startsNamePart, hc, Bool.true_or]
    · rw [startsNamePart, Bool.eq_false_iff.mpr hc, Bool.false_or] at h
      have hesc := @startsEscape_name_append c cs ds hc h
      obtain ⟨rfl, -⟩ := startsEscape_cons h
      rw [name, if_neg hc, if_pos h] at hesc ⊢
      rw [Stretch.after_taken, List.cons_append, List.cons_append] at hesc ⊢
      rw [startsNamePart, hesc, Bool.or_true]

/-- A character that may start a name may stand in one. -/
theorem isNameChar_of_isNameStart (h : isNameStart c = true) : isNameChar c = true := by
  simp [isNameChar, h]

/-- What makes an identifier start is part of its name. -/
theorem startsIdent_append (h : startsIdent cs = true) :
    startsIdent ((name cs).taken ++ ds) = true := by
  cases cs with
  | nil => cases h
  | cons c cs =>
    by_cases hdash : c = '-'
    · subst hdash
      rw [name_cons_taken (by decide), List.cons_append]
      cases cs with
      | nil => cases h
      | cons d cs =>
        rw [startsIdent_dash] at h
        by_cases hd : isNameChar d = true
        · rw [name_cons_taken hd, List.cons_append, startsIdent_dash]
          by_cases hslash : d = '\\'
          · subst hslash
            cases hd
          · rwa [startsEscape_of_ne hslash] at h ⊢
        · have hd' : d ≠ '-' := fun hd' => hd (by rw [hd']; decide)
          have hstart : ¬ isNameStart d = true := fun hstart => hd (isNameChar_of_isNameStart hstart)
          have hesc : startsEscape (d :: cs) = true := by simpa [hd', hstart] using h
          have hnext := @startsEscape_name_append d cs ds hd hesc
          obtain ⟨rfl, -⟩ := startsEscape_cons hesc
          rw [name, if_neg hd, if_pos hesc] at hnext ⊢
          rw [Stretch.after_taken, List.cons_append, List.cons_append] at hnext ⊢
          rw [startsIdent_dash, hnext, Bool.or_true]
    · rw [startsIdent_of_ne hdash] at h
      by_cases hc : isNameChar c = true
      · have hslash : c ≠ '\\' := fun hslash => by rw [hslash] at hc; cases hc
        rw [name_cons_taken hc, List.cons_append, startsIdent_of_ne hdash]
        rwa [startsEscape_of_ne hslash] at h ⊢
      · have hstart : ¬ isNameStart c = true := fun hstart => hc (isNameChar_of_isNameStart hstart)
        have hesc : startsEscape (c :: cs) = true := by simpa [hstart] using h
        have hnext := @startsEscape_name_append c cs ds hc hesc
        obtain ⟨rfl, -⟩ := startsEscape_cons hesc
        rw [name, if_neg hc, if_pos hesc] at hnext ⊢
        rw [Stretch.after_taken, List.cons_append, List.cons_append] at hnext ⊢
        rw [startsIdent_of_ne hdash, hnext, Bool.or_true]

/-! What is written against a number. -/

/-- A number in front of a percent sign is a percentage. -/
theorem numericLexeme_percentage {behind : List Char} (hrest : (splitNumber cs).2 = '%' :: behind) :
    numericLexeme cs =
      ⟨.percentage, (splitNumber cs).1 ++ ['%'], (splitNumber cs).1, behind⟩ := by
  unfold numericLexeme
  simp only [hrest]

/-- A number in front of a name is a dimension. -/
theorem numericLexeme_dimension (hpercent : (splitNumber cs).2.head? ≠ some '%')
    (hident : startsIdent (splitNumber cs).2 = true) :
    numericLexeme cs = ⟨.dimension, (splitNumber cs).1 ++ (name (splitNumber cs).2).taken,
      (splitNumber cs).1 ++ (name (splitNumber cs).2).value, (name (splitNumber cs).2).rest⟩ := by
  unfold numericLexeme
  simp only
  split
  · rename_i hrest
    exact absurd (hrest ▸ rfl) hpercent
  · rw [if_pos hident]

/-- A number in front of anything else is a number. -/
theorem numericLexeme_number (hpercent : (splitNumber cs).2.head? ≠ some '%')
    (hident : startsIdent (splitNumber cs).2 = false) :
    numericLexeme cs = .verbatim .number (splitNumber cs).1 (splitNumber cs).2 := by
  unfold numericLexeme
  simp only
  split
  · rename_i hrest
    exact absurd (hrest ▸ rfl) hpercent
  · rw [if_neg (Bool.eq_false_iff.mp hident)]

/-- A number with its unit starts with the number. -/
theorem numericLexeme_taken (cs : List Char) :
    ∃ unit, (numericLexeme cs).taken = (splitNumber cs).1 ++ unit := by
  unfold numericLexeme
  simp only
  split
  · exact ⟨_, rfl⟩
  · split
    · exact ⟨_, rfl⟩
    · exact ⟨[], (List.append_nil _).symm⟩

/-- A name takes the character that it starts with. -/
theorem name_head? (h : startsNamePart cs = true) : ((name cs).taken ++ ds).head? = cs.head? := by
  obtain ⟨c, front, hfront⟩ := List.exists_cons_of_ne_nil (name_taken_ne_nil h)
  have happend := name_append cs
  rw [hfront] at happend ⊢
  exact happend ▸ rfl

/-- A number and its unit are read again in front of a text that is alike. -/
theorem numericLexeme_sequel (hnumber : startsNumber cs = true)
    (alike : Alike 3 (numericLexeme cs).rest ds)
    (hsame : endsInEscape (numericLexeme cs).taken = true → SameNext (numericLexeme cs).rest ds) :
    numericLexeme ((numericLexeme cs).taken ++ ds) = (numericLexeme cs).inFrontOf ds := by
  have hsequel : ∀ {es}, Alike 2 (splitNumber cs).2 es →
      splitNumber ((splitNumber cs).1 ++ es) = ((splitNumber cs).1, es) :=
    fun h => splitNumber_sequel h hnumber
  by_cases hpercent : (splitNumber cs).2.head? = some '%'
  · obtain ⟨behind, hrest⟩ := List.head?_eq_some_iff.mp hpercent
    rw [numericLexeme_percentage hrest] at alike ⊢
    have hnext : Alike 2 ('%' :: behind) ('%' :: ds) :=
      .same (fun hc => by cases hc) (alike.mono (by decide))
    have hnew := hsequel (hrest ▸ hnext)
    rw [List.append_assoc, List.singleton_append, numericLexeme_percentage (by rw [hnew]), hnew]
    rfl
  · by_cases hident : startsIdent (splitNumber cs).2 = true
    · rw [numericLexeme_dimension hpercent hident] at alike hsame ⊢
      simp only at alike hsame ⊢
      have hunit : endsInEscape (name (splitNumber cs).2).taken = true →
          SameNext (name (splitNumber cs).2).rest ds :=
        fun hopen => hsame (endsInEscape_append _ hopen)
      have halike := (alike.mono (show 2 ≤ 3 by decide)).append fun hlast =>
        hunit (endsInEscape_of_getLast? hlast)
      rw [name_append] at halike
      have hnew := hsequel halike
      have hstop := alike.startsNamePart_eq_false (startsNamePart_name_rest _)
      have hhead := @name_head? _ ds (startsNamePart_of_startsIdent hident)
      rw [List.append_assoc, numericLexeme_dimension, hnew, name_sequel hstop hunit]
      · rfl
      · rwa [hnew, hhead]
      · rw [hnew, startsIdent_append hident]
    · have hident := Bool.eq_false_iff.mpr hident
      rw [numericLexeme_number hpercent hident] at alike ⊢
      have hnew := hsequel (alike.mono (by decide))
      have hbehind := alike.head?_ne (show isInert '%' = false by decide) hpercent
      have hnext := alike.startsIdent_eq_false hident
      rw [Lexeme.verbatim, numericLexeme_number, hnew]
      · rfl
      · rwa [hnew]
      · rwa [hnew]

/-! What is written against a name. -/

/-- Whether a quote comes next, blanks aside. -/
def quotedNext (cs : List Char) : Bool :=
  (cs.dropWhile Text.isAsciiBlank).head?.any fun c => c = '"' || c = '\''

/-- Whether the characters spell `url`. -/
def spellsUrl (value : List Char) : Prop := value.map Char.toLower = ['u', 'r', 'l']

/-- A name in front of a parenthesis is a function, unless an unquoted URL follows. -/
theorem nameLexeme_function {behind : List Char} (hrest : (name cs).rest = '(' :: behind)
    (hurl : spellsUrl (name cs).value → quotedNext behind = true) :
    nameLexeme cs = ⟨.function, (name cs).taken ++ ['('], (name cs).value, behind⟩ := by
  unfold nameLexeme
  simp only [hrest]
  by_cases hvalue : (name cs).value.map Char.toLower = ['u', 'r', 'l']
  · have hquote : ((behind.dropWhile Text.isAsciiBlank).head?.any fun c => c = '"' || c = '\'') =
        true := hurl hvalue
    rw [if_pos hvalue, if_pos hquote]
  · rw [if_neg hvalue]

/-- The unquoted url whose name is written `front`, read behind its parenthesis. -/
def urlLexeme (front behind : List Char) : Lexeme :=
  let u := urlTail (behind.dropWhile Text.isAsciiBlank)
  let taken := front ++ '(' :: behind.takeWhile Text.isAsciiBlank ++ u.taken
  if u.malformed then .verbatim .badUrl taken u.rest else ⟨.url, taken, u.value, u.rest⟩

/-- The name `url` in front of a parenthesis and no quote is a URL. -/
theorem nameLexeme_url {behind : List Char} (hrest : (name cs).rest = '(' :: behind)
    (hvalue : spellsUrl (name cs).value) (hquote : quotedNext behind = false) :
    nameLexeme cs = urlLexeme (name cs).taken behind := by
  unfold quotedNext at hquote
  unfold spellsUrl at hvalue
  unfold nameLexeme
  simp only [hrest]
  rw [if_pos hvalue, if_neg (Bool.eq_false_iff.mp hquote)]
  rfl

/-- A name in front of anything else is an identifier. -/
theorem nameLexeme_ident (hrest : (name cs).rest.head? ≠ some '(') :
    nameLexeme cs = .ofStretch .ident [] (name cs) := by
  unfold nameLexeme
  simp only
  split
  · rename_i heq
    exact absurd (heq ▸ rfl) hrest
  · rfl

/-- The body of a url is read again behind the same blanks, and no quote comes next. -/
theorem urlTail_sequel_blanks {body : List Char}
    (hend : (urlTail (body.dropWhile Text.isAsciiBlank)).rest = [] → ds = []) :
    let u := urlTail (body.dropWhile Text.isAsciiBlank)
    let new := body.takeWhile Text.isAsciiBlank ++ (u.taken ++ ds)
    new.takeWhile Text.isAsciiBlank = body.takeWhile Text.isAsciiBlank ∧
      new.dropWhile Text.isAsciiBlank = u.taken ++ ds ∧ quotedNext new = quotedNext body := by
  have hhead := head?_of_taken (urlTail_append _) urlTail_taken hend
  have hblank := hhead ▸ head?_dropWhile_any Text.isAsciiBlank body
  obtain ⟨htake, hdrop⟩ := @takeWhile_sequel body _ Text.isAsciiBlank hblank
  refine ⟨htake, hdrop, ?_⟩
  rw [quotedNext, hdrop, hhead, quotedNext]

/-- What follows a URL follows the blanks and the rest of it. -/
theorem urlLexeme_rest (front behind : List Char) : (urlLexeme front behind).rest =
    (urlTail (behind.dropWhile Text.isAsciiBlank)).rest := by
  unfold urlLexeme
  simp only
  split <;> rfl

/-- A URL takes its name, the parenthesis, blanks and what it spells. -/
theorem urlLexeme_taken (front behind : List Char) : (urlLexeme front behind).taken =
    front ++ '(' :: (behind.takeWhile Text.isAsciiBlank ++
      (urlTail (behind.dropWhile Text.isAsciiBlank)).taken) := by
  unfold urlLexeme
  simp only
  split <;> simp [Lexeme.verbatim]

/-- What a name with what is written against it can be: the opening of a function, an unquoted url
or an identifier. -/
inductive IsNameLexeme (cs : List Char) : Lexeme → Prop
  | function {behind : List Char} (opened : (name cs).rest = '(' :: behind)
      (quoted : spellsUrl (name cs).value → quotedNext behind = true) :
      IsNameLexeme cs ⟨.function, (name cs).taken ++ ['('], (name cs).value, behind⟩
  | url {behind : List Char} (opened : (name cs).rest = '(' :: behind)
      (value : spellsUrl (name cs).value) (quote : quotedNext behind = false) :
      IsNameLexeme cs (urlLexeme (name cs).taken behind)
  | ident (closed : (name cs).rest.head? ≠ some '(') :
      IsNameLexeme cs (.ofStretch .ident [] (name cs))

/-- Whatever starts with a name is one of the lexemes that may. -/
theorem isNameLexeme_nameLexeme (cs : List Char) : IsNameLexeme cs (nameLexeme cs) := by
  by_cases hopen : (name cs).rest.head? = some '('
  · obtain ⟨behind, hrest⟩ := List.head?_eq_some_iff.mp hopen
    by_cases hurl : spellsUrl (name cs).value ∧ quotedNext behind = false
    · rw [nameLexeme_url hrest hurl.1 hurl.2]
      exact .url hrest hurl.1 hurl.2
    · have hquoted : spellsUrl (name cs).value → quotedNext behind = true := fun hvalue =>
        Bool.not_eq_false _ |>.mp fun hno => hurl ⟨hvalue, hno⟩
      rw [nameLexeme_function hrest hquoted]
      exact .function hrest hquoted
  · rw [nameLexeme_ident hopen]
    exact .ident hopen

/-- What starts as a URL is one, or is broken. -/
theorem urlLexeme_kind (front behind : List Char) :
    (urlLexeme front behind).kind = .url ∨ (urlLexeme front behind).kind = .badUrl := by
  unfold urlLexeme
  simp only
  split
  · exact .inr rfl
  · exact .inl rfl

/-- A name with what is written against it starts with the name. -/
theorem nameLexeme_taken (cs : List Char) :
    ∃ suffix, (nameLexeme cs).taken = (name cs).taken ++ suffix := by
  have hx := isNameLexeme_nameLexeme cs
  generalize nameLexeme cs = x at hx ⊢
  cases hx with
  | function => exact ⟨_, rfl⟩
  | url => exact ⟨_, urlLexeme_taken _ _⟩
  | ident => exact ⟨[], (List.append_nil _).symm⟩

/-- A name in front of a parenthesis stays a name in front of it. -/
theorem name_sequel_open {behind : List Char} (hrest : (name cs).rest = '(' :: behind)
    (es : List Char) : name ((name cs).taken ++ '(' :: es) = (name cs).inFrontOf ('(' :: es) := by
  have hstop : startsNamePart ('(' :: es) = false := by
    rw [startsNamePart, startsEscape_of_ne (by decide)]
    decide
  exact name_sequel hstop fun _ => .inr (by rw [hrest]; rfl)

/-- A name with what is written against it is read again: an identifier in front of a text that is
alike, anything else in front of any text; but only a quote keeps `url(` a function. -/
theorem nameLexeme_sequel (hend : (nameLexeme cs).rest = [] → ds = [])
    (hident : (nameLexeme cs).kind = .ident → Alike 3 (nameLexeme cs).rest ds ∧
      (endsInEscape (nameLexeme cs).taken = true → SameNext (nameLexeme cs).rest ds))
    (hquoted : (nameLexeme cs).kind = .function → spellsUrl (nameLexeme cs).value →
      quotedNext ds = true) :
    nameLexeme ((nameLexeme cs).taken ++ ds) = (nameLexeme cs).inFrontOf ds := by
  have hx := isNameLexeme_nameLexeme cs
  generalize nameLexeme cs = x at hx hend hident hquoted ⊢
  cases hx with
  | @function behind hrest =>
    have hname := name_sequel_open hrest
    rw [List.append_assoc, List.singleton_append, nameLexeme_function (by rw [hname]; rfl)
      (by rw [hname]; exact hquoted rfl), hname]
    rfl
  | @url behind hrest hvalue hquote =>
    have hname := name_sequel_open hrest
    rw [urlLexeme_rest] at hend
    obtain ⟨htake, hdrop, hquote'⟩ := urlTail_sequel_blanks hend
    rw [urlLexeme_taken, List.append_assoc, List.cons_append, List.append_assoc]
    generalize hnew : behind.takeWhile Text.isAsciiBlank ++
      ((urlTail (behind.dropWhile Text.isAsciiBlank)).taken ++ ds) = new at htake hdrop hquote' ⊢
    rw [nameLexeme_url (by rw [hname]; rfl) (by rw [hname]; exact hvalue)
      (hquote'.trans hquote), hname, urlLexeme, htake, hdrop, urlTail_sequel hend]
    unfold urlLexeme
    simp only
    rw [apply_ite (Lexeme.inFrontOf · ds)]
    rfl
  | ident hclosed =>
    obtain ⟨alike, hsame⟩ := hident rfl
    have hstop := alike.startsNamePart_eq_false (startsNamePart_name_rest cs)
    have hnew := name_sequel hstop hsame
    have hbehind := alike.head?_ne (show isInert '(' = false by decide) hclosed
    rw [Lexeme.ofStretch, List.nil_append, nameLexeme_ident (by rwa [hnew]), hnew]
    rfl

end CssWorkbench
