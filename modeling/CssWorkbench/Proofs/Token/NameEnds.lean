import CssWorkbench.Proofs.Token.FirmSequel

/-!
# Where a token ends in a name

Identifiers, hashes, keywords and dimensions end where their name does. A hexadecimal escape at the
end of a name takes in one blank that follows, and nothing else that a name cannot go on with
changes such a token. Any other token ends with a character that closes it, so that no escape is
open behind it.
-/

namespace CssWorkbench

variable {n : Nat} {b c : Char} {cs ds es front gone left rest : List Char} {x : Lexeme}

/-- What an escape at the end of a name takes off the front of a text that is put where `rest`
stood: nothing, or one blank if there was none. -/
inductive TakesIn (rest : List Char) : List Char → List Char → List Char → Prop
  | nothing (ds : List Char) : TakesIn rest ds [] ds
  | blank {b : Char} (ds : List Char) (blank : Text.isAsciiBlank b = true)
      (none : rest.head?.any Text.isAsciiBlank = false) : TakesIn rest (b :: ds) [b] ds

/-- What is taken in and what is left make up the text. -/
theorem TakesIn.append (h : TakesIn rest ds gone left) : ds = gone ++ left := by
  cases h with
  | nothing | blank => rfl

/-- Only blanks are taken in. -/
theorem TakesIn.isAsciiBlank (h : TakesIn rest ds gone left) :
    ∀ b ∈ gone, Text.isAsciiBlank b = true := by
  cases h with
  | nothing => simp
  | blank ds blank => simpa using blank

/-- Nothing is taken in where a blank stood before or none follows. -/
theorem TakesIn.eq_nothing (h : TakesIn rest ds gone left)
    (hblank : ds.head?.any Text.isAsciiBlank = true → rest.head?.any Text.isAsciiBlank = true) :
    gone = [] ∧ left = ds := by
  cases h with
  | nothing => exact ⟨rfl, rfl⟩
  | blank ds blank none =>
    rw [hblank (by simpa using blank)] at none
    cases none

/-- A bounded run is the same in front of a text that does not go on with it. -/
theorem takeUpTo_stop {p : Char → Bool} {limit : Nat} (h : ds.head?.any p = false) :
    takeUpTo p limit ((takeUpTo p limit cs).1 ++ ds) = ((takeUpTo p limit cs).1, ds) := by
  have hstop : ∀ limit, takeUpTo p limit ds = ([], ds) := by
    intro limit
    cases limit with
    | zero => rfl
    | succ limit =>
      cases ds with
      | nil => rfl
      | cons d ds =>
        have hd : ¬ p d = true := Bool.eq_false_iff.mp h
        rw [takeUpTo, if_neg hd]
  fun_induction takeUpTo p limit cs with
  | case1 | case2 | case4 => exact hstop _
  | case3 limit c cs hc r ih => rw [List.cons_append, takeUpTo, if_pos hc, ih]

/-- In front of anything but a digit an escape ends where it did, a blank apart. -/
theorem escape_before (hne : cs ≠ []) (hdigit : ds.head?.any isHexDigit = false) :
    ∃ gone left, TakesIn (escape cs).rest ds gone left ∧
      escape ((escape cs).taken ++ ds) =
        ⟨(escape cs).taken ++ gone, (escape cs).value, left, false⟩ := by
  obtain ⟨c, cs, rfl⟩ := List.exists_cons_of_ne_nil hne
  by_cases hc : isHexDigit c = true
  · have hsplit := takeUpTo_append isHexDigit 6 (c :: cs)
    have hstop := fun ds => @takeUpTo_stop (c :: cs) ds isHexDigit 6
    have hdigits : (takeUpTo isHexDigit 6 (c :: cs)).1 ≠ [] := by simp [takeUpTo, hc]
    rw [escape, if_pos hc]
    generalize takeUpTo isHexDigit 6 (c :: cs) = p at hsplit hstop hdigits ⊢
    obtain ⟨digits, rest⟩ := p
    obtain ⟨d, digits, rfl⟩ := List.exists_cons_of_ne_nil hdigits
    obtain rfl : d = c := (List.cons.inj hsplit).1
    simp only at hstop ⊢
    -- Behind the digits a blank is taken in, if there was none.
    have hopen : rest.head?.any Text.isAsciiBlank = false → ∃ gone left, TakesIn rest ds gone left ∧
        escape (d :: digits ++ ds) =
          ⟨d :: digits ++ gone, [charOfCode (hexNumber (d :: digits))], left, false⟩ := by
      intro hrest
      rw [List.cons_append, escape, if_pos hc, ← List.cons_append, hstop ds hdigit]
      cases ds with
      | nil => exact ⟨[], [], .nothing [], by rw [List.append_nil]⟩
      | cons e ds =>
        by_cases he : Text.isAsciiBlank e = true
        · exact ⟨[e], ds, .blank ds he hrest, by simp only [if_pos he]⟩
        · exact ⟨[], e :: ds, .nothing _, by simp only [if_neg he, List.append_nil]⟩
    cases rest with
    | nil => exact hopen rfl
    | cons b rest =>
      by_cases hb : Text.isAsciiBlank b = true
      · simp only [if_pos hb]
        have hnodigit : (b :: ds).head?.any isHexDigit = false := by
          refine Bool.eq_false_iff.mpr fun hdigit => ?_
          have hname := isNameChar_of_isHexDigit (show isHexDigit b = true from hdigit)
          rw [isNameChar_of_isInert (by simp [isInert, hb])] at hname
          cases hname
        refine ⟨[], ds, .nothing ds, ?_⟩
        rw [List.append_assoc, List.cons_append, escape, if_pos hc, ← List.cons_append,
          List.singleton_append, hstop (b :: ds) hnodigit]
        simp only [if_pos hb, List.append_nil]
      · simp only [if_neg hb]
        exact hopen (Bool.eq_false_iff.mpr hb)
  · rw [escape, if_neg hc]
    refine ⟨[], ds, .nothing ds, ?_⟩
    rw [List.singleton_append, escape, if_neg hc]
    rfl

/-- A name ends where it did in front of anything that it cannot go on with; only a blank may go
with the escape at its end. -/
theorem name_before (hstop : startsNamePart ds = false)
    (hgone : (name cs).rest.head?.any Text.isAsciiBlank = false →
      ds.head?.any Text.isAsciiBlank = true → startsNamePart ds.tail = false) :
    ∃ gone left, TakesIn (name cs).rest ds gone left ∧
      name ((name cs).taken ++ ds) = ⟨(name cs).taken ++ gone, (name cs).value, left, false⟩ := by
  fun_induction name cs with
  | case1 => exact ⟨[], ds, .nothing ds, name_of_not_startsNamePart hstop⟩
  | case2 c cs hc ih =>
    obtain ⟨gone, left, htakes, hname⟩ := ih hgone
    refine ⟨gone, left, htakes, ?_⟩
    rw [Stretch.after_taken, List.append_assoc, List.singleton_append, name, if_pos hc, hname]
    rfl
  | case3 c cs hc hesc ih =>
    obtain ⟨rfl, hne⟩ := startsEscape_cons hesc
    have hfirst := escape_head? ((name (escape cs).rest).taken ++ ds) hne
    have hstart := (startsEscape_congr fun _ => hfirst).trans hesc
    generalize hbehind :
      (escape cs).taken ++ ((name (escape cs).rest).taken ++ ds) = behind at hstart
    have hself : name ('\\' :: behind) = (name (escape behind).rest).after
        ('\\' :: (escape behind).taken) (escape behind).value := by
      rw [name, if_neg hc, if_pos hstart]
    rw [Stretch.after_taken, List.cons_append, List.cons_append, List.append_assoc, hbehind, hself]
    by_cases hend : startsNamePart (escape cs).rest = true
    · -- The name goes on behind the escape, so that nothing changes for the escape.
      obtain ⟨gone, left, htakes, hname⟩ := ih hgone
      have hsame : SameNext (escape cs).rest ((name (escape cs).rest).taken ++ ds) := by
        have hsplit := name_append (escape cs).rest
        have hnext : SameNext ((name (escape cs).rest).taken ++ (name (escape cs).rest).rest)
            ((name (escape cs).rest).taken ++ ds) :=
          .append fun hnil => absurd hnil (name_taken_ne_nil hend)
        rwa [hsplit] at hnext
      refine ⟨gone, left, htakes, ?_⟩
      rw [← hbehind, escape_sequel hsame, Stretch.inFrontOf_rest, hname]
      simp [Stretch.after]
    · have hnothing := name_of_not_startsNamePart (Bool.eq_false_iff.mpr hend)
      rw [hnothing] at hgone hbehind ⊢
      have hdigit : ds.head?.any isHexDigit = false := by
        cases ds with
        | nil => rfl
        | cons d ds =>
          refine Bool.eq_false_iff.mpr fun hdigit => ?_
          rw [startsNamePart, isNameChar_of_isHexDigit hdigit] at hstop
          cases hstop
      obtain ⟨gone, left, htakes, hescape⟩ := escape_before hne hdigit
      have hleft : startsNamePart left = false := by
        cases htakes with
        | nothing => exact hstop
        | blank ds blank none => exact hgone none blank
      refine ⟨gone, left, htakes, ?_⟩
      rw [← hbehind, Stretch.nothing, List.nil_append, hescape]
      simp [name_of_not_startsNamePart hleft, Stretch.after, Stretch.nothing]
  | case4 c cs hc hesc => exact ⟨[], ds, .nothing ds, name_of_not_startsNamePart hstop⟩

/-- A name looks alike in front of what may stand in the place of what followed it. -/
theorem name_alike (h : Alike n (name cs).rest ds) : Alike n cs ((name cs).taken ++ ds) := by
  fun_induction name cs generalizing n with
  | case1 | case4 => exact h
  | case2 c cs hc ih =>
    have hslash : c = '\\' → SameNext cs ((name cs).taken ++ ds) := fun hslash => by
      rw [hslash] at hc
      cases hc
    cases n with
    | zero => exact .far (List.cons_ne_nil _ _)
    | succ n => exact .same hslash (ih (h.mono (Nat.le_succ n)))
  | case3 c cs hc hesc ih =>
    obtain ⟨rfl, hne⟩ := startsEscape_cons hesc
    obtain ⟨d, behind, rfl⟩ := List.exists_cons_of_ne_nil hne
    have hstarts : d ≠ '\n' ∧ d ≠ '\r' := by simpa [startsEscape] using hesc
    obtain ⟨es, hes⟩ := List.head?_eq_some_iff.mp
      ((escape_head? ((name (escape (d :: behind)).rest).taken ++ ds) hne).trans List.head?_cons)
    rw [Stretch.after_taken, List.cons_append, List.cons_append, List.append_assoc, hes]
    exact .escape hstarts

/-- A name that is not empty takes one more character into what looks alike. -/
theorem name_alike_succ (hpart : startsNamePart cs = true) (h : Alike n (name cs).rest ds) :
    Alike (n + 1) cs ((name cs).taken ++ ds) := by
  cases cs with
  | nil => cases hpart
  | cons c cs =>
    by_cases hc : isNameChar c = true
    · rw [name, if_pos hc] at h
      rw [name_cons_taken hc]
      refine .same (fun hslash => ?_) (name_alike h)
      rw [hslash] at hc
      cases hc
    · rw [startsNamePart, Bool.eq_false_iff.mpr hc, Bool.false_or] at hpart
      obtain ⟨rfl, hne⟩ := startsEscape_cons hpart
      obtain ⟨d, behind, rfl⟩ := List.exists_cons_of_ne_nil hne
      have hstarts : d ≠ '\n' ∧ d ≠ '\r' := by simpa [startsEscape] using hpart
      obtain ⟨es, hes⟩ := List.head?_eq_some_iff.mp
        ((escape_head? ((name (escape (d :: behind)).rest).taken ++ ds) hne).trans List.head?_cons)
      rw [name, if_neg hc, if_pos hpart, Stretch.after_taken, List.cons_append, List.cons_append,
        List.append_assoc, hes]
      exact .escape hstarts

/-- The kinds of a token that ends where a name does. -/
def TokenKind.endsInName : TokenKind → Bool
  | .ident | .hash | .atKeyword | .dimension => true
  | _ => false

/-- Of each branch of the scanner at most one kind ends in a name. -/
theorem TokenKind.eq_of_endsInName {kind : TokenKind} (h : kind.endsInName = true) :
    kind.family ≠ .punctuation ∧ (kind.family = .number → kind = .dimension) ∧
      (kind.family = .name → kind = .ident) := by
  revert h
  cases kind <;> decide

/-- What may stand behind a token that ends in a name: a text that is alike, and behind a blank
that the name may take in nothing that goes on with it. -/
structure Lexeme.Admits (x : Lexeme) (ds : List Char) : Prop where
  alike : Alike 3 x.rest ds
  behind : x.rest.head?.any Text.isAsciiBlank = false → ds.head?.any Text.isAsciiBlank = true →
    startsNamePart ds.tail = false ∧ ds.tail.head? ≠ some '('

/-- The name at the end of a token in front of a text that the token admits. -/
theorem Lexeme.Admits.name_before (h : x.Admits ds) (hrest : x.rest = (name cs).rest) :
    ∃ gone left, TakesIn x.rest ds gone left ∧
      name ((name cs).taken ++ ds) = ⟨(name cs).taken ++ gone, (name cs).value, left, false⟩ := by
  obtain ⟨alike, behind⟩ := h
  rw [hrest] at alike behind ⊢
  exact CssWorkbench.name_before (alike.startsNamePart_eq_false (startsNamePart_name_rest cs))
    fun hnone hblank => (behind hnone hblank).1

/-- No parenthesis opens behind what a name takes in. -/
theorem Lexeme.Admits.head?_ne (h : x.Admits ds) (hopen : x.rest.head? ≠ some '(')
    (htakes : TakesIn x.rest ds gone left) : left.head? ≠ some '(' := by
  cases htakes with
  | nothing => exact h.alike.head?_ne (by decide) hopen
  | blank ds blank none => exact (h.behind none blank).2

/-- A dimension is read again in front of a text that it admits. -/
theorem numericLexeme_before (hnumber : startsNumber cs = true)
    (hkind : (numericLexeme cs).kind = .dimension) (h : (numericLexeme cs).Admits ds) :
    ∃ gone left, TakesIn (numericLexeme cs).rest ds gone left ∧
      numericLexeme ((numericLexeme cs).taken ++ ds) =
        ⟨.dimension, (numericLexeme cs).taken ++ gone, (numericLexeme cs).value, left⟩ := by
  have hsequel : ∀ {es}, Alike 2 (splitNumber cs).2 es →
      splitNumber ((splitNumber cs).1 ++ es) = ((splitNumber cs).1, es) :=
    fun h => splitNumber_sequel h hnumber
  by_cases hpercent : (splitNumber cs).2.head? = some '%'
  · obtain ⟨behind, hrest⟩ := List.head?_eq_some_iff.mp hpercent
    rw [numericLexeme_percentage hrest] at hkind
    cases hkind
  · by_cases hident : startsIdent (splitNumber cs).2 = true
    · rw [numericLexeme_dimension hpercent hident] at h ⊢
      obtain ⟨gone, left, htakes, hname⟩ := h.name_before rfl
      have halike := @name_alike 2 (splitNumber cs).2 ds (h.alike.mono (by decide))
      have hnew := hsequel halike
      have hhead := @name_head? _ ds (startsNamePart_of_startsIdent hident)
      refine ⟨gone, left, htakes, ?_⟩
      simp only
      rw [List.append_assoc, numericLexeme_dimension, hnew, hname]
      · simp
      · rwa [hnew, hhead]
      · rw [hnew, startsIdent_append hident]
    · rw [numericLexeme_number hpercent (Bool.eq_false_iff.mpr hident)] at hkind
      cases hkind

/-- What the scanner tests in front of an identifier is the same in front of one that is alike. -/
theorem BareStart.before (h : BareStart c cs) (hident : startsIdent (c :: cs) = true)
    (alike : Alike 4 (c :: cs) (c :: es)) : BareStart c es := by
  have hprefix : ∀ {p : List Char}, p.length ≤ 4 → p.any (fun c => isInert c || c = '\\') = false →
      ¬ p.isPrefixOf (c :: cs) = true → ¬ p.isPrefixOf (c :: es) = true := fun hlength hinert hno =>
    Bool.eq_false_iff.mp (alike.isPrefixOf_eq_false hlength hinert (Bool.eq_false_iff.mpr hno))
  have hne : ∀ d, startsIdent (d :: cs) = false → c ≠ d := by
    rintro d hd rfl
    rw [hident] at hd
    cases hd
  have hhash : c ≠ '#' := hne '#' (by
    rw [startsIdent_of_ne (by decide), startsEscape_of_ne (by decide)]
    decide)
  have hat : c ≠ '@' := hne '@' (by
    rw [startsIdent_of_ne (by decide), startsEscape_of_ne (by decide)]
    decide)
  refine ⟨⟨h.notBlank, hprefix (by decide) rfl h.notComment, h.notQuote, ?_⟩, by simp [hhash],
    by simp [hat], hprefix (by decide) rfl h.notOpen, hprefix (by decide) rfl h.notClose⟩
  exact Bool.eq_false_iff.mp (alike.startsNumber_eq_false (Bool.eq_false_iff.mpr h.notNumber))

/-- In front of a `#` or an `@` nothing else is tested. -/
theorem plainStart_of_sign (hc : c = '#' ∨ c = '@') (cs : List Char) : PlainStart c cs := by
  have hnumber : startsNumber (c :: cs) = false := by
    rw [startsNumber, if_neg (by rcases hc with rfl | rfl <;> decide),
      startsUnsigned_of_ne (by rcases hc with rfl | rfl <;> decide)]
    rcases hc with rfl | rfl <;> decide
  refine ⟨?_, ?_, ?_, Bool.eq_false_iff.mp hnumber⟩
  · rcases hc with rfl | rfl <;> decide
  · rcases hc with rfl | rfl <;> simp [List.isPrefixOf]
  · rcases hc with rfl | rfl <;> decide

/-- A token that ends in a name is read again in front of a text that it admits, perhaps with a
blank that an escape at its end takes in. -/
theorem IsLexeme.before (hx : IsLexeme c cs x) (hkind : x.kind.endsInName = true)
    (h : x.Admits ds) (hes : x.taken ++ ds = c :: es) :
    ∃ gone left, TakesIn x.rest ds gone left ∧
      IsLexeme c es ⟨x.kind, x.taken ++ gone, x.value, left⟩ := by
  obtain ⟨front, htaken, hcs, rfl⟩ := hx.split hes
  cases hx with
  | blank | comment | cdo | cdc => cases hkind
  | string quote =>
    rw [Lexeme.ofStretch] at hkind
    simp only at hkind
    split at hkind <;> cases hkind
  | punctuation =>
    exact absurd (punctuationKind_family c) (TokenKind.eq_of_endsInName hkind).1
  | number notBlank notComment notQuote number =>
    have hdimension := (TokenKind.eq_of_endsInName hkind).2.1 (numericLexeme_family (c :: cs))
    obtain ⟨gone, left, htakes, hnumeric⟩ := numericLexeme_before number hdimension h
    have hslash : c ≠ '/' := by
      rintro rfl
      rw [startsNumber, if_neg (by decide), startsUnsigned_of_ne (by decide)] at number
      revert number
      decide
    refine ⟨gone, left, htakes, ?_⟩
    rw [hdimension, ← hnumeric, hes]
    refine .number notBlank (by simp [List.isPrefixOf, hslash.symm]) notQuote ?_
    obtain ⟨unit, hunit⟩ := numericLexeme_taken (c :: cs)
    rw [← hes, hunit, List.append_assoc, startsNumber_append number]
  | hash plain part =>
    obtain rfl : (CssWorkbench.name cs).taken = front := (List.cons.inj htaken).2
    obtain ⟨gone, left, htakes, hname⟩ := h.name_before rfl
    have hnew := IsLexeme.hash (plainStart_of_sign (.inl rfl) _) (@startsNamePart_append _ ds part)
    rw [hname] at hnew
    exact ⟨gone, left, htakes, by simpa [Lexeme.ofStretch] using hnew⟩
  | atKeyword plain ident =>
    obtain rfl : (CssWorkbench.name cs).taken = front := (List.cons.inj htaken).2
    obtain ⟨gone, left, htakes, hname⟩ := h.name_before rfl
    have hnew :=
      IsLexeme.atKeyword (plainStart_of_sign (.inr rfl) _) (@startsIdent_append _ ds ident)
    rw [hname] at hnew
    exact ⟨gone, left, htakes, by simpa [Lexeme.ofStretch] using hnew⟩
  | name bare ident =>
    obtain ⟨heq, hclosed⟩ := nameLexeme_of_ident
      ((TokenKind.eq_of_endsInName hkind).2.2 (nameLexeme_family (c :: cs)))
    rw [heq, Lexeme.ofStretch] at h hes ⊢
    simp only [List.nil_append] at h hes ⊢
    obtain ⟨gone, left, htakes, hname⟩ := @Lexeme.Admits.name_before (c :: cs) ds _ h rfl
    have alike := name_alike_succ (startsNamePart_of_startsIdent ident) h.alike
    rw [hes] at alike hname
    have hnew := IsLexeme.name (bare.before ident alike) (hes ▸ @startsIdent_append _ ds ident)
    rw [nameLexeme_ident (by rw [hname]; exact h.head?_ne hclosed htakes), hname] at hnew
    exact ⟨gone, left, htakes, by simpa [Lexeme.ofStretch] using hnew⟩

/-! The characters that close all other tokens. -/

/-- A text that ends in no hex digit and no backslash does not end in an escape. -/
theorem endsInEscape_concat (hdigit : isHexDigit c = false) (hslash : c ≠ '\\') :
    endsInEscape (front ++ [c]) = false := by
  rw [endsInEscape, List.reverse_append, List.reverse_singleton, List.singleton_append,
    List.dropWhile_cons_of_neg (Bool.eq_false_iff.mp hdigit)]
  simpa using hslash

/-- Where something follows a string that no line break cuts off, the string has its end quote. -/
theorem getLast?_stringTail {quote : Char} (hrest : (stringTail quote cs).rest ≠ [])
    (hclosed : (stringTail quote cs).malformed = false) :
    (stringTail quote cs).taken.getLast? = some quote := by
  fun_induction stringTail quote cs with
  | case1 => exact absurd rfl hrest
  | case2 => rfl
  | case3 => cases hclosed
  | case4 => exact absurd rfl hrest
  | case5 cs _ _ ih | case6 _ _ _ _ _ _ ih | case7 _ _ _ _ _ _ ih | case8 _ _ _ _ _ ih =>
    obtain ⟨front, hfront⟩ := List.getLast?_eq_some_iff.mp (ih hrest hclosed)
    rw [Stretch.after_taken, hfront, ← List.append_assoc, List.getLast?_concat]

/-- A broken URL that leaves something ends in a parenthesis. -/
theorem getLast?_badUrlTail (hrest : (badUrlTail cs).rest ≠ []) :
    (badUrlTail cs).taken.getLast? = some ')' := by
  fun_induction badUrlTail cs with
  | case1 => exact absurd rfl hrest
  | case2 => rfl
  | case3 _ _ ih | case4 _ _ _ _ ih =>
    obtain ⟨front, hfront⟩ := List.getLast?_eq_some_iff.mp (ih hrest)
    rw [Stretch.after_taken, hfront, ← List.append_assoc, List.getLast?_concat]

/-- The end of a URL that leaves something is a parenthesis. -/
theorem getLast?_urlEnd (hrest : (urlEnd cs).rest ≠ []) :
    (urlEnd cs).taken.getLast? = some ')' := by
  unfold urlEnd at hrest ⊢
  split at hrest
  · exact absurd rfl hrest
  · split at hrest
    · rename_i hc
      simp only [if_pos hc]
      rw [hc]
      rfl
    · rename_i hc
      simp only [if_neg hc]
      exact getLast?_badUrlTail hrest

/-- Where something follows an unquoted url, the url has its parenthesis. -/
theorem getLast?_urlTail (hrest : (urlTail cs).rest ≠ []) :
    (urlTail cs).taken.getLast? = some ')' := by
  fun_induction urlTail cs with
  | case1 => exact absurd rfl hrest
  | case2 => rfl
  | case4 =>
    obtain ⟨front, hfront⟩ := List.getLast?_eq_some_iff.mp (getLast?_urlEnd hrest)
    rw [Stretch.after_taken, hfront, ← List.append_assoc, List.getLast?_concat]
  | case5 => exact getLast?_badUrlTail hrest
  | case3 _ _ _ _ ih | case6 _ _ _ _ _ _ ih =>
    obtain ⟨front, hfront⟩ := List.getLast?_eq_some_iff.mp (ih hrest)
    rw [Stretch.after_taken, hfront, ← List.append_assoc, List.getLast?_concat]

/-- No backslash stands in a number. -/
theorem slash_not_mem_splitUnsigned (cs : List Char) : '\\' ∉ (splitUnsigned cs).1 := by
  have hdigits : ∀ ds : List Char, '\\' ∉ ds.takeWhile Char.isDigit := fun ds hmem =>
    absurd (List.all_eq_true.mp List.all_takeWhile '\\' hmem) (by decide)
  unfold splitUnsigned
  simp only
  split
  · split
    · simp only [List.mem_append, List.mem_cons, not_or]
      exact ⟨hdigits cs, by decide, hdigits _⟩
    · exact hdigits cs
  · exact hdigits cs

/-- There is no backslash in a number. -/
theorem slash_not_mem_splitNumber (cs : List Char) : '\\' ∉ (splitNumber cs).1 := by
  cases cs with
  | nil => simp [splitNumber]
  | cons c cs =>
    rw [splitNumber]
    split
    · rename_i hc
      have hslash : '\\' ≠ c := by
        rintro rfl
        revert hc
        decide
      exact fun hmem => slash_not_mem_splitUnsigned cs ((List.mem_cons.mp hmem).resolve_left hslash)
    · exact slash_not_mem_splitUnsigned (c :: cs)

/-- A number without a unit has no backslash in it, and a unit is a name. -/
theorem numericLexeme_ends (cs : List Char) :
    '\\' ∉ (numericLexeme cs).taken ∨ (numericLexeme cs).kind.endsInName = true ∧ ∃ front text,
      (numericLexeme cs).taken = front ++ (name text).taken ∧
        (numericLexeme cs).rest = (name text).rest ∧ '\\' ∉ front := by
  have hnumber := slash_not_mem_splitNumber cs
  by_cases hpercent : (splitNumber cs).2.head? = some '%'
  · obtain ⟨behind, hrest⟩ := List.head?_eq_some_iff.mp hpercent
    rw [numericLexeme_percentage hrest]
    exact .inl fun hmem => (List.mem_append.mp hmem).elim hnumber (by decide)
  · by_cases hident : startsIdent (splitNumber cs).2 = true
    · rw [numericLexeme_dimension hpercent hident]
      exact .inr ⟨rfl, _, _, rfl, rfl, hnumber⟩
    · rw [numericLexeme_number hpercent (Bool.eq_false_iff.mpr hident)]
      exact .inl hnumber

/-- An identifier is a name, and anything else that starts with one ends with a parenthesis, if
something follows. -/
theorem nameLexeme_ends (hrest : (nameLexeme cs).rest ≠ []) :
    endsInEscape (nameLexeme cs).taken = false ∨ (nameLexeme cs).kind.endsInName = true ∧
      ∃ front text, (nameLexeme cs).taken = front ++ (name text).taken ∧
        (nameLexeme cs).rest = (name text).rest ∧ '\\' ∉ front := by
  have hx := isNameLexeme_nameLexeme cs
  generalize nameLexeme cs = x at hx hrest ⊢
  cases hx with
  | function => exact .inl (endsInEscape_concat rfl (by decide))
  | ident => exact .inr ⟨rfl, [], cs, rfl, rfl, List.not_mem_nil⟩
  | @url behind =>
    rw [urlLexeme_rest] at hrest
    obtain ⟨front, hfront⟩ := List.getLast?_eq_some_iff.mp (getLast?_urlTail hrest)
    rw [urlLexeme_taken, hfront, ← List.append_assoc, ← List.cons_append, ← List.append_assoc]
    exact .inl (endsInEscape_concat rfl (by decide))

/-- A token ends in a name, or no escape is open at its end, if something follows it; a string that
breaks off and a backslash by itself are left out. -/
theorem IsLexeme.ends (hx : IsLexeme c cs x) (hrest : x.rest ≠ []) (hbroken : x.kind ≠ .badString)
    (hslash : x.taken ≠ ['\\']) :
    endsInEscape x.taken = false ∨ x.kind.endsInName = true ∧ ∃ front text,
      x.taken = front ++ (CssWorkbench.name text).taken ∧ x.rest = (CssWorkbench.name text).rest ∧
        '\\' ∉ front := by
  have hfree : ∀ {ds : List Char}, '\\' ∉ ds → endsInEscape ds = false := fun hds =>
    Bool.eq_false_iff.mpr fun hopen => hds (mem_of_endsInEscape hopen)
  cases hx with
  | blank =>
    refine .inl (hfree fun hmem => ?_)
    exact absurd (List.all_eq_true.mp List.all_takeWhile '\\' hmem) (by decide)
  | @comment cs =>
    obtain ⟨front, hfront⟩ := List.getLast?_eq_some_iff.mp (getLast?_commentTail hrest)
    simp only [hfront]
    rw [← List.cons_append, ← List.cons_append]
    exact .inl (endsInEscape_concat rfl (by decide))
  | @string c cs quote =>
    have hclosed : (stringTail c cs).malformed = false := Bool.eq_false_iff.mpr fun hmalformed =>
      hbroken (by simp [Lexeme.ofStretch, hmalformed])
    obtain ⟨front, hfront⟩ := List.getLast?_eq_some_iff.mp (getLast?_stringTail hrest hclosed)
    have hcases : c = '"' ∨ c = '\'' := by simpa using quote
    rw [Lexeme.ofStretch]
    simp only [hfront]
    rw [← List.append_assoc]
    rcases hcases with rfl | rfl <;>
      exact .inl (endsInEscape_concat (by decide) (by decide))
  | number => exact (numericLexeme_ends _).imp_left hfree
  | hash | atKeyword => exact .inr ⟨rfl, _, cs, rfl, rfl, by simp⟩
  | cdo | cdc => exact .inl (hfree (by simp [Lexeme.verbatim]))
  | name => exact nameLexeme_ends hrest
  | punctuation =>
    refine .inl (hfree fun hmem => hslash ?_)
    rw [Lexeme.verbatim] at hmem ⊢
    rw [List.mem_singleton.mp hmem]

/-- What starts with a name takes it. -/
theorem name_taken_leads (cs : List Char) : (name cs).taken <+: (nameLexeme cs).taken := by
  have hx := isNameLexeme_nameLexeme cs
  generalize nameLexeme cs = x at hx ⊢
  cases hx with
  | function => exact List.prefix_append _ _
  | url =>
    rw [urlLexeme_taken]
    exact List.prefix_append _ _
  | ident => exact List.prefix_refl _

/-- A backslash by itself is no part of a name. -/
theorem IsLexeme.eq_slash (hx : IsLexeme c cs x) (h : x.taken = ['\\']) :
    x = .verbatim .delim ['\\'] cs := by
  have happend := hx.append
  rw [h] at happend
  obtain ⟨rfl, hrest⟩ := List.cons.inj happend
  cases hx with
  | blank blank => cases blank
  | string quote => cases quote
  | number _ _ _ number => cases number
  | name bare ident =>
    have hstart : startsEscape ('\\' :: cs) = true := by
      have hpart := startsNamePart_of_startsIdent ident
      rwa [startsNamePart, show isNameChar '\\' = false by decide, Bool.false_or] at hpart
    have hshort := (name_taken_leads ('\\' :: cs)).length_le
    have hescape := List.length_pos_iff.mpr (escape_taken_ne_nil (startsEscape_cons hstart).2)
    rw [h, CssWorkbench.name, if_neg (by decide), if_pos hstart, Stretch.after_taken] at hshort
    simp only [List.length_append, List.length_cons, List.length_nil] at hshort
    omega
  | punctuation => rfl

/-- What is alike behind a token is alike in front of it. -/
theorem IsLexeme.alike_before (hx : IsLexeme c cs x) (hrest : x.rest ≠ [])
    (hbroken : x.kind ≠ .badString) (hslash : x.taken ≠ ['\\']) (h : Alike n x.rest ds) :
    Alike n (x.taken ++ x.rest) (x.taken ++ ds) := by
  rcases hx.ends hrest hbroken hslash with hclosed | ⟨-, front, text, htaken, htext, hfront⟩
  · refine h.append fun hlast => ?_
    rw [endsInEscape_of_getLast? hlast] at hclosed
    cases hclosed
  · rw [htext] at h ⊢
    rw [htaken, List.append_assoc, List.append_assoc, CssWorkbench.name_append]
    exact (name_alike h).append fun hlast => absurd (List.mem_of_getLast? hlast) hfront

end CssWorkbench
