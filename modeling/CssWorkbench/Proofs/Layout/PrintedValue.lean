import CssWorkbench.Proofs.Layout.BareReading
import CssWorkbench.Proofs.Layout.PrintedCompound
import CssWorkbench.Proofs.Token.Words

/-!
# Printing names and values

A name is printed as it stands in the source, and the tokens of a value as one run, perhaps with an
`!important` behind them, which is scanned into a mark and a word.
-/

namespace CssWorkbench

variable {source : String} {t : Token} {run rest : List Token} {cs ds blanks : List Char}

/-- Tokens that were printed of a run say what the run says, and they start with no blank. -/
theorem bareTokens_of_spaced {printed : List Token} (h : printed.map Token.bare = spaced false run) :
    bareTokens printed = bareTokens run ∧ ((∀ t ∈ run.head?, t.kind ≠ .whitespace) →
      ∀ u ∈ printed.head?, u.kind ≠ .whitespace) := by
  refine ⟨by rw [← bareTokens_map_bare, h, bareTokens_spaced], fun hfirst u hu => ?_⟩
  obtain ⟨printed, rfl⟩ := List.head?_eq_some_iff.mp hu
  cases run with
  | nil => cases h
  | cons t run =>
    have hkind := hfirst t rfl
    rw [spaced, if_neg (by simpa [Token.is] using hkind)] at h
    rw [kind_eq_of_bare (List.cons.inj h).1]
    exact hkind

/-- No lexeme of a plain source holds a backslash. -/
theorem Plain.noSlash_taken {x : Lexeme} {ts : List Token} (h : Plain source)
    (htail : TailOf source ts cs) (happend : x.taken ++ x.rest = cs) : '\\' ∉ x.taken := fun hmem =>
  h.noSlash (htail.mem_source (happend ▸ List.mem_append_left _ hmem))

/-- An identifier without escapes is printed as it stands in the source. -/
theorem text_eq_value_of_ident (hplain : Plain source) (htail : TailOf source (t :: rest) cs)
    (hkind : t.kind = .ident) : (t.text source).toList = t.value.toList := by
  obtain ⟨c, front, x, rfl, hx, hread, -⟩ := htail.cons
  have hslash := hplain.noSlash_taken htail hx.append
  rw [hread.kind] at hkind
  obtain rfl := hx.eq_nameLexeme (by rw [hkind]; rfl)
  rw [hread.text, hread.value, String.toList_ofList]
  rw [(nameLexeme_of_ident hkind).1] at hslash ⊢
  exact (name_value_eq_taken hslash).symm

/-- A keyword without escapes is printed as an at sign and its name. -/
theorem text_eq_value_of_atKeyword (hplain : Plain source) (htail : TailOf source (t :: rest) cs)
    (hkind : t.kind = .atKeyword) : (t.text source).toList = '@' :: t.value.toList := by
  obtain ⟨c, front, x, rfl, hx, hread, -⟩ := htail.cons
  have hslash := hplain.noSlash_taken htail hx.append
  obtain ⟨rfl, rfl⟩ := hx.eq_atKeyword (hread.kind.symm.trans hkind)
  have hname : '\\' ∉ (name front).taken := fun hmem => hslash (List.mem_cons_of_mem _ hmem)
  rw [hread.text, hread.value, String.toList_ofList]
  exact congrArg ('@' :: ·) (name_value_eq_taken hname).symm

/-- The word of an `!important` is an identifier in front of a semicolon. -/
theorem isLexeme_important (ds : List Char) :
    IsLexeme 'i' ("mportant".toList ++ ';' :: ds)
      ⟨.ident, "important".toList, "important".toList, ';' :: ds⟩ := by
  have hstop : startsNamePart (';' :: ds) = false := by
    simp [startsNamePart, isNameChar, isNameStart, startsEscape]
  have hword : IsWord "important".toList := ⟨by decide, by decide⟩
  exact hword.isLexeme_ident hstop (by simp) (hword.not_close fun heq => by cases heq)

/-- The mark of an `!important` is a token in front of the word. -/
theorem isLexeme_mark (cs : List Char) : IsLexeme '!' cs (.verbatim .delim ['!'] cs) :=
  .punctuation ⟨⟨by decide, by simp [List.isPrefixOf], by decide,
    by simp [startsNumber, startsUnsigned]⟩, by simp, by simp, by simp [List.isPrefixOf],
    by simp [List.isPrefixOf]⟩ (by simp [startsIdent, isNameStart, startsEscape])

/-- A mark and a word are scanned of `!important` in front of a semicolon. -/
theorem tokensFrom_important (hblanks : ∀ c ∈ blanks, Text.isAsciiBlank c = true) (ds : List Char)
    (offset : Nat) :
    ∃ gap important offset', tokensFrom offset (blanks ++ ("!important".toList ++ ';' :: ds)) =
        gap ++ (important ++ tokensFrom offset' (';' :: ds)) ∧
      (∀ u ∈ gap, u.kind = .whitespace) ∧ important.map Token.bare = importantTokens := by
  obtain ⟨gap, middle, hscan, hgap, -⟩ := @tokensFrom_blanks
    ("!important".toList ++ ';' :: ds) blanks hblanks rfl offset
  obtain ⟨mark, middle', hscanMark, hmark⟩ :=
    tokensFrom_lexeme (isLexeme_mark ("important".toList ++ ';' :: ds)) middle
  obtain ⟨word, offset', hscanWord, hword⟩ := tokensFrom_lexeme (isLexeme_important ds) middle'
  refine ⟨gap, [mark, word], offset', ?_, hgap, ?_⟩
  · rw [hscan]
    exact congrArg _ (hscanMark.trans (congrArg _ hscanWord))
  · rw [List.map_cons, List.map_singleton, hmark, hword]
    rfl

/-- The characters of a value with its `!important`. -/
def valueText (source : String) (tokens : List Token) (important : Bool) : List Char :=
  let value := joinTokens source tokens
  value.toList ++
    if important then (if value = "" then [] else [' ']) ++ "!important".toList else []

end CssWorkbench
