import CssWorkbench.Proofs.Token.LexemeCases
import CssWorkbench.Proofs.Token.NameSequel

/-!
# Words

A word is an identifier that is written without an escape. In front of a parenthesis it opens a
function, and in front of anything that cannot go on with it, it is an identifier; the word is the
value of the token either way. The name of a custom property is a word even if nothing stands
behind its two dashes, as long as no `>` follows, which would make it the end of a comment bracket.
-/

namespace CssWorkbench

variable {c : Char} {cs word ds : List Char}

/-- Characters that spell an identifier, no escape among them. -/
structure IsWord (word : List Char) : Prop where
  ident : startsIdent word = true
  plain : word.all isNameChar = true

/-- The name of a custom property, written without an escape. -/
theorem isWord_custom {bare : List Char} (h : bare.all isNameChar = true) :
    IsWord ('-' :: '-' :: bare) :=
  ⟨by simp [startsIdent], by simpa [isNameChar] using h⟩

/-- What cannot open a name is not the character that does. -/
theorem ne_of_isNameStart {d : Char} (h : isNameStart c = true) (hd : isNameStart d = false) :
    c ≠ d := by
  rintro rfl
  rw [h] at hd
  cases hd

/-- No digit opens a name. -/
theorem isDigit_of_isNameStart (h : isNameStart c = true) : c.isDigit = false := by
  refine Bool.eq_false_iff.mpr fun hdigit => ?_
  have hlow : c.toNat ≤ 57 ∧ 48 ≤ c.toNat := by
    simp only [Char.isDigit, Bool.and_eq_true, decide_eq_true_eq, UInt32.le_iff_toNat_le] at hdigit
    exact ⟨hdigit.2, hdigit.1⟩
  delta isNameStart Char.isAlpha Char.isUpper Char.isLower at h
  simp only [Bool.or_eq_true, Bool.and_eq_true, decide_eq_true_eq, UInt32.le_iff_toNat_le] at h
  have hnum (n : Nat) (hle : n ≤ c.val.toNat) : n ≤ c.toNat := hle
  rcases h with ((h | h) | rfl) | h
  · have := hnum 65 h.1
    omega
  · have := hnum 97 h.1
    omega
  · exact absurd hlow.1 (by decide)
  · omega

/-- In front of a character that opens a name the scanner finds nothing but a name. -/
theorem bareStart_of_isNameStart (h : isNameStart c = true) (cs : List Char) : BareStart c cs := by
  have hne := fun {d} => @ne_of_isNameStart c d h
  have hblank : ¬ Text.isAsciiBlank c = true := by
    simp only [Text.isAsciiBlank, Bool.or_eq_true, decide_eq_true_eq, not_or]
    exact ⟨⟨⟨⟨hne rfl, hne rfl⟩, hne rfl⟩, hne rfl⟩, hne rfl⟩
  have hnumber : ¬ startsNumber (c :: cs) = true := by
    rw [startsNumber, if_neg (by simp [@hne '+' rfl, @hne '-' rfl]),
      startsUnsigned_of_ne (hne rfl), isDigit_of_isNameStart h]
    decide
  refine ⟨⟨hblank, ?_, ?_, hnumber⟩, ?_, ?_, ?_, ?_⟩
  · simp [List.isPrefixOf, (@hne '/' rfl).symm]
  · simp [@hne '"' rfl, @hne '\'' rfl]
  · simp [@hne '#' rfl]
  · simp [@hne '@' rfl]
  · simp [List.isPrefixOf, (@hne '<' rfl).symm]
  · simp [List.isPrefixOf, (@hne '-' rfl).symm]

/-- A word starts with a character that opens a name, or with a dash in front of one or of another
dash. -/
theorem IsWord.start (h : IsWord (c :: cs)) :
    isNameStart c = true ∨
      c = '-' ∧ ∃ d rest, cs = d :: rest ∧ (d = '-' ∨ isNameStart d = true) := by
  obtain ⟨hident, hplain⟩ := h
  have hslash (d : Char) (hd : isNameChar d = true) : d ≠ '\\' := by
    rintro rfl
    cases hd
  rw [List.all_cons, Bool.and_eq_true] at hplain
  by_cases hdash : c = '-'
  · subst hdash
    cases cs with
    | nil => cases hident
    | cons d rest =>
      have hd : isNameChar d = true := by simpa using (List.all_eq_true.mp hplain.2) d
      rw [startsIdent_dash, startsEscape_of_ne (hslash d hd)] at hident
      exact .inr ⟨rfl, d, rest, rfl, by simpa using hident⟩
  · rw [startsIdent_of_ne hdash, startsEscape_of_ne (hslash c hplain.1)] at hident
    exact .inl (by simpa using hident)

/-- In front of a word the scanner finds nothing but a name, the end of a comment bracket apart. -/
theorem IsWord.bareStart (h : IsWord (c :: cs))
    (hclose : ¬ ['-', '-', '>'].isPrefixOf (c :: cs ++ ds) = true) : BareStart c (cs ++ ds) := by
  obtain hstart | ⟨rfl, d, rest, rfl, hd⟩ := h.start
  · exact bareStart_of_isNameStart hstart _
  · have hnumber : startsUnsigned (d :: rest ++ ds) = false := by
      obtain rfl | hd := hd
      · simp [startsUnsigned]
      · rw [List.cons_append, startsUnsigned_of_ne (ne_of_isNameStart hd rfl),
          isDigit_of_isNameStart hd]
    refine ⟨⟨by decide, by simp [List.isPrefixOf], by decide, ?_⟩, by simp, by simp,
      by simp [List.isPrefixOf], hclose⟩
    rw [startsNumber, if_pos (by decide), hnumber]
    decide

/-- What is written behind a word does not keep it from starting an identifier. -/
theorem IsWord.startsIdent_append (h : IsWord word) (ds : List Char) :
    startsIdent (word ++ ds) = true := by
  cases word with
  | nil => cases h.ident
  | cons c cs =>
    obtain hstart | ⟨rfl, d, rest, rfl, hd⟩ := h.start
    · rw [List.cons_append, startsIdent_of_ne (ne_of_isNameStart hstart rfl), hstart, Bool.true_or]
    · rw [List.cons_append, List.cons_append, startsIdent_dash]
      obtain rfl | hd := hd
      · rfl
      · rw [hd, Bool.or_true, Bool.true_or]

/-- A word is an identifier in front of what neither goes on with it nor opens a parenthesis. -/
theorem IsWord.isLexeme_ident (h : IsWord (c :: cs)) (hstop : startsNamePart ds = false)
    (hopen : ds.head? ≠ some '(') (hclose : ¬ ['-', '-', '>'].isPrefixOf (c :: cs ++ ds) = true) :
    IsLexeme c (cs ++ ds) ⟨.ident, c :: cs, c :: cs, ds⟩ := by
  have hread := name_append_of_all h.plain hstop
  have hx := IsLexeme.name (h.bareStart hclose) (h.startsIdent_append ds)
  rw [← List.cons_append, nameLexeme_ident (by rwa [hread]), hread] at hx
  exact hx

/-- Only a word of two dashes can be part of the end of a comment bracket. -/
theorem IsWord.not_close (h : IsWord word) (hnext : word = ['-', '-'] → ds.head? ≠ some '>') :
    ¬ ['-', '-', '>'].isPrefixOf (word ++ ds) = true := by
  cases word with
  | nil => cases h.ident
  | cons c cs =>
    obtain hstart | ⟨rfl, d, rest, rfl, hd⟩ := h.start
    · simp [List.isPrefixOf, (ne_of_isNameStart hstart (d := '-') rfl).symm]
    · cases rest with
      | nil =>
        cases ds with
        | nil => simp [List.isPrefixOf]
        | cons e ds =>
          have hclose : '-' = d → '>' ≠ e := fun hdash heq =>
            hnext (by rw [← hdash]) (by rw [← heq]; rfl)
          simpa [List.isPrefixOf] using hclose
      | cons e rest =>
        have he : '>' ≠ e := by
          rintro rfl
          exact absurd (List.all_eq_true.mp h.plain '>' (by simp)) (by decide)
        simp [List.isPrefixOf, he]

/-- A word is an identifier in front of an inert character. -/
theorem IsWord.isLexeme_inert {b : Char} (h : IsWord (c :: cs)) (hb : isInert b = true)
    (ds : List Char) : IsLexeme c (cs ++ b :: ds) ⟨.ident, c :: cs, c :: cs, b :: ds⟩ := by
  obtain ⟨hslash, -, -, -, hopen, -, -, -, hclose, -⟩ := ne_of_isInert hb
  have hstop : startsNamePart (b :: ds) = false := by
    rw [startsNamePart, isNameChar_of_isInert hb, startsEscape_of_ne hslash]
    rfl
  exact h.isLexeme_ident hstop (by simpa using hopen) (h.not_close fun _ => by simpa using hclose)

/-- A word opens a function in front of a parenthesis, unless it may be the opening of an url. -/
theorem IsWord.isLexeme_function (h : IsWord (c :: cs)) (hurl : ¬ spellsUrl (c :: cs)) :
    IsLexeme c (cs ++ '(' :: ds) ⟨.function, c :: cs ++ ['('], c :: cs, ds⟩ := by
  have hstop : startsNamePart ('(' :: ds) = false := by
    rw [startsNamePart, startsEscape_of_ne (by decide)]
    decide
  have hread := name_append_of_all h.plain hstop
  have hx := IsLexeme.name (h.bareStart (h.not_close (by simp)))
    (h.startsIdent_append ('(' :: ds))
  have hlexeme := @nameLexeme_function (c :: cs ++ '(' :: ds) ds (by rw [hread])
    fun hvalue => absurd (by rwa [hread] at hvalue) hurl
  rw [← List.cons_append, hlexeme, hread] at hx
  exact hx

end CssWorkbench
