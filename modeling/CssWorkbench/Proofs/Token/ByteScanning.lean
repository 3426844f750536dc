import CssWorkbench.Proofs.Token.ByteReaders
import CssWorkbench.Proofs.Token.LexemeCases

/-!
# The scan over bytes and the scan over characters

The tokens that the scanner of bytes finds from a place on are those of the text that stands there.
So the scan over the bytes of a source ends, cuts no character and never looks out of range, and its
tokens are those of `scan`.
-/

namespace CssWorkbench

open Text (byteLength)

namespace ByteScanner

variable {source rest part cs : List Char} {c : Char} {pos : Nat}

namespace At

/-- A lexeme that stands at a place is its token. -/
theorem verbatim?_eq (h : At source pos (part ++ rest)) (kind : TokenKind) :
    verbatim? source kind pos (pos + byteLength part) =
      some ((Lexeme.verbatim kind part rest).token pos) := by
  rw [verbatim?, h.slice?_eq]
  rfl

/-- The digits of a number end where they do in the text. -/
theorem numberEnd_eq (h : At source pos rest) :
    numberEnd source pos = pos + byteLength (splitUnsigned rest).1 := by
  have hwhole : At source (pos + byteLength (rest.takeWhile Char.isDigit))
      (rest.dropWhile Char.isDigit) := append (by rwa [List.takeWhile_append_dropWhile])
  rw [numberEnd, h.skip_eq tells_isDigitByte]
  by_cases hpoint : ∃ d ds, rest.dropWhile Char.isDigit = '.' :: d :: ds ∧ d.isDigit = true
  · obtain ⟨d, ds, hdrop, hd⟩ := hpoint
    rw [splitUnsigned_point hdrop hd]
    rw [hdrop] at hwhole
    have hdigits := hwhole.next (by decide)
    rw [hwhole.isAt_eq (by decide), hdigits.classAt_eq tells_isDigitByte,
      hdigits.skip_eq tells_isDigitByte]
    simp [hd, Text.utf8Size_of_lt (c := '.') (by decide), Nat.add_assoc]
  · have hnot : ∀ d ds, rest.dropWhile Char.isDigit = '.' :: d :: ds → d.isDigit = false :=
      fun d ds hdrop => Bool.eq_false_iff.mpr fun hd => hpoint ⟨d, ds, hdrop, hd⟩
    rw [splitUnsigned_whole hnot, if_neg]
    rw [hwhole.isAt_eq (by decide)]
    generalize rest.dropWhile Char.isDigit = behind at hwhole hnot
    intro hstop
    obtain ⟨hdot, hdigit⟩ := Bool.and_eq_true_iff.mp hstop
    cases behind with
    | nil => cases hdot
    | cons c cs =>
      obtain rfl : c = '.' := of_decide_eq_true hdot
      rw [(hwhole.next (by decide)).classAt_eq tells_isDigitByte] at hdigit
      cases cs with
      | nil => cases hdigit
      | cons d ds => exact absurd hdigit (Bool.eq_false_iff.mp (hnot d ds rfl))

/-- The text of a number ends at the same place, with its sign. -/
theorem numberEnd_sign (h : At source pos rest) :
    numberEnd source (if isAt source pos '+' || isAt source pos '-' then pos + 1 else pos) =
      pos + byteLength (splitNumber rest).1 := by
  rw [h.isAt_eq (by decide), h.isAt_eq (by decide)]
  cases rest with
  | nil => exact h.numberEnd_eq
  | cons c cs =>
    by_cases hc : c = '+' ∨ c = '-'
    · have hascii : c.toNat < 0x80 := by rcases hc with rfl | rfl <;> decide
      simp [hc, splitNumber, (h.next hascii).numberEnd_eq, Text.utf8Size_of_lt hascii,
        Nat.add_assoc]
    · simp [hc, splitNumber, h.numberEnd_eq]

/-- A number is the same token. -/
theorem numeric?_eq (h : At source pos rest) :
    numeric? source pos = some ((numericLexeme rest).token pos) := by
  have hsplit : At source pos ((splitNumber rest).1 ++ (splitNumber rest).2) := by
    rwa [splitNumber_append]
  have hbehind := hsplit.append
  have hpercentAt := hbehind.isAt_iff (d := '%') (by decide)
  rw [numeric?, h.numberEnd_sign]
  simp only [Option.bind_eq_bind]
  by_cases hpercent : (splitNumber rest).2.head? = some '%'
  · obtain ⟨behind, hrest⟩ := List.head?_eq_some_iff.mp hpercent
    rw [if_pos (hpercentAt.mpr hpercent), hsplit.slice?_eq, numericLexeme_percentage hrest]
    simp [Lexeme.token, Text.utf8Size_of_lt (c := '%') (by decide), Nat.add_assoc]
  · rw [if_neg (mt hpercentAt.mp hpercent), hbehind.startsIdentAt_eq]
    cases hident : startsIdent (splitNumber rest).2 with
    | true =>
      rw [hbehind.name?_eq_reading, hsplit.slice?_eq, numericLexeme_dimension hpercent hident]
      simp [Reading.token, Reading.after, Lexeme.token, Nat.add_assoc]
    | false =>
      rw [numericLexeme_number hpercent hident]
      exact hsplit.verbatim?_eq .number

/-- The quote in front of the body of a url. -/
theorem quotedNext_iff (h : At source pos (rest.dropWhile Text.isAsciiBlank)) :
    (isAt source pos '"' || isAt source pos '\'') = quotedNext rest := by
  rw [h.isAt_eq (by decide), h.isAt_eq (by decide), quotedNext]
  cases rest.dropWhile Text.isAsciiBlank <;> rfl

/-- A url is the same token, well-formed or not. -/
theorem url?_token {front behind : List Char} (h : At source pos (front ++ '(' :: behind)) :
    ((url? source (pos + byteLength front + 1 +
        byteLength (behind.takeWhile Text.isAsciiBlank))).bind fun url =>
      if url.malformed then verbatim? source .badUrl pos url.stop
      else some (url.token .url pos)) = some ((urlLexeme front behind).token pos) := by
  have hblanks := List.takeWhile_append_dropWhile (p := Text.isAsciiBlank) (l := behind)
  have hbody : At source
      (pos + byteLength front + 1 + byteLength (behind.takeWhile Text.isAsciiBlank))
      (behind.dropWhile Text.isAsciiBlank) :=
    append (by rw [hblanks]; exact h.append.next (by decide))
  have happend := urlTail_append (behind.dropWhile Text.isAsciiBlank)
  rw [hbody.url?_eq, urlLexeme]
  generalize behind.takeWhile Text.isAsciiBlank = blanks at *
  generalize urlTail (behind.dropWhile Text.isAsciiBlank) = url at *
  have hsize : byteLength (front ++ '(' :: blanks ++ url.taken) =
      byteLength front + 1 + byteLength blanks + byteLength url.taken := by
    simp [Text.utf8Size_of_lt (c := '(') (by decide)]
    omega
  have htaken : At source pos ((front ++ '(' :: blanks ++ url.taken) ++ url.rest) := by
    simpa [happend, hblanks] using h
  have hstop : (url.reading (pos + byteLength front + 1 + byteLength blanks)).stop =
      pos + byteLength (front ++ '(' :: blanks ++ url.taken) := by
    rw [hsize, reading_stop]
    omega
  simp only [Option.bind_some]
  by_cases hwell : (url.reading (pos + byteLength front + 1 + byteLength blanks)).malformed = true
  · rw [if_pos hwell, if_pos (show url.malformed = true from hwell), hstop]
    exact htaken.verbatim?_eq .badUrl
  · rw [if_neg hwell, if_neg (show ¬url.malformed = true from hwell), Reading.token, hstop]
    rfl

/-- A name is the same token. -/
theorem identLike?_eq (h : At source pos rest) :
    identLike? source pos = some ((nameLexeme rest).token pos) := by
  have hsplit : At source pos ((name rest).taken ++ (name rest).rest) := by rwa [name_append]
  have hopenAt : isAt source ((name rest).reading pos).stop '(' = true ↔
      (name rest).rest.head? = some '(' := hsplit.append.isAt_iff (by decide)
  rw [identLike?, h.name?_eq_reading]
  simp only [Option.bind_eq_bind, Option.bind_some]
  by_cases hopen : (name rest).rest.head? = some '('
  · obtain ⟨behind, hrest⟩ := List.head?_eq_some_iff.mp hopen
    rw [hrest] at hsplit
    have hbehind := hsplit.append.next (by decide)
    have hblanks : At source (pos + byteLength (name rest).taken + 1 +
        byteLength (behind.takeWhile Text.isAsciiBlank)) (behind.dropWhile Text.isAsciiBlank) :=
      append (by rwa [List.takeWhile_append_dropWhile])
    have hopened : (nameLexeme rest = ⟨.function, (name rest).taken ++ ['('], (name rest).value,
        behind⟩) → (⟨(name rest).value, pos + byteLength (name rest).taken + 1, false⟩ :
          Reading).token .function pos = (nameLexeme rest).token pos := by
      intro heq
      rw [heq]
      simp [Reading.token, Lexeme.token, Text.utf8Size_of_lt (c := '(') (by decide), Nat.add_assoc]
    rw [if_pos (hopenAt.mpr hopen)]
    by_cases hurl : ((name rest).reading pos).value.map Char.toLower = ['u', 'r', 'l']
    · rw [if_pos hurl, reading_stop, hbehind.skip_eq tells_isBlankByte]
      have hquote := quotedNext_iff hblanks
      cases hquoted : quotedNext behind with
      | true =>
        rw [if_pos (hquote.trans hquoted)]
        exact congrArg some (hopened (nameLexeme_function hrest fun _ => hquoted))
      | false =>
        rw [if_neg (Bool.eq_false_iff.mp (hquote.trans hquoted)), nameLexeme_url hrest hurl hquoted]
        exact hsplit.url?_token
    · rw [if_neg hurl]
      exact congrArg some (hopened (nameLexeme_function hrest fun h => absurd h hurl))
  · rw [if_neg (mt hopenAt.mp hopen), nameLexeme_ident hopen]
    rfl

/-- A stretch behind an ASCII character makes the same token with it. -/
theorem token_ofStretch (hc : c.toNat < 0x80) (s : Stretch) (kind : TokenKind) (pos : Nat) :
    (s.reading (pos + 1)).token kind pos = (Lexeme.ofStretch kind [c] s).token pos := by
  simp [Reading.token, Lexeme.token, Lexeme.ofStretch, Text.utf8Size_of_lt hc, Nat.add_assoc]

/-- Every character outside ASCII starts an identifier. -/
theorem lt_of_not_startsIdent (h : ¬startsIdent (c :: cs) = true) : c.toNat < 0x80 := by
  by_contra hc
  have hstart : isNameStart c = true := by
    simp [isNameStart, Nat.le_of_not_lt hc]
  have hdash : c ≠ '-' := by
    rintro rfl
    exact hc (by decide)
  exact h (by rw [startsIdent_of_ne hdash, hstart, Bool.true_or])

/-- The token at a place is the one of the text there. -/
theorem token?_eq (h : At source pos (c :: cs)) :
    token? source pos = some ((lexeme c cs).token pos) := by
  obtain ⟨b, hbyte, hb, -⟩ := h.exists_byte
  -- what is tested in turn, as the scanner over characters tests it
  have hblank := tells_isBlankByte c b hb
  have hcomment := @startsWith?_eq _ _ _ h ['/', '*'] (by decide)
  have hquote : (b = '"'.toUInt8 || b = '\''.toUInt8) = (c = '"' || c = '\'') :=
    (Tells.eq (by decide)).or (.eq (by decide)) c b hb
  have hhash : (b = '#'.toUInt8 && startsNamePartAt source (pos + 1)) =
      (c = '#' && startsNamePart cs) :=
    h.eq_and_next (by decide) hb fun hnext => hnext.startsNamePartAt_eq
  have hat : (b = '@'.toUInt8 && startsIdentAt source (pos + 1)) =
      (c = '@' && startsIdent cs) :=
    h.eq_and_next (by decide) hb fun hnext => hnext.startsIdentAt_eq
  have hcdo := @startsWith?_eq _ _ _ h ['<', '!', '-', '-'] (by decide)
  have hcdc := @startsWith?_eq _ _ _ h ['-', '-', '>'] (by decide)
  rw [token?, hbyte]
  simp only [hblank, hcomment, hquote, h.startsNumberAt_eq, hhash, hat, hcdo, hcdc,
    h.startsIdentAt_eq, Option.bind_eq_bind, Option.bind_some]
  obtain ⟨x, hx⟩ := exists_isLexeme c cs
  rw [hx.lexeme_eq]
  cases hx with
  | blank blank =>
    rw [if_pos blank, h.skip_eq tells_isBlankByte]
    exact verbatim?_eq (by rwa [List.takeWhile_append_dropWhile]) .whitespace
  | comment =>
    have hbody := (h.next (by decide)).next (by decide)
    have hread := comment?_eq (show At source (pos + 2) ([] ++ _) from hbody)
    rw [if_neg (by decide), if_pos (by simp [List.isPrefixOf])]
    simp only [Text.byteLength_nil, Nat.add_zero, after_nil] at hread
    rw [hread]
    simp [Reading.token, Lexeme.token, Text.utf8Size_of_lt (c := '/') (by decide),
      Text.utf8Size_of_lt (c := '*') (by decide)]
    omega
  | string quote =>
    have hcases : c = '"' ∨ c = '\'' := by simpa using quote
    have hascii : c.toNat < 0x80 := by rcases hcases with rfl | rfl <;> decide
    rw [if_neg (by rcases hcases with rfl | rfl <;> decide),
      if_neg (by rcases hcases with rfl | rfl <;> simp [List.isPrefixOf]), if_pos quote,
      (Text.eq_toUInt8_iff hascii hb).mpr rfl, (h.next hascii).string?_eq hascii]
    exact congrArg some (token_ofStretch hascii ..)
  | number notBlank notComment notQuote number =>
    rw [if_neg notBlank, if_neg notComment, if_neg notQuote, if_pos number]
    exact h.numeric?_eq
  | hash plain part =>
    rw [if_neg plain.notBlank, if_neg plain.notComment, if_neg plain.notQuote,
      if_neg plain.notNumber, if_pos (by simp [part]), (h.next (by decide)).name?_eq_reading]
    exact congrArg some (token_ofStretch (by decide) ..)
  | atKeyword plain ident =>
    rw [if_neg plain.notBlank, if_neg plain.notComment, if_neg plain.notQuote,
      if_neg plain.notNumber, if_neg (by simp), if_pos (by simp [ident]),
      (h.next (by decide)).name?_eq_reading]
    exact congrArg some (token_ofStretch (by decide) ..)
  | cdo =>
    simp [Text.isAsciiBlank, List.isPrefixOf, startsNumber, startsUnsigned]
    rfl
  | cdc =>
    simp [Text.isAsciiBlank, List.isPrefixOf, startsNumber, startsUnsigned]
    rfl
  | name bare ident =>
    rw [if_neg bare.notBlank, if_neg bare.notComment, if_neg bare.notQuote,
      if_neg bare.notNumber, if_neg bare.notHash, if_neg bare.notAt, if_neg bare.notOpen,
      if_neg bare.notClose, if_pos ident]
    exact h.identLike?_eq
  | punctuation bare notIdent =>
    rw [if_neg bare.notBlank, if_neg bare.notComment, if_neg bare.notQuote,
      if_neg bare.notNumber, if_neg bare.notHash, if_neg bare.notAt, if_neg bare.notOpen,
      if_neg bare.notClose, if_neg notIdent]
    have hascii : c.toNat < 0x80 := lt_of_not_startsIdent notIdent
    obtain rfl := (Text.eq_toUInt8_iff hascii hb).mpr rfl
    have hchar : Char.ofNat c.toUInt8.toNat = c := by
      rw [show c.toUInt8 = UInt8.ofNat c.toNat from rfl, UInt8.toNat_ofNat',
        Nat.mod_eq_of_lt (by omega), Char.ofNat_toNat]
    have hverbatim := verbatim?_eq (show At source pos ([c] ++ cs) from h) (punctuationKind c)
    rw [hchar]
    simpa [Text.utf8Size_of_lt hascii] using hverbatim

/-- From a place on the tokens are those of the text there. -/
theorem tokensFrom?_eq (h : At source pos rest) :
    tokensFrom? source pos = some (scanFrom pos rest) := by
  induction pos, rest using scanFrom.induct with
  | case1 pos =>
    rw [tokensFrom?, token?, h.byte?_nil, scanFrom]
    rfl
  | case2 pos c cs ih =>
    have hkind : ((lexeme c cs).token pos).kind ≠ .eof := lexeme_kind_ne_eof c cs
    have hstop : pos < ((lexeme c cs).token pos).stop :=
      Nat.lt_add_of_pos_right (byteLength_taken_pos c cs)
    have hrest : tokensFrom? source ((lexeme c cs).token pos).stop = _ :=
      ih (append (by rwa [lexeme_append]))
    rw [tokensFrom?, h.token?_eq, scanFrom]
    dsimp only
    rw [dif_neg hkind, dif_pos hstop, hrest]
    rfl

end At

end ByteScanner

/-- The scan over the bytes of a source finds the tokens of the scan over its characters. -/
theorem scanBytes?_eq (source : String) : scanBytes? source = some (scan source) :=
  (ByteScanner.at_zero source.toList).tokensFrom?_eq

/-- Over the bytes of a source the scan comes to its end, with every byte it looks at in range and
every slice it takes between characters, and the tokens that it finds cover the source. -/
theorem scan_covers (source : String) :
    scanBytes? source = some (scan source) ∧ Covers source (scan source) :=
  ⟨scanBytes?_eq source, covers_scan source⟩

end CssWorkbench
