import CssWorkbench.Proofs.Token.KindCases
import CssWorkbench.Proofs.Token.Tail

/-!
# Strings and urls that are written without escapes

The value of a string without escapes is what stands between its quotes, and the value of an unquoted
url is what stands between its parentheses, the blanks at both ends aside. The quote or parenthesis
that closes them may be missing at the end of the source. Trimming takes blanks off both ends of
a text, of which there are more than a stylesheet knows.
-/

namespace CssWorkbench

variable {c quote : Char} {cs ds front behind : List Char}

/-! ## Trimming -/

namespace Text

/-- What is left of a text without the blanks at its front, with blanks behind it. -/
theorem dropEndWhile_append (p : Char → Bool) (cs : List Char) :
    ∃ gap, cs = dropEndWhile p cs ++ gap ∧ ∀ c ∈ gap, p c = true := by
  refine ⟨(cs.reverse.takeWhile p).reverse, ?_, fun c hc => ?_⟩
  · rw [dropEndWhile, ← List.reverse_append, List.takeWhile_append_dropWhile, List.reverse_reverse]
  · exact List.all_eq_true.mp List.all_takeWhile c (List.mem_reverse.mp hc)

/-- A text is the blanks at its front, what is left of it, and the blanks at its end. -/
theorem trim_append (cs : List Char) :
    ∃ gap, cs = cs.takeWhile isBlank ++ (trim cs ++ gap) ∧ ∀ c ∈ gap, isBlank c = true := by
  obtain ⟨gap, hgap, hblank⟩ := dropEndWhile_append isBlank (trimStart cs)
  refine ⟨gap, ?_, hblank⟩
  rw [trim, ← hgap, trimStart, List.takeWhile_append_dropWhile]

/-- Blanks at both ends do not change what is left. -/
theorem trim_blanks (hfront : ∀ c ∈ front, isBlank c = true)
    (hbehind : ∀ c ∈ behind, isBlank c = true) (cs : List Char) :
    trim (front ++ (cs ++ behind)) = trim cs := by
  have hnone : behind.dropWhile isBlank = [] := List.dropWhile_eq_nil_iff.mpr hbehind
  rw [trim, trimStart, List.dropWhile_append_of_pos hfront, List.dropWhile_append, trim, trimStart]
  split
  · rename_i hempty
    rw [hnone, List.isEmpty_iff.mp hempty]
  · rw [dropEndWhile, List.reverse_append, List.dropWhile_append_of_pos fun c hc =>
      hbehind c (List.mem_reverse.mp hc), dropEndWhile]

/-- What was trimmed has nothing to trim. -/
theorem trim_trim (cs : List Char) : trim (trim cs) = trim cs := by
  obtain ⟨gap, hcs, hgap⟩ := trim_append cs
  have hlead : ∀ c ∈ cs.takeWhile isBlank, isBlank c = true := fun c hc =>
    List.all_eq_true.mp List.all_takeWhile c hc
  have htrim := congrArg trim hcs
  rw [trim_blanks hlead hgap] at htrim
  exact htrim.symm

end Text

/-! ## Stretches without escapes -/

/-- A string without escapes is its value, with the quote that may close it. -/
theorem stringTail_of_noSlash (h : '\\' ∉ (stringTail quote cs).taken)
    (hwell : (stringTail quote cs).malformed = false) :
    quote ∉ (stringTail quote cs).value ∧ ∃ close, (close = [] ∨ close = [quote]) ∧
      (stringTail quote cs).taken = (stringTail quote cs).value ++ close := by
  fun_induction stringTail quote cs with
  | case1 => exact ⟨List.not_mem_nil, [], .inl rfl, rfl⟩
  | case2 cs => exact ⟨List.not_mem_nil, [quote], .inr rfl, rfl⟩
  | case3 => cases hwell
  | case4 | case5 | case6 | case7 => simp at h
  | case8 c cs hquote _ _ ih =>
    have hrest : '\\' ∉ (stringTail quote cs).taken := fun hmem => h (List.mem_cons_of_mem c hmem)
    obtain ⟨hvalue, close, hclose, htaken⟩ := ih hrest hwell
    refine ⟨?_, close, hclose, congrArg (c :: ·) htaken⟩
    rintro (_ | ⟨_, hmem⟩)
    · exact hquote rfl
    · exact hvalue hmem

/-- A broken URL is malformed. -/
theorem badUrlTail_malformed (cs : List Char) : (badUrlTail cs).malformed = true := by
  fun_induction badUrlTail cs <;> simp_all [Stretch.after]

/-- A well-formed url ends behind blanks with its parenthesis or with the text. -/
theorem urlEnd_of_wellFormed (hwell : (urlEnd cs).malformed = false) :
    (urlEnd cs).value = [] ∧ ((urlEnd cs).taken = [] ∨ (urlEnd cs).taken = [')']) := by
  cases cs with
  | nil => exact ⟨rfl, .inl rfl⟩
  | cons c cs =>
    rw [urlEnd] at hwell ⊢
    split
    · rename_i hclose
      exact ⟨rfl, .inr (congrArg (fun d => [d]) hclose)⟩
    · rename_i hclose
      rw [if_neg hclose, badUrlTail_malformed] at hwell
      cases hwell

/-- An unquoted url without escapes is its value, with blanks and the parenthesis that may close
it. -/
theorem urlTail_of_noSlash (h : '\\' ∉ (urlTail cs).taken)
    (hwell : (urlTail cs).malformed = false) :
    ')' ∉ (urlTail cs).value ∧ ∃ gap close, (∀ c ∈ gap, Text.isAsciiBlank c = true) ∧
      (close = [] ∨ close = [')']) ∧ (urlTail cs).taken = (urlTail cs).value ++ gap ++ close := by
  fun_induction urlTail cs with
  | case1 => exact ⟨List.not_mem_nil, [], [], by simp, .inl rfl, rfl⟩
  | case2 cs => exact ⟨List.not_mem_nil, [], [')'], by simp, .inr rfl, rfl⟩
  | case3 c cs _ hescape => simp_all
  | case4 c cs =>
    obtain ⟨hvalue, hclose⟩ := urlEnd_of_wellFormed hwell
    have hgap : ∀ d ∈ (c :: cs).takeWhile Text.isAsciiBlank, Text.isAsciiBlank d = true :=
      fun d hd => List.all_eq_true.mp List.all_takeWhile d hd
    rw [Stretch.after, hvalue]
    exact ⟨List.not_mem_nil, _, _, hgap, hclose, rfl⟩
  | case5 c cs =>
    rw [badUrlTail_malformed] at hwell
    cases hwell
  | case6 c cs hparen hescape hblank hbreaks ih =>
    have hrest : '\\' ∉ (urlTail cs).taken := fun hmem => h (List.mem_cons_of_mem c hmem)
    obtain ⟨hvalue, gap, close, hgap, hclose, htaken⟩ := ih hrest hwell
    refine ⟨?_, gap, close, hgap, hclose, congrArg (c :: ·) htaken⟩
    rintro (_ | ⟨_, hmem⟩)
    · exact hparen rfl
    · exact hvalue hmem

/-! ## Tokens without escapes -/

variable {source : String} {t : Token}

/-- A well-formed string of a source without backslashes: a quote, its value, and the quote that may
close it. -/
theorem exists_parts_of_string (hplain : '\\' ∉ source.toList) (ht : t ∈ tokensFrom 0 source.toList)
    (hkind : t.kind = .string) : ∃ before quote close behind,
      source.toList = before ++ (quote :: (t.value.toList ++ close) ++ behind) ∧
        quote ∉ t.value.toList ∧ (close = [] ∨ close = [quote]) ∧ quote.utf8Size = 1 ∧
        t.start = Text.byteLength before ∧
        t.stop = t.start + Text.byteLength (quote :: (t.value.toList ++ close)) := by
  obtain ⟨before, c, cs, hsource, rfl⟩ := exists_lexeme_of_mem_tokensFrom [] rfl ht
  have hfamily := (isLexeme_lexeme c cs).isOfFamily
  rw [show (lexeme c cs).kind = .string from hkind] at hfamily
  obtain ⟨hquote, hx⟩ := hfamily
  have hwhole := append_lexeme hsource
  have hwell : (stringTail c cs).malformed = false := by
    cases hmalformed : (stringTail c cs).malformed with
    | false => rfl
    | true =>
      rw [hx, hmalformed] at hkind
      cases hkind
  have htoken : (lexeme c cs).taken = c :: (stringTail c cs).taken ∧
      (lexeme c cs).value = (stringTail c cs).value := by
    rw [hx]
    exact ⟨rfl, rfl⟩
  rw [Lexeme.token, String.toList_ofList, htoken.1, htoken.2]
  rw [htoken.1] at hwhole
  have hslash : '\\' ∉ (stringTail c cs).taken := fun hmem => hplain (by
    rw [hwhole]
    exact List.mem_append_right _ (List.mem_append_left _ (List.mem_cons_of_mem c hmem)))
  obtain ⟨hvalue, close, hclose, htaken⟩ := stringTail_of_noSlash hslash hwell
  have hsize : c.utf8Size = 1 := by
    have hcases : c = '"' ∨ c = '\'' := by simpa using hquote
    rcases hcases with rfl | rfl <;> rfl
  rw [htaken] at hwhole ⊢
  exact ⟨before, c, close, _, hwhole, hvalue, hclose, hsize, rfl, rfl⟩

/-- A name without escapes that spells `url` holds no parenthesis. -/
theorem paren_not_mem_of_spellsUrl {value : List Char} (h : spellsUrl value) : '(' ∉ value := by
  intro hmem
  have hlower := List.mem_map_of_mem (f := Char.toLower) hmem
  rw [h] at hlower
  simp at hlower

/-- An unquoted url is well formed, and its value is that of its body. -/
theorem urlLexeme_of_url {body : List Char} (h : (urlLexeme front body).kind = .url) :
    (urlTail (body.dropWhile Text.isAsciiBlank)).malformed = false ∧
      (urlLexeme front body).value = (urlTail (body.dropWhile Text.isAsciiBlank)).value := by
  unfold urlLexeme at h ⊢
  simp only at h ⊢
  split at h
  · cases h
  · rename_i hwell
    rw [if_neg hwell]
    exact ⟨Bool.eq_false_iff.mpr hwell, rfl⟩

/-- A well-formed url of a source without backslashes: a name and a parenthesis, blanks, its value,
blanks, and the parenthesis that may close it. -/
theorem exists_parts_of_url (hplain : '\\' ∉ source.toList) (ht : t ∈ tokensFrom 0 source.toList)
    (hkind : t.kind = .url) : ∃ before front lead gap close behind,
      source.toList =
          before ++ (front ++ '(' :: (lead ++ (t.value.toList ++ gap) ++ close) ++ behind) ∧
        '(' ∉ front ∧ (∀ c ∈ lead, Text.isAsciiBlank c = true) ∧ ')' ∉ t.value.toList ∧
        (∀ c ∈ gap, Text.isAsciiBlank c = true) ∧ (close = [] ∨ close = [')']) ∧
        t.start = Text.byteLength before ∧ t.stop = t.start +
          Text.byteLength (front ++ '(' :: (lead ++ (t.value.toList ++ gap) ++ close)) := by
  obtain ⟨before, c, cs, hsource, rfl⟩ := exists_lexeme_of_mem_tokensFrom [] rfl ht
  have hurl : (lexeme c cs).kind = .url := hkind
  have hx := (isLexeme_lexeme c cs).eq_nameLexeme (by rw [hurl]; rfl)
  have hwhole := append_lexeme hsource
  have hname := isNameLexeme_nameLexeme (c :: cs)
  rw [← hx] at hname
  rw [Lexeme.token, String.toList_ofList]
  generalize lexeme c cs = x at hkind hname hwhole ⊢
  cases hname with
  | function => cases hkind
  | ident => cases hkind
  | @url body opened value quote =>
    obtain ⟨hwell, hvalue⟩ := urlLexeme_of_url hkind
    rw [hvalue]
    rw [urlLexeme_taken] at hwhole ⊢
    have hslash : ∀ part ∈
        [(name (c :: cs)).taken, (urlTail (body.dropWhile Text.isAsciiBlank)).taken], '\\' ∉ part := by
      intro part hpart hmem
      refine hplain ?_
      rw [hwhole]
      rcases List.mem_pair.mp hpart with rfl | rfl <;> simp [hmem]
    have hlead : ∀ d ∈ body.takeWhile Text.isAsciiBlank, Text.isAsciiBlank d = true := fun d hd =>
      List.all_eq_true.mp List.all_takeWhile d hd
    rw [name_value_eq_taken (hslash _ (by simp))] at value
    obtain ⟨hparen, gap, close, hgap, hclose, htaken⟩ := urlTail_of_noSlash (hslash _ (by simp)) hwell
    rw [htaken, ← List.append_assoc (body.takeWhile Text.isAsciiBlank)] at hwhole ⊢
    exact ⟨before, _, _, gap, close, _, hwhole, paren_not_mem_of_spellsUrl value, hlead, hparen, hgap,
      hclose, rfl, rfl⟩

end CssWorkbench
