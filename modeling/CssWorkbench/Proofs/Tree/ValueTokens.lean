import CssWorkbench.Proofs.Tree.Reading

/-!
# The tokens of a value

From the run behind a colon the blanks at its end are taken off, then an `!important`, then the
blanks in front of that. What is left is the front of the run.
-/

namespace CssWorkbench

variable {t last : Token} {ts us front run : List Token}

/-- Nothing but blanks is trimmed at the end. -/
theorem trimTrailingBlanks_append (ts : List Token) :
    ∃ gap, ts = trimTrailingBlanks ts ++ gap ∧ ∀ t ∈ gap, t.kind = .whitespace := by
  refine ⟨(ts.reverse.takeWhile (·.is .whitespace)).reverse, ?_, fun t ht => ?_⟩
  · rw [trimTrailingBlanks, ← List.reverse_append, List.takeWhile_append_dropWhile,
      List.reverse_reverse]
  · have hall := List.all_eq_true.mp (@List.all_takeWhile _ (Token.is · .whitespace) ts.reverse) t
      (List.mem_reverse.mp ht)
    simpa [Token.is] using hall

/-- Blanks at the end do not change what is left when they are trimmed. -/
theorem trimTrailingBlanks_blanks {gap : List Token} (hgap : ∀ t ∈ gap, t.kind = .whitespace)
    (ts : List Token) : trimTrailingBlanks (ts ++ gap) = trimTrailingBlanks ts := by
  have hdrop : ∀ t ∈ gap.reverse, t.is .whitespace = true := fun t ht => by
    simp [Token.is, hgap t (List.mem_reverse.mp ht)]
  rw [trimTrailingBlanks, List.reverse_append, List.dropWhile_append_of_pos hdrop,
    trimTrailingBlanks]

/-- Nothing is trimmed of tokens that do not end with a blank. -/
theorem trimTrailingBlanks_eq_self (h : ∀ t ∈ ts.getLast?, t.kind ≠ .whitespace) :
    trimTrailingBlanks ts = ts := by
  rw [trimTrailingBlanks]
  rw [← List.head?_reverse] at h
  cases hts : ts.reverse with
  | nil => exact (List.reverse_eq_nil_iff.mp hts).symm
  | cons t us =>
    rw [hts] at h
    rw [List.dropWhile_cons_of_neg (by simpa [Token.is] using h t rfl), ← hts, List.reverse_reverse]

/-- Blanks at the front stand in front of what is left when they are dropped. -/
theorem exists_blanks_append (h : ts.dropWhile (·.is .whitespace) = us) :
    ∃ blanks, ts = blanks ++ us ∧ ∀ t ∈ blanks, t.kind = .whitespace := by
  refine ⟨ts.takeWhile (·.is .whitespace), ?_, fun t ht => ?_⟩
  · rw [← h, List.takeWhile_append_dropWhile]
  · have hall := List.all_eq_true.mp (@List.all_takeWhile _ (Token.is · .whitespace) ts) t ht
    simpa [Token.is] using hall

/-- Blanks are dropped at both ends of a prelude, and nothing else is. -/
theorem trimBlanks_append (ts : List Token) :
    ∃ front behind, ts = front ++ (trimBlanks ts ++ behind) ∧ ∀ t ∈ behind, t.kind = .whitespace := by
  obtain ⟨behind, hdrop, hbehind⟩ := trimTrailingBlanks_append (ts.dropWhile (·.is .whitespace))
  refine ⟨ts.takeWhile (·.is .whitespace), behind, ?_, hbehind⟩
  rw [trimBlanks, ← hdrop, List.takeWhile_append_dropWhile]

/-- Behind the blanks at the front there is no blank in front. -/
theorem head?_dropBlanks (ts : List Token) :
    ∀ t ∈ (ts.dropWhile (·.is .whitespace)).head?, t.kind ≠ .whitespace := by
  intro t ht
  have hhead := List.head?_dropWhile_not (Token.is · .whitespace) ts
  rw [ht] at hhead
  simpa [Token.is] using hhead

/-- In front of the blanks at the end there is no blank at the end. -/
theorem getLast?_trimTrailingBlanks (ts : List Token) :
    ∀ t ∈ (trimTrailingBlanks ts).getLast?, t.kind ≠ .whitespace := by
  intro t ht
  rw [trimTrailingBlanks, List.getLast?_reverse] at ht
  exact head?_dropBlanks _ t ht

/-- Blanks are dropped in front of a run that starts with none. -/
theorem dropBlanks_append {gap : List Token} (hgap : ∀ u ∈ gap, u.kind = .whitespace)
    (hfirst : ∀ t ∈ ts.head?, t.kind ≠ .whitespace) :
    (gap ++ ts).dropWhile (·.is .whitespace) = ts := by
  rw [List.dropWhile_append_of_pos fun u hu => by simp [Token.is, hgap u hu]]
  cases ts with
  | nil => rfl
  | cons t ts =>
    have hkind := hfirst t rfl
    rw [List.dropWhile_cons_of_neg (by simpa [Token.is] using hkind)]

/-- Behind the last token that is neither a blank nor a comment stand blanks and comments. -/
theorem splitLastSignificant?_eq_some (h : splitLastSignificant? ts = some (front, last)) :
    last.isTrivia = false ∧ ∃ gap, ts = front ++ last :: gap ∧ ∀ t ∈ gap, t.isTrivia = true := by
  unfold splitLastSignificant? at h
  split at h
  · rename_i last' before hdrop
    obtain ⟨rfl, rfl⟩ := Prod.mk.inj (Option.some.inj h)
    have hhead := List.head?_dropWhile_not Token.isTrivia ts.reverse
    rw [hdrop] at hhead
    refine ⟨by simpa using hhead, (ts.reverse.takeWhile Token.isTrivia).reverse, ?_, fun t ht => ?_⟩
    · have hwhole := @List.takeWhile_append_dropWhile _ Token.isTrivia ts.reverse
      rw [hdrop] at hwhole
      simpa using (congrArg List.reverse hwhole).symm
    · exact List.all_eq_true.mp (@List.all_takeWhile _ Token.isTrivia ts.reverse) t
        (List.mem_reverse.mp ht)
  · cases h

/-- Blanks and comments at the end do not count. -/
theorem splitLastSignificant?_trivia (h : ∀ t ∈ us, t.isTrivia = true) (ts : List Token) :
    splitLastSignificant? (ts ++ us) = splitLastSignificant? ts := by
  have hdrop : ∀ t ∈ us.reverse, t.isTrivia = true := fun t ht => h t (List.mem_reverse.mp ht)
  rw [splitLastSignificant?, List.reverse_append, List.dropWhile_append_of_pos hdrop,
    splitLastSignificant?]

/-- A significant token at the end is the last one. -/
theorem splitLastSignificant?_concat (h : last.isTrivia = false) (ts : List Token) :
    splitLastSignificant? (ts ++ [last]) = some (ts, last) := by
  rw [splitLastSignificant?, List.reverse_append, List.reverse_singleton, List.singleton_append,
    List.dropWhile_cons_of_neg (by simp [h])]
  simp

/-- Tokens that end with a mark and the word behind it close with an `!important`. -/
theorem beforeImportant?_marked {mark word : Token} (hmark : mark.isDelim '!' = true)
    (hkind : word.kind = .ident) (hvalue : word.value = "important") (ts : List Token) :
    beforeImportant? (ts ++ [mark, word]) = some ts := by
  have hdelim := Token.kind_of_isDelim hmark
  have hsplit : ts ++ [mark, word] = ts ++ [mark] ++ [word] := by simp
  rw [beforeImportant?, hsplit, splitLastSignificant?_concat (by simp [Token.isTrivia, hkind])]
  simp only [hkind, hvalue, decide_true, Bool.and_self, if_true]
  rw [splitLastSignificant?_concat (by simp [Token.isTrivia, hdelim])]
  simp only [hmark, if_true]

/-- An `!important` is a mark and a word with blanks and comments around them. -/
theorem beforeImportant?_eq_some (h : beforeImportant? ts = some front) :
    ∃ mark word gap behind, ts = front ++ mark :: gap ++ word :: behind ∧
      mark.isDelim '!' = true ∧ word.kind = .ident ∧ word.value = "important" ∧
      (∀ t ∈ gap, t.isTrivia = true) ∧ ∀ t ∈ behind, t.isTrivia = true := by
  unfold beforeImportant? at h
  split at h
  · rename_i before word hword
    split at h
    · rename_i hspelled
      split at h
      · rename_i value mark hmark
        split at h
        · rename_i hdelim
          obtain rfl := Option.some.inj h
          obtain ⟨-, behind, hts, hbehind⟩ := splitLastSignificant?_eq_some hword
          obtain ⟨-, gap, hbefore, hgap⟩ := splitLastSignificant?_eq_some hmark
          obtain ⟨hkind, hvalue⟩ : word.kind = .ident ∧ word.value = "important" := by
            simpa using hspelled
          exact ⟨mark, word, gap, behind, by rw [hts, hbefore], hdelim, hkind, hvalue, hgap,
            hbehind⟩
        · cases h
      · cases h
    · cases h
  · cases h

/-- The tokens that the value of a declaration keeps. -/
def valueTokens (run : List Token) : List Token :=
  match beforeImportant? (trimTrailingBlanks run) with
  | some front => trimTrailingBlanks front
  | none => trimTrailingBlanks run

/-- Where a value ends behind its colon, and a declaration without a `;` with it. -/
def valueEnd (colon : Token) (run : List Token) : Nat :=
  match (trimTrailingBlanks run).getLast? with
  | some last => max last.stop colon.stop
  | none => colon.stop

/-- A declaration, part by part. -/
theorem declarationNode_eq (property colon : Token) (run : List Token) (semicolon : Option Token) :
    declarationNode property colon run semicolon =
      ⟨⟨property.start, (semicolon.map Token.stop).getD (valueEnd colon run)⟩, property,
        Value.ofTokens? (valueTokens run), (beforeImportant? (trimTrailingBlanks run)).isSome,
        semicolon.isSome⟩ := rfl

/-- A value keeps its tokens, and there is none if there are no tokens. -/
theorem tokens_of_ofTokens? (ts : List Token) :
    (match Value.ofTokens? ts with | some v => v.tokens | none => []) = ts := by
  cases ts with
  | nil => rfl
  | cons t ts =>
    obtain ⟨last, hlast⟩ : ∃ last, (t :: ts).getLast? = some last := ⟨_, List.getLast?_cons⟩
    simp [Value.ofTokens?, hlast]

/-- The tokens of a declaration are those of its value. -/
theorem declarationNode_tokens (property colon : Token) (run : List Token)
    (semicolon : Option Token) :
    (declarationNode property colon run semicolon).tokens = valueTokens run :=
  tokens_of_ofTokens? _

/-- The tokens of a value are the front of the run; what is taken off behind them is blanks,
comments, a mark and a word. -/
theorem valueTokens_append (run : List Token) :
    ∃ behind, run = valueTokens run ++ behind ∧
      ∀ t ∈ behind, t.isTrivia = true ∨ t.kind = .delim ∨ t.kind = .ident := by
  obtain ⟨gap, hrun, hgap⟩ := trimTrailingBlanks_append run
  have hblank : ∀ {ts : List Token}, (∀ t ∈ ts, t.kind = .whitespace) →
      ∀ t ∈ ts, t.isTrivia = true ∨ t.kind = .delim ∨ t.kind = .ident :=
    fun hts t ht => .inl (by simp [Token.isTrivia, hts t ht])
  unfold valueTokens
  split
  · rename_i front hfront
    obtain ⟨mark, word, between, behind, htrim, hmark, hword, -, hbetween, hbehind⟩ :=
      beforeImportant?_eq_some hfront
    obtain ⟨gap', hfrontGap, hgap'⟩ := trimTrailingBlanks_append front
    have hmarkKind := Token.kind_of_isDelim hmark
    refine ⟨gap' ++ (mark :: between ++ (word :: behind ++ gap)), ?_, ?_⟩
    · rw [← List.append_assoc, ← hfrontGap]
      calc run
        _ = trimTrailingBlanks run ++ gap := hrun
        _ = front ++ (mark :: between ++ (word :: behind ++ gap)) := by rw [htrim]; simp
    · simp only [List.cons_append, List.mem_append, List.mem_cons]
      rintro t (ht | rfl | ht | rfl | ht | ht)
      · exact hblank hgap' t ht
      · exact .inr (.inl hmarkKind)
      · exact .inl (hbetween t ht)
      · exact .inr (.inr hword)
      · exact .inl (hbehind t ht)
      · exact hblank hgap t ht
  · exact ⟨gap, hrun, hblank hgap⟩

end CssWorkbench
