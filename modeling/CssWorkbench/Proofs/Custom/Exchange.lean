import CssWorkbench.Proofs.Custom.NameTokens
import CssWorkbench.Proofs.Token.Tail
import CssWorkbench.Proofs.Token.Words

/-!
# Exchanging names in a text

Some tokens of a text are written anew with another name. Each of them is an identifier with a firm
token in front of it, so that the scanner cannot join the new name to what stands before, and no
token with what stands behind. The new text has the same tokens, but for the names.
-/

namespace CssWorkbench

/-- The text with a new name in the place of the tokens that are renamed. -/
def exchangeFrom (renamed : Token → Bool) (new : List Char) (offset : Nat) :
    List Char → List Char
  | [] => []
  | c :: cs =>
    (if renamed ((lexeme c cs).token offset) then new else (lexeme c cs).taken) ++
      exchangeFrom renamed new (offset + Text.byteLength (lexeme c cs).taken) (lexeme c cs).rest
termination_by cs => cs.length
decreasing_by exact lexeme_rest_length c cs

/-- The tokens behind `p` that are renamed are identifiers with a firm token in front. -/
def Exchangeable (renamed : Token → Bool) : Token → List Token → Prop
  | _, [] => True
  | p, t :: ts =>
    (renamed t = true → p.isFirm = true ∧ t.kind = .ident) ∧ Exchangeable renamed t ts

/-- A token of the text and the token that stands in its place. -/
structure Exchanged (renamed : Token → Bool) (new : List Char) (t u : Token) : Prop where
  kind : u.kind = t.kind
  value : u.value = if renamed t then String.ofList new else t.value

variable {renamed : Token → Bool} {new bare cs ds : List Char} {offset offset' : Nat} {p : Token}
  {c : Char}

/-- Without occurrences there is nothing to exchange. -/
theorem exchangeFrom_nil : exchangeFrom renamed new offset [] = [] := by
  rw [exchangeFrom]

/-- A custom name that is put in front of a text is a token there. -/
theorem isLexeme_custom (hne : bare ≠ []) (hbare : bare.all isNameChar = true)
    (hstop : startsNamePart ds = false) (hopen : ds.head? ≠ some '(') :
    IsLexeme '-' ('-' :: bare ++ ds) ⟨.ident, '-' :: '-' :: bare, '-' :: '-' :: bare, ds⟩ := by
  have hword := isWord_custom hbare
  exact hword.isLexeme_ident hstop hopen (hword.not_close fun heq => absurd heq (by simp [hne]))

/-- In front of the first token that is renamed a text and the new text are alike. -/
theorem exchangeFrom_alike (h : Exchangeable renamed p (tokensFrom offset cs))
    (hfirst : ∀ t ∈ (tokensFrom offset cs).head?, renamed t = false) :
    Alike 3 cs (exchangeFrom renamed new offset cs) ∧
      (exchangeFrom renamed new offset cs).head? = cs.head? := by
  induction hn : cs.length using Nat.strongRecOn generalizing offset p cs with
  | ind n ih =>
    cases cs with
    | nil =>
      rw [exchangeFrom_nil]
      exact ⟨.ended, rfl⟩
    | cons c cs =>
      have hx := isLexeme_lexeme c cs
      have hlt := lexeme_rest_length c cs
      rw [tokensFrom_cons] at h hfirst
      rw [exchangeFrom]
      rw [if_neg (Bool.eq_false_iff.mp (hfirst _ rfl))]
      generalize lexeme c cs = x at hx hlt h hfirst ⊢
      obtain ⟨front, htaken, hcs, -⟩ := hx.split hx.append
      have hhead : (x.taken ++ exchangeFrom renamed new (offset + Text.byteLength x.taken)
          x.rest).head? = (c :: cs).head? := by rw [htaken]; rfl
      refine ⟨?_, hhead⟩
      by_cases hfirm : x.IsFirm
      · by_cases hrest : x.rest = []
        · rw [hrest, exchangeFrom_nil, ← hx.append, hrest]
          exact .refl 3 _
        · rcases hx.shape_of_firm hfirm (.inl hrest) with hinert | ⟨hlength, hlast, -⟩
          · rw [htaken]
            exact .inert (List.cons_ne_nil _ _) hinert
          · rw [← hx.append]
            exact .of_length_le hlength hrest fun heq => absurd heq hlast
      · have hnext : ∀ t ∈ (tokensFrom (offset + Text.byteLength x.taken) x.rest).head?,
            renamed t = false := by
          intro t ht
          obtain ⟨ts, hts⟩ := List.head?_eq_some_iff.mp ht
          rw [hts] at h
          refine Bool.eq_false_iff.mpr fun hren => hfirm ?_
          exact isFirm_token_iff.mp (h.2.1 hren).1
        obtain ⟨halike, hsame⟩ := ih _ (hn ▸ hlt) h.2 hnext rfl
        rw [← hx.append]
        exact halike.append fun _ => .inr hsame

/-- An identifier is not firm. -/
theorem not_isFirm_of_ident {x : Lexeme} (h : x.kind = .ident) : ¬ x.IsFirm := by
  simp [Lexeme.IsFirm, h, TokenKind.isFirm]

/-- What follows a token that is not firm is not renamed. -/
theorem Exchangeable.next {x : Lexeme} {ts : List Token}
    (h : Exchangeable renamed (x.token offset) ts) (hfirm : ¬ x.IsFirm) :
    ∀ t ∈ ts.head?, renamed t = false := by
  intro t ht
  obtain ⟨ts, rfl⟩ := List.head?_eq_some_iff.mp ht
  exact Bool.eq_false_iff.mpr fun hren => hfirm (isFirm_token_iff.mp (h.1 hren).1)

/-- A text that starts with a quote starts with a string. -/
theorem kind_of_quote {x : Lexeme} (hx : IsLexeme c cs x)
    (hquote : (c = '"' || c = '\'') = true) : x.kind = .string ∨ x.kind = .badString := by
  obtain rfl := hx.lexeme_eq.symm.trans (IsLexeme.string hquote).lexeme_eq
  simp only [Lexeme.ofStretch]
  split
  · exact .inr rfl
  · exact .inl rfl

/-- A text that starts with a quote starts with the same one when names are exchanged. -/
theorem exchangeFrom_quote (hquote : cs.head?.any (fun c => c = '"' || c = '\'') = true)
    (h : Exchangeable renamed p (tokensFrom offset cs)) :
    (exchangeFrom renamed new offset cs).head? = cs.head? := by
  refine (exchangeFrom_alike h ?_).2
  cases cs with
  | nil => simp
  | cons c cs =>
    intro t ht
    rw [tokensFrom_cons] at h ht
    obtain rfl := Option.some.inj ht
    refine Bool.eq_false_iff.mpr fun hren => ?_
    have hident : (lexeme c cs).kind = .ident := (h.1 hren).2
    rcases kind_of_quote (isLexeme_lexeme c cs) hquote with hk | hk <;>
      (rw [hident] at hk; cases hk)

/-- A quote at the front comes next. -/
theorem quotedNext_of_head? (hquote : ds.head?.any (fun c => c = '"' || c = '\'') = true) :
    quotedNext ds = true := by
  cases ds with
  | nil => cases hquote
  | cons d ds =>
    have hd : d = '"' ∨ d = '\'' := by simpa using hquote
    rcases hd with rfl | rfl <;> simp [quotedNext, Text.isAsciiBlank]

/-- Where a quote comes next, it comes next when names are exchanged behind it. -/
theorem exchangeFrom_quotedNext (h : Exchangeable renamed p (tokensFrom offset cs))
    (hquoted : quotedNext cs = true) : quotedNext (exchangeFrom renamed new offset cs) = true := by
  cases cs with
  | nil => cases hquoted
  | cons c cs =>
    by_cases hblank : Text.isAsciiBlank c = true
    · have hx := @IsLexeme.blank c cs hblank
      rw [tokensFrom_eq_cons hx] at h
      have hwhole : exchangeFrom renamed new offset (c :: cs) =
          (c :: cs).takeWhile Text.isAsciiBlank ++ exchangeFrom renamed new
            (offset + Text.byteLength ((c :: cs).takeWhile Text.isAsciiBlank))
            ((c :: cs).dropWhile Text.isAsciiBlank) := by
        rw [exchangeFrom, hx.lexeme_eq, if_neg fun hren => by cases (h.1 hren).2]
        rfl
      have hsame := @exchangeFrom_quote renamed new _
        (offset + Text.byteLength ((c :: cs).takeWhile Text.isAsciiBlank)) _ hquoted h.2
      have hnext := hsame ▸ head?_dropWhile_any Text.isAsciiBlank (c :: cs)
      rw [hwhole, quotedNext, (takeWhile_sequel hnext).2]
      exact hsame ▸ hquoted
    · have hquote : ((c :: cs).head?.any fun c => c = '"' || c = '\'') = true := by
        rwa [quotedNext, List.dropWhile_cons_of_neg hblank] at hquoted
      refine quotedNext_of_head? ?_
      rw [exchangeFrom_quote hquote h]
      exact hquote

/-- A new text starts with what the old one starts with or with a new name. -/
theorem exchangeFrom_head? (h : Exchangeable renamed p (tokensFrom offset cs)) :
    (exchangeFrom renamed ('-' :: new) offset cs).head? = cs.head? ∨
      (exchangeFrom renamed ('-' :: new) offset cs).head? = some '-' := by
  cases cs with
  | nil => exact .inl (by rw [exchangeFrom_nil])
  | cons c cs =>
    by_cases hren : renamed ((lexeme c cs).token offset) = true
    · rw [exchangeFrom, if_pos hren]
      exact .inr rfl
    · refine .inl (exchangeFrom_alike h fun t ht => ?_).2
      rw [tokensFrom_cons] at ht
      obtain rfl := Option.some.inj ht
      exact Bool.eq_false_iff.mpr hren

/-- A token that is not renamed is read again. -/
theorem IsLexeme.exchange {x : Lexeme} (hx : IsLexeme c cs x)
    (h : Exchangeable renamed (x.token offset) (tokensFrom offset' x.rest)) :
    ∃ es, x.taken ++ exchangeFrom renamed ('-' :: new) offset' x.rest = c :: es ∧
      IsLexeme c es (x.inFrontOf (exchangeFrom renamed ('-' :: new) offset' x.rest)) := by
  obtain ⟨front, htaken, -, -⟩ := hx.split hx.append
  refine ⟨front ++ exchangeFrom renamed ('-' :: new) offset' x.rest, by rw [htaken]; rfl, ?_⟩
  have hes : x.taken ++ exchangeFrom renamed ('-' :: new) offset' x.rest =
      c :: (front ++ exchangeFrom renamed ('-' :: new) offset' x.rest) := by
    rw [htaken]
    rfl
  by_cases hfirm : x.IsFirm
  · by_cases hrest : x.rest = []
    · have hcs : cs = front := by
        have happend := hx.append
        rw [htaken, hrest, List.append_nil] at happend
        exact (List.cons.inj happend).2.symm
      rw [hrest, exchangeFrom_nil, List.append_nil, ← hcs, ← hrest]
      exact hx
    · refine hx.sequel_of_firm hfirm (.inl hrest) (fun hkind => ?_) hes
      rcases @exchangeFrom_head? _ new _ _ _ h with hhead | hhead <;> rw [hhead]
      · exact hx.rest_of_blank hkind
      · rfl
  · obtain ⟨halike, hsame⟩ := @exchangeFrom_alike _ ('-' :: new) _ _ _ h (h.next hfirm)
    exact hx.sequel ⟨halike, fun _ => .inr hsame, fun _ => hsame, fun hkind hurl =>
      exchangeFrom_quotedNext h (hx.quotedNext_of_url hkind hurl)⟩ hes

/-- The new text has the tokens of the old one, but for the names. -/
theorem tokensFrom_exchangeFrom (hne : bare ≠ []) (hbare : bare.all isNameChar = true)
    (h : Exchangeable renamed p (tokensFrom offset cs)) :
    List.Forall₂ (Exchanged renamed ('-' :: '-' :: bare)) (tokensFrom offset cs)
      (tokensFrom offset' (exchangeFrom renamed ('-' :: '-' :: bare) offset cs)) := by
  induction hn : cs.length using Nat.strongRecOn generalizing offset offset' p cs with
  | ind n ih =>
    cases cs with
    | nil =>
      rw [exchangeFrom_nil, tokensFrom_nil, tokensFrom_nil]
      exact .nil
    | cons c cs =>
      have hx := isLexeme_lexeme c cs
      have hlt := lexeme_rest_length c cs
      rw [tokensFrom_cons] at h ⊢
      rw [exchangeFrom]
      generalize lexeme c cs = x at hx hlt h ⊢
      have hrest := fun offset' => @ih _ (hn ▸ hlt) x.rest _ offset' _ h.2 rfl
      by_cases hren : renamed (x.token offset) = true
      · rw [if_pos hren]
        have hkind : x.kind = .ident := (h.1 hren).2
        have hfirm := not_isFirm_of_ident hkind
        obtain ⟨halike, -⟩ := exchangeFrom_alike h.2 (h.2.next hfirm)
        obtain ⟨hstop, hopen⟩ := hx.rest_of_ident hkind
        have hnew := isLexeme_custom hne hbare (halike.startsNamePart_eq_false hstop)
          (halike.head?_ne (by decide) hopen)
        rw [List.cons_append, tokensFrom_eq_cons hnew]
        refine .cons ⟨hkind.symm, ?_⟩ (hrest _)
        rw [if_pos hren]
        rfl
      · rw [if_neg hren]
        obtain ⟨es, hes, hnew⟩ := @IsLexeme.exchange _ ('-' :: bare) _ _ _ _ _ hx h.2
        rw [hes, tokensFrom_eq_cons hnew]
        refine .cons ⟨rfl, ?_⟩ (hrest _)
        rw [if_neg hren]
        rfl

end CssWorkbench
