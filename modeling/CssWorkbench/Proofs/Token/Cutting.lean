import CssWorkbench.Proofs.Token.FirmCut

/-!
# Scanning what is cut out between tokens

Where a source is cut between two of its tokens, the tokens in front of the cut are read again as
they were: what the scanner looks for behind a token is not there when the text ends. Two tokens are
different. A string that a line break cuts off is no worse than any other when the break is cut
away, and `url(` is kept a function by the quote that follows it.
-/

namespace CssWorkbench

variable {n offset : Nat} {c : Char} {cs ds part behind : List Char} {t last : Token}
  {ts us run : List Token} {x : Lexeme}

/-- The kind of a token that the text ends behind: a string is cut off by nothing there. -/
def TokenKind.atEnd : TokenKind → TokenKind
  | .badString => .string
  | kind => kind

/-- The lexeme with nothing behind it. -/
def Lexeme.atEnd (x : Lexeme) : Lexeme := ⟨x.kind.atEnd, x.taken, x.value, []⟩

/-- The token with nothing behind it. -/
def Token.atEnd (t : Token) : Token := { t with kind := t.kind.atEnd }

/-- The tokens with nothing behind the last one. -/
def endLast : List Token → List Token
  | [] => []
  | [t] => [t.atEnd]
  | t :: u :: ts => t :: endLast (u :: ts)

/-- Whether the tokens end with an opened `url(`, blanks aside. -/
def opensUrl (ts : List Token) : Bool :=
  (ts.reverse.dropWhile (·.is .whitespace)).head?.any (·.isFunction "url")

/-- Tokens open a URL at their end if its function stands there with nothing but blanks behind
it. -/
theorem opensUrl_iff : opensUrl ts = true ↔ ∃ front t blanks, ts = front ++ t :: blanks ∧
    t.isFunction "url" = true ∧ ∀ u ∈ blanks, u.kind = .whitespace := by
  rw [opensUrl, Option.any_eq_true]
  constructor
  · rintro ⟨t, hhead, hurl⟩
    obtain ⟨front, hdrop⟩ := List.head?_eq_some_iff.mp hhead
    have hsplit := @List.takeWhile_append_dropWhile _ (Token.is · .whitespace) ts.reverse
    rw [hdrop] at hsplit
    refine ⟨front.reverse, t, (ts.reverse.takeWhile (·.is .whitespace)).reverse, ?_, hurl,
      fun u hu => ?_⟩
    · simpa using congrArg List.reverse hsplit.symm
    · have hall := List.all_eq_true.mp (@List.all_takeWhile _ (Token.is · .whitespace) ts.reverse) u
        (List.mem_reverse.mp hu)
      simpa [Token.is] using hall
  · rintro ⟨front, t, blanks, rfl, hurl, hblanks⟩
    have hkind : t.kind = .function := by
      rw [Token.isFunction, Bool.and_eq_true, decide_eq_true_eq] at hurl
      exact hurl.1
    have hskip : ∀ u ∈ blanks.reverse, u.is .whitespace = true := fun u hu => by
      simp [Token.is, hblanks u (List.mem_reverse.mp hu)]
    refine ⟨t, ?_, hurl⟩
    rw [List.reverse_append, List.reverse_cons, List.append_assoc,
      List.dropWhile_append_of_pos hskip]
    simp [Token.is, hkind]

/-- Tokens that open a URL at their end do so with one more in front. -/
theorem opensUrl_cons (h : opensUrl ts = true) (t : Token) : opensUrl (t :: ts) = true := by
  obtain ⟨front, opener, blanks, rfl, hopener, hblanks⟩ := opensUrl_iff.mp h
  exact opensUrl_iff.mpr ⟨t :: front, opener, blanks, rfl, hopener, hblanks⟩

/-- At the end of a text every kind but that of a broken string is the same. -/
theorem TokenKind.atEnd_of_ne {kind : TokenKind} (h : kind ≠ .badString) : kind.atEnd = kind := by
  cases kind <;> first | rfl | exact absurd rfl h

/-- Only a string that is cut off is another token at the end. -/
theorem endLast_eq_self (h : ∀ t ∈ ts.getLast?, t.kind ≠ .badString) : endLast ts = ts := by
  fun_induction endLast ts with
  | case1 => rfl
  | case2 t =>
    have hkind : t.kind ≠ .badString := h t rfl
    simp only [Token.atEnd, TokenKind.atEnd_of_ne hkind]
  | case3 t u ts ih => rw [ih fun v hv => h v (by rwa [List.getLast?_cons_cons])]

/-- Being last changes the kind of a token alone, and no kind into a blank. -/
theorem endLast_kinds (h : ∀ t ∈ endLast ts, t.kind = .whitespace) :
    ∀ t ∈ ts, t.kind = .whitespace := by
  fun_induction endLast ts with
  | case1 => simp
  | case2 t =>
    have hend : t.kind.atEnd = .whitespace := h t.atEnd List.mem_cons_self
    revert hend
    rw [List.forall_mem_singleton]
    cases t.kind <;> first | exact id | exact nofun
  | case3 t u ts ih =>
    obtain ⟨ht, hrest⟩ := List.forall_mem_cons.mp h
    exact List.forall_mem_cons.mpr ⟨ht, ih hrest⟩

/-- Where a stretch of tokens starts and stops does not change when it is put at the end. -/
theorem tiles_endLast {start stop : Nat} : Tiles start stop (endLast ts) ↔ Tiles start stop ts := by
  fun_induction endLast ts generalizing start with
  | case1 | case2 => exact Iff.rfl
  | case3 t u ts ih => simp only [Tiles, ih]

/-- The token that opens `url(` is the one whose name spells it. -/
theorem isFunction_url_iff :
    (x.token offset).isFunction "url" = true ↔ x.kind = .function ∧ spellsUrl x.value := by
  have hname : "url".toList.map Char.toLower = ['u', 'r', 'l'] := by decide
  simp only [Token.isFunction, Text.sameIgnoringCase, Bool.and_eq_true, decide_eq_true_eq]
  rw [hname, Lexeme.token, String.toList_ofList, spellsUrl]

/-- The front of a text is alike to all of it. -/
theorem alike_take (n : Nat) (part behind : List Char) : Alike n (part ++ behind) part := by
  have h : Alike n (part ++ behind) (part ++ []) := Alike.ended.append fun _ => .inl rfl
  rwa [List.append_nil] at h

/-- A text that is cut off goes on as it did, or ends. -/
theorem sameNext_take (part behind : List Char) : SameNext (part ++ behind) part := by
  cases part with
  | nil => exact .inl rfl
  | cons c part => exact .inr rfl

/-- The first token of a text is read alone as it was, unless it opens `url(`. -/
theorem IsLexeme.alone (hx : IsLexeme c cs x) (hurl : ¬ (x.kind = .function ∧ spellsUrl x.value))
    (htaken : x.taken = c :: ds) : IsLexeme c ds x.atEnd := by
  by_cases hbroken : x.kind = .badString
  · cases hx with
    | string quote =>
      obtain rfl : (stringTail c cs).taken = ds := (List.cons.inj htaken).2
      have hnew := @IsLexeme.string c ((stringTail c cs).taken ++ []) quote
      rw [stringTail_sequel (fun _ => rfl) fun _ => .inl rfl, List.append_nil] at hnew
      have hkind : (if (stringTail c cs).malformed then TokenKind.badString else .string) =
        .badString := hbroken
      rw [Lexeme.atEnd, Lexeme.ofStretch, hkind]
      simpa [Lexeme.ofStretch, TokenKind.atEnd] using hnew
    | number =>
      have hfamily := numericLexeme_family (c :: cs)
      rw [hbroken] at hfamily
      cases hfamily
    | name =>
      have hfamily := nameLexeme_family (c :: cs)
      rw [hbroken] at hfamily
      cases hfamily
    | punctuation =>
      have hfamily := punctuationKind_family c
      rw [show punctuationKind c = .badString from hbroken] at hfamily
      cases hfamily
    | blank | comment | hash | atKeyword | cdo | cdc => cases hbroken
  · have hnew : IsLexeme c ds (x.inFrontOf []) := by
      refine hx.sequel ⟨.ended, fun _ => .inl rfl, fun hkind => absurd hkind hbroken,
        fun hkind hvalue => absurd ⟨hkind, hvalue⟩ hurl⟩ ?_
      rw [List.append_nil, htaken]
    rwa [Lexeme.atEnd, TokenKind.atEnd_of_ne hbroken]

/-- A text whose tokens go on behind some of them can be cut there. What is in front of the cut has
those tokens, and what is behind it has the others. -/
theorem exists_cut (h : tokensFrom offset cs = ts ++ us) (hurl : ¬ opensUrl ts = true) :
    ∃ part behind, cs = part ++ behind ∧ us = tokensFrom (offset + Text.byteLength part) behind ∧
      tokensFrom offset part = endLast ts := by
  induction ts generalizing offset cs with
  | nil => exact ⟨[], cs, rfl, h.symm, tokensFrom_nil _⟩
  | cons t ts ih =>
    cases cs with
    | nil => simp at h
    | cons c cs =>
      have hx := isLexeme_lexeme c cs
      obtain ⟨d, front, htaken⟩ := List.exists_cons_of_ne_nil hx.taken_ne_nil
      have happend := hx.append
      rw [tokensFrom_eq_cons hx] at h
      generalize lexeme c cs = x at hx h htaken happend
      obtain ⟨rfl, hrest⟩ := List.cons.inj h
      obtain rfl : d = c := by
        rw [htaken] at happend
        exact (List.cons.inj happend).1
      cases ts with
      | nil =>
        refine ⟨x.taken, x.rest, happend.symm, hrest.symm, ?_⟩
        have hopens : ¬ (x.kind = .function ∧ spellsUrl x.value) := fun hboth =>
          hurl (opensUrl_iff.mpr ⟨[], _, [], rfl, isFunction_url_iff.mpr hboth, by simp⟩)
        rw [htaken, tokensFrom_eq_cons (hx.alone hopens htaken), Lexeme.atEnd, tokensFrom_nil]
        rfl
      | cons u ts =>
        obtain ⟨part, behind, hcut, hus, htokens⟩ :=
          ih hrest fun hopens => hurl (opensUrl_cons hopens _)
        have hne : part ≠ [] := by
          rintro rfl
          rw [tokensFrom_nil] at htokens
          cases ts <;> cases htokens
        have hprecedes : x.Precedes part := by
          refine ⟨hcut ▸ alike_take 3 part behind, fun _ => hcut ▸ sameNext_take part behind,
            fun _ => by rw [hcut, List.head?_append_of_ne_nil _ hne], fun hkind hvalue => ?_⟩
          rcases quotedNext_take (hcut ▸ hx.quotedNext_of_url hkind hvalue) with hquote | hblank
          · exact hquote
          · -- Blanks alone would end the run with the opened url.
            refine absurd (opensUrl_iff.mpr ⟨[], _, u :: ts, rfl, ?_, ?_⟩) hurl
            · exact isFunction_url_iff.mpr ⟨hkind, hvalue⟩
            · exact endLast_kinds (htokens ▸ kind_of_mem_blanks hblank)
        have hnew : IsLexeme d (front ++ part) (x.inFrontOf part) :=
          hx.sequel hprecedes (by rw [htaken, List.cons_append])
        refine ⟨x.taken ++ part, behind, ?_, ?_, ?_⟩
        · rw [List.append_assoc, ← hcut, happend]
        · rw [hus, Text.byteLength_append, Nat.add_assoc]
        · rw [htaken, List.cons_append, tokensFrom_eq_cons hnew]
          exact congrArg _ htokens

/-- Tokens that follow one another in a source are those of the text between the start of the first
and the end of the last. -/
theorem scan_between {source : String} {front : List Token} {first : Token}
    (h : tokensFrom 0 source.toList = front ++ (run ++ us)) (hfirst : run.head? = some first)
    (hlast : run.getLast? = some last) (hurl : ¬ opensUrl run = true) :
    (scan ((Span.mk first.start last.stop).text source)).map (Token.shift first.start) =
      endLast run ++ [Token.eof last.stop] := by
  have htail : TailOf source (front ++ (run ++ us)) source.toList := h ▸ tailOf_source source
  obtain ⟨cs, -, before, hsource, htokens⟩ := htail.append
  obtain ⟨part, behind, rfl, -, hpart⟩ := exists_cut htokens.symm hurl
  have htiles :
      Tiles (Text.byteLength before) (Text.byteLength before + Text.byteLength part) run :=
    tiles_endLast.mp (hpart ▸ tiles_tokensFrom _ _)
  have hstop := htiles.getLast hlast
  obtain ⟨rest, rfl⟩ := List.head?_eq_some_iff.mp hfirst
  have htext : (Span.mk first.start last.stop).text source = String.ofList part := by
    rw [← List.append_assoc] at hsource
    rw [htiles.1, hstop, Span.text, hsource, Span.chars_append]
  have hshift := tokensFrom_add (Text.byteLength before) 0 part
  rw [Nat.add_zero, hpart] at hshift
  rw [htext, htiles.1, hstop, scan_eq_append, String.toList_ofList, List.map_append, ← hshift,
    Text.size, String.toList_ofList]
  rfl

end CssWorkbench
