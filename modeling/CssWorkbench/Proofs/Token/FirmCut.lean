import CssWorkbench.Proofs.Token.Tail

/-!
# Cutting a source behind a firm token

What stands in front of a firm token and the token itself are read as they were, whatever is put
behind them, as long as something stood there before: only then is a comment known to be closed.

So a text whose last token is a `}` or a `;` is scanned in the same way whatever is written behind
it, as no token reaches over such an end and none looks past it. What is written behind is scanned as
if it stood alone, only that its tokens are moved by the length of the text in front.
-/

namespace CssWorkbench

variable {offset : Nat} {c : Char} {cs ds part behind : List Char} {t : Token}
  {ts us gap : List Token} {x : Lexeme}

/-- Only the empty text has no tokens. -/
theorem tokensFrom_eq_nil_iff : tokensFrom offset cs = [] ↔ cs = [] := by
  cases cs with
  | nil => simp
  | cons c cs => simp [tokensFrom_cons]

/-- The front of a text that is read as the tokens, whatever stands behind it. -/
structure FirmFront (offset : Nat) (front : List Char) (ts : List Token) : Prop where
  solid : ∀ c ∈ front.getLast?, Text.isAsciiBlank c = false
  tokens : ∀ ds, tokensFrom offset (front ++ ds) =
    ts ++ tokensFrom (offset + Text.byteLength front) ds

/-- A firm token that is closed and no blank ends with none. -/
theorem IsLexeme.getLast?_of_firm (hx : IsLexeme c cs x) (hfirm : x.kind.isFirm = true)
    (hsolid : x.kind ≠ .whitespace) (hclosed : x.IsClosed) :
    ∀ d ∈ x.taken.getLast?, Text.isAsciiBlank d = false := by
  have hconcat : ∀ {front : List Char} {d : Char}, Text.isAsciiBlank d = false →
      ∀ e ∈ (front ++ [d]).getLast?, Text.isAsciiBlank e = false := by
    intro front d hd e he
    rw [List.getLast?_concat] at he
    rwa [← Option.some.inj he]
  cases hx.firm (.inl hfirm) with
  | blank => exact absurd rfl hsolid
  | @comment body =>
    obtain ⟨front, hfront⟩ := List.getLast?_eq_some_iff.mp
      (getLast?_commentTail (hclosed.rest_ne_nil nofun))
    simp only [hfront, ← List.cons_append]
    exact hconcat rfl
  | cdo => exact @hconcat ['<', '!', '-'] '-' rfl
  | cdc => exact @hconcat ['-', '-'] '>' rfl
  | var bare ident hfunction =>
    rw [hfunction] at hfirm
    cases hfirm
  | bracket inert notBlank => exact @hconcat [] c (Bool.eq_false_iff.mpr notBlank)

/-- A quote that comes next still does in front of another text. -/
theorem quotedNext_append (h : quotedNext cs = true) (ds : List Char) :
    quotedNext (cs ++ ds) = true := by
  induction cs with
  | nil => cases h
  | cons c cs ih =>
    rw [quotedNext, List.dropWhile_cons] at h
    rw [quotedNext, List.cons_append, List.dropWhile_cons]
    by_cases hblank : Text.isAsciiBlank c = true
    · rw [if_pos hblank] at h ⊢
      exact ih h
    · rw [if_neg hblank] at h ⊢
      exact h

/-- Of a text with a quote next the front has the quote, or it is nothing but blanks. -/
theorem quotedNext_take (h : quotedNext (part ++ behind) = true) :
    quotedNext part = true ∨ ∀ c ∈ part, Text.isAsciiBlank c = true := by
  rw [quotedNext, List.dropWhile_append] at h
  split at h
  · rename_i hblank
    exact .inr (List.dropWhile_eq_nil_iff.mp (List.isEmpty_iff.mp hblank))
  · rename_i hrest
    rw [List.isEmpty_iff] at hrest
    rw [List.head?_append_of_ne_nil _ hrest] at h
    exact .inl h

/-- Blanks alone are read as blanks. -/
theorem kind_of_mem_blanks (h : ∀ c ∈ cs, Text.isAsciiBlank c = true) :
    ∀ t ∈ tokensFrom offset cs, t.kind = .whitespace := by
  obtain ⟨gap, offset', htokens, hgap, -⟩ := @tokensFrom_blanks [] cs h rfl offset
  rw [List.append_nil, tokensFrom_nil, List.append_nil] at htokens
  rwa [htokens]

/-- The front by itself has its tokens. -/
theorem FirmFront.alone {front : List Char} (h : FirmFront offset front ts) :
    tokensFrom offset front = ts := by
  have htokens := h.tokens []
  rwa [List.append_nil, tokensFrom_nil, List.append_nil] at htokens

/-- Where a quote comes next, it stands in front of a token that is no blank. -/
theorem FirmFront.quotedNext {front : List Char} (h : FirmFront offset front (ts ++ [t]))
    (hsolid : t.kind ≠ .whitespace) (hquote : quotedNext (front ++ behind) = true)
    (ds : List Char) : CssWorkbench.quotedNext (front ++ ds) = true := by
  rcases quotedNext_take hquote with hfront | hblank
  · exact quotedNext_append hfront ds
  · refine absurd (@kind_of_mem_blanks offset front hblank t ?_) hsolid
    rw [h.alone]
    exact List.mem_append_right _ List.mem_cons_self

/-- A text can be cut behind a firm token that is no blank. -/
theorem exists_firm_cut (h : tokensFrom offset cs = ts ++ t :: us) (hfirm : t.kind.isFirm = true)
    (hsolid : t.kind ≠ .whitespace)
    (hends : us ≠ [] ∨ t.kind = .rbrace ∨ t.kind = .semicolon) :
    ∃ front behind, cs = front ++ behind ∧ us = tokensFrom (offset + Text.byteLength front) behind ∧
      FirmFront offset front (ts ++ [t]) ∧ ∀ ds, Alike 3 (front ++ behind) (front ++ ds) := by
  induction ts generalizing offset cs with
  | nil =>
    cases cs with
    | nil => simp at h
    | cons c cs =>
      have hx := isLexeme_lexeme c cs
      rw [tokensFrom_eq_cons hx] at h
      generalize lexeme c cs = x at hx h
      obtain ⟨rfl, rfl⟩ := List.cons.inj h
      have hclosed : x.IsClosed := hends.imp_left fun hne hnil =>
        hne (by rw [hnil, tokensFrom_nil])
      obtain ⟨front, htaken, hcs, -⟩ := hx.split hx.append
      refine ⟨x.taken, x.rest, hx.append.symm, rfl,
        ⟨hx.getLast?_of_firm hfirm hsolid hclosed, fun ds => ?_⟩, fun ds => ?_⟩
      · have hes : x.taken ++ ds = c :: (front ++ ds) := by rw [htaken, List.cons_append]
        rw [hes, tokensFrom_eq_cons (hx.sequel_of_firm (.inl hfirm) hclosed (absurd · hsolid) hes)]
        rfl
      · rcases hx.shape_of_firm (.inl hfirm) hclosed with hinert | ⟨hlength, hslash, hrest⟩
        · rw [hx.append, htaken]
          exact .inert (List.cons_ne_nil _ _) hinert
        · exact .of_length_le hlength hrest (absurd · hslash)
  | cons u ts ih =>
    cases cs with
    | nil => simp at h
    | cons c cs =>
      have hx := isLexeme_lexeme c cs
      rw [tokensFrom_eq_cons hx] at h
      generalize lexeme c cs = x at hx h
      obtain ⟨rfl, hbehind⟩ := List.cons.inj h
      obtain ⟨front, behind, hrest, hus, hfront, halike⟩ := ih hbehind
      have hfrontNe : front ≠ [] := by
        rintro rfl
        have halone := hfront.alone
        simp at halone
      have hsame : ∀ ds, SameNext x.rest (front ++ ds) := fun ds => by
        rw [hrest]
        exact .append (absurd · hfrontNe)
      obtain ⟨lead, htaken, -, -⟩ := hx.split hx.append
      refine ⟨x.taken ++ front, behind, ?_, ?_, ⟨?_, fun ds => ?_⟩, fun ds => ?_⟩
      · rw [List.append_assoc, ← hrest, hx.append]
      · rw [hus, Text.byteLength_append, Nat.add_assoc]
      · rw [List.getLast?_append_of_ne_nil _ hfrontNe]
        exact hfront.solid
      · have hes : x.taken ++ (front ++ ds) = c :: (lead ++ (front ++ ds)) := by
          rw [htaken, List.cons_append]
        have hprecedes : x.Precedes (front ++ ds) := by
          refine ⟨hrest ▸ halike ds, fun _ => hsame ds, fun _ => ?_, fun hkind hurl => ?_⟩
          · rw [hrest, List.head?_append_of_ne_nil _ hfrontNe,
              List.head?_append_of_ne_nil _ hfrontNe]
          · exact hfront.quotedNext hsolid (hrest ▸ hx.quotedNext_of_url hkind hurl) ds
        rw [List.append_assoc, hes, tokensFrom_eq_cons (hx.sequel hprecedes hes),
          Lexeme.inFrontOf, hfront.tokens, Text.byteLength_append, Nat.add_assoc]
        rfl
      · rw [List.append_assoc, List.append_assoc, ← hrest]
        exact (hrest ▸ halike ds).append fun _ => hsame ds

/-- A text whose tokens go on behind some of them is cut there. -/
theorem exists_split (h : tokensFrom offset cs = ts ++ us) :
    ∃ part behind, cs = part ++ behind ∧ us = tokensFrom (offset + Text.byteLength part) behind ∧
      Tiles offset (offset + Text.byteLength part) ts := by
  induction ts generalizing offset cs with
  | nil => exact ⟨[], cs, rfl, h.symm, rfl⟩
  | cons t ts ih =>
    cases cs with
    | nil => simp at h
    | cons c cs =>
      rw [tokensFrom_cons] at h
      obtain ⟨rfl, hrest⟩ := List.cons.inj h
      obtain ⟨part, behind, hpart, hus, htiles⟩ := ih hrest
      refine ⟨(lexeme c cs).taken ++ part, behind, ?_, ?_, rfl, ?_, ?_⟩
      · rw [List.append_assoc, ← hpart, lexeme_append]
      · rw [hus, Text.byteLength_append, Nat.add_assoc]
      · exact Nat.lt_add_of_pos_right (byteLength_taken_pos c cs)
      · rw [Text.byteLength_append, ← Nat.add_assoc]
        exact htiles

/-- Blanks in front of the other tokens are the blanks in front of their text. -/
theorem exists_split_blanks (h : tokensFrom offset cs = gap ++ us)
    (hgap : ∀ t ∈ gap, t.kind = .whitespace) :
    ∃ blanks behind, cs = blanks ++ behind ∧ (∀ c ∈ blanks, Text.isAsciiBlank c = true) ∧
      us = tokensFrom (offset + Text.byteLength blanks) behind := by
  induction gap generalizing offset cs with
  | nil => exact ⟨[], cs, rfl, by simp, h.symm⟩
  | cons t gap ih =>
    cases cs with
    | nil => simp at h
    | cons c cs =>
      have hx := isLexeme_lexeme c cs
      rw [tokensFrom_eq_cons hx] at h
      generalize lexeme c cs = x at hx h
      obtain ⟨rfl, hrest⟩ := List.cons.inj h
      obtain ⟨hkind, hgap⟩ := List.forall_mem_cons.mp hgap
      obtain ⟨blanks, behind, hblanks, hall, hus⟩ := ih hrest hgap
      have htaken : ∀ d ∈ x.taken, Text.isAsciiBlank d = true := by
        have hblank := @IsLexeme.blank c cs (hx.isAsciiBlank_iff.mpr hkind)
        rw [← hx.lexeme_eq, hblank.lexeme_eq]
        exact List.all_eq_true.mp List.all_takeWhile
      refine ⟨x.taken ++ blanks, behind, ?_, List.forall_mem_append.mpr ⟨htaken, hall⟩, ?_⟩
      · rw [List.append_assoc, ← hblanks, hx.append]
      · rw [hus, Text.byteLength_append, Nat.add_assoc]

/-! ## Two texts in a row -/

/-- The span `k` bytes further on. -/
def Span.shift (k : Nat) (s : Span) : Span := ⟨k + s.start, k + s.stop⟩

/-- The token `k` bytes further on. -/
def Token.shift (k : Nat) (t : Token) : Token := { t with span := t.span.shift k }

/-- The last token, if there is any, ends a statement or a block. -/
def EndsStatement (ts : List Token) : Prop :=
  ∀ t ∈ ts.getLast?, t.kind = .rbrace ∨ t.kind = .semicolon

/-- A text that is scanned further on has its tokens further on. -/
theorem tokensFrom_add (k offset : Nat) (cs : List Char) :
    tokensFrom (k + offset) cs = (tokensFrom offset cs).map (Token.shift k) := by
  fun_induction scanFrom offset cs with
  | case1 offset => simp
  | case2 offset c cs ih =>
    rw [tokensFrom_cons, tokensFrom_cons, List.map_cons, Nat.add_assoc, ih, Lexeme.token,
      Lexeme.token, Token.shift, Span.shift, Nat.add_assoc]

/-- The tokens of a text whose last token ends a statement do not change with what is written
behind it, and that is scanned as if it stood alone. -/
theorem tokensFrom_append (h : EndsStatement (tokensFrom offset cs)) (ds : List Char) :
    tokensFrom offset (cs ++ ds) =
      tokensFrom offset cs ++ tokensFrom (offset + Text.byteLength cs) ds := by
  obtain hnil | ⟨ts, t, htokens⟩ := List.eq_nil_or_concat (tokensFrom offset cs)
  · obtain rfl := tokensFrom_eq_nil_iff.mp hnil
    simp
  · rw [List.concat_eq_append] at htokens
    have hends := h t (by rw [htokens, List.getLast?_concat]; rfl)
    have hfirm : t.kind.isFirm = true ∧ t.kind ≠ .whitespace := by
      rcases hends with hk | hk <;> rw [hk] <;> decide
    obtain ⟨front, behind, rfl, hbehind, hfront, -⟩ :=
      exists_firm_cut htokens hfirm.1 hfirm.2 (.inr hends)
    obtain rfl := tokensFrom_eq_nil_iff.mp hbehind.symm
    rw [List.append_nil, hfront.tokens, hfront.alone]

end CssWorkbench
