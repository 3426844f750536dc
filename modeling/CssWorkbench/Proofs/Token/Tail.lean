import Mathlib.Data.List.TakeWhile
import CssWorkbench.Proofs.Token.Coverage
import CssWorkbench.Proofs.Token.FirmSequel

/-!
# The tokens from some place on

`TailOf source ts cs` says that `ts` are the tokens of the source from some place on, and `cs` the
characters from there. A tail is taken apart token by token: the first one is read off the front of
the characters, and what is left is a tail again.
-/

namespace CssWorkbench

variable {source : String} {t : Token} {ts us : List Token} {c : Char} {cs ds blanks : List Char}
  {x : Lexeme} {offset : Nat}

/-- The first token is that of the first lexeme, and the others are those behind it. -/
theorem tokensFrom_eq_cons (hx : IsLexeme c cs x) (offset : Nat) :
    tokensFrom offset (c :: cs) =
      x.token offset :: tokensFrom (offset + Text.byteLength x.taken) x.rest := by
  rw [tokensFrom_cons, hx.lexeme_eq]

/-- The tokens of a source from some place on, and the characters from there. -/
structure TailOf (source : String) (ts : List Token) (cs : List Char) : Prop where
  tokens : ∃ front, tokensFrom 0 source.toList = front ++ ts
  text : ∃ before, source.toList = before ++ cs ∧ ts = tokensFrom (Text.byteLength before) cs

/-- All tokens of a source are those from its start on. -/
theorem tailOf_source (source : String) :
    TailOf source (tokensFrom 0 source.toList) source.toList :=
  ⟨⟨[], rfl⟩, [], rfl, rfl⟩

/-- A token of a source, as it was read in front of what follows. -/
structure ReadAs (source : String) (t : Token) (x : Lexeme) : Prop where
  kind : t.kind = x.kind
  value : t.value = String.ofList x.value
  text : (t.text source).toList = x.taken

/-- The first token of a tail is read off its characters, and a tail is left. -/
theorem TailOf.cons (h : TailOf source (t :: ts) cs) :
    ∃ c front x, cs = c :: front ∧ IsLexeme c front x ∧ ReadAs source t x ∧
      TailOf source ts x.rest := by
  obtain ⟨⟨front, hfront⟩, before, hsource, htokens⟩ := h
  cases cs with
  | nil =>
    rw [tokensFrom_nil] at htokens
    cases htokens
  | cons c cs =>
    have hx := isLexeme_lexeme c cs
    have happend := hx.append
    rw [tokensFrom_cons] at htokens
    obtain ⟨rfl, hts⟩ := List.cons.inj htokens
    rw [← happend, ← List.append_assoc] at hsource
    refine ⟨c, cs, _, rfl, hx, ⟨rfl, rfl, ?_⟩,
      ⟨front ++ [(lexeme c cs).token (Text.byteLength before)], ?_⟩,
      before ++ (lexeme c cs).taken, hsource, by rw [Text.byteLength_append, hts]⟩
    · rw [text_of_toList_eq (hsource.trans (List.append_assoc ..)) rfl rfl, String.toList_ofList]
    · rw [hfront, List.append_assoc, List.singleton_append]

/-- The tokens behind the first one are those from its end on. -/
theorem TailOf.tail (h : TailOf source (t :: ts) cs) : ∃ ds, TailOf source ts ds := by
  obtain ⟨_, _, x, _, _, _, hrest⟩ := h.cons
  exact ⟨x.rest, hrest⟩

/-- The tokens behind some others are those from their end on. -/
theorem TailOf.append (h : TailOf source (ts ++ us) cs) : ∃ ds, TailOf source us ds := by
  induction ts generalizing cs with
  | nil => exact ⟨cs, h⟩
  | cons t ts ih =>
    obtain ⟨_, hrest⟩ := h.tail
    exact ih hrest

/-- What is left of a source stands in it. -/
theorem TailOf.mem_source (h : TailOf source ts cs) (hc : c ∈ cs) : c ∈ source.toList := by
  obtain ⟨-, before, hsource, -⟩ := h
  rw [hsource]
  exact List.mem_append_right _ hc

/-- The tokens from some place on are among all tokens. -/
theorem TailOf.mem_tokens (h : TailOf source ts cs) (ht : t ∈ ts) :
    t ∈ tokensFrom 0 source.toList := by
  obtain ⟨⟨front, hfront⟩, -⟩ := h
  rw [hfront]
  exact List.mem_append_right _ ht

/-- Where tokens are left there are characters. -/
theorem TailOf.ne_nil (h : TailOf source ts cs) (hts : ts ≠ []) : cs ≠ [] := by
  obtain ⟨-, before, -, htokens⟩ := h
  rintro rfl
  exact hts (htokens.trans (tokensFrom_nil _))

/-- The tokens of a tail tile the rest of the source. -/
theorem TailOf.tiles (h : TailOf source ts cs) :
    ∃ start stop, Tiles start stop ts := by
  obtain ⟨-, before, -, rfl⟩ := h
  exact ⟨_, _, tiles_tokensFrom _ _⟩

/-- What is written without an escape spells itself. -/
theorem name_value_eq_taken (h : '\\' ∉ (name cs).taken) : (name cs).value = (name cs).taken := by
  fun_induction name cs with
  | case1 => rfl
  | case2 c cs _ ih =>
    have hrest : '\\' ∉ (name cs).taken := fun hmem => h (List.mem_append_right _ hmem)
    exact congrArg (c :: ·) (ih hrest)
  | case3 c cs _ hescape _ =>
    have hc : c = '\\' := by
      by_contra hc
      rw [startsEscape_of_ne hc] at hescape
      cases hescape
    rw [Stretch.after_taken, hc] at h
    exact absurd List.mem_cons_self h
  | case4 => rfl

/-- A space is nothing but blanks. -/
theorem isAsciiBlank_of_mem_space : ∀ c ∈ [' '], Text.isAsciiBlank c = true := fun c hc => by
  rw [List.mem_singleton.mp hc]
  rfl

/-- A line feed is nothing but blanks. -/
theorem isAsciiBlank_of_mem_newline : ∀ c ∈ ['\n'], Text.isAsciiBlank c = true := fun c hc => by
  rw [List.mem_singleton.mp hc]
  rfl

/-- Blanks in front of anything else are one token. -/
theorem tokensFrom_space (hne : blanks ≠ []) (hblanks : ∀ c ∈ blanks, Text.isAsciiBlank c = true)
    (hnext : ds.head?.any Text.isAsciiBlank = false) (offset : Nat) :
    ∃ space offset', tokensFrom offset (blanks ++ ds) = space :: tokensFrom offset' ds ∧
      space.kind = .whitespace ∧ space.value = String.ofList blanks := by
  obtain ⟨c, blanks, rfl⟩ := List.exists_cons_of_ne_nil hne
  have htake : (c :: blanks).takeWhile Text.isAsciiBlank = c :: blanks :=
    List.takeWhile_eq_self_iff.mpr hblanks
  have hx := @isLexeme_blanks c blanks ds (blanks ++ ds) (hblanks c List.mem_cons_self) hnext
    (by rw [htake]; rfl)
  rw [htake] at hx
  exact ⟨_, _, tokensFrom_eq_cons hx offset, rfl, rfl⟩

/-- Blanks that may be missing are a token or none. -/
theorem tokensFrom_blanks (hblanks : ∀ c ∈ blanks, Text.isAsciiBlank c = true)
    (hnext : ds.head?.any Text.isAsciiBlank = false) (offset : Nat) :
    ∃ gap offset', tokensFrom offset (blanks ++ ds) = gap ++ tokensFrom offset' ds ∧
      (∀ t ∈ gap, t.kind = .whitespace) ∧ (gap = [] ↔ blanks = []) := by
  by_cases hne : blanks = []
  · exact ⟨[], offset, by rw [hne]; rfl, by simp, by simp [hne]⟩
  · obtain ⟨space, offset', htokens, hkind, -⟩ := tokensFrom_space hne hblanks hnext offset
    exact ⟨[space], offset', htokens, by simpa using hkind, by simp [hne]⟩

end CssWorkbench
