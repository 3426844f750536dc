import Mathlib.Data.List.DropRight
import CssWorkbench.Layout.Text
import CssWorkbench.Proofs.Layout.Bare
import CssWorkbench.Proofs.Token.NameEnds
import CssWorkbench.Proofs.Token.Tail

/-!
# Printing a run of tokens

The tokens of a value, a prelude or a compound are printed with one space where the source has
blanks, and with none in front of a closing parenthesis. `spaced` says which tokens that gives. The
printed text is scanned into just these: what stands behind a token is either what stood there in
the source or a character that no token takes in.
-/

namespace CssWorkbench

/-- The space that is printed between two tokens. -/
def Token.space : Token := ⟨.whitespace, .nowhere, " "⟩

/-- The tokens of a run as they are printed; `gap` says whether blanks stand in front of it. -/
def spaced (gap : Bool) : List Token → List Token
  | [] => []
  | t :: ts =>
    if t.is .whitespace then spaced true ts
    else (if gap && !t.is .rparen then [Token.space] else []) ++ t.bare :: spaced false ts

/-- The characters of a run as they are printed. -/
def spacedText (source : String) (gap : Bool) : List Token → List Char
  | [] => []
  | t :: ts =>
    if t.is .whitespace then spacedText source true ts
    else (if gap && !t.is .rparen then [' '] else []) ++
      ((t.text source).toList ++ spacedText source false ts)

/-- A source without backslashes, comments and strings that break off. -/
structure Plain (source : String) : Prop where
  noSlash : '\\' ∉ source.toList
  tokens : ∀ t ∈ scan source, t.kind ≠ .comment ∧ t.kind ≠ .badString

/-- A source of which no token ends in an escape that is still open, and no string breaks off;
comments and other escapes may stand in it. -/
structure Unbroken (source : String) : Prop where
  escapes : ∀ t ∈ scan source, endsInEscape (t.text source).toList = false
  strings : ∀ t ∈ scan source, t.kind ≠ .badString

/-- A plain source is unbroken. -/
theorem Plain.unbroken {source : String} (h : Plain source) : Unbroken source := by
  refine ⟨fun t ht => ?_, fun t ht => (h.tokens t ht).2⟩
  obtain ⟨before, part, behind, hwhole, hstart, hstop⟩ : ∃ before part behind,
      source.toList = before ++ (part ++ behind) ∧ t.start = Text.byteLength before ∧
        t.stop = t.start + Text.byteLength part := by
    rw [scan_eq_append, List.mem_append, List.mem_singleton] at ht
    rcases ht with ht | rfl
    · obtain ⟨-, before, part, behind, -, hplace⟩ := exists_part_of_mem_tokensFrom [] rfl ht
      exact ⟨before, part, behind, hplace⟩
    · exact ⟨source.toList, [], [], by simp, rfl, rfl⟩
  rw [text_of_toList_eq hwhole hstart hstop, String.toList_ofList, Bool.eq_false_iff]
  intro hopen
  refine h.noSlash ?_
  rw [hwhole]
  exact List.mem_append_right _ (List.mem_append_left _ (mem_of_endsInEscape hopen))

/-- The text starts with a character that ends every token in front of it. -/
def StartsInert (cs : List Char) : Prop :=
  ∃ c ds, cs = c :: ds ∧ isInert c = true

variable {source : String} {t : Token} {ts run rest : List Token} {cs ds blanks left : List Char}
  {gap : Bool}
  {start stop : Nat} {x : Lexeme}

/-- The first token of a text, without its place. -/
theorem tokensFrom_lexeme {c : Char} (hx : IsLexeme c cs x) (offset : Nat) :
    ∃ t offset', tokensFrom offset (c :: cs) = t :: tokensFrom offset' x.rest ∧
      t.bare = ⟨x.kind, .nowhere, String.ofList x.value⟩ :=
  ⟨_, _, tokensFrom_eq_cons hx offset, rfl⟩

/-- A character that is inert and no blank is a token by itself. -/
theorem tokensFrom_inert {c : Char} (hc : isInert c = true) (hblank : Text.isAsciiBlank c = false)
    (ds : List Char) (offset : Nat) :
    ∃ t offset', tokensFrom offset (c :: ds) = t :: tokensFrom offset' ds ∧
      t.kind = punctuationKind c :=
  ⟨_, _, tokensFrom_eq_cons (isLexeme_inert hc (Bool.eq_false_iff.mp hblank)) offset, rfl⟩

/-- Behind a token a run is printed with a blank in front if there was a gap. -/
theorem spacedText_after {last : Token} (h : Tiles start stop ts) (hlast : last.stop ≤ start) :
    (joinTokensAfter source (some last) ts).toList =
      spacedText source (last.stop < start) ts := by
  induction ts generalizing start last with
  | nil => rfl
  | cons t ts ih =>
    obtain ⟨rfl, hpos, hrest⟩ := h
    rw [joinTokensAfter, spacedText]
    split
    · rw [ih hrest (by omega), decide_eq_true (show last.stop < t.stop by omega)]
    · have hself := ih hrest (Nat.le_refl t.stop)
      rw [decide_eq_false (Nat.lt_irrefl t.stop)] at hself
      simp only [Option.any_some, String.toList_append, hself, List.append_assoc]
      split <;> rfl

/-- A run that does not start with a blank is printed as its tokens say. -/
theorem toList_joinTokens (h : Tiles start stop ts)
    (hfirst : ∀ t ∈ ts.head?, t.kind ≠ .whitespace) :
    (joinTokens source ts).toList = spacedText source false ts := by
  cases ts with
  | nil => rfl
  | cons t ts =>
    obtain ⟨rfl, hpos, hrest⟩ := h
    have hself := @spacedText_after source ts _ _ t hrest (Nat.le_refl t.stop)
    rw [decide_eq_false (Nat.lt_irrefl t.stop)] at hself
    have hkind : ¬ t.is .whitespace = true := by simpa [Token.is] using hfirst t rfl
    rw [joinTokens, joinTokensAfter, spacedText, if_neg hkind, if_neg hkind]
    simp [hself]

/-- Nothing but blanks is added or left out. -/
theorem bareTokens_spaced (gap : Bool) (ts : List Token) :
    bareTokens (spaced gap ts) = bareTokens ts := by
  induction ts generalizing gap with
  | nil => rfl
  | cons t ts ih =>
    rw [spaced]
    split
    · rename_i hblank
      rw [ih, bareTokens_cons_blank (by simpa [Token.is] using hblank)]
    · rename_i hblank
      have hkind : t.kind ≠ .whitespace := by simpa [Token.is] using hblank
      have hself : bareTokens (t.bare :: spaced false ts) = t.bare :: bareTokens ts := by
        rw [@bareTokens_cons t.bare hkind, ih]
        rfl
      rw [bareTokens_append, hself, bareTokens_cons hkind]
      split
      · rw [bareTokens_cons_blank rfl]
        rfl
      · rfl

/-- No space is printed at the end of a run. -/
theorem getLast?_spaced (gap : Bool) (ts : List Token) :
    ∀ t ∈ (spaced gap ts).getLast?, t.kind ≠ .whitespace := by
  induction ts generalizing gap with
  | nil => simp [spaced]
  | cons t ts ih =>
    intro u hu
    rw [spaced] at hu
    split at hu
    · exact ih true u hu
    · rename_i hblank
      have hkind : t.kind ≠ .whitespace := by simpa [Token.is] using hblank
      rw [List.getLast?_append_of_ne_nil _ (List.cons_ne_nil _ _), List.getLast?_cons] at hu
      cases hlast : (spaced false ts).getLast? with
      | none =>
        obtain rfl : t.bare = u := by simpa [hlast] using hu
        exact hkind
      | some v =>
        obtain rfl : v = u := by simpa [hlast] using hu
        exact ih false v hlast

/-- The tokens from some place on are tokens of the source. -/
theorem TailOf.mem_scan (htail : TailOf source ts cs) (ht : t ∈ ts) : t ∈ scan source := by
  rw [scan_eq_append]
  exact List.mem_append_left _ (htail.mem_tokens ht)

/-- In a plain source there are neither comments nor strings that break off. -/
theorem Plain.kind (h : Plain source) (htail : TailOf source ts cs) (ht : t ∈ ts) :
    t.kind ≠ .comment ∧ t.kind ≠ .badString :=
  h.tokens t (htail.mem_scan ht)

/-- Behind blanks a space is printed or a closing parenthesis, or nothing more is. -/
theorem startsInert_spaced (htail : TailOf source (run ++ rest) cs) (hds : StartsInert ds) :
    StartsInert (spacedText source true run ++ ds) := by
  induction run generalizing cs with
  | nil => exact hds
  | cons t run ih =>
    obtain ⟨c, front, x, rfl, hx, hread, hrest⟩ := htail.cons
    rw [spacedText]
    split
    · exact ih hrest
    · rename_i hblank
      by_cases hparen : t.is .rparen = true
      · have hkind : x.kind = .rparen := by
          rw [← hread.kind]
          simpa [Token.is] using hparen
        rw [hread.text, @IsLexeme.taken_of_punctuation _ _ _ ')' hx hkind (by decide)]
        exact ⟨')', spacedText source false run ++ ds, by simp [hparen], by decide⟩
      · exact ⟨' ', (t.text source).toList ++ spacedText source false run ++ ds,
          by simp [hparen], by decide⟩

/-- A text that starts with a character that ends every token may stand in the place of any text
that is not empty. -/
theorem StartsInert.alike (h : StartsInert ds) (hne : cs ≠ []) (n : Nat) : Alike n cs ds := by
  obtain ⟨d, es, rfl, hd⟩ := h
  exact .inert hne hd

/-- A token that only a line break can end: a string that breaks off, and a backslash by itself. -/
def Token.needsLineBreak (t : Token) : Bool := t.kind = .badString || t.isDelim '\\'

/-- A token that needs no line break is no string that breaks off and no backslash alone. -/
theorem ReadAs.not_needsLineBreak {c : Char} (hread : ReadAs source t x) (hx : IsLexeme c cs x)
    (ht : t.needsLineBreak = false) : x.kind ≠ .badString ∧ x.taken ≠ ['\\'] := by
  rw [Token.needsLineBreak, Bool.or_eq_false_iff, decide_eq_false_iff_not, hread.kind] at ht
  refine ⟨ht.1, fun hslash => Bool.eq_false_iff.mp ht.2 ?_⟩
  obtain rfl := hx.eq_slash hslash
  simp [Token.isDelim, hread.kind, hread.value, Lexeme.verbatim]

/-- Where no escape is open and no string breaks off, nothing depends on a line break. -/
theorem Unbroken.not_needsLineBreak (h : Unbroken source) (htail : TailOf source (run ++ rest) cs) :
    ∀ t ∈ run, t.needsLineBreak = false := by
  intro t ht
  have hmem := htail.mem_scan (List.mem_append_left rest ht)
  obtain ⟨before, behind, rfl⟩ := List.append_of_mem ht
  rw [List.append_assoc] at htail
  obtain ⟨_, hself⟩ := htail.append
  obtain ⟨c, front, x, -, hx, hread, -⟩ := hself.cons
  rw [Token.needsLineBreak, Bool.or_eq_false_iff, decide_eq_false_iff_not]
  refine ⟨h.strings t hmem, Bool.eq_false_iff.mpr fun hslash => ?_⟩
  have hopen := h.escapes t hmem
  rw [Token.isDelim, Bool.and_eq_true, decide_eq_true_eq, decide_eq_true_eq, hread.kind,
    hread.value, String.toList_ofList] at hslash
  obtain rfl := hx.eq_punctuation (by rw [hslash.1]; rfl)
  rw [hread.text, Lexeme.verbatim, show [c] = ['\\'] from hslash.2] at hopen
  cases hopen

/-- What is printed of a run may stand in the place of the run. -/
theorem alike_spaced (hrun : ∀ t ∈ run, t.needsLineBreak = false)
    (htail : TailOf source (run ++ rest) cs) (hrest : rest ≠ []) (hds : StartsInert ds) :
    Alike 3 cs (spacedText source false run ++ ds) := by
  have hne := htail.ne_nil (List.append_ne_nil_of_right_ne_nil run hrest)
  induction run generalizing cs with
  | nil => exact hds.alike hne 3
  | cons t run ih =>
    obtain ⟨c, front, x, rfl, hx, hread, hbehind⟩ := htail.cons
    rw [spacedText]
    split
    · exact (startsInert_spaced hbehind hds).alike hne 3
    · have hleft := hbehind.ne_nil (List.append_ne_nil_of_right_ne_nil run hrest)
      have hnext := ih (fun u hu => hrun u (List.mem_cons_of_mem t hu)) hbehind hleft
      obtain ⟨hbroken, hslash⟩ := hread.not_needsLineBreak hx (hrun t List.mem_cons_self)
      rw [hread.text, ← hx.append, Bool.false_and, if_neg Bool.false_ne_true, List.nil_append,
        List.append_assoc]
      exact hx.alike_before hleft hbroken hslash hnext

/-- The first character that is no blank is the one of the source. -/
theorem head?_dropWhile_spaced (htail : TailOf source (run ++ rest) cs) (hne : run ≠ [])
    (hlast : ∀ t ∈ run.getLast?, t.kind ≠ .whitespace) (gap : Bool) :
    ((spacedText source gap run ++ ds).dropWhile Text.isAsciiBlank).head? =
      (cs.dropWhile Text.isAsciiBlank).head? := by
  induction run generalizing cs gap with
  | nil => exact absurd rfl hne
  | cons t run ih =>
    obtain ⟨c, front, x, rfl, hx, hread, hbehind⟩ := htail.cons
    rw [spacedText]
    split
    · rename_i hblank
      have hkind : t.kind = .whitespace := by simpa [Token.is] using hblank
      cases run with
      | nil => exact absurd hkind (hlast t rfl)
      | cons u run =>
        rw [ih hbehind (List.cons_ne_nil u run) (by simpa using hlast)]
        have hfirst : Text.isAsciiBlank c = true :=
          hx.isAsciiBlank_iff.mpr (hread.kind.symm.trans hkind)
        rw [← hx.lexeme_eq, lexeme, if_pos hfirst, Lexeme.verbatim, List.dropWhile_idempotent]
    · rename_i hblank
      have hfirst : ¬ Text.isAsciiBlank c = true := by
        rw [hx.isAsciiBlank_iff, ← hread.kind]
        simpa [Token.is] using hblank
      obtain ⟨behind, htaken, -, -⟩ := hx.split hx.append
      have hspace : Text.isAsciiBlank ' ' = true := by decide
      rw [hread.text, htaken, List.dropWhile_cons_of_neg hfirst]
      split <;> simp [hspace, hfirst]

/-- What may be printed behind a run: a character that ends every token, and behind a blank that an
escape takes in nothing that goes on with a name. -/
structure FollowsRun (source : String) (run : List Token) (ds : List Char) : Prop where
  inert : StartsInert ds
  behind : ∀ t ∈ run, endsInEscape (t.text source).toList = true →
    ds.head?.any Text.isAsciiBlank = true → startsNamePart ds.tail = false ∧ ds.tail.head? ≠ some '('

/-- What may be printed behind a run may be printed behind the end of the run. -/
theorem FollowsRun.tail (h : FollowsRun source (t :: run) ds) : FollowsRun source run ds :=
  ⟨h.inert, fun u hu => h.behind u (List.mem_cons_of_mem t hu)⟩

/-- In an unbroken source no token of a run ends in an escape that is still open. -/
theorem Unbroken.closed (h : Unbroken source) (htail : TailOf source (run ++ rest) cs) :
    ∀ t ∈ run, endsInEscape (t.text source).toList = false := fun t ht =>
  h.escapes t (htail.mem_scan (List.mem_append_left rest ht))

/-- Where no escape is open, it is enough that something ends every token. -/
theorem followsRun_of_closed (hclosed : ∀ t ∈ run, endsInEscape (t.text source).toList = false)
    (hds : StartsInert ds) : FollowsRun source run ds := by
  refine ⟨hds, fun t ht hopen => ?_⟩
  rw [hclosed t ht] at hopen
  cases hopen

/-- The blanks in front of `left` that an escape takes in where one is open at the end of a run. -/
structure TakesBlanks (source : String) (run : List Token) (ds blanks left : List Char) : Prop where
  append : ds = blanks ++ left
  blank : ∀ b ∈ blanks, Text.isAsciiBlank b = true
  opened : blanks ≠ [] → ∃ t ∈ run, endsInEscape (t.text source).toList = true

/-- Where no escape is open no blanks are taken in. -/
theorem takesBlanks_nil (source : String) (run : List Token) (ds : List Char) :
    TakesBlanks source run ds [] ds :=
  ⟨rfl, by simp, fun hne => absurd rfl hne⟩

/-- Which blanks are taken in goes by the end of the run. -/
theorem TakesBlanks.cons (h : TakesBlanks source run ds blanks left) (t : Token) :
    TakesBlanks source (t :: run) ds blanks left := by
  refine ⟨h.append, h.blank, fun hne => ?_⟩
  obtain ⟨u, hu, hopen⟩ := h.opened hne
  exact ⟨u, List.mem_cons_of_mem t hu, hopen⟩

/-- Where no escape is open, no blanks are taken in. -/
theorem TakesBlanks.eq_nil (h : TakesBlanks source run ds blanks left)
    (hclosed : ∀ t ∈ run, endsInEscape (t.text source).toList = false) :
    blanks = [] ∧ left = ds := by
  have hnone : blanks = [] := by
    by_contra hne
    obtain ⟨t, ht, hopen⟩ := h.opened hne
    rw [hclosed t ht] at hopen
    cases hopen
  refine ⟨hnone, ?_⟩
  rw [h.append, hnone, List.nil_append]

/-- What is printed behind a token starts with a blank where the source has one, unless it is what
follows the run. -/
theorem head?_spaced_blank (htail : TailOf source (run ++ rest) cs) (hne : run ≠ [])
    (hblank : cs.head?.any Text.isAsciiBlank = false) :
    (spacedText source false run ++ ds).head?.any Text.isAsciiBlank = false := by
  obtain ⟨t, run, rfl⟩ := List.exists_cons_of_ne_nil hne
  obtain ⟨c, front, x, rfl, hx, hread, -⟩ := htail.cons
  obtain ⟨behind, htaken, -, -⟩ := hx.split hx.append
  have hkind : ¬ t.is .whitespace = true := by
    rw [Token.is, decide_eq_true_eq, hread.kind, ← hx.isAsciiBlank_iff]
    exact Bool.eq_false_iff.mp hblank
  rw [spacedText, if_neg hkind, hread.text, htaken]
  exact hblank

/-- A token of a run is read again in front of what is printed of the tokens behind it. An escape
that is open at the end of the run may take in a blank. -/
theorem reads_spaced {c : Char} {front es : List Char}
    (hrun : ∀ u ∈ t :: run, u.needsLineBreak = false)
    (hx : IsLexeme c front x) (hread : ReadAs source t x)
    (hbehind : TailOf source (run ++ rest) x.rest) (hrest : rest ≠ [])
    (hds : FollowsRun source (t :: run) ds) (hkind : t.kind ≠ .whitespace)
    (hlast : ∀ u ∈ (t :: run).getLast?, u.kind ≠ .whitespace ∧ u.kind ≠ .function)
    (hes : x.taken ++ (spacedText source false run ++ ds) = c :: es) :
    ∃ blanks left, IsLexeme c es ⟨x.kind, x.taken ++ blanks, x.value, left⟩ ∧
      spacedText source false run ++ ds = blanks ++ left ∧
      (blanks ≠ [] → run = [] ∧ endsInEscape x.taken = true ∧
        ∀ b ∈ blanks, Text.isAsciiBlank b = true) := by
  have hleft := hbehind.ne_nil (List.append_ne_nil_of_right_ne_nil run hrest)
  obtain ⟨hbroken, hslash⟩ := hread.not_needsLineBreak hx (hrun t List.mem_cons_self)
  have halike := alike_spaced (fun u hu => hrun u (List.mem_cons_of_mem t hu)) hbehind hrest
    hds.inert
  by_cases hopen : endsInEscape x.taken = true
  · -- The token ends in a name, and only what follows the run can start with a blank here.
    have hname := (hx.ends hleft hbroken hslash).resolve_left (by rw [hopen]; decide)
    have hadmits : x.Admits (spacedText source false run ++ ds) := by
      refine ⟨halike, fun hnone hblank => ?_⟩
      by_cases hne : run = []
      · rw [hne] at hblank ⊢
        exact hds.behind t List.mem_cons_self (by rw [hread.text]; exact hopen) hblank
      · rw [head?_spaced_blank hbehind hne hnone] at hblank
        cases hblank
    obtain ⟨blanks, left, htakes, hnew⟩ := hx.before hname.1 hadmits hes
    refine ⟨blanks, left, hnew, htakes.append, fun hne => ⟨?_, hopen, ?_⟩⟩
    · by_contra hrunNe
      refine hne (htakes.eq_nothing fun hblank => ?_).1
      by_contra hnone
      rw [head?_spaced_blank hbehind hrunNe (Bool.eq_false_iff.mpr hnone)] at hblank
      cases hblank
    · exact htakes.isAsciiBlank
  · refine ⟨[], _, ?_, rfl, fun hne => absurd rfl hne⟩
    have hprecedes : x.Precedes (spacedText source false run ++ ds) := by
      refine ⟨halike, ?_, fun hk => absurd hk hbroken, fun hfunction hurl => ?_⟩
      · rintro (hk | hk)
        · exact absurd hk hopen
        · exact absurd (hread.kind.trans hk) hkind
      · have hne : run ≠ [] := by
          rintro rfl
          exact (hlast t rfl).2 (hread.kind.trans hfunction)
        have hend : ∀ u ∈ run.getLast?, u.kind ≠ .whitespace := by
          intro u hu
          refine (hlast u ?_).1
          obtain ⟨v, run, rfl⟩ := List.exists_cons_of_ne_nil hne
          rwa [List.getLast?_cons_cons]
        have hsame := @head?_dropWhile_spaced source run rest x.rest ds hbehind hne hend false
        have hquoted := hx.quotedNext_of_url hfunction hurl
        rw [quotedNext] at hquoted ⊢
        rwa [hsame]
    have hnew := hx.sequel hprecedes hes
    rw [List.append_nil]
    exact hnew

/-- A printed run is scanned into the tokens that were printed, perhaps with blanks that an open
escape at its end takes in. -/
theorem tokensFrom_printed (hrun : ∀ t ∈ run, t.needsLineBreak = false)
    (htail : TailOf source (run ++ rest) cs) (hrest : rest ≠ []) (hds : FollowsRun source run ds)
    (hlast : ∀ t ∈ run.getLast?, t.kind ≠ .whitespace ∧ t.kind ≠ .function) (gap : Bool)
    (offset : Nat) :
    ∃ printed offset' blanks left, tokensFrom offset (spacedText source gap run ++ ds) =
        printed ++ tokensFrom offset' left ∧ printed.map Token.bare = spaced gap run ∧
      TakesBlanks source run ds blanks left := by
  induction run generalizing cs gap offset with
  | nil => exact ⟨[], offset, [], ds, rfl, rfl, takesBlanks_nil source [] ds⟩
  | cons t run ih =>
    obtain ⟨c, front, x, rfl, hx, hread, hbehind⟩ := htail.cons
    have hlast' : ∀ u ∈ run.getLast?, u.kind ≠ .whitespace ∧ u.kind ≠ .function := by
      intro u hu
      refine hlast u ?_
      cases run with
      | nil => cases hu
      | cons v run => rwa [List.getLast?_cons_cons]
    have ihRun := ih (fun u hu => hrun u (List.mem_cons_of_mem t hu)) hbehind hds.tail hlast'
    rw [spacedText, spaced]
    split
    · obtain ⟨printed, offset', blanks, left, htokens, hbare, htakes⟩ := ihRun true offset
      exact ⟨printed, offset', blanks, left, htokens, hbare, htakes.cons t⟩
    · rename_i hblank
      have hkind : t.kind ≠ .whitespace := by simpa [Token.is] using hblank
      obtain ⟨behind, htaken, -, -⟩ := hx.split hx.append
      have hes : x.taken ++ (spacedText source false run ++ ds) =
          c :: (behind ++ (spacedText source false run ++ ds)) := by rw [htaken]; rfl
      obtain ⟨blanks, left, hnew, happend, hend⟩ :=
        reads_spaced hrun hx hread hbehind hrest hds hkind hlast hes
      have hself : ∀ offset, ∃ printed offset' blanks left,
          tokensFrom offset (x.taken ++ (spacedText source false run ++ ds)) =
            printed ++ tokensFrom offset' left ∧
          printed.map Token.bare = t.bare :: spaced false run ∧
          TakesBlanks source (t :: run) ds blanks left := by
        intro offset
        rw [hes, tokensFrom_eq_cons hnew]
        have hbareSelf : (Lexeme.token ⟨x.kind, x.taken ++ blanks, x.value, left⟩ offset).bare =
            t.bare := by
          simp [Token.bare, Lexeme.token, hread.kind, hread.value]
        by_cases hne : blanks = []
        · obtain rfl : spacedText source false run ++ ds = left := by rw [happend, hne]; rfl
          obtain ⟨printed, offset', blanks', left, htokens, hbare, htakes⟩ :=
            ihRun false (offset + Text.byteLength (x.taken ++ blanks))
          refine ⟨_ :: printed, offset', blanks', left, congrArg _ htokens, ?_, htakes.cons t⟩
          rw [List.map_cons, hbare, hbareSelf]
        · obtain ⟨rfl, hopen, hblanks⟩ := hend hne
          exact ⟨[_], _, blanks, left, rfl, congrArg (· :: []) hbareSelf, happend, hblanks,
            fun _ => ⟨t, List.mem_cons_self, by rw [hread.text]; exact hopen⟩⟩
      have hfirst : Text.isAsciiBlank c = false := by
        rw [Bool.eq_false_iff, ne_eq, hx.isAsciiBlank_iff, ← hread.kind]
        exact hkind
      rw [hread.text]
      by_cases hspace : (gap && !t.is .rparen) = true
      · rw [if_pos hspace, if_pos hspace]
        obtain ⟨space, offset', hblank, hspaceKind, hvalue⟩ := @tokensFrom_space
          (x.taken ++ (spacedText source false run ++ ds)) [' '] (by simp)
          isAsciiBlank_of_mem_space
          (by rw [htaken]; exact hfirst) offset
        obtain ⟨printed, offset'', blanks, left, htokens, hbare, htakes⟩ := hself offset'
        have hbareSpace : space.bare = Token.space := by
          rw [Token.bare, hspaceKind, hvalue]
          rfl
        refine ⟨space :: printed, offset'', blanks, left, ?_, ?_, htakes⟩
        · rw [List.append_assoc, List.append_assoc, hblank, htokens, List.cons_append]
        · rw [List.map_cons, hbare, hbareSpace]
          rfl
      · rw [if_neg hspace, if_neg hspace, List.nil_append, List.append_assoc]
        exact hself offset

end CssWorkbench
