import Mathlib
import CssWorkbench.Proofs.Token.Cutting
import CssWorkbench.Proofs.Tree.DeclarationPlaces
import CssWorkbench.Proofs.Tree.ReadingOfParser
import CssWorkbench.Proofs.Tree.ValueTokens
import CssWorkbench.Proofs.Workspace.DeclaredValues

/-!
# The stored text of a custom property

A custom property is stored as the text of its value and scanned again where a reference asks for
it. The value of a declaration is cut out between tokens, and never behind an opened `url(`, so that
the tokens come back.
-/

namespace CssWorkbench

variable {source name text : String} {stop n e offset : Nat} {t u colon first last : Token}
  {ts us front run left rest behind : List Token} {c : Char} {cs : List Char} {d : Declaration}
  {nodes : List Node} {errors : List SyntaxError}

/-- The value of the declaration is kept of a run of the tokens, up to a `;`, a `}` or their end. -/
def KeptOfRun (ts : List Token) (d : Declaration) : Prop :=
  ∃ run left, run ++ left <:+ ts ∧ (∀ t ∈ left.head?, haltsValue t.kind = true) ∧
    d.value = Value.ofTokens? (valueTokens run)

/-- Every declaration keeps its value of a run of the tokens that are read. -/
theorem Reads.keptOfRun (h : Reads stop n ts nodes e rest errors) :
    ∀ d ∈ declarationsOf nodes, KeptOfRun ts d := by
  intro d hd
  obtain ⟨t, colon, behind, behindColon, run, left, hsuffix, -, gap, value, -, rfl⟩ := h.readFrom d hd
  obtain ⟨_, _, hhalts⟩ := takeRun_inside value
  exact ⟨run, left, (value_suffix gap value).trans ((List.suffix_cons t behind).trans hsuffix),
    fun u hu => (hhalts u hu).2, rfl⟩

/-- The kinds of a string. -/
def TokenKind.isString : TokenKind → Bool
  | .string | .badString => true
  | _ => false

/-- Behind a place where a quote comes next the first token, blanks aside, is a string. -/
theorem find?_of_quotedNext (h : quotedNext cs = true) (offset : Nat) :
    ∃ s, (tokensFrom offset cs).find? (fun u => u.kind ≠ .whitespace) = some s ∧
      s.kind.isString = true := by
  have hsplit := @List.takeWhile_append_dropWhile _ Text.isAsciiBlank cs
  have hblanks : ∀ c ∈ cs.takeWhile Text.isAsciiBlank, Text.isAsciiBlank c = true := fun c hc =>
    List.all_eq_true.mp List.all_takeWhile c hc
  obtain ⟨gap, offset', htokens, hgap, -⟩ :=
    tokensFrom_blanks hblanks (head?_dropWhile_any Text.isAsciiBlank cs) offset
  rw [hsplit] at htokens
  rw [quotedNext] at h
  cases hrest : cs.dropWhile Text.isAsciiBlank with
  | nil =>
    rw [hrest] at h
    cases h
  | cons q rest =>
    rw [hrest] at h htokens
    have hx := @IsLexeme.string q rest h
    have hskip : gap.find? (fun u => u.kind ≠ .whitespace) = none :=
      List.find?_eq_none.mpr fun u hu => by simp [hgap u hu]
    rw [htokens, List.find?_append, hskip, Option.none_or, tokensFrom_eq_cons hx]
    by_cases hmalformed : (stringTail q rest).malformed = true
    · exact ⟨_, List.find?_cons_of_pos (by simp [Lexeme.token, Lexeme.ofStretch, hmalformed]),
        by simp [Lexeme.token, Lexeme.ofStretch, hmalformed, TokenKind.isString]⟩
    · exact ⟨_, List.find?_cons_of_pos (by simp [Lexeme.token, Lexeme.ofStretch, hmalformed]),
        by simp [Lexeme.token, Lexeme.ofStretch, hmalformed, TokenKind.isString]⟩

/-- Behind a `url(` that stays a function the first token, blanks aside, is a string. -/
theorem TailOf.find?_of_url (h : TailOf source (t :: ts) cs) (hurl : t.isFunction "url" = true) :
    ∃ s, ts.find? (fun u => u.kind ≠ .whitespace) = some s ∧ s.kind.isString = true := by
  obtain ⟨c, front, x, -, hx, ⟨hkind, hvalue, -⟩, -, before, -, rfl⟩ := h.cons
  have htoken : (x.token 0).isFunction "url" = true := by
    rw [Token.isFunction, hkind, hvalue] at hurl
    exact hurl
  obtain ⟨hfunction, hspells⟩ := isFunction_url_iff.mp htoken
  exact find?_of_quotedNext (hx.quotedNext_of_url hfunction hspells) _

/-- What is taken off behind a value and what halts it is no string: no value ends behind an opened
`url(`. -/
theorem not_opensUrl_valueTokens (h : TailOf source (run ++ left) cs)
    (hhalts : ∀ t ∈ left.head?, haltsValue t.kind = true) :
    ¬ opensUrl (valueTokens run) = true := by
  intro hopens
  obtain ⟨front, opener, blanks, hvalue, hopener, hblanks⟩ := opensUrl_iff.mp hopens
  obtain ⟨behind, hrun, hbehind⟩ := valueTokens_append run
  rw [hrun, hvalue, List.append_assoc, List.append_assoc, List.cons_append] at h
  obtain ⟨_, htail⟩ := h.append
  obtain ⟨s, hfirst, hstring⟩ := htail.find?_of_url hopener
  rw [← List.append_assoc, List.find?_append, Option.or_eq_some_iff] at hfirst
  have hno : ¬ s.kind.isString = true := by
    rcases hfirst with hfirst | ⟨-, hfirst⟩
    · rcases List.mem_append.mp (List.mem_of_find?_eq_some hfirst) with hs | hs
      · rw [hblanks s hs]
        decide
      · have hcut := hbehind s hs
        revert hcut
        rw [Token.isTrivia]
        cases s.kind <;> simp [TokenKind.isString]
    · -- The token that halts the value is the first one behind it that is no blank.
      cases left with
      | nil => cases hfirst
      | cons u left =>
        have hhalt := hhalts u rfl
        have hu : u.kind ≠ .whitespace := fun hk => by
          rw [hk] at hhalt
          cases hhalt
        rw [List.find?_cons_of_pos (by simpa using hu)] at hfirst
        rw [← Option.some.inj hfirst]
        revert hhalt
        cases u.kind <;> simp [haltsValue, TokenKind.isString]
  exact hno hstring

/-- Scanned by itself the text gives the tokens, all of them as far from where they stand, with the
end behind them. A string that is cut off there comes back as a string. -/
def RescannedAs (text : String) (ts : List Token) : Prop :=
  ∃ start stop, (scan text).map (Token.shift start) = endLast ts ++ [Token.eof stop]

/-- The text of a value is rescanned as its tokens. -/
theorem KeptOfRun.rescanned (h : KeptOfRun (tokensFrom 0 source.toList) d) :
    RescannedAs (d.valueText source) d.tokens := by
  obtain ⟨run, left, ⟨front, hfront⟩, hhalts, hvalue⟩ := h
  have htail : TailOf source (front ++ (run ++ left)) source.toList := hfront ▸ tailOf_source source
  obtain ⟨cs, hcs⟩ := htail.append
  have hurl := not_opensUrl_valueTokens hcs hhalts
  obtain ⟨behind, hrun, -⟩ := valueTokens_append run
  have htokens : d.tokens = valueTokens run := by
    rw [Declaration.tokens, hvalue]
    exact tokens_of_ofTokens? _
  rw [htokens, Declaration.valueText, hvalue]
  cases hvt : valueTokens run with
  | nil =>
    refine ⟨0, 0, ?_⟩
    simp [Value.ofTokens?, scan, scanFrom, endLast, Token.shift, Span.shift, Token.eof, Span.single]
  | cons t ts =>
    obtain ⟨last, hlast⟩ : ∃ last, (t :: ts).getLast? = some last := ⟨_, List.getLast?_cons⟩
    rw [hrun, hvt, List.append_assoc] at hfront
    rw [hvt] at hurl
    refine ⟨t.start, last.stop, ?_⟩
    simpa only [Value.ofTokens?, List.head?_cons, hlast, spanOfTokens] using
      scan_between hfront.symm rfl hlast hurl

/-- Every declaration of a source has a value that is rescanned as its tokens. -/
theorem rescanned_of_mem_declarations (hd : d ∈ (parse source).1.declarations.map Prod.fst) :
    RescannedAs (d.valueText source) d.tokens := by
  have hreads := reads_parse source
  rw [dropLast_scan] at hreads
  exact (hreads.keptOfRun d hd).rescanned

/-- The text of the last declaration of a name is scanned as its tokens. -/
theorem rescanned_of_last (h : (parse source).1.lastDeclaration? name = some d) :
    RescannedAs (d.valueText source) d.tokens :=
  rescanned_of_mem_declarations (List.mem_of_mem_filter (List.mem_of_mem_filter
    (List.mem_of_getLast? h)))

/-- Tokens of a source that follow one another are scanned again as they are, moved to the front,
when their text is cut out, unless the last one is a string that a line break cuts off or they end
with an opened `url(`, blanks aside. The text that is stored for a custom property is therefore
scanned again as the tokens of its last declaration, and what the index keeps of that text is if no
blank is dropped from it. -/
theorem scan_stable_under_cutting (source : String) :
    (∀ (front run behind : List Token) (first last : Token),
      scan source = front ++ (run ++ behind) → run.head? = some first → run.getLast? = some last →
      (∀ t ∈ run, t.kind ≠ .eof) → last.kind ≠ .badString → opensUrl run = false →
      (scan ((Span.mk first.start last.stop).text source)).map (Token.shift first.start) =
        run ++ [Token.eof last.stop]) ∧
    (∀ name text, ((parse source).1.customValues source).get? name = some text →
      ∃ d, (parse source).1.lastDeclaration? name = some d ∧ RescannedAs text d.tokens) ∧
    (∀ name text, (name, text) ∈ declaredIn source →
      ∃ d, (parse source).1.lastDeclaration? name = some d ∧
        text = Text.trimString (d.valueText source) ∧
        (text = d.valueText source → RescannedAs text d.tokens)) := by
  refine ⟨fun front run behind first last hscan hfirst hlast hends hbroken hurl => ?_,
    fun name text htext => ?_, fun name text hmem => ?_⟩
  · -- The end token stands behind the run, as it is none of the run.
    have hne : behind ≠ [] := by
      rintro rfl
      rw [scan_eq_append, List.append_nil] at hscan
      have hgetLast := congrArg List.getLast? hscan
      rw [List.getLast?_concat, List.getLast?_append, hlast] at hgetLast
      exact hends last (List.mem_of_getLast? hlast) (Option.some.inj hgetLast ▸ rfl)
    have hdrop := congrArg List.dropLast hscan
    rw [dropLast_scan, ← List.append_assoc, List.dropLast_append_of_ne_nil hne,
      List.append_assoc] at hdrop
    have hbetween := scan_between hdrop hfirst hlast (Bool.eq_false_iff.mp hurl)
    rwa [endLast_eq_self fun t ht => by
      rw [hlast] at ht
      exact Option.some.inj ht ▸ hbroken] at hbetween
  · rw [Stylesheet.get?_customValues, Option.map_eq_some_iff] at htext
    obtain ⟨d, hd, rfl⟩ := htext
    exact ⟨d, hd, rescanned_of_last hd⟩
  · obtain ⟨d, hd, rfl⟩ := mem_declaredIn.mp hmem
    refine ⟨d, hd, rfl, fun htrim => ?_⟩
    rw [htrim]
    exact rescanned_of_last hd

/-- A `url(` with its quote, and a value that a line break cuts off, are scanned again. -/
theorem scan_stable_under_cutting_of_quoted_url :
    (scan ((Span.mk 6 14).text "a\x7b--b:url( \"c\" ) \"d\n\x7d")).map (Token.shift 6) =
      [⟨.function, ⟨6, 10⟩, "url"⟩, ⟨.whitespace, ⟨10, 11⟩, " "⟩, ⟨.string, ⟨11, 14⟩, "c"⟩] ++
        [Token.eof 14] ∧
    (∃ d, (parse "a\x7b--b:url( \"c\" ) \"d\n\x7d").1.lastDeclaration? "--b" = some d ∧
      RescannedAs "url( \"c\" ) \"d" d.tokens) ∧
    (∃ d, (parse "a\x7b--b:url( \"c\" ) \"d\n\x7d").1.lastDeclaration? "--b" = some d ∧
      "url( \"c\" ) \"d" = Text.trimString (d.valueText "a\x7b--b:url( \"c\" ) \"d\n\x7d") ∧
      ("url( \"c\" ) \"d" = d.valueText "a\x7b--b:url( \"c\" ) \"d\n\x7d" →
        RescannedAs "url( \"c\" ) \"d" d.tokens)) := by
  obtain ⟨hcut, hvalues, hdeclared⟩ :=
    scan_stable_under_cutting "a\x7b--b:url( \"c\" ) \"d\n\x7d"
  have hindex : declaredIn "a\x7b--b:url( \"c\" ) \"d\n\x7d" =
      [("--b", "url( \"c\" ) \"d")] := by cbv
  refine ⟨?_, hvalues "--b" _ (by cbv), hdeclared "--b" _ (hindex ▸ List.mem_singleton_self _)⟩
  exact hcut [⟨.ident, ⟨0, 1⟩, "a"⟩, ⟨.lbrace, ⟨1, 2⟩, "\x7b"⟩, ⟨.ident, ⟨2, 5⟩, "--b"⟩,
      ⟨.colon, ⟨5, 6⟩, ":"⟩] _
    [⟨.whitespace, ⟨14, 15⟩, " "⟩, ⟨.rparen, ⟨15, 16⟩, ")"⟩, ⟨.whitespace, ⟨16, 17⟩, " "⟩,
      ⟨.badString, ⟨17, 19⟩, "d"⟩, ⟨.whitespace, ⟨19, 20⟩, "\n"⟩, ⟨.rbrace, ⟨20, 21⟩, "\x7d"⟩,
      Token.eof 21]
    ⟨.function, ⟨6, 10⟩, "url"⟩ ⟨.string, ⟨11, 14⟩, "c"⟩ (by cbv) rfl rfl (by decide) (by decide)
    (by cbv)

/-- A `url(` whose quote is cut off is another token, even with a blank left behind it; and the
index drops a blank that is the first character of a name. -/
theorem scan_unstable_of_quote_cut_off :
    (¬ ∀ (source : String) (front run behind : List Token) (first last : Token),
      scan source = front ++ (run ++ behind) → run.head? = some first → run.getLast? = some last →
      (∀ t ∈ run, t.kind ≠ .eof) → last.kind ≠ .badString → last.isFunction "url" = false →
      (scan ((Span.mk first.start last.stop).text source)).map (Token.shift first.start) =
        run ++ [Token.eof last.stop]) ∧
    ¬ ∀ source name text, (name, text) ∈ declaredIn source →
      ∃ d, (parse source).1.lastDeclaration? name = some d ∧ RescannedAs text d.tokens := by
  refine ⟨fun hcut => ?_, fun hdeclared => ?_⟩
  · have h := hcut "url( \"a\"" [] [⟨.function, ⟨0, 4⟩, "url"⟩, ⟨.whitespace, ⟨4, 5⟩, " "⟩]
      [⟨.string, ⟨5, 8⟩, "a"⟩, Token.eof 8] ⟨.function, ⟨0, 4⟩, "url"⟩ ⟨.whitespace, ⟨4, 5⟩, " "⟩
      (by cbv) rfl rfl (by decide) (by decide) (by decide)
    have hurl : scan ((Span.mk 0 5).text "url( \"a\"") = [⟨.url, ⟨0, 5⟩, ""⟩, Token.eof 5] := by cbv
    rw [show (Span.mk (Token.start ⟨.function, ⟨0, 4⟩, "url"⟩)
      (Token.stop ⟨.whitespace, ⟨4, 5⟩, " "⟩)) = ⟨0, 5⟩ from rfl, hurl] at h
    revert h
    decide
  · have hindex : declaredIn "x\x7b--b:\u00a0red\x7d" = [("--b", "red")] := by cbv
    have hlast : ((parse "x\x7b--b:\u00a0red\x7d").1.lastDeclaration? "--b").map
        Declaration.tokens = some [⟨.ident, ⟨6, 11⟩, "\u00a0red"⟩] := by cbv
    have hred : scan "red" = [⟨.ident, ⟨0, 3⟩, "red"⟩, Token.eof 3] := by cbv
    obtain ⟨d, hd, start, stop, hrescanned⟩ :=
      hdeclared _ "--b" "red" (hindex ▸ List.mem_singleton_self _)
    rw [hd, Option.map_some, Option.some.injEq] at hlast
    rw [hred, hlast] at hrescanned
    have hvalue := congrArg (List.map Token.value) hrescanned
    revert hvalue
    simp only [endLast, Token.shift, Token.atEnd, Token.eof, List.map_cons, List.map_nil,
      List.singleton_append]
    decide

end CssWorkbench
