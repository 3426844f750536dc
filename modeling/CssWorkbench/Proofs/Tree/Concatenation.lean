import Mathlib
import CssWorkbench.Proofs.Token.FirmCut
import CssWorkbench.Proofs.Tree.ReadingOfParser
import CssWorkbench.Proofs.Tree.Runs
import CssWorkbench.Proofs.Tree.Shift

/-!
# Parsing two stylesheets in a row

A reading without errors has closed each block and ended each statement itself, so what stands
behind it has no part in it. Behind a stylesheet of which the last token ends a statement any text,
malformed or not, is parsed as if it stood alone: its nodes and its errors are moved by the length
of the text in front, and nothing else changes.
-/

namespace CssWorkbench

variable {halts : TokenKind → Bool} {count : Nat → TokenKind → Nat} {depth stop stop' n : Nat}
  {e e' : Nat} {t u opener : Token} {ts us run inner left rest rest' : List Token} {node : Node}
  {nodes more : List Node} {make : List Node → Span → Node} {errors errors' : List SyntaxError}

/-- A run that a token halts is taken whatever stands behind that token. -/
theorem takeRun_inFrontOf (h : takeRun halts count depth ts = (run, u :: left))
    (us : List Token) :
    takeRun halts count depth (ts ++ us) = (run, u :: left ++ us) := by
  obtain ⟨hinside, hhalt⟩ := takeRun_inside_zero h
  rw [takeRun_eq_append h, List.append_assoc]
  exact takeRun_of_inside hinside hhalt (left ++ us)

/-- The blanks in front of a token end there whatever stands behind. -/
theorem dropBlanks_inFrontOf (h : ts.dropWhile (·.is .whitespace) = u :: left) (us : List Token) :
    (ts ++ us).dropWhile (·.is .whitespace) = u :: left ++ us := by
  rw [List.dropWhile_append, h]
  rfl

/-- Whether a declaration starts is known at the first token behind the blanks. -/
theorem startsDeclaration_inFrontOf (hu : u ∈ ts) (hkind : u.kind ≠ .whitespace) (us : List Token) :
    StartsDeclaration t (ts ++ us) ↔ StartsDeclaration t ts := by
  have hne : ts.dropWhile (·.is .whitespace) ≠ [] := by
    intro hnil
    have hblank := List.dropWhile_eq_nil_iff.mp hnil u hu
    exact hkind (by simpa [Token.is] using hblank)
  obtain ⟨v, left, hdrop⟩ := List.exists_cons_of_ne_nil hne
  rw [StartsDeclaration, StartsDeclaration, dropBlanks_inFrontOf hdrop us, hdrop]
  simp

/-- An at-rule that is read without errors is read so in front of other tokens, too. -/
theorem ReadsStatement.inFrontOf (h : ReadsStatement stop t ts node left []) (stop' : Nat)
    (us : List Token) : ReadsStatement stop' t (ts ++ us) node (left ++ us) [] := by
  cases h with
  | ended run kind => exact .ended (takeRun_inFrontOf run us) kind

/-- A block opens behind the same head whatever stands further on. -/
theorem Heads.inFrontOf (h : Heads n t ts opener inner make) (us : List Token) :
    Heads n t (ts ++ us) opener (inner ++ us) make := by
  cases h with
  | atRule keyword run brace => exact .atRule keyword (takeRun_inFrontOf run us) brace
  | bare brace => exact .bare brace
  | ruleset leads notBrace notDeclared run brace =>
    refine .ruleset leads notBrace (fun hn hdecl => ?_) (takeRun_inFrontOf run us) brace
    have hopener : opener ∈ ts := by simp [takeRun_eq_append run]
    have hkind : opener.kind ≠ .whitespace := by simp [brace]
    exact notDeclared hn ((startsDeclaration_inFrontOf hopener hkind us).mp hdecl)

/-- How a reading without errors that ends at `e` and leaves `rest` goes on when `us` is put behind
its tokens: outside blocks what is read of `us` follows, and a block is closed before `us`. -/
inductive GoesOn (stop : Nat) (us : List Token) : Nat → Nat → List Token →
    List Node → Nat → List Token → List SyntaxError → Prop
  | outside {e e' : Nat} {rest rest' : List Token} {more : List Node} {errors : List SyntaxError}
      (behind : Reads stop 0 us more e' rest' errors) :
      GoesOn stop us 0 e rest more e' rest' errors
  | closed {n e : Nat} {rest : List Token} : GoesOn stop us (n + 1) e rest [] e (rest ++ us) []

/-- A declaration in a block that is read without errors ends at a token, so what stands behind
the block is not looked at. -/
theorem declaration_inFrontOf {behindColon : List Token}
    (value : takeValue (behindColon.dropWhile (·.is .whitespace)) = (run, left))
    (behind : Reads stop (n + 1) (takeSemicolon left).2 nodes e rest []) (us : List Token) :
    takeValue ((behindColon ++ us).dropWhile (·.is .whitespace)) = (run, left ++ us) ∧
      (takeSemicolon (left ++ us)).1 = (takeSemicolon left).1 ∧
      (takeSemicolon (left ++ us)).2 = (takeSemicolon left).2 ++ us := by
  obtain ⟨u, left, rfl⟩ : ∃ u left', left = u :: left' := by
    refine List.exists_cons_of_ne_nil ?_
    rintro rfl
    exact behind.ne_nil rfl rfl
  have hdrop : behindColon.dropWhile (·.is .whitespace) ≠ [] := by
    intro hnil
    rw [hnil] at value
    cases value
  obtain ⟨v, front, hfront⟩ := List.exists_cons_of_ne_nil hdrop
  have htake : takeValue ((behindColon ++ us).dropWhile (·.is .whitespace)) =
      (run, u :: left ++ us) := by
    rw [dropBlanks_inFrontOf hfront us, ← hfront]
    exact takeRun_inFrontOf value us
  refine ⟨htake, ?_⟩
  by_cases hsemi : u.kind = .semicolon
  · simp [takeSemicolon, hsemi]
  · simp [takeSemicolon, hsemi]

/-- What is read of tokens without errors is read of them again in front of any others. -/
theorem Reads.inFrontOf (h : Reads stop n ts nodes e rest errors) (hclean : errors = [])
    (hbehind : GoesOn stop' us n e rest more e' rest' errors') :
    Reads stop' n (ts ++ us) (nodes ++ more) e' rest' errors' := by
  induction h generalizing more e' rest' errors' with
  | finish =>
    cases hbehind with
    | outside behind => exact behind
  | unclosed => cases hclean
  | close kind =>
    cases hbehind with
    | closed => exact .close kind
  | stray => cases hclean
  | pass kind _ ih => exact .pass kind (ih hclean hbehind)
  | comment kind _ ih => exact .comment kind (ih hclean hbehind)
  | @declaration n t colon ts behindColon run left _ _ _ _ kind gap colonKind value behind ih =>
    subst hclean
    obtain ⟨hvalue, hsemi, hleft⟩ := declaration_inFrontOf value behind us
    have hread := ih rfl hbehind
    rw [← hleft] at hread
    rw [← hsemi]
    exact .declaration kind (dropBlanks_inFrontOf gap us) colonKind hvalue hread
  | statement keyword rule _ ih =>
    obtain ⟨rfl, hclean⟩ := List.append_eq_nil_iff.mp hclean
    have hrule := rule.inFrontOf stop' us
    exact .statement keyword hrule (ih hclean hbehind)
  | block head shallow _ _ ihBody ih =>
    obtain ⟨hinside, hclean⟩ := List.append_eq_nil_iff.mp hclean
    have hbody := ihBody hinside .closed
    rw [List.append_nil] at hbody
    exact .block (head.inFrontOf us) shallow hbody (ih hclean hbehind)
  | deepBlock => cases hclean
  | broken => cases hclean

/-- Behind a stylesheet without errors whose last token ends a statement, any source is parsed as
it is alone: its nodes follow those of the stylesheet and its errors are the only ones, all of them
moved by the length of the stylesheet. -/
theorem parse_append {front : String} (hclean : (parse front).2 = [])
    (hlast : EndsStatement (scan front).dropLast) (behind : String) :
    parse (front ++ behind) =
      (⟨⟨0, Text.size front + Text.size behind⟩, (parse front).1.children ++
          shiftNodes (Text.size front) (parse behind).1.children⟩,
        (parse behind).2.map (SyntaxError.shift (Text.size front))) := by
  have hscan : (scan (front ++ behind)).dropLast = (scan front).dropLast ++
      (scan behind).dropLast.map (Token.shift (Text.size front)) := by
    rw [dropLast_scan] at hlast
    rw [dropLast_scan, dropLast_scan, dropLast_scan, String.toList_append,
      tokensFrom_append hlast, ← tokensFrom_add, Nat.zero_add, Nat.add_zero]
    rfl
  have hbehind := (reads_parse behind).shift (Text.size front)
  have hread := (reads_parse front).inFrontOf hclean (.outside hbehind)
  have hsize : Text.size (front ++ behind) = Text.size front + Text.size behind := by
    rw [Text.size, String.toList_append, Text.byteLength_append]
    rfl
  rw [← hscan, ← hsize] at hread
  rw [← hsize]
  exact parse_eq_of_reads hread

/-- A rule in an at-rule, with a stray brace and a block that is not closed behind it. -/
theorem parse_append_of_malformed :
    (parse "@media x \x7ba\x7bb:c;\x7d\x7d").2 = [] ∧
      EndsStatement (scan "@media x \x7ba\x7bb:c;\x7d\x7d").dropLast ∧
      parse ("@media x \x7ba\x7bb:c;\x7d\x7d" ++ "\x7d d\x7be:f") =
        (⟨⟨0, 18 + 7⟩, (parse "@media x \x7ba\x7bb:c;\x7d\x7d").1.children ++
            shiftNodes 18 (parse "\x7d d\x7be:f").1.children⟩,
          [⟨.strayBlockEnd, ⟨18, 19⟩⟩, ⟨.expectedBlockEnd, ⟨25, 25⟩⟩]) := by
  have hclean : (parse "@media x \x7ba\x7bb:c;\x7d\x7d").2 = [] := by cbv
  have hkind : (scan "@media x \x7ba\x7bb:c;\x7d\x7d").dropLast.getLast?.map Token.kind =
      some .rbrace := by cbv
  have hlast : EndsStatement (scan "@media x \x7ba\x7bb:c;\x7d\x7d").dropLast := by
    intro t ht
    rw [ht] at hkind
    exact .inl (Option.some.inj hkind)
  have hfront : Text.size "@media x \x7ba\x7bb:c;\x7d\x7d" = 18 := by cbv
  have hbehind : Text.size "\x7d d\x7be:f" = 7 := by cbv
  have herrors : (parse "\x7d d\x7be:f").2.map (SyntaxError.shift 18) =
      [⟨.strayBlockEnd, ⟨18, 19⟩⟩, ⟨.expectedBlockEnd, ⟨25, 25⟩⟩] := by cbv
  have hparse := parse_append hclean hlast "\x7d d\x7be:f"
  rw [hfront, hbehind, herrors] at hparse
  exact ⟨hclean, hlast, hparse⟩

end CssWorkbench
