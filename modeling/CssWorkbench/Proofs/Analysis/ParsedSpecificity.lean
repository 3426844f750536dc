import CssWorkbench.Proofs.Analysis.SelectorSpecificity
import CssWorkbench.Proofs.Token.Coverage
import CssWorkbench.Proofs.Tree.ReadingOfParser
import CssWorkbench.Proofs.Tree.SelectorBuilding
import Mathlib

/-!
# The specificity of a parsed selector

The parser finds the compounds of a selector in its tokens again, with a combinator between any two
of them, so that the selector it builds is as specific as its tokens are. Where a ruleset starts
with the tokens of one selector, its only selector is this one.
-/

namespace CssWorkbench

namespace SelectorSyntax

/-! ## Over the compounds that the parser finds -/

/-- A selector starts with a token that starts a ruleset. -/
def StartsRuleset (ts : List Token) : Prop :=
  ∃ first behind, ts = first :: behind ∧ first.kind.leads = false ∧ first.kind ≠ .lbrace

/-- A simple selector may start a ruleset. -/
theorem Simple.startsRuleset (s : Simple) (ts : List Token) : StartsRuleset (s.tokens ++ ts) := by
  cases s with
  | cls dot name => exact ⟨_, _, rfl, by rw [Token.kind_of_isDelim dot.2]; decide⟩
  | id name => exact ⟨_, _, rfl, by rw [name.2]; decide⟩
  | attr opener inner closer => exact ⟨_, _, rfl, by rw [opener.2]; decide⟩
  | pseudoClass colon name => exact ⟨_, _, rfl, by rw [colon.2]; decide⟩
  | pseudoElement first second name => exact ⟨_, _, rfl, by rw [first.2]; decide⟩
  | elementFunction first second name inner closer => exact ⟨_, _, rfl, by rw [first.2]; decide⟩
  | classFunction colon name other inner closer => exact ⟨_, _, rfl, by rw [colon.2]; decide⟩
  | selectorFunction colon name counts arguments closer =>
    exact ⟨_, _, rfl, by rw [colon.2]; decide⟩

/-- A compound may start a ruleset. -/
theorem Compound.startsRuleset (s : Compound) : StartsRuleset s.tokens := by
  cases s with
  | typed head behind =>
    cases head with
    | named name => exact ⟨_, _, rfl, by rw [TypeSelector.token, name.2]; decide⟩
    | universal star =>
      exact ⟨_, _, rfl, by rw [TypeSelector.token, Token.kind_of_isDelim star.2]; decide⟩
  | untyped first behind => exact first.startsRuleset _

/-- What may start a ruleset may do so in front of anything. -/
theorem StartsRuleset.append {ts : List Token} (h : StartsRuleset ts) (us : List Token) :
    StartsRuleset (ts ++ us) := by
  obtain ⟨first, behind, rfl, hfirst⟩ := h
  exact ⟨first, behind ++ us, rfl, hfirst⟩

/-- A ruleset does not start with nothing. -/
theorem StartsRuleset.ne_nil {ts : List Token} (h : StartsRuleset ts) : ts ≠ [] := by
  obtain ⟨first, behind, rfl, -⟩ := h
  exact List.cons_ne_nil _ _

/-- A complex selector may start a ruleset. -/
theorem Complex.startsRuleset (s : Complex) : StartsRuleset s.tokens := by
  cases s with
  | compound only => exact only.startsRuleset
  | joined front joint last =>
    exact (front.startsRuleset.append _).append _

variable {parts : List SelectorPart} {tokens : List Token} {total : Specificity}

/-- What the compounds among some parts count together. -/
def partsSpecificity (parts : List SelectorPart) : Specificity :=
  (Selector.mk (Span.single 0) parts).specificity

/-- A compound at the end counts what its tokens count. -/
theorem partsSpecificity_compound (parts : List SelectorPart) (tokens : List Token) :
    partsSpecificity (parts ++ [compoundOf tokens]) =
      partsSpecificity parts + tokensSpecificity tokens := by
  rw [partsSpecificity, Selector.specificity, List.foldl_append]
  rfl

/-- A combinator at the end counts nothing. -/
theorem partsSpecificity_combinator (parts : List SelectorPart) (span : Span) (kind : Combinator) :
    partsSpecificity (parts ++ [.combinator span kind]) = partsSpecificity parts := by
  rw [partsSpecificity, Selector.specificity, List.foldl_append]
  rfl

/-- Some tokens spell parts that count something together, a compound the last of them. -/
def BuildsOf (tokens : List Token) (total : Specificity) : Prop :=
  ∃ parts, Builds tokens parts 0 ∧ EndsInCompound parts ∧ partsSpecificity parts.reverse = total

/-- A compound behind a gap or a combinator is one more part. -/
theorem BuildsOf.joined (h : BuildsOf tokens total) (joint : Joint) (last : Compound) :
    BuildsOf (tokens ++ joint.tokens ++ last.tokens) (total + last.specificity) := by
  obtain ⟨parts, hbuilds, hcompound, htotal⟩ := h
  have hne := last.startsRuleset.ne_nil
  have hsolid := last.compactRun.solid
  have hlast := last.tokensSpecificity_append []
  rw [List.append_nil, tokensSpecificity, Specificity.add_zero] at hlast
  cases joint with
  | descendant blank more =>
    have htrivia : ∀ u ∈ blank.1 :: more.1, u.isTrivia = true := by
      simpa using ⟨blank.2, more.2⟩
    obtain ⟨span, hspan⟩ := exists_spanAround (List.cons_ne_nil blank.1 more.1)
    refine ⟨_, .descendant hbuilds hcompound htrivia hspan hne hsolid, rfl, ?_⟩
    rw [List.reverse_cons, partsSpecificity_compound, List.reverse_cons,
      partsSpecificity_combinator, htotal, hlast]
  | combinator before sign after =>
    obtain ⟨kind, hkind⟩ := Option.isSome_iff_exists.mp sign.2
    have hsign := Builds.combinator hbuilds before.2 hkind
    have hnext := Builds.compound hsign (fun hno => Bool.false_ne_true hno) after.2 hne hsolid
    refine ⟨compoundOf last.tokens :: .combinator sign.1.span kind :: parts, ?_, rfl, ?_⟩
    · simpa [Joint.tokens] using hnext
    · rw [List.reverse_cons, partsSpecificity_compound, List.reverse_cons,
        partsSpecificity_combinator, htotal, hlast]

/-- The tokens of a compound spell parts that count what the compound does. -/
theorem Compound.buildsOf (s : Compound) : BuildsOf s.tokens s.specificity := by
  have hstart : ¬ EndsInCompound [] := by simp [EndsInCompound]
  have hbuilds := @Builds.compound [] [] s.tokens [] 0 .start hstart (by simp)
    s.startsRuleset.ne_nil s.compactRun.solid
  have hcount := s.tokensSpecificity_append []
  rw [List.append_nil, tokensSpecificity, Specificity.add_zero] at hcount
  refine ⟨[compoundOf s.tokens], hbuilds, rfl, ?_⟩
  rw [List.reverse_singleton, ← List.nil_append [compoundOf s.tokens], partsSpecificity_compound,
    hcount]
  exact Specificity.zero_add _

/-- The tokens of a complex selector spell parts that count what the selector does. -/
theorem Complex.buildsOf (s : Complex) : BuildsOf s.tokens s.specificity := by
  cases s with
  | compound only => exact only.buildsOf
  | joined front joint last => exact (Complex.buildsOf front).joined joint last

/-- The parser builds a selector of the tokens of one, blanks and comments behind it or not. -/
theorem Complex.exists_ofTokens? (s : Complex) (gap : Gap) :
    ∃ parsed, Selector.ofTokens? (s.tokens ++ gap.1) = some parsed ∧
      parsed.specificity = s.specificity := by
  obtain ⟨parts, hbuilds, hcompound, htotal⟩ := s.buildsOf
  obtain ⟨parsed, hparsed, hparts⟩ := ofTokens?_of_builds hbuilds hcompound gap.2
  refine ⟨parsed, hparsed, ?_⟩
  rw [← htotal, ← hparts]
  rfl

/-- The tokens of one selector spell a list of one. -/
theorem Complex.selectors_ofTokens (s : Complex) (gap : Gap) (behind : Nat) :
    ((SelectorList.ofTokens (s.tokens ++ gap.1) behind).selectors).map Selector.specificity =
      [s.specificity] := by
  obtain ⟨parsed, hparsed, hcount⟩ := s.exists_ofTokens? gap
  have hinside : Inside partsSelectors TokenKind.inlineDepth 0 (s.tokens ++ gap.1) 0 :=
    (s.innerRun.append (innerRun_gap gap)).inside fun _ inner => inner.notComma
  have hgroups := (CommaGroups.last hinside).splitCommasFrom_eq
  rw [SelectorList.ofTokens, splitCommas, hgroups]
  simp [hparsed, hcount]

end SelectorSyntax

/-! ## The ruleset of a selector -/

section ruleset

variable {stop n e : Nat} {t opener : Token} {ts head inner rest : List Token}
  {nodes : List Node} {errors : List SyntaxError}

/-- A head that starts with neither a keyword nor a brace is the one of a ruleset. -/
theorem Heads.eq_rulesetNode {brace : Token} {behind : List Token}
    {make : List Node → Span → Node} (h : Heads n t ts brace behind make)
    (leads : t.kind.leads = false) (notBrace : t.kind ≠ .lbrace)
    (run : takePrelude (t.kind.inlineDepth 0) ts = (head, opener :: inner)) :
    make = rulesetNode t.start (t :: head) opener := by
  cases h with
  | atRule keyword =>
    rw [keyword] at leads
    cases leads
  | bare isBrace => exact absurd isBrace notBrace
  | ruleset _ _ _ run' =>
    rw [run] at run'
    cases run'
    rfl

/-- Tokens that start with the head of a ruleset are read as the ruleset and more. -/
theorem Reads.exists_ruleset (h : Reads stop n (t :: ts) nodes e rest errors)
    (leads : t.kind.leads = false) (notBrace : t.kind ≠ .lbrace)
    (notDeclared : 0 < n → ¬ StartsDeclaration t ts)
    (run : takePrelude (t.kind.inlineDepth 0) ts = (head, opener :: inner))
    (brace : opener.kind = .lbrace) :
    ∃ children block more,
      nodes = rulesetNode t.start (t :: head) opener children block :: more := by
  cases h with
  | close kind =>
    rw [kind] at leads
    cases leads
  | stray kind =>
    generalize t.kind = k at kind leads
    cases kind <;> cases leads
  | pass kind =>
    rcases kind with hk | hk | hk | ⟨hk, -⟩ <;>
      (rw [hk] at leads; cases leads)
  | comment kind =>
    rw [kind] at leads
    cases leads
  | declaration kind gap colonKind =>
    exact absurd ⟨kind, _, _, gap, colonKind⟩ (notDeclared (Nat.succ_pos _))
  | statement keyword =>
    rw [keyword] at leads
    cases leads
  | block heads =>
    rename_i inside _ _
    rw [heads.eq_rulesetNode leads notBrace run]
    exact ⟨_, _, _, rfl⟩
  | deepBlock heads =>
    rw [heads.eq_rulesetNode leads notBrace run]
    exact ⟨_, _, _, rfl⟩
  | broken _ _ _ run' noBrace =>
    rw [run] at run'
    cases run'
    exact absurd brace (noBrace opener rfl)

end ruleset

open SelectorSyntax

/-- Without the end token a scan is as it was up to any other token. -/
theorem dropLast_scan_of_eq_append {source : String} {front behind : List Token} {t : Token}
    (h : scan source = front ++ t :: behind) (ht : t.kind ≠ .eof) :
    (scan source).dropLast = front ++ t :: behind.dropLast := by
  have hlast : (scan source).getLast? = some (Token.eof (Text.size source)) := by
    rw [scan_eq_append, List.getLast?_concat]
  have hne : behind ≠ [] := by
    rintro rfl
    rw [h, List.getLast?_concat] at hlast
    rw [Option.some.inj hlast] at ht
    exact ht rfl
  rw [h, List.dropLast_append_of_ne_nil (List.cons_ne_nil t behind),
    List.dropLast_cons_of_ne_nil hne]

/-- A source that starts with a selector and a block starts with the ruleset of this selector. -/
theorem SelectorSyntax.Complex.parse_children (s : SelectorSyntax.Complex) (gap : Gap)
    {source : String} {opener : Token} {behind : List Token}
    (hscan : scan source = s.tokens ++ gap.1 ++ opener :: behind) (hbrace : opener.kind = .lbrace) :
    ∃ rule children more, (parse source).1.children = .ruleset rule children :: more ∧
      rule.selectors.selectors.map Selector.specificity = [s.specificity] := by
  have hread := reads_parse source
  have hinside : Inside haltsPrelude TokenKind.inlineDepth 0 (s.tokens ++ gap.1) 0 :=
    (s.innerRun.append (innerRun_gap gap)).inside fun _ inner => inner.notHalting
  obtain ⟨first, rest, hfirst, leads, notBrace⟩ := s.startsRuleset.append gap.1
  rw [dropLast_scan_of_eq_append hscan (by rw [hbrace]; decide), hfirst, List.cons_append] at hread
  rw [hfirst] at hinside
  have hrun : takePrelude (first.kind.inlineDepth 0) (rest ++ opener :: behind.dropLast) =
      (rest, opener :: behind.dropLast) :=
    takeRun_of_inside hinside.2 (by rw [hbrace]; rfl) _
  obtain ⟨children, block, more, hnodes⟩ := hread.exists_ruleset leads notBrace
    (fun hn => absurd hn (Nat.lt_irrefl 0)) hrun hbrace
  refine ⟨_, children, more, hnodes, ?_⟩
  rw [← hfirst]
  exact s.selectors_ofTokens gap opener.start

/-- The tokens of a complex selector are as specific as the selector, and so is what the parser
makes of them, by themselves and in front of a block. -/
theorem specificity_of_complex (s : SelectorSyntax.Complex) :
    tokensSpecificity s.tokens = s.specificity ∧
      (∃ parsed, Selector.ofTokens? s.tokens = some parsed ∧
        parsed.specificity = s.specificity) ∧
      ∀ (gap : Gap) (source : String) (opener : TokenOf .lbrace) (behind : List Token),
        scan source = s.tokens ++ gap.1 ++ opener.1 :: behind →
        ∃ rule children more, (parse source).1.children = .ruleset rule children :: more ∧
          rule.selectors.selectors.map Selector.specificity = [s.specificity] := by
  refine ⟨?_, ?_, fun gap source opener behind hscan => s.parse_children gap hscan opener.2⟩
  · have hcount := s.tokensSpecificity_append []
    rwa [List.append_nil, tokensSpecificity, Specificity.add_zero] at hcount
  · have hparsed := s.exists_ofTokens? ⟨[], by simp⟩
    rwa [List.append_nil] at hparsed

/-- A type, a list of which the id is the most specific argument, and an old pseudo-element behind a
combinator. -/
theorem specificity_of_complex_with_arguments :
    let none : Gap := ⟨[], by simp⟩
    let id : Simple := .id ⟨⟨.hash, ⟨5, 7⟩, "i"⟩, rfl⟩
    let cls : Simple := .cls ⟨⟨.delim, ⟨8, 9⟩, "."⟩, rfl⟩ ⟨⟨.ident, ⟨9, 10⟩, "c"⟩, rfl⟩
    let list : Simple := .selectorFunction ⟨⟨.colon, ⟨1, 2⟩, ":"⟩, rfl⟩
      ⟨⟨.function, ⟨2, 5⟩, "is"⟩, rfl⟩ (by decide)
      (.more none (.compound (.untyped id .nil)) none ⟨⟨.comma, ⟨7, 8⟩, ","⟩, rfl⟩
        (.last none (.compound (.untyped cls .nil)) none))
      ⟨⟨.rparen, ⟨10, 11⟩, ")"⟩, rfl⟩
    let before : Simple := .pseudoClass ⟨⟨.colon, ⟨12, 13⟩, ":"⟩, rfl⟩
      ⟨⟨.ident, ⟨13, 19⟩, "before"⟩, rfl⟩
    let s : SelectorSyntax.Complex := .joined
      (.compound (.typed (.named ⟨⟨.ident, ⟨0, 1⟩, "b"⟩, rfl⟩) (.cons list .nil)))
      (.combinator none ⟨⟨.delim, ⟨11, 12⟩, ">"⟩, rfl⟩ none) (.untyped before .nil)
    s.specificity = ⟨1, 0, 2⟩ ∧ tokensSpecificity s.tokens = ⟨1, 0, 2⟩ ∧
      ∃ rule children more, (parse "b:is(#i,.c)>:before\x7b\x7d").1.children =
        .ruleset rule children :: more ∧
        rule.selectors.selectors.map Selector.specificity = [⟨1, 0, 2⟩] := by
  intro none id cls list before s
  have hcount : s.specificity = ⟨1, 0, 2⟩ := by decide
  obtain ⟨htokens, -, hparse⟩ := specificity_of_complex s
  have hscan : scan "b:is(#i,.c)>:before\x7b\x7d" = s.tokens ++ none.1 ++
      (⟨.lbrace, ⟨19, 20⟩, "\x7b"⟩ : Token) ::
        [⟨.rbrace, ⟨20, 21⟩, "\x7d"⟩, Token.eof 21] := by cbv
  have hread := hparse none _ ⟨_, rfl⟩ _ hscan
  rw [hcount] at htokens hread
  exact ⟨hcount, htokens, hread⟩

end CssWorkbench
