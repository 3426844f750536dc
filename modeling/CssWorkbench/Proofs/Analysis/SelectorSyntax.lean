import CssWorkbench.Analysis.Specificity
import CssWorkbench.Proofs.Tree.BalancedRuns

/-!
# The syntax of selectors

A complex selector as a tree whose leaves are tokens: compounds joined by blanks or combinators, a
compound as a type with simple selectors behind it, and lists of complex selectors as the arguments
of some pseudo-classes. A tree is written as its tokens, and its specificity is counted over the
tree, without a look at the tokens as a run.
-/

namespace CssWorkbench.SelectorSyntax

/-- A token of a kind. -/
abbrev TokenOf (kind : TokenKind) : Type := { t : Token // t.kind = kind }

/-- A token that is a single character. -/
abbrev Sign (c : Char) : Type := { t : Token // t.isDelim c = true }

/-- Blanks and comments, or nothing. -/
abbrev Gap : Type := { ts : List Token // ∀ t ∈ ts, t.isTrivia = true }

/-- Tokens in which every bracket is closed. -/
abbrev BalancedRun : Type := { ts : List Token // Balanced ts }

/-- The pseudo-classes that count as the most specific of the selectors they are given. -/
def CountsArguments (name : String) : Prop :=
  Text.lower name ∈ ["is", "not", "has", "matches", "-webkit-any", "-moz-any"]

/-- The pseudo-elements that may be written with one colon. -/
def IsOldElement (name : String) : Prop :=
  Text.lower name ∈ ["before", "after", "first-line", "first-letter"]

instance (name : String) : Decidable (CountsArguments name) :=
  inferInstanceAs (Decidable (_ ∈ _))

instance (name : String) : Decidable (IsOldElement name) :=
  inferInstanceAs (Decidable (_ ∈ _))

/-- What a compound may start with. -/
inductive TypeSelector
  | named (name : TokenOf .ident)
  | universal (star : Sign '*')

/-- What stands between two compounds. -/
inductive Joint
  | descendant (blank : { t : Token // t.isTrivia = true }) (more : Gap)
  | combinator (before : Gap) (sign : { t : Token // t.combinator?.isSome = true }) (after : Gap)

mutual
/-- A simple selector other than a type. -/
inductive Simple
  | cls (dot : Sign '.') (name : TokenOf .ident)
  | id (name : TokenOf .hash)
  | attr (opener : TokenOf .lbracket) (inner : BalancedRun) (closer : TokenOf .rbracket)
  | pseudoClass (colon : TokenOf .colon) (name : TokenOf .ident)
  | pseudoElement (first second : TokenOf .colon) (name : TokenOf .ident)
  | elementFunction (first second : TokenOf .colon) (name : TokenOf .function)
      (inner : BalancedRun) (closer : TokenOf .rparen)
  | classFunction (colon : TokenOf .colon) (name : TokenOf .function)
      (other : ¬ CountsArguments name.1.value) (inner : BalancedRun) (closer : TokenOf .rparen)
  | selectorFunction (colon : TokenOf .colon) (name : TokenOf .function)
      (counts : CountsArguments name.1.value) (arguments : Arguments) (closer : TokenOf .rparen)

/-- Simple selectors in a row. -/
inductive Simples
  | nil
  | cons (first : Simple) (behind : Simples)

/-- A type with simple selectors behind it, or at least one of these. -/
inductive Compound
  | typed (head : TypeSelector) (behind : Simples)
  | untyped (first : Simple) (behind : Simples)

/-- Compounds with something between any two of them. -/
inductive Complex
  | compound (only : Compound)
  | joined (front : Complex) (joint : Joint) (last : Compound)

/-- Complex selectors with commas between them. -/
inductive Arguments
  | last (before : Gap) (selector : Complex) (after : Gap)
  | more (before : Gap) (selector : Complex) (after : Gap) (comma : TokenOf .comma)
      (behind : Arguments)
end

/-! ## The tokens of a selector -/

/-- The token of a type. -/
def TypeSelector.token : TypeSelector → Token
  | named name => name.1
  | universal star => star.1

/-- The tokens between two compounds. -/
def Joint.tokens : Joint → List Token
  | descendant blank more => blank.1 :: more.1
  | combinator before sign after => before.1 ++ sign.1 :: after.1

mutual
/-- The tokens of a simple selector. -/
def Simple.tokens : Simple → List Token
  | .cls dot name => [dot.1, name.1]
  | .id name => [name.1]
  | .attr opener inner closer => opener.1 :: (inner.1 ++ [closer.1])
  | .pseudoClass colon name => [colon.1, name.1]
  | .pseudoElement first second name => [first.1, second.1, name.1]
  | .elementFunction first second name inner closer =>
    first.1 :: second.1 :: name.1 :: (inner.1 ++ [closer.1])
  | .classFunction colon name _ inner closer => colon.1 :: name.1 :: (inner.1 ++ [closer.1])
  | .selectorFunction colon name _ arguments closer =>
    colon.1 :: name.1 :: (arguments.tokens ++ [closer.1])

/-- The tokens of simple selectors in a row. -/
def Simples.tokens : Simples → List Token
  | .nil => []
  | .cons first behind => first.tokens ++ behind.tokens

/-- The tokens of a compound. -/
def Compound.tokens : Compound → List Token
  | .typed head behind => head.token :: behind.tokens
  | .untyped first behind => first.tokens ++ behind.tokens

/-- The tokens of a complex selector. -/
def Complex.tokens : Complex → List Token
  | .compound only => only.tokens
  | .joined front joint last => front.tokens ++ joint.tokens ++ last.tokens

/-- The tokens of a list of complex selectors. -/
def Arguments.tokens : Arguments → List Token
  | .last before selector after => before.1 ++ selector.tokens ++ after.1
  | .more before selector after comma behind =>
    before.1 ++ selector.tokens ++ after.1 ++ comma.1 :: behind.tokens
end

/-! ## The specificity of a selector -/

/-- A type counts, and the star that stands for any type counts nothing. -/
def TypeSelector.specificity : TypeSelector → Specificity
  | named _ => .type
  | universal _ => .zero

mutual
/-- The specificity of a simple selector. -/
def Simple.specificity : Simple → Specificity
  | .cls .. => .cls
  | .id _ => .id
  | .attr .. => .cls
  | .pseudoClass _ name => if IsOldElement name.1.value then .type else .cls
  | .pseudoElement .. => .type
  | .elementFunction .. => .type
  | .classFunction _ name _ _ _ => if Text.lower name.1.value = "where" then .zero else .cls
  | .selectorFunction _ _ _ arguments _ => arguments.specificity

/-- Simple selectors in a row count together. -/
def Simples.specificity : Simples → Specificity
  | .nil => .zero
  | .cons first behind => first.specificity + behind.specificity

/-- The parts of a compound count together. -/
def Compound.specificity : Compound → Specificity
  | .typed head behind => head.specificity + behind.specificity
  | .untyped first behind => first.specificity + behind.specificity

/-- The compounds count together. -/
def Complex.specificity : Complex → Specificity
  | .compound only => only.specificity
  | .joined front _ last => front.specificity + last.specificity

/-- The most specific of some selectors counts. -/
def Arguments.specificity : Arguments → Specificity
  | .last _ selector _ => selector.specificity
  | .more _ selector _ _ behind => selector.specificity.greater behind.specificity
end

/-! ## What parts the tokens -/

variable {t : Token} {kind : TokenKind} {c : Char}

/-- A token is plain by its kind. -/
theorem isPlain_of_kind (h : t.kind = kind)
    (hkind : kind.opens = false ∧ kind.closes = false ∧ kind ≠ .eof) : t.IsPlain := by
  subst h
  exact ⟨hkind.1, hkind.2.1, hkind.2.2⟩

/-- A token stays within a selector by its kind. -/
theorem isInner_of_kind (h : t.kind = kind)
    (hkind : partsSelectors kind = false ∧ haltsPrelude kind = false) : t.IsInner := by
  subst h
  exact ⟨hkind.1, hkind.2⟩

/-- A token belongs to a compound by its kind. -/
theorem isCompact_of_kind (h : t.kind = kind)
    (hkind : partsSelectors kind = false ∧ haltsPrelude kind = false)
    (hother : kind ≠ .whitespace ∧ kind ≠ .comment ∧ kind ≠ .delim) : t.IsCompact := by
  refine ⟨isInner_of_kind h hkind, ?_, ?_⟩
  · simp [Token.isTrivia, h, hother]
  · simp [Token.combinator?, Token.isDelim, h, hother]

/-- A character that is no combinator belongs to a compound. -/
theorem isCompact_of_isDelim (h : t.isDelim c = true) (hc : c ≠ '>' ∧ c ≠ '+' ∧ c ≠ '~') :
    t.IsCompact := by
  have hkind := Token.kind_of_isDelim h
  have hvalue := Token.value_of_isDelim h
  refine ⟨isInner_of_kind hkind (by decide), ?_, ?_⟩
  · simp [Token.isTrivia, hkind]
  · simp [Token.combinator?, Token.isDelim, hkind, hvalue, hc]

/-- Only blanks and comments separate tokens. -/
theorem kind_of_isTrivia (h : t.isTrivia = true) : t.kind = .whitespace ∨ t.kind = .comment := by
  simpa [Token.isTrivia] using h

/-- Only single characters are combinators. -/
theorem kind_of_combinator? (h : t.combinator?.isSome = true) : t.kind = .delim := by
  by_cases hkind : t.kind = .delim
  · exact hkind
  · simp [Token.combinator?, Token.isDelim, hkind] at h

/-- The tokens of a compound. -/
abbrev CompactRun (ts : List Token) : Prop := OutsideBrackets Token.IsCompact ts

/-- The tokens of a complex selector. -/
abbrev InnerRun (ts : List Token) : Prop := OutsideBrackets Token.IsInner ts

/-- A colon goes on in a compound. -/
theorem compactRun_colon {ts : List Token} (colon : TokenOf .colon) (h : CompactRun ts) :
    CompactRun (colon.1 :: ts) :=
  .plain (isPlain_of_kind colon.2 (by decide))
    (isCompact_of_kind colon.2 (by decide) (by decide)) h

/-- A name goes on in a compound. -/
theorem compactRun_ident {ts : List Token} (name : TokenOf .ident) (h : CompactRun ts) :
    CompactRun (name.1 :: ts) :=
  .plain (isPlain_of_kind name.2 (by decide)) (isCompact_of_kind name.2 (by decide) (by decide)) h

/-- A function with balanced arguments goes on in a compound. -/
theorem compactRun_function {inner : List Token} (name : TokenOf .function) (h : Balanced inner)
    (closer : TokenOf .rparen) : CompactRun (name.1 :: (inner ++ [closer.1])) :=
  .block (by rw [name.2, closer.2]; rfl) (by rw [name.2]; rfl) h .nil

/-- A gap stays within a selector. -/
theorem innerRun_gap (gap : Gap) : InnerRun gap.1 := by
  obtain ⟨ts, hts⟩ := gap
  induction ts with
  | nil => exact .nil
  | cons t ts ih =>
    have hbehind : InnerRun ts := ih fun u hu => hts u (List.mem_cons_of_mem _ hu)
    rcases kind_of_isTrivia (hts t List.mem_cons_self) with hkind | hkind <;>
      exact .plain (isPlain_of_kind hkind (by decide)) (isInner_of_kind hkind (by decide)) hbehind

/-- A joint stays within a selector. -/
theorem Joint.innerRun : (joint : Joint) → InnerRun joint.tokens
  | .descendant blank more => by
    have hgap := innerRun_gap ⟨blank.1 :: more.1, by simpa using ⟨blank.2, more.2⟩⟩
    exact hgap
  | .combinator before sign after => by
    have hkind := kind_of_combinator? sign.2
    refine (innerRun_gap before).append (.plain ?_ ?_ (innerRun_gap after))
    · exact isPlain_of_kind hkind (by decide)
    · exact isInner_of_kind hkind (by decide)

/-- A type goes on in a compound. -/
theorem TypeSelector.compactRun (head : TypeSelector) {ts : List Token} (h : CompactRun ts) :
    CompactRun (head.token :: ts) := by
  cases head with
  | named name => exact compactRun_ident name h
  | universal star =>
    have hkind := Token.kind_of_isDelim star.2
    exact .plain (isPlain_of_kind hkind (by decide)) (isCompact_of_isDelim star.2 (by decide)) h

mutual
/-- A simple selector is part of a compound. -/
theorem Simple.compactRun : (s : Simple) → CompactRun s.tokens
  | .cls dot name => by
    have hkind := Token.kind_of_isDelim dot.2
    refine .plain (isPlain_of_kind hkind (by decide)) ?_ (compactRun_ident name .nil)
    exact isCompact_of_isDelim dot.2 (by decide)
  | .id name =>
    .plain (isPlain_of_kind name.2 (by decide))
      (isCompact_of_kind name.2 (by decide) (by decide)) .nil
  | .attr opener inner closer =>
    .block (by rw [opener.2, closer.2]; rfl) (by rw [opener.2]; rfl) inner.2 .nil
  | .pseudoClass colon name => compactRun_colon colon (compactRun_ident name .nil)
  | .pseudoElement first second name =>
    compactRun_colon first (compactRun_colon second (compactRun_ident name .nil))
  | .elementFunction first second name inner closer =>
    compactRun_colon first (compactRun_colon second (compactRun_function name inner.2 closer))
  | .classFunction colon name _ inner closer =>
    compactRun_colon colon (compactRun_function name inner.2 closer)
  | .selectorFunction colon name _ arguments closer =>
    compactRun_colon colon (compactRun_function name arguments.balanced closer)

/-- Simple selectors go on in a compound. -/
theorem Simples.compactRun : (s : Simples) → CompactRun s.tokens
  | .nil => .nil
  | .cons first behind => first.compactRun.append behind.compactRun

/-- The tokens of a compound belong together. -/
theorem Compound.compactRun : (s : Compound) → CompactRun s.tokens
  | .typed head behind => head.compactRun behind.compactRun
  | .untyped first behind => first.compactRun.append behind.compactRun

/-- No comma outside brackets stands in a complex selector. -/
theorem Complex.innerRun : (s : Complex) → InnerRun s.tokens
  | .compound only => only.compactRun.mono fun _ compact => compact.toIsInner
  | .joined front joint last =>
    (front.innerRun.append joint.innerRun).append
      (last.compactRun.mono fun _ compact => compact.toIsInner)

/-- The brackets of a list of selectors are balanced. -/
theorem Arguments.balanced : (s : Arguments) → Balanced s.tokens
  | .last before selector after =>
    (((innerRun_gap before).append selector.innerRun).append (innerRun_gap after)).balanced
  | .more before selector after comma behind => by
    have hcomma := isPlain_of_kind comma.2 (by decide)
    have hfirst := ((innerRun_gap before).append selector.innerRun).append (innerRun_gap after)
    exact hfirst.balanced.append (.plain hcomma behind.balanced)
end

end CssWorkbench.SelectorSyntax
