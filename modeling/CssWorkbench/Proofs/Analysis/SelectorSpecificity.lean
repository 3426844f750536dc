import CssWorkbench.Proofs.Analysis.SelectorSyntax

/-!
# Specificity over the tokens of a selector

The specificity that is counted over the tokens of a selector, jumping over the brackets that it
meets, is the one that is counted over the tree of the selector. Each part of the tree counts for
itself, whatever stands behind it, which is shown of all of them at once, as the arguments of a
pseudo-class are selectors again.
-/

namespace CssWorkbench

namespace Specificity

variable (a b c : Specificity)

/-- Counts are added one by one. -/
theorem add_def : a + b = ⟨a.ids + b.ids, a.classes + b.classes, a.types + b.types⟩ := rfl

/-- Nothing counted in front changes no count. -/
@[simp] theorem zero_add : zero + a = a := by simp [add_def, zero]

/-- Nothing counted behind changes no count. -/
@[simp] theorem add_zero : a + zero = a := by simp [add_def, zero]

/-- Counts of three parts are added in any grouping. -/
theorem add_assoc : a + b + c = a + (b + c) := by simp [add_def, Nat.add_assoc]

variable {a b c}

/-- Counts are compared by ids first, then by classes, then by types. -/
theorem le_iff : a.le b = true ↔ a.ids < b.ids ∨ a.ids = b.ids ∧
    (a.classes < b.classes ∨ a.classes = b.classes ∧ a.types ≤ b.types) := by
  simp [le]

/-- The weights of counts are in a row. -/
theorem le_trans (h : a.le b = true) (h' : b.le c = true) : a.le c = true := by
  rw [le_iff] at h h' ⊢
  omega

/-- Of two counts one is as weighty as the other. -/
theorem le_of_not_le (h : ¬ a.le b = true) : b.le a = true := by
  rw [le_iff] at h ⊢
  omega

/-- It does not matter in which order the weightiest of three counts is found. -/
theorem greater_assoc (a b c : Specificity) :
    (a.greater b).greater c = a.greater (b.greater c) := by
  unfold greater
  by_cases hab : a.le b = true <;> by_cases hbc : b.le c = true
  · rw [if_pos hab, if_pos hbc, if_pos (le_trans hab hbc)]
  · rw [if_pos hab, if_neg hbc, if_pos hab]
  · rw [if_neg hab, if_pos hbc]
  · have hca : c.le a = true := le_trans (le_of_not_le hbc) (le_of_not_le hab)
    have hac : ¬ a.le c = true := fun hac => hab (le_trans hac (le_of_not_le hbc))
    rw [if_neg hab, if_neg hbc, if_neg hab, if_neg hac]

/-- Nothing is weightier than no count at all. -/
@[simp] theorem zero_greater (a : Specificity) : zero.greater a = a := by
  have hle : zero.le a = true := by
    rw [le_iff]
    simp only [zero]
    omega
  rw [greater, if_pos hle]

end Specificity

/-! ## One token after the other -/

variable {t name closer : Token} {ts rest : List Token} {element : Bool}

/-- A hash counts as an id. -/
theorem tokensSpecificity_hash (h : t.kind = .hash) (ts : List Token) :
    tokensSpecificity (t :: ts) = .id + tokensSpecificity ts := by
  rw [tokensSpecificity]
  simp only [h]

/-- A name by itself counts as a type. -/
theorem tokensSpecificity_ident (h : t.kind = .ident) (ts : List Token) :
    tokensSpecificity (t :: ts) = .type + tokensSpecificity ts := by
  rw [tokensSpecificity]
  simp only [h]

/-- A dot and the name behind it count as a class. -/
theorem tokensSpecificity_class (h : t.isDelim '.' = true) (hname : name.kind = .ident)
    (ts : List Token) : tokensSpecificity (t :: name :: ts) = .cls + tokensSpecificity ts := by
  have hkind : t.kind = .delim := Token.kind_of_isDelim h
  rw [tokensSpecificity]
  simp only [hkind, h, if_true, dropIdent, Token.is, hname, decide_true]

/-- An attribute in brackets counts as a class, whatever stands in the brackets. -/
theorem tokensSpecificity_attribute (h : t.kind = .lbracket) (ts : List Token) :
    tokensSpecificity (t :: ts) =
      .cls + tokensSpecificity (ts.drop (closeDistance (t :: ts))) := by
  rw [tokensSpecificity]
  simp only [h]

/-- Signs other than the dot count nothing. -/
theorem tokensSpecificity_delim (h : t.kind = .delim) (hdot : t.isDelim '.' = false)
    (ts : List Token) : tokensSpecificity (t :: ts) = tokensSpecificity ts := by
  rw [tokensSpecificity]
  simp only [h, hdot, Bool.false_eq_true, if_false]

/-- Blanks and comments count nothing. -/
theorem tokensSpecificity_trivia (h : t.isTrivia = true) (ts : List Token) :
    tokensSpecificity (t :: ts) = tokensSpecificity ts := by
  rw [tokensSpecificity]
  rcases SelectorSyntax.kind_of_isTrivia h with hkind | hkind <;> simp only [hkind]

/-- A pseudo-class by its name counts as a class, a pseudo-element as a type. -/
theorem tokensSpecificity_pseudo (h : t.kind = .colon)
    (hsplit : takeColon ts = (element, name :: rest)) (hname : name.kind = .ident) :
    tokensSpecificity (t :: ts) =
      (if element || oldPseudoElements.any (Text.sameIgnoringCase name.value) then .type
        else .cls) + tokensSpecificity rest := by
  rw [tokensSpecificity]
  simp only [h]
  split
  · rename_i heq
    rw [hsplit] at heq
    cases heq
  · rename_i heq
    rw [hsplit] at heq
    cases heq
    simp only [hname]

/-- The weightiest of some groups of tokens and of what was found before. -/
def mostSpecific (most : Specificity) (groups : List (List Token)) : Specificity :=
  groups.foldl (fun most group => most.greater (tokensSpecificity group)) most

/-- A pseudo-class with arguments counts as the weightiest of them, as nothing or as a class, by its
name; a pseudo-element counts as a type. -/
theorem tokensSpecificity_function (h : t.kind = .colon)
    (hsplit : takeColon ts = (element, name :: rest)) (hname : name.kind = .function) :
    tokensSpecificity (t :: ts) =
      (if element then .type
        else if Text.lower name.value = "where" then .zero
        else if listPseudoClasses.contains (Text.lower name.value) then
          mostSpecific .zero (splitCommas (rest.take (closeDistance (name :: rest) - 1)))
        else .cls) + tokensSpecificity (rest.drop (closeDistance (name :: rest))) := by
  have hattach (groups : List (List Token)) :
      groups.attach.foldl (fun most group => most.greater (tokensSpecificity group.1)) .zero =
        mostSpecific .zero groups :=
    @List.foldl_attach _ _ groups
      (fun (most : Specificity) group => most.greater (tokensSpecificity group)) .zero
  rw [tokensSpecificity]
  simp only [h]
  split
  · rename_i heq
    rw [hsplit] at heq
    cases heq
  · rename_i heq
    rw [hsplit] at heq
    cases heq
    simp only [hname, hattach]

/-- A colon in front of no name counts for nothing. -/
theorem tokensSpecificity_colon (h : t.kind = .colon)
    (hsplit : takeColon ts = (element, name :: rest)) (hident : name.kind ≠ .ident)
    (hfunction : name.kind ≠ .function) :
    tokensSpecificity (t :: ts) = tokensSpecificity (name :: rest) := by
  rw [tokensSpecificity]
  simp only [h]
  split
  · next heq =>
    rw [hsplit] at heq
    cases heq
  · next heq =>
    rw [hsplit] at heq
    cases heq
    split <;> first | rfl | contradiction

/-- A token that counts for nothing is passed over. -/
theorem tokensSpecificity_other (hhash : t.kind ≠ .hash) (hident : t.kind ≠ .ident)
    (hdelim : t.kind ≠ .delim) (hbracket : t.kind ≠ .lbracket) (hcolon : t.kind ≠ .colon)
    (ts : List Token) : tokensSpecificity (t :: ts) = tokensSpecificity ts := by
  rw [tokensSpecificity]
  split <;> first | rfl | contradiction

/-- How much is counted in all. -/
def Specificity.total (a : Specificity) : Nat := a.ids + a.classes + a.types

/-- What is counted in two parts is counted together. -/
@[simp] theorem Specificity.total_add (a b : Specificity) : (a + b).total = a.total + b.total := by
  simp only [Specificity.total, Specificity.add_def]
  omega

/-- The weightiest of some groups counts no more than one of them may. -/
theorem total_mostSpecific_le {bound : Nat} {groups : List (List Token)}
    (h : ∀ group ∈ groups, (tokensSpecificity group).total ≤ bound) {most : Specificity}
    (hmost : most.total ≤ bound) : (mostSpecific most groups).total ≤ bound := by
  induction groups generalizing most with
  | nil => exact hmost
  | cons group groups ih =>
    obtain ⟨hgroup, hgroups⟩ := List.forall_mem_cons.mp h
    have hgreater : (most.greater (tokensSpecificity group)).total ≤ bound := by
      unfold Specificity.greater
      split
      · exact hgroup
      · exact hmost
    exact ih hgroups hgreater

/-- Each count takes a token, so that a selector of fewer than 2³² tokens is counted in 32 bits. -/
theorem total_tokensSpecificity_le (ts : List Token) :
    (tokensSpecificity ts).total ≤ ts.length := by
  have hid : Specificity.id.total = 1 := rfl
  have hcls : Specificity.cls.total = 1 := rfl
  have htype : Specificity.type.total = 1 := rfl
  induction ts using tokensSpecificity.induct with
  | case1 => simp [tokensSpecificity, Specificity.total, Specificity.zero]
  | case2 t ts hkind ih =>
    rw [tokensSpecificity_hash hkind, Specificity.total_add, List.length_cons]
    omega
  | case3 t ts hkind ih =>
    rw [tokensSpecificity_ident hkind, Specificity.total_add, List.length_cons]
    omega
  | case4 t ts hkind hdot hle ih =>
    rw [tokensSpecificity]
    simp only [hkind, hdot, if_true, Specificity.total_add, List.length_cons]
    omega
  | case5 t ts hkind hdot ih =>
    rw [tokensSpecificity_delim hkind (by simpa using hdot)]
    exact Nat.le_succ_of_le ih
  | case6 t ts hkind ih =>
    rw [tokensSpecificity_attribute hkind, Specificity.total_add]
    simp only [List.length_drop, List.length_cons] at ih ⊢
    omega
  | case7 t ts hkind hle element hsplit =>
    rw [tokensSpecificity]
    simp only [hkind]
    split
    · exact Nat.zero_le _
    · next heq =>
      rw [hsplit] at heq
      cases heq
  | case8 t ts hkind hle element name rest hsplit hname ih =>
    rw [tokensSpecificity_pseudo hkind hsplit hname, Specificity.total_add]
    simp only [hsplit, List.length_cons] at hle ⊢
    split <;> omega
  | case9 t ts hkind hle element name rest hsplit hname close ihgroups ih =>
    have hgroups : (mostSpecific .zero (splitCommas (rest.take (close - 1)))).total ≤
        (rest.take (close - 1)).length :=
      total_mostSpecific_le (fun group hgroup => Nat.le_trans (ihgroups ⟨group, hgroup⟩)
        (length_le_of_mem_splitCommas hgroup)) (Nat.zero_le _)
    have hzero : Specificity.zero.total = 0 := rfl
    have hclose : closeDistance (name :: rest) = close := rfl
    rw [tokensSpecificity_function hkind hsplit hname, Specificity.total_add, hclose]
    simp only [hsplit, List.length_cons, List.length_take, List.length_drop] at hle hgroups ih ⊢
    split
    · omega
    · split
      · omega
      · split <;> omega
  | case10 t ts hkind hle element name rest hsplit hident hfunction ih =>
    rw [tokensSpecificity_colon hkind hsplit hident hfunction]
    rw [hsplit] at hle
    exact Nat.le_trans ih (Nat.le_succ_of_le hle)
  | case11 t ts hhash hident hdelim hbracket hcolon ih =>
    rw [tokensSpecificity_other hhash hident hdelim hbracket hcolon]
    exact Nat.le_succ_of_le ih

/-- A second colon is found only where one stands. -/
theorem takeColon_of_ne (h : t.kind ≠ .colon) (ts : List Token) :
    takeColon (t :: ts) = (false, t :: ts) := by
  rw [takeColon, if_neg (by simpa [Token.is] using h)]

/-- A second colon is taken off the front. -/
theorem takeColon_colon (h : t.kind = .colon) (ts : List Token) :
    takeColon (t :: ts) = (true, ts) := by
  rw [takeColon, if_pos (by simpa [Token.is] using h)]

namespace SelectorSyntax

/-- The old pseudo-elements are those that are listed. -/
theorem isOldElement_iff {name : String} :
    IsOldElement name ↔ oldPseudoElements.any (Text.sameIgnoringCase name) = true := by
  have hlower (s : String) (h : Text.lower s = s) :
      Text.sameIgnoringCase name s = true ↔ Text.lower name = s := by
    rw [Text.sameIgnoringCase_iff, h]
  simp [IsOldElement, oldPseudoElements, hlower "before" rfl, hlower "after" rfl,
    hlower "first-line" rfl, hlower "first-letter" rfl]

/-- The pseudo-classes that count their arguments are those that are listed. -/
theorem countsArguments_iff {name : String} :
    CountsArguments name ↔ listPseudoClasses.contains (Text.lower name) = true := by
  simp only [CountsArguments, listPseudoClasses, List.contains_iff_mem, List.mem_cons]
  constructor <;> (intro h; rcases h with h | h | h | h | h | h | h <;> simp_all)

/-- The pseudo-class that counts nothing is not among them. -/
theorem ne_where_of_countsArguments {name : String} (h : CountsArguments name) :
    Text.lower name ≠ "where" := by
  intro hwhere
  rw [CountsArguments, hwhere] at h
  exact absurd h (by decide)

/-! ## Over the tokens of a selector -/

/-- A gap counts nothing. -/
theorem tokensSpecificity_gap (gap : Gap) (ts : List Token) :
    tokensSpecificity (gap.1 ++ ts) = tokensSpecificity ts := by
  obtain ⟨us, hus⟩ := gap
  induction us with
  | nil => rfl
  | cons u us ih =>
    rw [List.cons_append, tokensSpecificity_trivia (hus u List.mem_cons_self)]
    exact ih fun v hv => hus v (List.mem_cons_of_mem _ hv)

/-- A gap alone counts nothing. -/
theorem tokensSpecificity_gap_nil (gap : Gap) : tokensSpecificity gap.1 = .zero := by
  have hgap := tokensSpecificity_gap gap []
  rwa [List.append_nil, tokensSpecificity] at hgap

/-- What stands between two compounds counts nothing. -/
theorem tokensSpecificity_joint (joint : Joint) (ts : List Token) :
    tokensSpecificity (joint.tokens ++ ts) = tokensSpecificity ts := by
  cases joint with
  | descendant blank more =>
    rw [Joint.tokens, List.cons_append, tokensSpecificity_trivia blank.2,
      tokensSpecificity_gap more]
  | combinator before sign after =>
    have hdot : sign.1.isDelim '.' = false := by
      refine Bool.eq_false_iff.mpr fun hdot => ?_
      have hsign := sign.2
      rw [(isCompact_of_isDelim hdot (by decide)).notCombinator] at hsign
      cases hsign
    rw [Joint.tokens, List.append_assoc, tokensSpecificity_gap before, List.cons_append,
      tokensSpecificity_delim (kind_of_combinator? sign.2) hdot, tokensSpecificity_gap after]

/-- A type in front of a compound counts for itself. -/
theorem tokensSpecificity_type (head : TypeSelector) (ts : List Token) :
    tokensSpecificity (head.token :: ts) = head.specificity + tokensSpecificity ts := by
  cases head with
  | named name => exact tokensSpecificity_ident name.2 ts
  | universal star =>
    have hkind := Token.kind_of_isDelim star.2
    have hvalue := Token.value_of_isDelim star.2
    have hdot : star.1.isDelim '.' = false := by simp [Token.isDelim, hvalue]
    rw [TypeSelector.token, tokensSpecificity_delim hkind hdot, TypeSelector.specificity,
      Specificity.zero_add]

/-- No comma outside brackets stands in an argument. -/
theorem inside_argument (before : Gap) (selector : Complex) (after : Gap) :
    Inside partsSelectors TokenKind.inlineDepth 0 (before.1 ++ selector.tokens ++ after.1) 0 :=
  (((innerRun_gap before).append selector.innerRun).append (innerRun_gap after)).inside
    fun _ inner => inner.notComma

/-- Behind a block and what closes it stands the rest. -/
theorem drop_block (inner : List Token) (closer : Token) (rest : List Token) :
    (inner ++ closer :: rest).drop (inner.length + 1) = rest := by
  rw [← List.drop_drop, List.drop_left]
  rfl

/-- A pseudo-class or pseudo-element with arguments counts by its name, and what stands behind its
parenthesis goes on. -/
theorem tokensSpecificity_block {inner : List Token} (h : t.kind = .colon)
    (name : TokenOf .function) (hinner : Balanced inner) (closer : TokenOf .rparen)
    (hsplit : takeColon ts = (element, name.1 :: (inner ++ closer.1 :: rest))) :
    tokensSpecificity (t :: ts) =
      (if element then .type
        else if Text.lower name.1.value = "where" then .zero
        else if listPseudoClasses.contains (Text.lower name.1.value) then
          mostSpecific .zero (splitCommas inner)
        else .cls) + tokensSpecificity rest := by
  have hpair : name.1.kind.closer? = some closer.1.kind := by rw [name.2, closer.2]; rfl
  rw [tokensSpecificity_function h hsplit name.2, hinner.closeDistance_block hpair,
    Nat.add_sub_cancel, List.take_left, drop_block]

mutual
/-- A simple selector counts what it counts by itself, whatever stands behind it. -/
theorem Simple.tokensSpecificity_append : (s : Simple) → (ts : List Token) →
    tokensSpecificity (s.tokens ++ ts) = s.specificity + tokensSpecificity ts
  | .cls dot name, ts => tokensSpecificity_class dot.2 name.2 ts
  | .id name, ts => tokensSpecificity_hash name.2 ts
  | .attr opener inner closer, ts => by
    have hpair : opener.1.kind.closer? = some closer.1.kind := by rw [opener.2, closer.2]; rfl
    rw [Simple.tokens, List.cons_append, List.append_assoc, List.singleton_append,
      tokensSpecificity_attribute opener.2, inner.2.closeDistance_block hpair, drop_block,
      Simple.specificity]
  | .pseudoClass colon name, ts => by
    have hsplit := takeColon_of_ne (by rw [name.2]; decide) ts
    have hread := tokensSpecificity_pseudo colon.2 hsplit name.2
    rw [Bool.false_or] at hread
    simp only [Simple.tokens, Simple.specificity, isOldElement_iff]
    exact hread
  | .pseudoElement first second name, ts =>
    tokensSpecificity_pseudo first.2 (takeColon_colon second.2 _) name.2
  | .elementFunction first second name inner closer, ts => by
    have hsplit := takeColon_colon second.2 (name.1 :: (inner.1 ++ closer.1 :: ts))
    have hread := tokensSpecificity_block first.2 name inner.2 closer hsplit
    simpa [Simple.tokens, Simple.specificity] using hread
  | .classFunction colon name other inner closer, ts => by
    have hsplit := takeColon_of_ne (by rw [name.2]; decide) (inner.1 ++ closer.1 :: ts)
    have hread := tokensSpecificity_block colon.2 name inner.2 closer hsplit
    rw [if_neg Bool.false_ne_true, if_neg (mt countsArguments_iff.mpr other)] at hread
    simpa [Simple.tokens, Simple.specificity] using hread
  | .selectorFunction colon name counts arguments closer, ts => by
    have hsplit := takeColon_of_ne (by rw [name.2]; decide) (arguments.tokens ++ closer.1 :: ts)
    have hread := tokensSpecificity_block colon.2 name arguments.balanced closer hsplit
    rw [if_neg Bool.false_ne_true, if_neg (ne_where_of_countsArguments counts),
      if_pos (countsArguments_iff.mp counts), arguments.mostSpecific_tokens,
      Specificity.zero_greater] at hread
    simpa [Simple.tokens, Simple.specificity] using hread

/-- Simple selectors count for themselves, whatever stands behind them. -/
theorem Simples.tokensSpecificity_append : (s : Simples) → (ts : List Token) →
    tokensSpecificity (s.tokens ++ ts) = s.specificity + tokensSpecificity ts
  | .nil, ts => by
    rw [Simples.tokens, Simples.specificity, List.nil_append, Specificity.zero_add]
  | .cons first behind, ts => by
    rw [Simples.tokens, Simples.specificity, List.append_assoc, first.tokensSpecificity_append,
      behind.tokensSpecificity_append, Specificity.add_assoc]

/-- A compound counts for itself, whatever stands behind it. -/
theorem Compound.tokensSpecificity_append : (s : Compound) → (ts : List Token) →
    tokensSpecificity (s.tokens ++ ts) = s.specificity + tokensSpecificity ts
  | .typed head behind, ts => by
    rw [Compound.tokens, Compound.specificity, List.cons_append, tokensSpecificity_type,
      behind.tokensSpecificity_append, Specificity.add_assoc]
  | .untyped first behind, ts => by
    rw [Compound.tokens, Compound.specificity, List.append_assoc, first.tokensSpecificity_append,
      behind.tokensSpecificity_append, Specificity.add_assoc]

/-- A complex selector counts for itself, whatever stands behind it. -/
theorem Complex.tokensSpecificity_append : (s : Complex) → (ts : List Token) →
    tokensSpecificity (s.tokens ++ ts) = s.specificity + tokensSpecificity ts
  | .compound only, ts => by
    rw [Complex.tokens, Complex.specificity, only.tokensSpecificity_append]
  | .joined front joint last, ts => by
    rw [Complex.tokens, Complex.specificity, List.append_assoc, List.append_assoc,
      front.tokensSpecificity_append, tokensSpecificity_joint, last.tokensSpecificity_append,
      Specificity.add_assoc]

/-- The weightiest of the groups between the commas is the most specific argument. -/
theorem Arguments.mostSpecific_tokens : (s : Arguments) → (most : Specificity) →
    mostSpecific most (splitCommas s.tokens) = most.greater s.specificity
  | .last before selector after, most => by
    have hgroups := CommaGroups.last (inside_argument before selector after)
    rw [Arguments.tokens, splitCommas, hgroups.splitCommasFrom_eq, mostSpecific, List.foldl_cons,
      List.foldl_nil, List.append_assoc, tokensSpecificity_gap, selector.tokensSpecificity_append,
      tokensSpecificity_gap_nil, Specificity.add_zero, Arguments.specificity]
  | .more before selector after comma behind, most => by
    have hgroups := CommaGroups.more (inside_argument before selector after) comma.2
      (splitCommasFrom_groups 0 behind.tokens)
    have hbehind := behind.mostSpecific_tokens (most.greater selector.specificity)
    rw [Arguments.tokens, splitCommas, hgroups.splitCommasFrom_eq, mostSpecific, List.foldl_cons,
      List.append_assoc, tokensSpecificity_gap, selector.tokensSpecificity_append,
      tokensSpecificity_gap_nil, Specificity.add_zero, Arguments.specificity]
    rw [splitCommas, mostSpecific, Specificity.greater_assoc] at hbehind
    exact hbehind
end

end SelectorSyntax

end CssWorkbench
