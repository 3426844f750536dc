import Mathlib.Order.MinMax
import CssWorkbench.Proofs.Tree.Roles
import CssWorkbench.Proofs.Tree.SelectorGrammar

/-!
# Moving a tree

`move f` moves everything that is said of the offset `p` to `f p`: the spans of tokens, nodes and
errors, and of all that a node is made of. If `f` keeps the order of offsets, what the parser makes of
tokens that are moved is what it makes of the tokens where they were, moved as well. Here this is said
of the parts that a statement is made of, up to whole nodes.
-/

namespace CssWorkbench

/-- The span with its ends moved. -/
def Span.move (f : Nat → Nat) (s : Span) : Span := ⟨f s.start, f s.stop⟩

/-- The token, moved. -/
def Token.move (f : Nat → Nat) (t : Token) : Token := { t with span := t.span.move f }

namespace SelectorPart

/-- The part, moved. -/
def move (f : Nat → Nat) : SelectorPart → SelectorPart
  | compound span tokens => compound (span.move f) (tokens.map (Token.move f))
  | combinator span kind => combinator (span.move f) kind

end SelectorPart

/-- The selector, moved. -/
def Selector.move (f : Nat → Nat) (s : Selector) : Selector :=
  ⟨s.span.move f, s.parts.map (SelectorPart.move f)⟩

/-- The selectors, moved. -/
def SelectorList.move (f : Nat → Nat) (list : SelectorList) : SelectorList :=
  ⟨list.span.move f, list.selectors.map (Selector.move f)⟩

/-- The value, moved. -/
def Value.move (f : Nat → Nat) (v : Value) : Value :=
  ⟨v.span.move f, v.tokens.map (Token.move f)⟩

/-- The declaration, moved. -/
def Declaration.move (f : Nat → Nat) (d : Declaration) : Declaration :=
  { d with
    span := d.span.move f
    property := d.property.move f
    value := d.value.map (Value.move f) }

/-- The ruleset, moved. -/
def Ruleset.move (f : Nat → Nat) (rule : Ruleset) : Ruleset :=
  ⟨rule.span.move f, rule.selectors.move f, rule.block.move f⟩

/-- The at-rule, moved. -/
def AtRule.move (f : Nat → Nat) (rule : AtRule) : AtRule :=
  { rule with
    span := rule.span.move f
    nameSpan := rule.nameSpan.move f
    prelude := rule.prelude.map (Token.move f)
    block := rule.block.map (Span.move f) }

mutual

/-- The node with all below it, moved. -/
def Node.move (f : Nat → Nat) : Node → Node
  | .ruleset rule children => .ruleset (rule.move f) (moveNodes f children)
  | .atRule rule children => .atRule (rule.move f) (moveNodes f children)
  | .declaration decl => .declaration (decl.move f)
  | .comment span => .comment (span.move f)

/-- The nodes with all below them, moved. -/
def moveNodes (f : Nat → Nat) : List Node → List Node
  | [] => []
  | n :: ns => n.move f :: moveNodes f ns

end

/-- The error, moved. -/
def SyntaxError.move (f : Nat → Nat) (e : SyntaxError) : SyntaxError :=
  { e with span := e.span.move f }

/-- The draft, moved. -/
def SelectorDraft.move (f : Nat → Nat) (d : SelectorDraft) : SelectorDraft :=
  { d with
    parts := d.parts.map (SelectorPart.move f)
    pending := d.pending.map (Token.move f)
    gap := d.gap.map (Span.move f) }

variable {f : Nat → Nat} {stop depth : Nat} {t : Token} {ts us head prelude run : List Token}
  {children : List Node} {block : Span}

/-- A span that is moved starts where its start is moved to. -/
@[simp] theorem Span.move_start (f : Nat → Nat) (s : Span) : (s.move f).start = f s.start := rfl

/-- A token keeps its kind when it is moved. -/
@[simp] theorem Token.move_kind (f : Nat → Nat) (t : Token) : (t.move f).kind = t.kind := rfl

/-- The span of a token is moved with it. -/
@[simp] theorem Token.move_span (f : Nat → Nat) (t : Token) : (t.move f).span = t.span.move f := rfl

/-- A token that is moved starts where its start is moved to. -/
@[simp] theorem Token.move_start (f : Nat → Nat) (t : Token) : (t.move f).start = f t.start := rfl

/-- Blanks and comments stay such when they are moved. -/
@[simp] theorem Token.move_isTrivia (f : Nat → Nat) (t : Token) :
    (t.move f).isTrivia = t.isTrivia := rfl

/-- A token means the same combinator when it is moved. -/
@[simp] theorem Token.move_combinator? (f : Nat → Nat) (t : Token) :
    (t.move f).combinator? = t.combinator? := rfl

/-- The span of a part of a selector is moved with it. -/
@[simp] theorem SelectorPart.move_span (f : Nat → Nat) (p : SelectorPart) :
    (p.move f).span = p.span.move f := by
  cases p <;> rfl

/-- A compound stays one when it is moved. -/
@[simp] theorem SelectorPart.move_isCompound (f : Nat → Nat) (p : SelectorPart) :
    (p.move f).isCompound = p.isCompound := by
  cases p <;> rfl

/-- Spans are joined before or after they are moved, as long as their order is kept. -/
theorem Span.union_move (hf : Monotone f) (s t : Span) :
    (s.move f).union (t.move f) = (s.union t).move f := by
  simp only [Span.union, Span.move, hf.map_min, hf.map_max]

/-! Tokens that are moved have the same roles. -/

/-- The second token is the first one, moved. -/
def Moved (f : Nat → Nat) (t u : Token) : Prop := t.move f = u

/-- Tokens that are moved keep their roles. -/
theorem respectsRoles_moved (f : Nat → Nat) : RespectsRoles (Moved f) := by
  rintro t _ rfl
  rfl

/-- Tokens are others moved, one by one, if they are their images. -/
theorem forall₂_moved_iff : List.Forall₂ (Moved f) ts us ↔ ts.map (Token.move f) = us := by
  rw [← List.forall₂_eq_eq_eq, List.forall₂_map_left_iff]
  rfl

/-- The images of tokens are these tokens moved. -/
theorem moved_map (f : Nat → Nat) (ts : List Token) :
    List.Forall₂ (Moved f) ts (ts.map (Token.move f)) :=
  forall₂_moved_iff.mpr rfl

/-- A run is taken off moved tokens as it is off the tokens. -/
theorem takeRun_move (halts : TokenKind → Bool) (count : Nat → TokenKind → Nat)
    (h : takeRun halts count depth ts = (run, us)) :
    takeRun halts count depth (ts.map (Token.move f)) =
      (run.map (Token.move f), us.map (Token.move f)) := by
  obtain ⟨run', us', htake, hrun, hus⟩ :=
    exists_takeRun_related (respectsRoles_moved f) (moved_map f ts) h
  rw [htake, forall₂_moved_iff.mp hrun, forall₂_moved_iff.mp hus]

/-- Blanks are dropped in front of moved tokens as they are in front of the tokens. -/
theorem dropBlanks_move (f : Nat → Nat) (ts : List Token) :
    (ts.map (Token.move f)).dropWhile (·.is .whitespace) =
      (ts.dropWhile (·.is .whitespace)).map (Token.move f) :=
  List.dropWhile_map ..

/-- Blanks are dropped behind moved tokens as they are behind the tokens. -/
theorem trimTrailingBlanks_move (f : Nat → Nat) (ts : List Token) :
    trimTrailingBlanks (ts.map (Token.move f)) = (trimTrailingBlanks ts).map (Token.move f) :=
  (forall₂_moved_iff.mp
    (trimTrailingBlanks_related (respectsRoles_moved f) (moved_map f ts))).symm

/-- Blanks are dropped around moved tokens as they are around the tokens. -/
theorem trimBlanks_move (f : Nat → Nat) (ts : List Token) :
    trimBlanks (ts.map (Token.move f)) = (trimBlanks ts).map (Token.move f) := by
  rw [trimBlanks, dropBlanks_move, trimTrailingBlanks_move, trimBlanks]

/-- What follows a broken statement is moved with the tokens. -/
theorem afterBroken_move (f : Nat → Nat) (n : Nat) (ts : List Token) :
    afterBroken n (ts.map (Token.move f)) = (afterBroken n ts).map (Token.move f) :=
  (forall₂_moved_iff.mp
    (afterBroken_related (respectsRoles_moved f) (moved_map f ts))).symm

/-- An `!important` is found behind moved tokens as it is behind the tokens. -/
theorem beforeImportant?_move (f : Nat → Nat) (ts : List Token) :
    beforeImportant? (ts.map (Token.move f)) =
      (beforeImportant? ts).map (List.map (Token.move f)) := by
  rcases beforeImportant?_related (respectsRoles_moved f) (moved_map f ts) with
    ⟨hnone, hnone'⟩ | ⟨front, front', hfront, hfront', hmoved⟩
  · rw [hnone, hnone', Option.map_none]
  · rw [hfront, hfront', Option.map_some, forall₂_moved_iff.mp hmoved]

/-- The end of the last significant token is moved with the tokens. -/
theorem lastSignificantStop_move (f : Nat → Nat) (start : Nat) (ts : List Token) :
    lastSignificantStop (f start) (ts.map (Token.move f)) = f (lastSignificantStop start ts) := by
  rw [lastSignificantStop, lastSignificantStop]
  rcases splitLastSignificant?_related (respectsRoles_moved f) (moved_map f ts) with
    ⟨hnone, hnone'⟩ | ⟨front, last, front', last', hlast, hlast', -, hmoved⟩
  · rw [hnone, hnone']
  · rw [hlast, hlast', ← show last.move f = last' from hmoved]
    rfl

/-- A semicolon is taken off moved tokens as it is off the tokens. -/
theorem takeSemicolon_move (f : Nat → Nat) (ts : List Token) :
    (takeSemicolon (ts.map (Token.move f))).1 = (takeSemicolon ts).1.map (Token.move f) ∧
      (takeSemicolon (ts.map (Token.move f))).2 = (takeSemicolon ts).2.map (Token.move f) := by
  cases ts with
  | nil => exact ⟨rfl, rfl⟩
  | cons t ts =>
    rw [List.map_cons, takeSemicolon, takeSemicolon, Token.move_kind]
    split <;> exact ⟨rfl, rfl⟩

/-- The place of an error is moved with the tokens. -/
theorem placeOf_move (f : Nat → Nat) (stop : Nat) (ts : List Token) :
    placeOf (f stop) (ts.map (Token.move f)) = (placeOf stop ts).move f := by
  cases ts <;> rfl

/-- A block is skipped in moved tokens as it is in the tokens. -/
theorem skipBlock_move (f : Nat → Nat) (stop depth : Nat) (ts : List Token) :
    (skipBlock (f stop) depth (ts.map (Token.move f))).1 = f (skipBlock stop depth ts).1 ∧
      (skipBlock (f stop) depth (ts.map (Token.move f))).2 =
        (skipBlock stop depth ts).2.map (Token.move f) := by
  induction ts generalizing depth with
  | nil => exact ⟨rfl, rfl⟩
  | cons t ts ih =>
    rw [List.map_cons, skipBlock, skipBlock, Token.move_kind]
    split
    · exact ih _
    · split
      · exact ⟨rfl, rfl⟩
      · exact ih _
    · exact ih _

/-- A value is made of moved tokens as it is of the tokens. -/
theorem Value.ofTokens?_move (f : Nat → Nat) (ts : List Token) :
    Value.ofTokens? (ts.map (Token.move f)) = (Value.ofTokens? ts).map (Value.move f) := by
  rw [Value.ofTokens?, Value.ofTokens?, List.head?_map, List.getLast?_map]
  cases ts.head? <;> cases ts.getLast? <;> rfl

/-- The tokens of a value are moved with its run. -/
theorem valueTokens_move (f : Nat → Nat) (run : List Token) :
    valueTokens (run.map (Token.move f)) = (valueTokens run).map (Token.move f) :=
  (forall₂_moved_iff.mp (valueTokens_related (respectsRoles_moved f) (moved_map f run))).symm

/-- The end of a value is moved with its tokens. -/
theorem valueEnd_move (hf : Monotone f) (colon : Token) (run : List Token) :
    valueEnd (colon.move f) (run.map (Token.move f)) = f (valueEnd colon run) := by
  rw [valueEnd, valueEnd, trimTrailingBlanks_move, List.getLast?_map]
  cases (trimTrailingBlanks run).getLast? with
  | none => rfl
  | some last => exact hf.map_max.symm

/-- A declaration is made of moved tokens as it is of the tokens. -/
theorem declarationNode_move (hf : Monotone f) (property colon : Token) (run : List Token)
    (semicolon : Option Token) :
    declarationNode (property.move f) (colon.move f) (run.map (Token.move f))
        (semicolon.map (Token.move f)) =
      (declarationNode property colon run semicolon).move f := by
  rw [declarationNode_eq, declarationNode_eq, valueEnd_move hf, valueTokens_move,
    Value.ofTokens?_move, trimTrailingBlanks_move, beforeImportant?_move, Option.isSome_map,
    Option.isSome_map]
  cases semicolon <;> rfl

/-- An at-rule is made of moved parts as it is of the parts. -/
theorem atRuleNode_move (f : Nat → Nat) (keyword : Token) (prelude : List Token) (stop : Nat)
    (block : Option Span) (children : List Node) :
    atRuleNode (keyword.move f) (prelude.map (Token.move f)) (f stop) (block.map (Span.move f))
        (moveNodes f children) =
      (atRuleNode keyword prelude stop block children).move f := by
  rw [atRuleNode, trimBlanks_move]
  rfl

/-! Selectors are built of tokens that are moved as they are of others. -/

/-- A compound is made of moved tokens as it is of the tokens. -/
theorem compoundOf_move (f : Nat → Nat) (h : ts ≠ []) :
    compoundOf (ts.map (Token.move f)) = (compoundOf ts).move f := by
  obtain ⟨t, ts, rfl⟩ := List.exists_cons_of_ne_nil h
  obtain ⟨last, hlast⟩ : ∃ last, (t :: ts).getLast? = some last := ⟨_, List.getLast?_cons⟩
  rw [compoundOf, compoundOf, List.head?_map, List.getLast?_map, hlast]
  rfl

namespace SelectorDraft

/-- The compound that a draft is at is finished before or after the draft is moved. -/
theorem flush_move (f : Nat → Nat) (d : SelectorDraft) : (d.move f).flush = d.flush.move f := by
  by_cases h : d.pending = []
  · have hmove : (d.move f).pending = [] := List.map_eq_nil_iff.mpr h
    rw [flush_of_pending_nil h, flush_of_pending_nil hmove]
  · have hmove : (d.move f).pending ≠ [] := mt List.map_eq_nil_iff.mp h
    have hcompound := compoundOf_move f (mt List.reverse_eq_nil_iff.mp h)
    rw [flush_of_pending_ne_nil h, flush_of_pending_ne_nil hmove, move, ← List.map_reverse,
      hcompound]
    rfl

/-- A draft that ends in a compound still does so when it is moved. -/
theorem endsInCompound_move (f : Nat → Nat) (d : SelectorDraft) :
    (d.move f).endsInCompound = d.endsInCompound := by
  obtain ⟨parts, pending, gap, depth⟩ := d
  cases parts with
  | nil => rfl
  | cons p parts => exact p.move_isCompound f

/-- A blank or a comment is added before or after the draft is moved. -/
theorem addTrivia_move (hf : Monotone f) (d : SelectorDraft) (t : Token) :
    (d.move f).addTrivia (t.move f) = (d.addTrivia t).move f := by
  rw [addTrivia, addTrivia, flush_move, endsInCompound_move]
  generalize d.flush = e
  obtain ⟨parts, pending, gap, depth⟩ := e
  split
  · cases gap with
    | none => rfl
    | some gap => simp only [move, Option.map_some, Token.move_span, Span.union_move hf]
  · rfl

/-- A combinator is added before or after the draft is moved. -/
theorem addCombinator_move (f : Nat → Nat) (d : SelectorDraft) (t : Token) (kind : Combinator) :
    (d.move f).addCombinator (t.move f) kind = (d.addCombinator t kind).move f := by
  rw [addCombinator, addCombinator, flush_move]
  rfl

/-- A gap is closed before or after the draft is moved. -/
theorem closeGap_move (f : Nat → Nat) (d : SelectorDraft) :
    (d.move f).closeGap = d.closeGap.move f := by
  have hends := d.endsInCompound_move f
  obtain ⟨parts, pending, gap, depth⟩ := d
  cases gap with
  | none => rfl
  | some gap =>
    simp only [move, closeGap, Option.map_some, List.isEmpty_map] at hends ⊢
    rw [hends]
    split <;> rfl

/-- A token of a compound is added before or after the draft is moved. -/
theorem addSimple_move (f : Nat → Nat) (d : SelectorDraft) (t : Token) :
    (d.move f).addSimple (t.move f) = (d.addSimple t).move f := rfl

/-- A token is added before or after the draft is moved. -/
theorem add_move (hf : Monotone f) (d : SelectorDraft) (t : Token) :
    (d.move f).add (t.move f) = (d.add t).move f := by
  rw [add, add, show (d.move f).depth = d.depth from rfl, Token.move_isTrivia,
    Token.move_combinator?]
  split
  · split
    · exact addTrivia_move hf d t
    · split
      · exact d.addCombinator_move f t _
      · rw [closeGap_move, addSimple_move]
  · rfl

/-- Tokens are added before or after the draft is moved. -/
theorem foldl_move (hf : Monotone f) (ts : List Token) (d : SelectorDraft) :
    (ts.map (Token.move f)).foldl add (d.move f) = (ts.foldl add d).move f := by
  induction ts generalizing d with
  | nil => rfl
  | cons t ts ih => rw [List.map_cons, List.foldl_cons, add_move hf, ih, List.foldl_cons]

/-- A draft is finished before or after it is moved. -/
theorem finish_move (f : Nat → Nat) (d : SelectorDraft) :
    (d.move f).finish = d.finish.map (SelectorPart.move f) := by
  have hcompound : (fun p : SelectorPart => !p.isCompound) ∘ SelectorPart.move f =
      fun p => !p.isCompound := funext fun p => congrArg not (p.move_isCompound f)
  rw [finish, flush_move, finish, List.map_reverse]
  refine congrArg List.reverse (List.dropWhile_map .. |>.trans ?_)
  rw [hcompound]

end SelectorDraft

/-- A selector is made of moved tokens as it is of the tokens. -/
theorem Selector.ofTokens?_move (hf : Monotone f) (ts : List Token) :
    Selector.ofTokens? (ts.map (Token.move f)) = (Selector.ofTokens? ts).map (Selector.move f) := by
  have hfold := SelectorDraft.foldl_move hf ts .empty
  rw [show SelectorDraft.empty.move f = .empty from rfl] at hfold
  simp only [Selector.ofTokens?, hfold, SelectorDraft.finish_move, List.head?_map,
    List.getLast?_map]
  generalize (ts.foldl SelectorDraft.add .empty).finish = parts
  cases parts.head? <;> cases parts.getLast? <;>
    simp [Selector.move, Span.move]

/-- Moved tokens are parted at the same commas as the tokens. -/
theorem splitCommasFrom_move (f : Nat → Nat) (depth : Nat) (ts : List Token) :
    splitCommasFrom depth (ts.map (Token.move f)) =
      (splitCommasFrom depth ts).map (List.map (Token.move f)) := by
  induction ts generalizing depth with
  | nil => rfl
  | cons t ts ih =>
    rw [List.map_cons, splitCommasFrom, splitCommasFrom, Token.move_kind, ih, ih]
    split
    · rfl
    · cases splitCommasFrom (t.kind.inlineDepth depth) ts <;> rfl

/-- A list of selectors is made of moved tokens as it is of the tokens. -/
theorem SelectorList.ofTokens_move (hf : Monotone f) (ts : List Token) (behind : Nat) :
    SelectorList.ofTokens (ts.map (Token.move f)) (f behind) =
      (SelectorList.ofTokens ts behind).move f := by
  have hselectors : (splitCommas (ts.map (Token.move f))).filterMap Selector.ofTokens? =
      ((splitCommas ts).filterMap Selector.ofTokens?).map (Selector.move f) := by
    rw [splitCommas, splitCommasFrom_move, List.filterMap_map, List.map_filterMap, splitCommas]
    exact List.filterMap_congr fun group _ => Selector.ofTokens?_move hf group
  simp only [SelectorList.ofTokens, hselectors, List.head?_map, List.getLast?_map]
  generalize (splitCommas ts).filterMap Selector.ofTokens? = selectors
  cases selectors.head? <;> cases selectors.getLast? <;> rfl

/-- A ruleset is made of moved parts as it is of the parts. -/
theorem rulesetNode_move (hf : Monotone f) (start : Nat) (head : List Token) (opener : Token)
    (children : List Node) (block : Span) :
    rulesetNode (f start) (head.map (Token.move f)) (opener.move f) (moveNodes f children)
        (block.move f) =
      (rulesetNode start head opener children block).move f := by
  rw [rulesetNode, Token.move_start, SelectorList.ofTokens_move hf]
  rfl

end CssWorkbench
