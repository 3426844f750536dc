import Mathlib.Logic.Relation
import CssWorkbench.Proofs.Tree.ReadingOfParser

/-!
# The parser, turn by turn

The parser goes round a loop, one for the stylesheet and one more for every block that it is in.
`ParserState` is what it has in hand between two turns, and `Turn` says what one turn can do. Which
loop goes on is decided by the blocks that are open, how deep the parser is by a counter alone; that
the two agree is proved, not built in.

Every turn leaves less to do, and there is one as long as tokens are ahead or blocks are open. A
state without a next turn therefore has its counter back at zero, and what it holds is the answer
of `parse`.
-/

namespace CssWorkbench

/-- A block that the parser is in: how a node is made of it, the `{` that opens it, and the nodes
that were read before it. -/
structure OpenBlock where
  make : List Node → Span → Node
  opener : Token
  before : List Node

/-- The nodes up to a block that ends at `stop`. -/
def OpenBlock.close (b : OpenBlock) (children : List Node) (stop : Nat) : List Node :=
  b.before ++ [b.make children ⟨b.opener.start, stop⟩]

/-- What the parser has in hand: the tokens ahead, the counter of the blocks that it went into, the
open blocks from the innermost one on, the nodes of the innermost one so far, and the errors. -/
structure ParserState where
  ahead : List Token
  nesting : Nat
  opened : List OpenBlock
  nodes : List Node
  errors : List SyntaxError

namespace ParserState

/-- Nothing is read yet. -/
def start (source : String) : ParserState := ⟨(scan source).dropLast, 0, [], [], []⟩

/-- Everything is read. -/
def done (nodes : List Node) (errors : List SyntaxError) : ParserState := ⟨[], 0, [], nodes, errors⟩

/-- A bound on the turns to come: one for every token, and one for every block that is open or may
still be opened. -/
def turnsLeft (s : ParserState) : Nat := 2 * s.ahead.length + s.opened.length

/-- The counter counts the open blocks, and they are not too many. -/
def Counted (s : ParserState) : Prop :=
  s.nesting = s.opened.length ∧ s.nesting ≤ maxNesting

end ParserState

/-- One turn of the parser. -/
inductive Turn (stop : Nat) : ParserState → ParserState → Prop
  | stray {t : Token} {ts : List Token} {nesting : Nat} {nodes : List Node}
      {errors : List SyntaxError} {fault : SyntaxFault} (kind : Stray t.kind fault) :
      Turn stop ⟨t :: ts, nesting, [], nodes, errors⟩
        ⟨ts, nesting, [], nodes, errors ++ [⟨fault, t.span⟩]⟩
  | pass {t : Token} {ts : List Token} {nesting : Nat} {opened : List OpenBlock}
      {nodes : List Node} {errors : List SyntaxError} (kind : Passed opened.length t.kind) :
      Turn stop ⟨t :: ts, nesting, opened, nodes, errors⟩ ⟨ts, nesting, opened, nodes, errors⟩
  | comment {t : Token} {ts : List Token} {nesting : Nat} {opened : List OpenBlock}
      {nodes : List Node} {errors : List SyntaxError} (kind : t.kind = .comment) :
      Turn stop ⟨t :: ts, nesting, opened, nodes, errors⟩
        ⟨ts, nesting, opened, nodes ++ [.comment t.span], errors⟩
  | declaration {t colon : Token} {ts behindColon run left : List Token} {nesting : Nat}
      {block : OpenBlock} {opened : List OpenBlock} {nodes : List Node}
      {errors : List SyntaxError} (kind : t.kind = .ident)
      (gap : ts.dropWhile (·.is .whitespace) = colon :: behindColon)
      (colonKind : colon.kind = .colon)
      (value : takeValue (behindColon.dropWhile (·.is .whitespace)) = (run, left)) :
      Turn stop ⟨t :: ts, nesting, block :: opened, nodes, errors⟩
        ⟨(takeSemicolon left).2, nesting, block :: opened,
          nodes ++ [.declaration (declarationNode t colon run (takeSemicolon left).1)], errors⟩
  | statement {t : Token} {ts left : List Token} {nesting : Nat} {opened : List OpenBlock}
      {node : Node} {nodes : List Node} {first errors : List SyntaxError}
      (keyword : t.kind = .atKeyword) (rule : ReadsStatement stop t ts node left first) :
      Turn stop ⟨t :: ts, nesting, opened, nodes, errors⟩
        ⟨left, nesting, opened, nodes ++ [node], errors ++ first⟩
  | enter {t opener : Token} {ts inner : List Token} {nesting : Nat} {opened : List OpenBlock}
      {make : List Node → Span → Node} {nodes : List Node} {errors : List SyntaxError}
      (head : Heads opened.length t ts opener inner make) (shallow : nesting < maxNesting) :
      Turn stop ⟨t :: ts, nesting, opened, nodes, errors⟩
        ⟨inner, nesting + 1, ⟨make, opener, nodes⟩ :: opened, [], errors⟩
  | cut {t opener : Token} {ts inner : List Token} {nesting : Nat} {opened : List OpenBlock}
      {make : List Node → Span → Node} {nodes : List Node} {errors : List SyntaxError}
      (head : Heads opened.length t ts opener inner make) (deep : maxNesting ≤ nesting) :
      Turn stop ⟨t :: ts, nesting, opened, nodes, errors⟩
        ⟨(skipBlock stop 1 inner).2, nesting, opened,
          nodes ++ [make [] ⟨opener.start, (skipBlock stop 1 inner).1⟩],
          errors ++ [⟨.nestedTooDeeply, opener.span⟩]⟩
  | broken {t : Token} {ts head left : List Token} {nesting : Nat} {opened : List OpenBlock}
      {nodes : List Node} {errors : List SyntaxError} (leads : t.kind.leads = false)
      (notBrace : t.kind ≠ .lbrace) (notDeclared : 0 < opened.length → ¬ StartsDeclaration t ts)
      (run : takePrelude (t.kind.inlineDepth 0) ts = (head, left))
      (noBrace : ∀ u ∈ left.head?, u.kind ≠ .lbrace) :
      Turn stop ⟨t :: ts, nesting, opened, nodes, errors⟩
        ⟨afterBroken nesting left, nesting, opened, nodes,
          errors ++ [⟨.expectedBlock, placeOf stop left⟩]⟩
  | close {t : Token} {ts : List Token} {nesting : Nat} {block : OpenBlock}
      {opened : List OpenBlock} {nodes : List Node} {errors : List SyntaxError}
      (kind : t.kind = .rbrace) :
      Turn stop ⟨t :: ts, nesting, block :: opened, nodes, errors⟩
        ⟨ts, nesting - 1, opened, block.close nodes t.stop, errors⟩
  | unclosed {nesting : Nat} {block : OpenBlock} {opened : List OpenBlock} {nodes : List Node}
      {errors : List SyntaxError} :
      Turn stop ⟨[], nesting, block :: opened, nodes, errors⟩
        ⟨[], nesting - 1, opened, block.close nodes stop,
          errors ++ [⟨.expectedBlockEnd, Span.single stop⟩]⟩

variable {stop n e : Nat} {s s' final : ParserState} {ts left rest : List Token}
  {nodes more allNodes : List Node} {errors first allErrors : List SyntaxError}
  {opened : List OpenBlock}

/-- A turn keeps the counter right and in its bound. -/
theorem Turn.counted (h : Turn stop s s') (hs : s.Counted) : s'.Counted := by
  obtain ⟨hlength, hle⟩ := hs
  cases h with
  | stray | pass | comment | declaration | statement | cut | broken => exact ⟨hlength, hle⟩
  | enter _ shallow => exact ⟨congrArg (· + 1) hlength, shallow⟩
  | close | unclosed =>
    simp only [List.length_cons] at hlength hle
    exact ⟨by simp only [hlength, Nat.add_sub_cancel], by simp only; omega⟩

/-- A turn leaves less to do. -/
theorem Turn.turnsLeft_lt (h : Turn stop s s') : s'.turnsLeft < s.turnsLeft := by
  cases h with
  | stray | pass | comment => simp [ParserState.turnsLeft]
  | declaration _ gap _ value =>
    have hle := (declaration_suffix gap value).length_le
    simp only [ParserState.turnsLeft, List.length_cons]
    omega
  | statement _ rule =>
    have hle := rule.suffix.length_le
    simp only [ParserState.turnsLeft, List.length_cons]
    omega
  | enter head =>
    have hle := head.suffix.length_le
    simp only [ParserState.turnsLeft, List.length_cons]
    omega
  | @cut _ _ _ inner _ _ _ _ _ head =>
    have hle := ((skipBlock_suffix stop 1 inner).trans head.suffix).length_le
    simp only [ParserState.turnsLeft, List.length_cons]
    omega
  | @broken _ _ _ left nesting _ _ _ _ _ _ run =>
    have hle := ((afterBroken_suffix nesting left).trans (takeRun_suffix run)).length_le
    simp only [ParserState.turnsLeft, List.length_cons]
    omega
  | close | unclosed =>
    simp only [ParserState.turnsLeft, List.length_cons, List.length_nil]
    omega

/-- As long as tokens are ahead or blocks are open there is a next turn. -/
theorem exists_turn (stop : Nat) (hs : s.Counted) :
    s = .done s.nodes s.errors ∨ ∃ s', Turn stop s s' := by
  obtain ⟨ahead, nesting, opened, nodes, errors⟩ := s
  obtain ⟨rfl, hle⟩ : nesting = opened.length ∧ nesting ≤ maxNesting := hs
  obtain ⟨_, _, _, _, h⟩ := exists_reads stop opened.length ahead
  generalize hn : opened.length = n at h
  cases h with
  | finish =>
    obtain rfl := List.length_eq_zero_iff.mp hn
    exact .inl rfl
  | stray kind =>
    obtain rfl := List.length_eq_zero_iff.mp hn
    exact .inr ⟨_, .stray kind⟩
  | unclosed =>
    obtain ⟨block, opened, rfl⟩ := List.exists_cons_of_length_eq_add_one hn
    exact .inr ⟨_, .unclosed⟩
  | close kind =>
    obtain ⟨block, opened, rfl⟩ := List.exists_cons_of_length_eq_add_one hn
    exact .inr ⟨_, .close kind⟩
  | declaration kind gap colonKind value =>
    obtain ⟨block, opened, rfl⟩ := List.exists_cons_of_length_eq_add_one hn
    exact .inr ⟨_, .declaration kind gap colonKind value⟩
  | pass kind => exact .inr ⟨_, .pass (hn ▸ kind)⟩
  | comment kind => exact .inr ⟨_, .comment kind⟩
  | statement keyword rule => exact .inr ⟨_, .statement keyword rule⟩
  | block head shallow => exact .inr ⟨_, .enter (hn ▸ head) shallow⟩
  | deepBlock head deep => exact .inr ⟨_, .cut (hn ▸ head) deep⟩
  | broken leads notBrace notDeclared run noBrace =>
    exact .inr ⟨_, .broken leads notBrace (hn ▸ notDeclared) run noBrace⟩

/-- Turns go on until everything is read. -/
theorem exists_run (stop : Nat) (hs : s.Counted) :
    ∃ nodes errors, Relation.ReflTransGen (Turn stop) s (.done nodes errors) := by
  induction hleft : s.turnsLeft using Nat.strongRecOn generalizing s with
  | ind turns ih =>
    subst hleft
    rcases exists_turn stop hs with hdone | ⟨s', hturn⟩
    · exact ⟨s.nodes, s.errors, hdone ▸ .refl⟩
    · obtain ⟨nodes, errors, hrun⟩ := ih _ hturn.turnsLeft_lt (hturn.counted hs) rfl
      exact ⟨nodes, errors, .head hturn hrun⟩

/-- The blocks around one that ends at `e` are read from `rest` on, and in the end there are these
nodes and errors. -/
def Resumes (stop : Nat) (allNodes : List Node) (allErrors : List SyntaxError) :
    List OpenBlock → Nat → List Token → List Node → List SyntaxError → Prop
  | [], _, _, nodes, errors => nodes = allNodes ∧ errors = allErrors
  | block :: opened, e, rest, nodes, errors => ∃ more e' rest' first,
    Reads stop opened.length rest more e' rest' first ∧
      Resumes stop allNodes allErrors opened e' rest' (block.close nodes e ++ more)
        (errors ++ first)

/-- What is ahead of a state is read to these nodes and errors in the end. -/
def ParserState.Completes (s : ParserState) (stop : Nat) (allNodes : List Node)
    (allErrors : List SyntaxError) : Prop :=
  ∃ more e rest first, Reads stop s.opened.length s.ahead more e rest first ∧
    Resumes stop allNodes allErrors s.opened e rest (s.nodes ++ more) (s.errors ++ first)

/-- A turn does not change what is read in the end. -/
theorem Turn.completes (h : Turn stop s s') (hs : s.Counted)
    (hend : s'.Completes stop allNodes allErrors) : s.Completes stop allNodes allErrors := by
  obtain ⟨more, e, rest, first, hreads, hresumes⟩ := hend
  cases h with
  | stray kind => exact ⟨more, e, rest, _ :: first, .stray kind hreads, by simpa using hresumes⟩
  | pass kind => exact ⟨more, e, rest, first, .pass kind hreads, hresumes⟩
  | comment kind => exact ⟨_ :: more, e, rest, first, .comment kind hreads, by simpa using hresumes⟩
  | declaration kind gap colonKind value =>
    exact ⟨_ :: more, e, rest, first, .declaration kind gap colonKind value hreads,
      by simpa using hresumes⟩
  | statement keyword rule =>
    exact ⟨_ :: more, e, rest, _ ++ first, .statement keyword rule hreads, by simpa using hresumes⟩
  | enter head shallow =>
    obtain ⟨behind, e', rest', next, hbehind, hresumes⟩ := hresumes
    refine ⟨_ :: behind, e', rest', first ++ next, .block head (hs.1 ▸ shallow) hreads hbehind, ?_⟩
    simpa [OpenBlock.close] using hresumes
  | cut head deep =>
    exact ⟨_ :: more, e, rest, _ :: first, .deepBlock head (hs.1 ▸ deep) hreads,
      by simpa using hresumes⟩
  | broken leads notBrace notDeclared run noBrace =>
    refine ⟨more, e, rest, _ :: first, .broken leads notBrace notDeclared run noBrace ?_,
      by simpa using hresumes⟩
    exact hs.1 ▸ hreads
  | close kind =>
    exact ⟨[], _, _, [], .close kind, more, e, rest, first, hreads, by simpa using hresumes⟩
  | unclosed =>
    exact ⟨[], _, _, _, .unclosed, more, e, rest, first, hreads, by simpa using hresumes⟩

/-- On a run the counter stays right. -/
theorem counted_of_run (h : Relation.ReflTransGen (Turn stop) s s') (hs : s.Counted) :
    s'.Counted := by
  induction h with
  | refl => exact hs
  | tail _ hturn ih => exact hturn.counted ih

/-- On a run what is read in the end stays the same. -/
theorem completes_of_run (h : Relation.ReflTransGen (Turn stop) s s') (hs : s.Counted)
    (hend : s'.Completes stop allNodes allErrors) : s.Completes stop allNodes allErrors := by
  induction h with
  | refl => exact hend
  | tail hrun hturn ih => exact ih (hturn.completes (counted_of_run hrun hs) hend)

/-- The count is right at the start. -/
theorem counted_start (source : String) : (ParserState.start source).Counted :=
  ⟨rfl, Nat.zero_le _⟩

/-- A run that has read everything holds the answer of `parse`. -/
theorem parse_eq_of_run {source : String}
    (h : Relation.ReflTransGen (Turn (Text.size source)) (.start source) (.done nodes errors)) :
    nodes = (parse source).1.children ∧ errors = (parse source).2 := by
  have hdone : (ParserState.done nodes errors).Completes (Text.size source) nodes errors :=
    ⟨[], _, [], [], .finish, List.append_nil _, List.append_nil _⟩
  obtain ⟨more, e, rest, first, hreads, rfl, rfl⟩ :=
    completes_of_run h (counted_start source) hdone
  rw [parse_eq_of_reads hreads]
  exact ⟨rfl, rfl⟩

end CssWorkbench
