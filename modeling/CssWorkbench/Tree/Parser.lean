import CssWorkbench.Token.Scanner
import CssWorkbench.Tree.Run

/-!
# The parser

The parser reads statements off a list of tokens from which the end token is taken away; `stop` is
where the source ends. What a reader returns says which tokens it leaves, and that they are no
more than it was given: this bounds the mutual nesting of blocks, at-rules and rulesets.

Blocks nest at most `maxNesting` deep. A deeper block is skipped as a whole, and an error says so.
-/

namespace CssWorkbench

/-- Blocks nested deeper than this are skipped. -/
def maxNesting : Nat := 128

/-- What a reader leaves of at most `n` tokens: a value, the tokens behind it, and the errors met
on the way, in order. -/
structure Step (α : Type) (n : Nat) where
  value : α
  rest : List Token
  errors : List SyntaxError
  rest_le : rest.length ≤ n

namespace Step

/-- The same step, said of a longer list. -/
def weaken {α : Type} {m n : Nat} (s : Step α m) (h : m ≤ n) : Step α n :=
  { s with rest_le := Nat.le_trans s.rest_le h }

/-- The same step, said of a list with one more token in front. -/
def behind {α : Type} {n : Nat} (s : Step α n) : Step α (n + 1) :=
  s.weaken (Nat.le_succ n)

/-- The step that leaves nothing. -/
def toEnd {α : Type} {n : Nat} (value : α) (errors : List SyntaxError) : Step α n :=
  ⟨value, [], errors, Nat.zero_le n⟩

/-- The step with another value. -/
def map {α β : Type} {n : Nat} (f : α → β) (s : Step α n) : Step β n :=
  ⟨f s.value, s.rest, s.errors, s.rest_le⟩

/-- The step with earlier errors in front. -/
def after {α : Type} {n : Nat} (errors : List SyntaxError) (s : Step α n) : Step α n :=
  { s with errors := errors ++ s.errors }

end Step

/-- What stands behind the first token of a part of a list is shorter than the list. -/
theorem length_lt_of_cons {part : List Token} {t : Token} {behind : List Token} {n : Nat}
    (h : part = t :: behind) (le : part.length ≤ n) : behind.length < n := by
  subst h
  exact le

/-- A part of a list that is known by its first token is no longer than the list. -/
theorem length_le_of_cons {part : List Token} {t : Token} {behind : List Token} {n : Nat}
    (h : part = t :: behind) (le : part.length ≤ n) : (t :: behind).length ≤ n := by
  subst h
  exact le

/-- The end of a block of which `depth` braces are open, and the tokens behind it. -/
def skipBlock (stop depth : Nat) : List Token → Nat × List Token
  | [] => (stop, [])
  | t :: ts =>
    match t.kind with
    | .lbrace => skipBlock stop (depth + 1) ts
    | .rbrace => if depth ≤ 1 then (t.stop, ts) else skipBlock stop (depth - 1) ts
    | _ => skipBlock stop depth ts

/-- A block that is skipped leaves no more tokens than there were. -/
theorem skipBlock_length_le (stop depth : Nat) (ts : List Token) :
    (skipBlock stop depth ts).2.length ≤ ts.length := by
  fun_induction skipBlock stop depth ts <;> simp_all <;> omega

/-- A declaration in a block is an identifier with, blanks aside, a `:` behind it: that colon and
what follows it. -/
def declarationColon? (t : Token) (ts : List Token) :
    Option { p : Token × List Token // p.2.length < ts.length } :=
  if t.kind = .ident then
    match h : ts.dropWhile (·.is .whitespace) with
    | colon :: behind =>
      if colon.kind = .colon then
        some ⟨(colon, behind), length_lt_of_cons h (List.dropWhile_sublist _).length_le⟩
      else none
    | [] => none
  else none

/-- Pass over what cannot be a declaration, up to and with the next `;`, or up to a `}`. -/
def recoverDeclaration (ts : List Token) : List Token :=
  match (takeValue ts).2 with
  | t :: behind => if t.kind = .semicolon then behind else t :: behind
  | [] => []

/-- What follows a broken declaration is no more than there was. -/
theorem recoverDeclaration_length_le (ts : List Token) :
    (recoverDeclaration ts).length ≤ ts.length := by
  have h : (takeValue ts).2.length ≤ ts.length := takeRun_length_le ..
  unfold recoverDeclaration
  split
  · rename_i t behind eq
    rw [eq] at h
    split
    · simp only [List.length_cons] at h
      omega
    · exact h
  · simp

/-- The declaration of `property` whose colon is followed by `ts`. -/
def declarationValue (property colon : Token) (ts : List Token) :
    Step Declaration ts.length :=
  let run := takeValue (ts.dropWhile (·.is .whitespace))
  have run_le : run.2.length ≤ ts.length :=
    Nat.le_trans (takeRun_length_le ..) (List.dropWhile_sublist _).length_le
  let tokens := trimTrailingBlanks run.1
  let before := beforeImportant? tokens
  let value := Value.ofTokens? (match before with
    | some front => trimTrailingBlanks front
    | none => tokens)
  let valueEnd := match tokens.getLast? with
    | some last => max last.stop colon.stop
    | none => colon.stop
  match h : run.2 with
  | t :: behind =>
    if t.kind = .semicolon then
      ⟨⟨⟨property.start, t.stop⟩, property, value, before.isSome, true⟩, behind, [],
        Nat.le_of_lt (length_lt_of_cons h run_le)⟩
    else
      ⟨⟨⟨property.start, valueEnd⟩, property, value, before.isSome, false⟩, t :: behind, [],
        length_le_of_cons h run_le⟩
  | [] => .toEnd ⟨⟨property.start, valueEnd⟩, property, value, before.isSome, false⟩ []

/-- Read a declaration. -/
def readDeclaration (stop : Nat) : (ts : List Token) → Step (Option Declaration) ts.length
  | [] => .toEnd none [⟨.expectedProperty, Span.single stop⟩]
  | property :: ts =>
    if property.kind = .ident then
      match h : ts.dropWhile Token.isTrivia with
      | [] => .toEnd none [⟨.expectedColon, Span.single stop⟩]
      | colon :: behind =>
        have le : (colon :: behind).length ≤ ts.length :=
          length_le_of_cons h (List.dropWhile_sublist _).length_le
        if colon.kind = .colon then
          ((declarationValue property colon behind).map some).weaken
            (Nat.le_trans (Nat.le_of_succ_le le) (Nat.le_succ _))
        else
          ⟨none, recoverDeclaration (colon :: behind), [⟨.expectedColon, colon.span⟩],
            Nat.le_trans (recoverDeclaration_length_le _)
              (Nat.le_trans le (Nat.le_succ _))⟩
    else
      ⟨none, recoverDeclaration (property :: ts), [⟨.expectedProperty, property.span⟩],
        recoverDeclaration_length_le _⟩

/-- A reader of the block behind a `{`, good for fewer than `n` tokens. -/
abbrev BlockReader (n : Nat) : Type :=
  (opener : Token) → (ts : List Token) → ts.length < n → Step (List Node × Span) ts.length

/-- Where a statement ends of which `tokens` have been read, blanks and comments aside. -/
def lastSignificantStop (start : Nat) (tokens : List Token) : Nat :=
  match splitLastSignificant? tokens with
  | some (_, last) => last.stop
  | none => start

/-- Read the at-rule whose keyword is followed by `ts`. -/
def readAtRule (stop : Nat) (keyword : Token) (ts : List Token)
    (readBlock : BlockReader (ts.length + 1)) : Step Node ts.length :=
  let run := takePrelude 0 ts
  have run_le : run.2.length ≤ ts.length := takeRun_length_le ..
  let statement (ruleStop : Nat) (block : Option Span) (children : List Node) : Node :=
    .atRule
      ⟨⟨keyword.start, ruleStop⟩, keyword.value, keyword.span, trimBlanks run.1, block⟩ children
  let brokenStop := lastSignificantStop keyword.stop run.1
  match h : run.2 with
  | [] =>
    .toEnd (statement brokenStop none []) [⟨.expectedEndOfAtRule, Span.single stop⟩]
  | t :: behind =>
    have le : behind.length < ts.length := length_lt_of_cons h run_le
    if t.kind = .semicolon then
      ⟨statement t.stop none [], behind, [], Nat.le_of_lt le⟩
    else if t.kind = .lbrace then
      ((readBlock t behind (Nat.lt_succ_of_lt le)).map fun (children, span) =>
        statement span.stop (some span) children).weaken (Nat.le_of_lt le)
    else
      ⟨statement brokenStop none [], t :: behind, [⟨.expectedEndOfAtRule, t.span⟩],
        length_le_of_cons h run_le⟩

/-- The ruleset whose selectors are spelled by `head` and whose block starts at `opener`. -/
def rulesetNode (start : Nat) (head : List Token) (opener : Token) (children : List Node)
    (block : Span) : Node :=
  .ruleset ⟨⟨start, block.stop⟩, SelectorList.ofTokens head opener.start, block⟩ children

/-- Read the ruleset that starts with `first`. A run of tokens that no block follows is passed
over; outside blocks (`nested` is false) a `}` behind it goes with it. -/
def readRuleset (stop : Nat) (nested : Bool) (first : Token) (ts : List Token)
    (readBlock : BlockReader (ts.length + 1)) : Step (Option Node) ts.length :=
  if first.kind = .lbrace then
    (readBlock first ts (Nat.lt_succ_self _)).map fun (children, block) =>
      some (rulesetNode first.start [] first children block)
  else if haltsPrelude first.kind then
    ⟨none, ts, [⟨.expectedBlock, first.span⟩], Nat.le_refl _⟩
  else
    let run := takePrelude (first.kind.inlineDepth 0) ts
    have run_le : run.2.length ≤ ts.length := takeRun_length_le ..
    match h : run.2 with
    | [] => .toEnd none [⟨.expectedBlock, Span.single stop⟩]
    | t :: behind =>
      have le : behind.length < ts.length := length_lt_of_cons h run_le
      if t.kind = .lbrace then
        ((readBlock t behind (Nat.lt_succ_of_lt le)).map fun (children, block) =>
          some (rulesetNode first.start (first :: run.1) t children block)).weaken
            (Nat.le_of_lt le)
      else if t.kind = .semicolon || !nested then
        ⟨none, behind, [⟨.expectedBlock, t.span⟩], Nat.le_of_lt le⟩
      else
        ⟨none, t :: behind, [⟨.expectedBlock, t.span⟩], length_le_of_cons h run_le⟩

/-- Pass over a block that is nested too deeply. -/
def skippedBlock (stop : Nat) (opener : Token) (ts : List Token) :
    Step (List Node × Span) ts.length :=
  ⟨([], ⟨opener.start, (skipBlock stop 1 ts).1⟩), (skipBlock stop 1 ts).2,
    [⟨.nestedTooDeeply, opener.span⟩], skipBlock_length_le ..⟩

/-- Read the nodes of a block behind its `{`, and where it ends; `nesting` blocks are open, this
one included. -/
def readBlockBody (stop nesting : Nat) (ts : List Token) :
    Step (List Node × Nat) ts.length :=
  match ts with
  | [] => .toEnd ([], stop) [⟨.expectedBlockEnd, Span.single stop⟩]
  | t :: ts =>
    let readBlock : BlockReader (ts.length + 1) := fun opener inner _ =>
      if nesting < maxNesting then
        (readBlockBody stop (nesting + 1) inner).map fun (children, blockStop) =>
          (children, ⟨opener.start, blockStop⟩)
      else skippedBlock stop opener inner
    let push (nodes : List Node) (body : List Node × Nat) : List Node × Nat :=
      (nodes ++ body.1, body.2)
    match t.kind with
    | .rbrace => ⟨([], t.stop), ts, [], Nat.le_succ _⟩
    | .whitespace | .semicolon | .cdo | .cdc =>
      (readBlockBody stop nesting ts).behind
    | .comment =>
      ((readBlockBody stop nesting ts).map (push [.comment t.span])).behind
    | .atKeyword =>
      match readAtRule stop t ts readBlock with
      | ⟨rule, rest, errors, le⟩ =>
        (((readBlockBody stop nesting rest).map (push [rule])).after errors).weaken
          (Nat.le_succ_of_le le)
    | _ =>
      match declarationColon? t ts with
      | some ⟨(colon, behind), lt⟩ =>
        match declarationValue t colon behind with
        | ⟨decl, rest, _, le⟩ =>
          have le : rest.length ≤ ts.length := Nat.le_trans le (Nat.le_of_lt lt)
          ((readBlockBody stop nesting rest).map (push [.declaration decl])).weaken
            (Nat.le_succ_of_le le)
      | none =>
        match readRuleset stop true t ts readBlock with
        | ⟨rule, rest, errors, le⟩ =>
          (((readBlockBody stop nesting rest).map (push rule.toList)).after errors).weaken
            (Nat.le_succ_of_le le)
termination_by ts.length
decreasing_by
  all_goals simp only [List.length_cons]
  all_goals omega

/-- Read the block behind `opener`, of which `nesting` are open around it. -/
def readBlock (stop nesting : Nat) (opener : Token) (ts : List Token) :
    Step (List Node × Span) ts.length :=
  if nesting < maxNesting then
    (readBlockBody stop (nesting + 1) ts).map fun (children, blockStop) =>
      (children, ⟨opener.start, blockStop⟩)
  else skippedBlock stop opener ts

/-- The nodes of a stylesheet, with the errors met. -/
def readStatements (stop : Nat) (ts : List Token) : List Node × List SyntaxError :=
  match ts with
  | [] => ([], [])
  | t :: ts =>
    match t.kind with
    | .whitespace | .cdo | .cdc => readStatements stop ts
    | .comment =>
      let r := readStatements stop ts
      (.comment t.span :: r.1, r.2)
    | .rbrace =>
      let r := readStatements stop ts
      (r.1, ⟨.strayBlockEnd, t.span⟩ :: r.2)
    | .semicolon =>
      let r := readStatements stop ts
      (r.1, ⟨.straySemicolon, t.span⟩ :: r.2)
    | .atKeyword =>
      match readAtRule stop t ts fun opener inner _ => readBlock stop 0 opener inner with
      | ⟨rule, rest, errors, _⟩ =>
        let r := readStatements stop rest
        (rule :: r.1, errors ++ r.2)
    | _ =>
      match readRuleset stop false t ts fun opener inner _ => readBlock stop 0 opener inner with
      | ⟨rule, rest, errors, _⟩ =>
        let r := readStatements stop rest
        (rule.toList ++ r.1, errors ++ r.2)
termination_by ts.length
decreasing_by
  all_goals simp only [List.length_cons]
  all_goals omega

/-- The tree of a source with the errors met; there is always one. -/
def parse (source : String) : Stylesheet × List SyntaxError :=
  let stop := Text.size source
  let r := readStatements stop (scan source).dropLast
  (⟨⟨0, stop⟩, r.1⟩, r.2)

end CssWorkbench
