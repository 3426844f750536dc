import CssWorkbench.Proofs.Tree.Moved
import CssWorkbench.Proofs.Tree.SameReading

/-!
# Moved tokens are read as moved nodes

The parser compares no offset with a fixed one. Where its tokens are moved in their order, and the end
of the source with them, every node and every error that it makes is moved likewise.
-/

namespace CssWorkbench

variable {f : Nat → Nat} {stop n e : Nat} {t opener : Token} {ts inner left rest : List Token}
  {node : Node} {nodes : List Node} {make : List Node → Span → Node} {errors : List SyntaxError}

/-- Moved tokens start a declaration when the tokens do. -/
theorem startsDeclaration_move (f : Nat → Nat) (t : Token) (ts : List Token) :
    StartsDeclaration (t.move f) (ts.map (Token.move f)) ↔ StartsDeclaration t ts :=
  startsDeclaration_related (respectsRoles_moved f) rfl (moved_map f ts)

/-- What is said of the kind of the next token is said of it where it is moved. -/
theorem forall_head?_move {P : TokenKind → Prop} (h : ∀ u ∈ ts.head?, P u.kind) :
    ∀ u ∈ (ts.map (Token.move f)).head?, P u.kind := by
  cases ts with
  | nil => simp
  | cons t ts => simpa using h

/-- An at-rule without a block is read off moved tokens as it is off the tokens. -/
theorem ReadsStatement.move (f : Nat → Nat) (h : ReadsStatement stop t ts node left errors) :
    ReadsStatement (f stop) (t.move f) (ts.map (Token.move f)) (node.move f)
      (left.map (Token.move f)) (errors.map (SyntaxError.move f)) := by
  cases h with
  | @ended semicolon prelude _ run kind =>
    have hnode := atRuleNode_move f t prelude semicolon.stop none []
    rw [← hnode]
    exact .ended (takeRun_move _ _ run) kind
  | @broken prelude _ run kind =>
    have hnode := atRuleNode_move f t prelude (lastSignificantStop t.stop prelude) none []
    rw [← hnode, ← lastSignificantStop_move f, List.map_singleton, SyntaxError.move,
      ← placeOf_move]
    exact .broken (takeRun_move _ _ run) (forall_head?_move (P := (· = .rbrace)) kind)

/-- A block that is moved opens behind the same head, and the node around it is moved. -/
theorem Heads.move (hf : Monotone f) (h : Heads n t ts opener inner make) :
    ∃ make', Heads n (t.move f) (ts.map (Token.move f)) (opener.move f)
        (inner.map (Token.move f)) make' ∧
      ∀ children block,
        make' (moveNodes f children) (block.move f) = (make children block).move f := by
  cases h with
  | @atRule _ _ prelude _ keyword run brace =>
    exact ⟨_, .atRule keyword (takeRun_move _ _ run) brace, fun children block =>
      atRuleNode_move f t prelude block.stop (some block) children⟩
  | bare brace =>
    exact ⟨_, .bare brace, fun children block => rulesetNode_move hf t.start [] t children block⟩
  | @ruleset _ _ head _ leads notBrace notDeclared run brace =>
    refine ⟨_, .ruleset leads notBrace (fun hn hdecl => ?_) (takeRun_move _ _ run) brace,
      fun children block => rulesetNode_move hf t.start (t :: head) opener children block⟩
    exact notDeclared hn ((startsDeclaration_move f t ts).mp hdecl)

/-- Tokens that are moved are read as nodes and errors that are moved. -/
theorem Reads.move (hf : Monotone f) (h : Reads stop n ts nodes e rest errors) :
    Reads (f stop) n (ts.map (Token.move f)) (moveNodes f nodes) (f e)
      (rest.map (Token.move f)) (errors.map (SyntaxError.move f)) := by
  induction h with
  | finish => exact .finish
  | unclosed => exact .unclosed
  | close kind => exact .close kind
  | stray kind _ ih => exact .stray kind ih
  | pass kind _ ih => exact .pass kind ih
  | comment kind _ ih => exact .comment kind ih
  | @declaration n t colon ts behindColon run left _ _ _ _ kind gap colonKind value _ ih =>
    have hgap : (ts.map (Token.move f)).dropWhile (·.is .whitespace) =
        colon.move f :: behindColon.map (Token.move f) := by
      rw [dropBlanks_move, gap, List.map_cons]
    have hvalue : takeValue ((behindColon.map (Token.move f)).dropWhile (·.is .whitespace)) =
        (run.map (Token.move f), left.map (Token.move f)) := by
      rw [dropBlanks_move]
      exact takeRun_move _ _ value
    obtain ⟨hsemi, hbehind⟩ := takeSemicolon_move f left
    rw [← hbehind] at ih
    have h := Reads.declaration (t := t.move f) kind hgap colonKind hvalue ih
    rw [hsemi, declarationNode_move hf] at h
    exact h
  | statement keyword rule _ ih =>
    rw [List.map_append]
    exact .statement keyword (rule.move f) ih
  | @block n t opener ts inner left rest make children nodes inside e first errors head shallow _ _
      ihBody ih =>
    obtain ⟨make', hhead, hmake⟩ := head.move hf
    rw [moveNodes, ← hmake, List.map_append]
    exact .block hhead shallow ihBody ih
  | @deepBlock n t opener ts inner rest make nodes e errors head deep _ ih =>
    obtain ⟨make', hhead, hmake⟩ := head.move hf
    obtain ⟨hinside, hbehind⟩ := skipBlock_move f stop 1 inner
    rw [← hbehind] at ih
    have h := Reads.deepBlock hhead deep ih
    rw [hinside] at h
    rw [moveNodes, ← hmake]
    exact h
  | @broken n t ts head left _ _ _ _ leads notBrace notDeclared run noBrace _ ih =>
    rw [← afterBroken_move] at ih
    rw [List.map_cons, List.map_cons, SyntaxError.move, ← placeOf_move]
    refine .broken leads notBrace (fun hn hdecl => ?_) (takeRun_move _ _ run)
      (forall_head?_move (P := (· ≠ .lbrace)) noBrace) ih
    exact notDeclared hn ((startsDeclaration_move f t ts).mp hdecl)

end CssWorkbench
