import CssWorkbench.Proofs.Tree.Nesting
import CssWorkbench.Proofs.Tree.ValueTokens

/-!
# The runs of tokens that a tree keeps

A node keeps some of the tokens that it was read from: the compounds of a selector, a prelude, a
property with its value. Each of them is a run without a gap, and in the order of the nodes the runs
stand one behind the other, so that no token is kept twice.
-/

namespace CssWorkbench

section

variable {ts us rest middle run : List Token} {runs runs' : List (List Token)}

/-! ## Runs one behind the other -/

/-- The runs stand in the tokens one behind the other, each without a gap, and behind them stands
`rest`, which the tokens end with. -/
def StandIn (rest : List Token) : List Token → List (List Token) → Prop
  | ts, [] => rest <:+ ts
  | ts, run :: runs => ∃ behind, run ++ behind <:+ ts ∧ StandIn rest behind runs

/-- Tokens in front of the runs do no harm. -/
theorem StandIn.of_suffix (h : StandIn rest us runs) (hsuffix : us <:+ ts) :
    StandIn rest ts runs := by
  cases runs with
  | nil => exact List.IsSuffix.trans h hsuffix
  | cons run runs =>
    obtain ⟨behind, hrun, hbehind⟩ := h
    exact ⟨behind, hrun.trans hsuffix, hbehind⟩

/-- Runs stand behind those that end where they begin. -/
theorem StandIn.append (h : StandIn middle ts runs) (hbehind : StandIn rest middle runs') :
    StandIn rest ts (runs ++ runs') := by
  induction runs generalizing ts with
  | nil => exact hbehind.of_suffix h
  | cons run runs ih =>
    obtain ⟨behind, hrun, hrest⟩ := h
    exact ⟨behind, hrun, ih hrest⟩

/-- More tokens may follow. -/
theorem StandIn.append_right (h : StandIn rest ts runs) (us : List Token) :
    StandIn (rest ++ us) (ts ++ us) runs := by
  induction runs generalizing ts with
  | nil =>
    obtain ⟨front, rfl⟩ := h
    exact ⟨front, (List.append_assoc ..).symm⟩
  | cons run runs ih =>
    obtain ⟨behind, ⟨front, rfl⟩, hbehind⟩ := h
    refine ⟨behind ++ us, ⟨front, by simp only [List.append_assoc]⟩, ih hbehind⟩

/-- The runs stand in front of the end of what stands behind them. -/
theorem StandIn.trans (h : StandIn middle ts runs) (hsuffix : rest <:+ middle) :
    StandIn rest ts runs := by
  have hnone : StandIn rest middle [] := hsuffix
  simpa using h.append hnone

/-- Some of the tokens, in their order, are those of the runs. -/
theorem StandIn.sublist (h : StandIn rest ts runs) : runs.flatten.Sublist ts := by
  induction runs generalizing ts with
  | nil => exact List.nil_sublist ts
  | cons run runs ih =>
    obtain ⟨behind, hrun, hbehind⟩ := h
    exact ((ih hbehind).append_left run).trans hrun.sublist

/-- Each of the runs that stand in some tokens is a stretch of them. -/
theorem StandIn.infix_of_mem (h : StandIn rest ts runs) (hrun : run ∈ runs) : run <:+: ts := by
  induction runs generalizing ts with
  | nil => cases hrun
  | cons first runs ih =>
    obtain ⟨behind, hfirst, hbehind⟩ := h
    rcases List.mem_cons.mp hrun with rfl | hrun
    · exact (List.prefix_append run behind).isInfix.trans hfirst.isInfix
    · exact (ih hbehind hrun).trans ((List.suffix_append first behind).trans hfirst).isInfix

end

/-! ## What a node keeps -/

/-- The tokens that a part keeps; a combinator keeps none. -/
def SelectorPart.tokens : SelectorPart → List Token
  | compound _ tokens => tokens
  | combinator .. => []

/-- The runs of tokens that a selector keeps, one for each part. -/
def Selector.runs (s : Selector) : List (List Token) :=
  s.parts.map SelectorPart.tokens

/-- The runs of tokens that a node keeps, those of its children aside. -/
def Node.runs : Node → List (List Token)
  | ruleset rule _ => rule.selectors.selectors.flatMap Selector.runs
  | atRule rule _ => [rule.prelude]
  | declaration decl => [[decl.property], decl.tokens]
  | comment _ => []

/-- The runs of tokens that nodes at a depth keep, and the nodes below them, in the order of the
nodes. -/
def runsOf (depth : Nat) (nodes : List Node) : List (List Token) :=
  (walkNodes (fun _ => true) depth nodes).flatMap fun p => p.2.runs

/-- The runs of a node come before those of its children, and these before those of the other
nodes. -/
theorem runsOf_cons (depth : Nat) (node : Node) (nodes : List Node) :
    runsOf depth (node :: nodes) =
      node.runs ++ (runsOf (depth + 1) node.children ++ runsOf depth nodes) := by
  simp [runsOf, walkNodes_cons]

/-- The runs of a tree, in the order of its nodes. -/
theorem flatMap_runs_nodes (sheet : Stylesheet) :
    sheet.nodes.flatMap Node.runs = runsOf 1 sheet.children := by
  rw [Stylesheet.nodes, List.flatMap_map, runsOf]

/-! ## Where selectors stand -/

/-- The tokens that spell some parts hold the compounds of these parts. -/
theorem Builds.standIn {used : List Token} {parts : List SelectorPart} {brackets : Nat}
    (h : Builds used parts brackets) :
    StandIn [] used (parts.reverse.map SelectorPart.tokens) := by
  -- The newest compound stands behind a gap, and all others in front of that.
  have hconcat : ∀ {used : List Token} {runs : List (List Token)} (gap tokens : List Token),
      StandIn [] used runs → StandIn [] (used ++ gap ++ tokens) (runs ++ [tokens]) :=
    fun gap tokens hruns => by
      rw [List.append_assoc]
      refine (hruns.append_right (gap ++ tokens)).append ⟨[], ?_, List.suffix_refl []⟩
      rw [List.append_nil, List.nil_append]
      exact List.suffix_append gap tokens
  induction h with
  | start => exact List.suffix_refl _
  | @combinator _ gap _ t _ _ _ _ ih =>
    have hkept := hconcat (gap ++ [t]) [] ih
    rw [List.append_nil, ← List.append_assoc] at hkept
    rw [List.reverse_cons, List.map_append]
    exact hkept
  | @compound _ gap tokens _ _ _ _ _ _ _ ih =>
    rw [List.reverse_cons, List.map_append]
    exact hconcat gap tokens ih
  | @descendant _ gap tokens _ _ _ _ _ _ _ _ _ ih =>
    have hcombinator := hconcat [] [] ih
    rw [List.append_nil, List.append_nil] at hcombinator
    rw [List.reverse_cons, List.reverse_cons, List.map_append, List.map_append]
    exact hconcat gap tokens hcombinator

variable {stop n depth : Nat} {t opener : Token} {ts rest left inner tokens run : List Token}
  {groups : List (List Token)} {make : List Node → Span → Node} {node : Node}
  {nodes : List Node} {errors : List SyntaxError} {s : Selector}

/-- A selector keeps tokens of those that spell it. -/
theorem standIn_of_ofTokens? (h : Selector.ofTokens? tokens = some s)
    (hclosed : depthAfter 0 tokens = 0) : StandIn [] tokens s.runs := by
  obtain ⟨used, behind, parts, rfl, hbuilds, -, hparts, -⟩ :=
    exists_builds_of_ofTokens? h hclosed
  rw [Selector.runs, hparts]
  exact (hbuilds.standIn.append_right behind).trans (List.nil_suffix)

/-- The selectors between commas keep their tokens in order. -/
theorem CommaGroups.standIn (h : CommaGroups depth ts groups) (hdepth : depth = 0)
    (hclosed : depthAfter 0 ts = 0) :
    StandIn [] ts ((groups.filterMap Selector.ofTokens?).flatMap Selector.runs) := by
  induction h with
  | @last _ _ group inside =>
    cases hs : Selector.ofTokens? group with
    | none =>
      rw [List.filterMap_cons_none hs]
      exact List.nil_suffix
    | some s => simpa [hs] using standIn_of_ofTokens? hs hclosed
  | @more _ comma group ts groups inside kind behind ih =>
    subst hdepth
    have hgroupClosed := inside.depthAfter_eq
    have hbehind := (ih rfl (depthAfter_behind_comma kind hgroupClosed hclosed)).of_suffix
      (List.suffix_cons comma ts)
    cases hs : Selector.ofTokens? group with
    | none =>
      rw [List.filterMap_cons_none hs]
      exact hbehind.of_suffix (List.suffix_append _ _)
    | some s =>
      rw [List.filterMap_cons_some hs, List.flatMap_cons]
      exact ((standIn_of_ofTokens? hs hgroupClosed).append_right (comma :: ts)).append hbehind

/-- A list of selectors keeps tokens of those in front of the block. -/
theorem standIn_selectorsOf (hclosed : depthAfter 0 ts = 0) (behind : Nat) :
    StandIn [] ts ((SelectorList.ofTokens ts behind).selectors.flatMap Selector.runs) := by
  rw [selectors_ofTokens]
  exact (splitCommasFrom_groups 0 ts).standIn rfl hclosed

/-! ## Where nodes stand -/

/-- The head of a block keeps tokens in front of the block. -/
theorem Heads.standIn (h : Heads n t ts opener inner make) (children : List Node) (block : Span) :
    StandIn inner (t :: ts) (make children block).runs := by
  have hopened : ∀ {head : List Token} {runs : List (List Token)}, ts = head ++ opener :: inner →
      StandIn [] (t :: head) runs → StandIn inner (t :: ts) runs := by
    rintro head runs rfl hhead
    exact (hhead.append_right (opener :: inner)).trans (List.suffix_cons opener inner)
  cases h with
  | @atRule _ _ prelude _ keyword run brace =>
    obtain ⟨front, behind, hprelude, -⟩ := trimBlanks_append prelude
    refine hopened (takeRun_eq_append run) ⟨behind, ⟨t :: front, ?_⟩, List.nil_suffix⟩
    rw [List.cons_append, ← hprelude]
  | bare brace => exact List.suffix_cons t ts
  | @ruleset _ _ head _ leads notBrace notDeclared run brace =>
    have hclosed : depthAfter 0 (t :: head) = 0 := (takeRun_inside_zero run).1.depthAfter_eq
    exact hopened (takeRun_eq_append run) (standIn_selectorsOf hclosed opener.start)

/-- An at-rule without a block keeps tokens in front of what is left. -/
theorem ReadsStatement.standIn (h : ReadsStatement stop t ts node left errors) :
    StandIn left (t :: ts) node.runs := by
  have hprelude : ∀ {prelude rest : List Token}, ts = prelude ++ rest → left <:+ rest →
      StandIn left (t :: ts) [trimBlanks prelude] := by
    rintro prelude rest rfl hleft
    obtain ⟨front, behind, hprelude, -⟩ := trimBlanks_append prelude
    refine ⟨behind ++ rest, ⟨t :: front, ?_⟩, hleft.trans (List.suffix_append behind rest)⟩
    nth_rewrite 2 [hprelude]
    simp only [List.cons_append, List.append_assoc]
  cases h with
  | ended run kind => exact hprelude (takeRun_eq_append run) (List.suffix_cons _ _)
  | broken run kind => exact hprelude (takeRun_eq_append run) (List.suffix_refl _)

/-- A declaration keeps its name, and the tokens of its value behind the colon. -/
theorem declarationNode_standIn {colon : Token} {behindColon : List Token}
    (gap : ts.dropWhile (·.is .whitespace) = colon :: behindColon)
    (value : takeValue (behindColon.dropWhile (·.is .whitespace)) = (run, left)) :
    StandIn (takeSemicolon left).2 (t :: ts)
      (Node.declaration (declarationNode t colon run (takeSemicolon left).1)).runs := by
  obtain ⟨behind, hrun, -⟩ := valueTokens_append run
  refine ⟨ts, List.suffix_refl _, ?_⟩
  rw [declarationNode_tokens]
  refine ⟨behind ++ left, ?_, (takeSemicolon_suffix left).trans (List.suffix_append behind left)⟩
  rw [← List.append_assoc, ← hrun]
  exact value_suffix gap value

/-- What is read of some tokens keeps runs of them, one behind the other. -/
theorem Reads.standIn {e : Nat} {nodes : List Node} (h : Reads stop n ts nodes e rest errors)
    (depth : Nat) : StandIn rest ts (runsOf depth nodes) := by
  induction h generalizing depth with
  | finish | unclosed => exact List.suffix_refl _
  | close => exact List.suffix_cons _ _
  | stray _ _ ih | pass _ _ ih => exact (ih depth).of_suffix (List.suffix_cons _ _)
  | comment _ _ ih =>
    rw [runsOf_cons]
    exact (ih depth).of_suffix (List.suffix_cons _ _)
  | declaration kind gap colonKind value _ ih =>
    rw [runsOf_cons]
    exact (declarationNode_standIn gap value).append (ih depth)
  | @statement _ _ _ _ _ node _ _ _ _ keyword rule _ ih =>
    have hnone : runsOf (depth + 1) node.children = [] := by cases rule <;> rfl
    rw [runsOf_cons, hnone, List.nil_append]
    exact rule.standIn.append (ih depth)
  | @block _ _ opener _ _ _ _ _ children _ inside _ _ _ head _ _ _ ihBody ih =>
    obtain ⟨-, -, -, -, -, hchildren⟩ := head.append children ⟨opener.start, inside⟩
    rw [runsOf_cons, hchildren]
    exact (head.standIn children _).append ((ihBody (depth + 1)).append (ih depth))
  | @deepBlock _ _ opener _ inner _ _ _ _ _ head _ _ ih =>
    obtain ⟨-, -, -, -, -, hchildren⟩ :=
      head.append [] ⟨opener.start, (skipBlock stop 1 inner).1⟩
    rw [runsOf_cons, hchildren]
    exact (head.standIn [] _).append ((ih depth).of_suffix (skipBlock_suffix stop 1 inner))
  | broken _ _ _ run _ _ ih =>
    exact (ih depth).of_suffix (((afterBroken_suffix _ _).trans (takeRun_suffix run)).trans
      (List.suffix_cons _ _))

/-- A tree keeps runs of the tokens of its source, one behind the other. -/
theorem parse_standIn (source : String) :
    StandIn [] (tokensFrom 0 source.toList) ((parse source).1.nodes.flatMap Node.runs) := by
  rw [flatMap_runs_nodes]
  exact (reads_parse source).standIn 1

end CssWorkbench
