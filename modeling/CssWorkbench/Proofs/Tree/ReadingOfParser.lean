import CssWorkbench.Proofs.Tree.ReadingProgress

/-!
# The parser reads as the relation says

The parser is opened here, once: each constructor of `Reads` is a branch of `readBlockBody` or of
`readStatements`. As some reading always exists, the tree and the errors of `parse` are those of
a reading, and those of every reading of the source.
-/

namespace CssWorkbench

/-- What a step says, apart from how many tokens it was given. -/
def Step.Gives {α : Type} {n : Nat} (s : Step α n) (value : α) (rest : List Token)
    (errors : List SyntaxError) : Prop :=
  s.value = value ∧ s.rest = rest ∧ s.errors = errors

namespace Step.Gives

variable {α β : Type} {m n : Nat} {s : Step α m} {value : α} {rest : List Token}
  {errors : List SyntaxError}

/-- A reading that is turned into something else leaves the same tokens and errors. -/
theorem map (h : s.Gives value rest errors) (f : α → β) : (s.map f).Gives (f value) rest errors := by
  obtain ⟨rfl, rfl, rfl⟩ := h
  exact ⟨rfl, rfl, rfl⟩

/-- A reading in front of more tokens gives the same. -/
theorem weaken (h : s.Gives value rest errors) (le : m ≤ n) :
    (s.weaken le).Gives value rest errors := h

/-- Errors that were met in front come first. -/
theorem after (h : s.Gives value rest errors) (first : List SyntaxError) :
    (s.after first).Gives value rest (first ++ errors) := by
  obtain ⟨rfl, rfl, rfl⟩ := h
  exact ⟨rfl, rfl, rfl⟩

end Step.Gives

/-- Behind its colon a declaration is read as its run of tokens and a semicolon, if there is one. -/
theorem declarationValue_gives {property colon : Token} {ts run left : List Token}
    (h : takeValue (ts.dropWhile (·.is .whitespace)) = (run, left)) :
    (declarationValue property colon ts).Gives
      (declarationNode property colon run (takeSemicolon left).1) (takeSemicolon left).2 [] := by
  have hrun : (takeValue (ts.dropWhile (·.is .whitespace))).1 = run := by rw [h]
  unfold declarationValue
  simp only
  split
  · rename_i t behind heq
    obtain rfl : left = t :: behind := by rw [← heq, h]
    split
    · rename_i hk
      simp only [takeSemicolon, if_pos hk, hrun]
      exact ⟨rfl, rfl, rfl⟩
    · rename_i hk
      simp only [takeSemicolon, if_neg hk, hrun]
      exact ⟨rfl, rfl, rfl⟩
  · rename_i heq
    obtain rfl : left = [] := by rw [← heq, h]
    simp only [takeSemicolon, hrun]
    exact ⟨rfl, rfl, rfl⟩

/-- An at-rule without a block is read as a statement. -/
theorem readAtRule_gives_statement {stop : Nat} {t : Token} {ts left : List Token} {node : Node}
    {errors : List SyntaxError} (h : ReadsStatement stop t ts node left errors)
    (rb : BlockReader (ts.length + 1)) : (readAtRule stop t ts rb).Gives node left errors := by
  unfold readAtRule
  cases h with
  | @ended semicolon prelude rest run kind =>
    simp only
    split
    · rename_i heq
      simp [run] at heq
    · rename_i u behind heq
      obtain ⟨rfl, rfl⟩ : semicolon = u ∧ left = behind := by simpa [run] using heq
      rw [if_pos kind]
      exact ⟨by simp [atRuleNode, run], rfl, rfl⟩
  | @broken prelude rest run kind =>
    simp only
    split
    · rename_i heq
      have hleft : left = [] := by rw [← heq, run]
      subst hleft
      exact ⟨by simp [atRuleNode, run, Step.toEnd], rfl, rfl⟩
    · rename_i u behind heq
      have hleft : left = u :: behind := by rw [← heq, run]
      subst hleft
      have hk : u.kind = .rbrace := kind u rfl
      rw [if_neg (by simp [hk]), if_neg (by simp [hk])]
      exact ⟨by simp [atRuleNode, run], rfl, rfl⟩


/-- How the blocks are read behind a head outside of which `nesting` blocks are open. -/
theorem readBlock_gives_body {stop n e : Nat} {opener : Token} {inner left : List Token}
    {children : List Node} {errors : List SyntaxError} (shallow : n < maxNesting)
    (h : (readBlockBody stop (n + 1) inner).Gives (children, e) left errors) :
    (readBlock stop n opener inner).Gives (children, ⟨opener.start, e⟩) left errors := by
  rw [readBlock, if_pos shallow]
  exact h.map _

/-- A block that lies too deep is read as one that is skipped. -/
theorem readBlock_gives_skipped {stop n : Nat} {opener : Token} {inner : List Token}
    (deep : maxNesting ≤ n) :
    (readBlock stop n opener inner).Gives ([], ⟨opener.start, (skipBlock stop 1 inner).1⟩)
      (skipBlock stop 1 inner).2 [⟨.nestedTooDeeply, opener.span⟩] := by
  rw [readBlock, if_neg (Nat.not_lt.mpr deep)]
  exact ⟨rfl, rfl, rfl⟩

/-- An at-rule with a block is read by its prelude and by what is read of the block. -/
theorem readAtRule_gives_block {stop : Nat} {t opener : Token} {ts prelude inner left : List Token}
    {children : List Node} {block : Span} {errors : List SyntaxError}
    (run : takePrelude 0 ts = (prelude, opener :: inner)) (brace : opener.kind = .lbrace)
    {rb : BlockReader (ts.length + 1)}
    (h : ∀ lt, (rb opener inner lt).Gives (children, block) left errors) :
    (readAtRule stop t ts rb).Gives (atRuleNode t prelude block.stop (some block) children) left
      errors := by
  unfold readAtRule
  simp only
  split
  · rename_i heq
    simp [run] at heq
  · rename_i u behind heq
    obtain ⟨rfl, rfl⟩ : opener = u ∧ inner = behind := by simpa [run] using heq
    rw [if_neg (by simp [brace]), if_pos brace]
    simp only [run]
    exact ((h _).map _).weaken _

/-- A block without a prelude is read as a ruleset without selectors. -/
theorem readRuleset_gives_bare {stop : Nat} {nested : Bool} {t : Token} {ts left : List Token}
    {children : List Node} {block : Span} {errors : List SyntaxError} (brace : t.kind = .lbrace)
    {rb : BlockReader (ts.length + 1)}
    (h : ∀ lt, (rb t ts lt).Gives (children, block) left errors) :
    (readRuleset stop nested t ts rb).Gives (some (rulesetNode t.start [] t children block)) left
      errors := by
  unfold readRuleset
  rw [if_pos brace]
  exact (h _).map _

/-- A token that leads nothing else and is no brace does not halt a prelude. -/
theorem not_haltsPrelude_of_leads {k : TokenKind} (leads : k.leads = false) (notBrace : k ≠ .lbrace) :
    ¬ haltsPrelude k = true := by
  cases k <;> simp_all [haltsPrelude, TokenKind.leads]

/-- A ruleset is read by its prelude and by what is read of its block. -/
theorem readRuleset_gives_block {stop : Nat} {nested : Bool} {t opener : Token}
    {ts head inner left : List Token} {children : List Node} {block : Span}
    {errors : List SyntaxError} (leads : t.kind.leads = false) (notBrace : t.kind ≠ .lbrace)
    (run : takePrelude (t.kind.inlineDepth 0) ts = (head, opener :: inner))
    (brace : opener.kind = .lbrace) {rb : BlockReader (ts.length + 1)}
    (h : ∀ lt, (rb opener inner lt).Gives (children, block) left errors) :
    (readRuleset stop nested t ts rb).Gives
      (some (rulesetNode t.start (t :: head) opener children block)) left errors := by
  unfold readRuleset
  rw [if_neg notBrace, if_neg (not_haltsPrelude_of_leads leads notBrace)]
  simp only
  split
  · rename_i heq
    simp [run] at heq
  · rename_i u behind heq
    obtain ⟨rfl, rfl⟩ : opener = u ∧ inner = behind := by simpa [run] using heq
    rw [if_pos brace]
    simp only [run]
    exact ((h _).map _).weaken _

/-- A prelude that no block follows is read as an error, behind which the reader goes on. -/
theorem readRuleset_gives_broken {stop n : Nat} {t : Token} {ts head left : List Token}
    (leads : t.kind.leads = false) (notBrace : t.kind ≠ .lbrace)
    (run : takePrelude (t.kind.inlineDepth 0) ts = (head, left))
    (noBrace : ∀ u ∈ left.head?, u.kind ≠ .lbrace) {nested : Bool}
    (hnested : nested = decide (0 < n)) (rb : BlockReader (ts.length + 1)) :
    (readRuleset stop nested t ts rb).Gives none (afterBroken n left)
      [⟨.expectedBlock, placeOf stop left⟩] := by
  subst hnested
  unfold readRuleset
  rw [if_neg notBrace, if_neg (not_haltsPrelude_of_leads leads notBrace)]
  simp only
  split
  · rename_i heq
    obtain rfl : left = [] := by rw [← heq, run]
    exact ⟨rfl, rfl, rfl⟩
  · rename_i u behind heq
    obtain rfl : left = u :: behind := by rw [← heq, run]
    rw [if_neg (noBrace u rfl)]
    by_cases hu : u.kind = .semicolon ∨ n = 0
    · rw [if_pos (by simpa using hu)]
      exact ⟨rfl, (if_pos hu).symm, rfl⟩
    · rw [if_neg (by simpa using hu)]
      exact ⟨rfl, (if_neg hu).symm, rfl⟩


/-- The blocks of a head give what they give whether the head is an at-rule or a ruleset. -/
theorem declarationColon?_eq_none {t : Token} {ts : List Token} (h : ¬ StartsDeclaration t ts) :
    declarationColon? t ts = none := by
  unfold declarationColon?
  split
  · rename_i hkind
    split
    · rename_i colon behind heq
      split
      · rename_i hcolon
        exact absurd ⟨hkind, colon, behind, heq, hcolon⟩ h
      · rfl
    · rfl
  · rfl

/-- The colon of a declaration is found behind its name and blanks. -/
theorem declarationColon?_eq_some {t colon : Token} {ts behind : List Token}
    (kind : t.kind = .ident) (gap : ts.dropWhile (·.is .whitespace) = colon :: behind)
    (colonKind : colon.kind = .colon) :
    ∃ lt, declarationColon? t ts = some ⟨(colon, behind), lt⟩ := by
  unfold declarationColon?
  rw [if_pos kind]
  split
  · rename_i u us heq
    obtain ⟨rfl, rfl⟩ : colon = u ∧ behind = us := by simpa [gap] using heq
    rw [if_pos colonKind]
    exact ⟨length_lt_of_cons gap (List.dropWhile_sublist _).length_le, rfl⟩
  · rename_i heq
    simp [gap] at heq

variable {stop n e : Nat} {t : Token} {ts left rest : List Token} {nodes : List Node}
  {first errors : List SyntaxError}

/-- A token that means nothing in a block is passed over. -/
theorem readBlockBody_gives_pass (kind : Passed (n + 1) t.kind)
    (h : (readBlockBody stop (n + 1) ts).Gives (nodes, e) rest errors) :
    (readBlockBody stop (n + 1) (t :: ts)).Gives (nodes, e) rest errors := by
  unfold readBlockBody
  rcases kind with hk | hk | hk | ⟨hk, -⟩ <;> simp only [hk] <;> exact h

/-- A comment in a block is a node. -/
theorem readBlockBody_gives_comment (kind : t.kind = .comment)
    (h : (readBlockBody stop n ts).Gives (nodes, e) rest errors) :
    (readBlockBody stop n (t :: ts)).Gives (.comment t.span :: nodes, e) rest errors := by
  unfold readBlockBody
  simp only [kind]
  exact (h.map _).weaken _

/-- A declaration in a block is a node, and the reader goes on behind its semicolon. -/
theorem readBlockBody_gives_declaration {colon : Token} {behindColon run : List Token}
    (kind : t.kind = .ident) (gap : ts.dropWhile (·.is .whitespace) = colon :: behindColon)
    (colonKind : colon.kind = .colon)
    (value : takeValue (behindColon.dropWhile (·.is .whitespace)) = (run, left))
    (h : (readBlockBody stop n (takeSemicolon left).2).Gives (nodes, e) rest errors) :
    (readBlockBody stop n (t :: ts)).Gives
      (.declaration (declarationNode t colon run (takeSemicolon left).1) :: nodes, e) rest
      errors := by
  obtain ⟨hvalue, hrest, -⟩ := @declarationValue_gives t colon _ _ _ value
  obtain ⟨lt, hcolon⟩ := declarationColon?_eq_some kind gap colonKind
  unfold readBlockBody
  simp only [kind, hcolon, hvalue]
  rw [← hrest] at h
  exact (h.map _).weaken _

/-- An at-rule in a block is a node, and the reader goes on behind it. -/
theorem readBlockBody_gives_atRule {node : Node} (keyword : t.kind = .atKeyword)
    (rule : (readAtRule stop t ts fun opener inner _ => readBlock stop n opener inner).Gives node
      left first)
    (h : (readBlockBody stop n left).Gives (nodes, e) rest errors) :
    (readBlockBody stop n (t :: ts)).Gives (node :: nodes, e) rest (first ++ errors) := by
  obtain ⟨rfl, rfl, rfl⟩ := rule
  unfold readBlockBody
  simp only [keyword]
  exact ((h.map _).after _).weaken _

/-- A ruleset in a block is a node unless it is broken, and the reader goes on behind it. -/
theorem readBlockBody_gives_ruleset {rule : Option Node} (leads : t.kind.leads = false)
    (notDeclared : ¬ StartsDeclaration t ts)
    (hrule : (readRuleset stop true t ts fun opener inner _ => readBlock stop n opener inner).Gives
      rule left first)
    (h : (readBlockBody stop n left).Gives (nodes, e) rest errors) :
    (readBlockBody stop n (t :: ts)).Gives (rule.toList ++ nodes, e) rest (first ++ errors) := by
  obtain ⟨rfl, rfl, rfl⟩ := hrule
  unfold readBlockBody
  simp only [declarationColon?_eq_none notDeclared]
  split
  any_goals
    rename_i hk
    rw [hk] at leads
    cases leads
  exact ((h.map _).after _).weaken _

/-- An at-rule at the top is a node, and the reader goes on behind it. -/
theorem readStatements_atRule {node : Node} (keyword : t.kind = .atKeyword)
    (rule : (readAtRule stop t ts fun opener inner _ => readBlock stop 0 opener inner).Gives node
      left first)
    (h : readStatements stop left = (nodes, errors)) :
    readStatements stop (t :: ts) = (node :: nodes, first ++ errors) := by
  obtain ⟨rfl, rfl, rfl⟩ := rule
  unfold readStatements
  simp only [keyword, h]

/-- A ruleset at the top is a node unless it is broken, and the reader goes on behind it. -/
theorem readStatements_ruleset {rule : Option Node} (leads : t.kind.leads = false)
    (hrule : (readRuleset stop false t ts fun opener inner _ => readBlock stop 0 opener inner).Gives
      rule left first)
    (h : readStatements stop left = (nodes, errors)) :
    readStatements stop (t :: ts) = (rule.toList ++ nodes, first ++ errors) := by
  obtain ⟨rfl, rfl, rfl⟩ := hrule
  unfold readStatements
  simp only
  split
  any_goals
    rename_i hk
    rw [hk] at leads
    cases leads
  simp only [h]


/-- A rule with a block is read in a block and outside of one by the same readers. -/
theorem Heads.gives {opener : Token} {inner : List Token} {node : List Node → Span → Node}
    {children : List Node} {block : Span} (head : Heads n t ts opener inner node)
    (h : (readBlock stop n opener inner).Gives (children, block) left first) :
    (t.kind = .atKeyword ∧
      (readAtRule stop t ts fun opener inner _ => readBlock stop n opener inner).Gives
        (node children block) left first) ∨
    (t.kind.leads = false ∧ (0 < n → ¬ StartsDeclaration t ts) ∧ ∀ nested,
      (readRuleset stop nested t ts fun opener inner _ => readBlock stop n opener inner).Gives
        (some (node children block)) left first) := by
  cases head with
  | atRule keyword run brace => exact .inl ⟨keyword, readAtRule_gives_block run brace fun _ => h⟩
  | bare brace =>
    refine .inr ⟨by rw [brace]; rfl, fun _ hd => ?_, fun _ => readRuleset_gives_bare brace fun _ => h⟩
    rw [StartsDeclaration, brace] at hd
    cases hd.1
  | ruleset leads notBrace notDeclared run brace =>
    exact .inr ⟨leads, notDeclared, fun _ =>
      readRuleset_gives_block leads notBrace run brace fun _ => h⟩

/-- What `Reads` says of a stylesheet and of a block is what the parser computes. -/
theorem Reads.gives (h : Reads stop n ts nodes e rest errors) :
    (n = 0 → readStatements stop ts = (nodes, errors)) ∧
      (0 < n → (readBlockBody stop n ts).Gives (nodes, e) rest errors) := by
  induction h with
  | finish => exact ⟨fun _ => by rw [readStatements], fun hn => absurd hn (Nat.lt_irrefl 0)⟩
  | unclosed => exact ⟨fun hn => absurd hn (Nat.succ_ne_zero _), fun _ => by
      unfold readBlockBody; exact ⟨rfl, rfl, rfl⟩⟩
  | close kind => exact ⟨fun hn => absurd hn (Nat.succ_ne_zero _), fun _ => by
      unfold readBlockBody
      simp only [kind]
      exact ⟨rfl, rfl, rfl⟩⟩
  | stray kind _ ih =>
    refine ⟨fun _ => ?_, fun hn => absurd hn (Nat.lt_irrefl 0)⟩
    unfold readStatements
    generalize hk : Token.kind _ = k at kind
    cases kind <;> simp only [ih.1 rfl]
  | @pass n t ts rest nodes e errors kind _ ih =>
    refine ⟨?_, ?_⟩
    · rintro rfl
      unfold readStatements
      rcases kind with hk | hk | hk | ⟨-, hn⟩
      · simp only [hk, ih.1 rfl]
      · simp only [hk, ih.1 rfl]
      · simp only [hk, ih.1 rfl]
      · exact absurd hn (Nat.lt_irrefl 0)
    · intro hn
      obtain ⟨n, rfl⟩ := Nat.exists_eq_succ_of_ne_zero (Nat.pos_iff_ne_zero.mp hn)
      exact readBlockBody_gives_pass kind (ih.2 hn)
  | comment kind _ ih =>
    refine ⟨?_, fun hn => readBlockBody_gives_comment kind (ih.2 hn)⟩
    rintro rfl
    unfold readStatements
    simp only [kind, ih.1 rfl]
  | declaration kind gap colonKind value _ ih =>
    exact ⟨fun hn => absurd hn (Nat.succ_ne_zero _), fun hn =>
      readBlockBody_gives_declaration kind gap colonKind value (ih.2 hn)⟩
  | statement keyword rule _ ih =>
    refine ⟨?_, fun hn =>
      readBlockBody_gives_atRule keyword (readAtRule_gives_statement rule _) (ih.2 hn)⟩
    rintro rfl
    exact readStatements_atRule keyword (readAtRule_gives_statement rule _) (ih.1 rfl)
  | block head shallow _ _ ihBody ih =>
    have hrule := head.gives (readBlock_gives_body shallow (ihBody.2 (Nat.succ_pos _)))
    refine ⟨?_, fun hn => ?_⟩
    · rintro rfl
      rcases hrule with ⟨hk, hrule⟩ | ⟨hk, -, hrule⟩
      · exact readStatements_atRule hk hrule (ih.1 rfl)
      · exact readStatements_ruleset hk (hrule _) (ih.1 rfl)
    · rcases hrule with ⟨hk, hrule⟩ | ⟨hk, hd, hrule⟩
      · exact readBlockBody_gives_atRule hk hrule (ih.2 hn)
      · exact readBlockBody_gives_ruleset hk (hd hn) (hrule _) (ih.2 hn)
  | deepBlock head deep _ ih =>
    refine ⟨?_, fun hn => ?_⟩
    · rintro rfl
      exact absurd deep (by decide)
    · rcases head.gives (readBlock_gives_skipped deep) with ⟨hk, hrule⟩ | ⟨hk, hd, hrule⟩
      · exact readBlockBody_gives_atRule hk hrule (ih.2 hn)
      · exact readBlockBody_gives_ruleset hk (hd hn) (hrule _) (ih.2 hn)
  | broken leads notBrace notDeclared run noBrace _ ih =>
    refine ⟨?_, fun hn => ?_⟩
    · rintro rfl
      exact readStatements_ruleset leads
        (readRuleset_gives_broken leads notBrace run noBrace
          (decide_eq_false (Nat.lt_irrefl 0)).symm _) (ih.1 rfl)
    · exact readBlockBody_gives_ruleset leads (notDeclared hn)
        (readRuleset_gives_broken leads notBrace run noBrace (decide_eq_true hn).symm _) (ih.2 hn)


/-- A reading of a whole source is what `parse` makes of it. -/
theorem parse_eq_of_reads {source : String}
    (h : Reads (Text.size source) 0 (scan source).dropLast nodes e rest errors) :
    parse source = (⟨⟨0, Text.size source⟩, nodes⟩, errors) := by
  unfold parse
  simp only [h.gives.1 rfl]

/-- Every source is read as what `parse` makes of it. -/
theorem reads_parse (source : String) :
    Reads (Text.size source) 0 (scan source).dropLast (parse source).1.children
      (Text.size source) [] (parse source).2 := by
  obtain ⟨nodes, e, rest, errors, h⟩ :=
    exists_reads (Text.size source) 0 (scan source).dropLast
  obtain ⟨rfl, rfl⟩ := h.eq_nil_of_outside rfl
  rw [parse_eq_of_reads h]
  exact h

end CssWorkbench
