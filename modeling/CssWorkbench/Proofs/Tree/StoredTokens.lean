import CssWorkbench.Proofs.Tree.SelectorShape
import CssWorkbench.Proofs.Tree.StandingRuns

/-!
# The tokens in a tree belong to their nodes

The runs of tokens that a tree keeps lie in the nodes that keep them: the tokens of a value in the
span of the value, those of a compound in the span of the part, those of a prelude between the name
and the block. A prelude can reach out of its at-rule in one case: where the rule breaks off, its
span is trimmed of blanks and comments, and the prelude of blanks only.
-/

namespace CssWorkbench

variable {start stop e : Nat} {t u c : Token} {ts us front behind run tokens : List Token}
  {rule : AtRule} {children : List Node} {source : String} {s : Selector} {p : SelectorPart}

/-! ## Values and compounds -/

/-- The tokens of a value lie in it where they tile a stretch. -/
theorem Tiles.value_covers {v : Value} (h : Tiles start stop v.tokens)
    (hv : Value.ofTokens? tokens = some v) (ht : t ∈ v.tokens) : v.span.covers t.span = true := by
  unfold Value.ofTokens? at hv
  split at hv
  · rename_i first last hfirst hlast
    obtain rfl := Option.some.inj hv
    obtain ⟨ts, rfl⟩ := List.head?_eq_some_iff.mp hfirst
    have hspan : spanOfTokens first last = ⟨start, stop⟩ := by
      rw [spanOfTokens, h.1, h.getLast hlast]
    exact hspan ▸ h.covers ht (Nat.le_refl _)
  · cases hv

/-- A part of a selector is a combinator or the compound that its tokens make up. -/
theorem Builds.eq_compoundOf {used : List Token} {parts : List SelectorPart} {depth : Nat}
    (h : Builds used parts depth) :
    ∀ p ∈ parts, p.tokens = [] ∨ p = compoundOf p.tokens := by
  induction h with
  | start => exact fun p hp => absurd hp List.not_mem_nil
  | combinator _ _ _ ih => exact List.forall_mem_cons.mpr ⟨.inl rfl, ih⟩
  | compound _ _ _ _ _ ih => exact List.forall_mem_cons.mpr ⟨.inr rfl, ih⟩
  | descendant _ _ _ _ _ _ ih =>
    exact List.forall_mem_cons.mpr ⟨.inr rfl, List.forall_mem_cons.mpr ⟨.inl rfl, ih⟩⟩

/-- The tokens of a compound lie in it. -/
theorem covers_of_mem_selectors (hs : s ∈ (parse source).1.selectors) (hp : p ∈ s.parts)
    (ht : t ∈ p.tokens) : p.span.covers t.span = true := by
  obtain ⟨group, hwithin, hclosed, hbuilt⟩ := exists_group_of_mem_selectors hs
  obtain ⟨_, _, htiles⟩ := (tiles_tokensFrom 0 source.toList).exists_of_run hwithin
  have hrun : p.tokens <:+: group :=
    (standIn_of_ofTokens? hbuilt hclosed).infix_of_mem (List.mem_map_of_mem hp)
  obtain ⟨first, last, hrun⟩ := htiles.exists_of_run hrun
  obtain ⟨used, behind, parts, -, hbuilds, -, hparts, -⟩ :=
    exists_builds_of_ofTokens? hbuilt hclosed
  have hne := List.ne_nil_of_mem ht
  rw [(hbuilds.eq_compoundOf p (List.mem_reverse.mp (hparts ▸ hp))).resolve_left hne,
    hrun.span_compoundOf hne]
  exact hrun.covers ht (Nat.le_refl _)

/-! ## Preludes -/

/-- An at-rule that nothing ends: behind its prelude and blanks stands a `}` or the end of the
source. -/
def AtRule.BreaksOff (tokens : List Token) (rule : AtRule) : Prop :=
  ∃ front blanks next behind, tokens = front ++ (rule.prelude ++ (blanks ++ next :: behind)) ∧
    (∀ b ∈ blanks, b.kind = .whitespace) ∧ (next.kind = .rbrace ∨ next.kind = .eof)

/-- How the tokens spell an at-rule: a `;` or `{` stands behind its prelude and lies in it, or it
breaks off in front of a `}` or the end of the source. -/
inductive SpellsAtRule (tokens : List Token) : AtRule → Prop
  | ended {keyword u : Token} {front run rest : List Token} {block : Option Span} {e : Nat}
      (place : tokens = front ++ keyword :: (run ++ u :: rest))
      (kind : u.kind = .semicolon ∨ u.kind = .lbrace) (stops : u.stop ≤ e)
      (opens : ∀ b ∈ block, b.start = u.start) :
      SpellsAtRule tokens (atRuleOf keyword run e block)
  | broken {keyword : Token} {front run rest : List Token}
      (place : tokens = front ++ keyword :: (run ++ rest))
      (kind : ∀ u ∈ rest.head?, u.kind = .rbrace) :
      SpellsAtRule tokens (atRuleOf keyword run (lastSignificantStop keyword.stop run) none)

/-- A block ends behind the place where its tokens start. -/
theorem BlockEnd.le {inner : List Token} (h : BlockEnd stop inner e)
    (htiles : Tiles start stop inner) : start ≤ e := by
  rcases h with rfl | ⟨closer, hcloser, -, rfl⟩
  · exact htiles.le
  · have hbounds := htiles.of_mem hcloser
    omega

/-- The at-rules of a tree are spelled by the tokens of its source. -/
theorem spellsAtRule_parse (h : Node.atRule rule children ∈ (parse source).1.nodes) :
    SpellsAtRule (tokensFrom 0 source.toList) rule := by
  have hmade := parse_madeOf source (Stylesheet.mem_nodes_iff.mp h)
  have htiles := tiles_tokensFrom 0 source.toList
  generalize tokensFrom 0 source.toList = tokens at hmade htiles ⊢
  rw [Nat.zero_add] at htiles
  generalize hnode : Node.atRule rule children = node at hmade
  cases hmade with
  | comment | declaration => cases hnode
  | statement place statement =>
    obtain ⟨front, rfl⟩ := place
    cases statement with
    | ended run kind =>
      obtain ⟨rfl, -⟩ := Node.atRule.inj hnode
      rw [takeRun_eq_append run]
      exact .ended rfl (.inl kind) (Nat.le_refl _) (fun _ hb => nomatch hb)
    | broken run kind =>
      obtain ⟨rfl, -⟩ := Node.atRule.inj hnode
      rw [takeRun_eq_append run]
      exact .broken rfl kind
  | @block _ e _ opener _ inner _ place head ends =>
    obtain ⟨front, rfl⟩ := place
    cases head with
    | bare => cases hnode
    | ruleset => cases hnode
    | atRule keyword run brace =>
      obtain ⟨rfl, -⟩ := Node.atRule.inj hnode
      rw [takeRun_eq_append run] at htiles ⊢
      obtain ⟨_, -, -, -, hkeyword⟩ := tiles_append.mp htiles
      obtain ⟨_, -, -, -, hinner⟩ := tiles_append.mp hkeyword
      refine .ended rfl (.inr brace) (ends.le hinner) (fun b hb => ?_)
      obtain rfl := Option.mem_some_iff.mp hb
      rfl

/-! ### What a prelude and a span are trimmed of -/

/-- A statement that breaks off ends with its last token that is neither a blank nor a comment. -/
theorem lastSignificantStop_concat (h : t.isTrivia = false) (start : Nat) (ts : List Token) :
    lastSignificantStop start (ts ++ [t]) = t.stop := by
  rw [lastSignificantStop, splitLastSignificant?_concat h]

/-- Blanks and comments behind leave the end of the last significant token. -/
theorem lastSignificantStop_trivia (h : ∀ t ∈ us, t.isTrivia = true) (start : Nat)
    (ts : List Token) : lastSignificantStop start (ts ++ us) = lastSignificantStop start ts := by
  rw [lastSignificantStop, splitLastSignificant?_trivia h, lastSignificantStop]

/-- The prelude of a rule that breaks off lies in the rule unless it ends with a comment. -/
theorem Tiles.covers_prelude_iff (h : Tiles start stop run) (hle : e ≤ start) :
    (∀ t ∈ trimBlanks run, (Span.mk e (lastSignificantStop start run)).covers t.span = true) ↔
      ¬ ∃ c ∈ (trimBlanks run).getLast?, c.kind = .comment := by
  obtain ⟨front, blanks, hrun, hblanks⟩ := trimBlanks_append run
  have hlast : ∀ c ∈ (trimBlanks run).getLast?, c.kind ≠ .whitespace := getLast?_trimTrailingBlanks _
  generalize trimBlanks run = prelude at hrun hlast ⊢
  subst hrun
  rcases List.eq_nil_or_concat prelude with rfl | ⟨init, c, rfl⟩
  · simp
  rw [List.concat_eq_append] at hlast h ⊢
  rw [List.getLast?_concat] at hlast ⊢
  have hsplit : front ++ (init ++ [c] ++ blanks) = front ++ init ++ c :: blanks := by simp
  rw [hsplit] at h ⊢
  obtain ⟨middle, hinit, rfl, hpos, -⟩ := tiles_append.mp h
  have htrivia : ∀ t ∈ blanks, t.isTrivia = true := fun t ht => by simp [Token.isTrivia, hblanks t ht]
  by_cases hc : c.kind = .comment
  · -- The comment ends the prelude, but the rule ends in front of it.
    have hcomment : ∀ t ∈ c :: blanks, t.isTrivia = true :=
      List.forall_mem_cons.mpr ⟨by simp [Token.isTrivia, hc], htrivia⟩
    have hstop := (lastSignificantStop_bounds hinit).2
    rw [lastSignificantStop_trivia hcomment]
    refine iff_of_false (fun hcovers => ?_) (fun hno => hno ⟨c, rfl, hc⟩)
    have hc := (Span.covers_iff.mp (hcovers c List.mem_concat_self)).2
    exact absurd (Nat.lt_of_lt_of_le hpos hc) (Nat.not_lt_of_le hstop)
  · have hsolid : c.isTrivia = false := by simpa [Token.isTrivia] using ⟨hlast c rfl, hc⟩
    have hend : lastSignificantStop start (front ++ init ++ c :: blanks) = c.stop := by
      rw [List.append_cons, lastSignificantStop_trivia htrivia, lastSignificantStop_concat hsolid]
    rw [hend]
    refine iff_of_true (fun t ht => Span.covers_iff.mpr ?_) (by simpa using hc)
    have hstart := hinit.le
    rcases List.mem_append.mp ht with ht | ht
    · have hbounds := hinit.of_mem (List.mem_append_right front ht)
      exact ⟨show e ≤ t.start by omega, show t.stop ≤ c.stop by omega⟩
    · obtain rfl := List.mem_singleton.mp ht
      exact ⟨show e ≤ t.start by omega, Nat.le_refl _⟩

/-- What is left between the blanks around was there before. -/
theorem mem_of_mem_trimBlanks (h : t ∈ trimBlanks ts) : t ∈ ts :=
  (List.dropWhile_sublist _).mem (mem_of_mem_trimTrailingBlanks h)

/-- A prelude stands between the name and the block of its rule. -/
theorem SpellsAtRule.between (h : SpellsAtRule tokens rule) (htiles : Tiles start stop tokens)
    (ht : t ∈ rule.prelude) :
    rule.nameSpan.stop ≤ t.start ∧ ∀ block ∈ rule.block, t.stop ≤ block.start := by
  cases h with
  | ended place kind stops opens =>
    rw [place] at htiles
    obtain ⟨_, -, -, -, hkeyword⟩ := tiles_append.mp htiles
    obtain ⟨middle, hprelude, hu, -⟩ := tiles_append.mp hkeyword
    obtain ⟨hstart, -, hstop⟩ := hprelude.of_mem (mem_of_mem_trimBlanks ht)
    exact ⟨hstart, fun b hb => by rw [opens b hb, hu]; exact hstop⟩
  | broken place kind =>
    rw [place] at htiles
    obtain ⟨_, -, -, -, hkeyword⟩ := tiles_append.mp htiles
    obtain ⟨middle, hprelude, -⟩ := tiles_append.mp hkeyword
    exact ⟨(hprelude.of_mem (mem_of_mem_trimBlanks ht)).1, fun b hb => nomatch hb⟩

/-- The tokens of a source are different ones. -/
theorem scan_nodup (source : String) : (scan source).Nodup := by
  have htiles := tiles_tokensFrom 0 source.toList
  rw [Nat.zero_add] at htiles
  rw [scan_eq_append]
  refine List.nodup_append.mpr ⟨htiles.nodup, List.nodup_singleton _, fun t ht u hu heq => ?_⟩
  obtain rfl := List.mem_singleton.mp hu
  have hbounds := htiles.of_mem ht
  rw [heq] at hbounds
  exact Nat.lt_irrefl _ hbounds.2.1

/-- What stands behind the blanks behind a token is the same however the tokens are parted. -/
theorem eq_behind_blanks {front' blanks blanks' behind' : List Token} {v : Token}
    (hnodup : (front ++ c :: (blanks ++ u :: behind)).Nodup)
    (heq : front ++ c :: (blanks ++ u :: behind) = front' ++ c :: (blanks' ++ v :: behind'))
    (hblanks : ∀ b ∈ blanks, b.kind = .whitespace) (hblanks' : ∀ b ∈ blanks', b.kind = .whitespace)
    (hu : u.kind ≠ .whitespace) (hv : v.kind ≠ .whitespace) : u = v := by
  obtain ⟨hfront, hbehind⟩ : c ∉ front ∧ c ∉ blanks ++ u :: behind := by
    have hmiddle := (List.nodup_cons.mp (List.nodup_middle.mp hnodup)).1
    simpa only [List.mem_append, not_or] using hmiddle
  obtain ⟨-, -, hrest⟩ := (List.append_cons_inj_of_notMem hfront hbehind).mp heq
  have hdrop := congrArg (List.dropWhile (·.is .whitespace)) hrest
  rw [dropBlanks_append hblanks (by simpa using hu), dropBlanks_append hblanks' (by simpa using hv)]
    at hdrop
  exact (List.cons.inj hdrop).1

/-- A rule that ends with a `;` or a block does not break off: what stands behind its prelude is not
what stands behind that of a rule that does. -/
theorem not_breaksOff_of_ended {keyword u : Token} {rest : List Token} {block : Option Span}
    (place : tokens = front ++ keyword :: (run ++ u :: rest)) (hnodup : tokens.Nodup)
    (kind : u.kind = .semicolon ∨ u.kind = .lbrace) (hc : c ∈ (trimBlanks run).getLast?) :
    ¬ (atRuleOf keyword run e block).BreaksOff tokens := by
  rintro ⟨front', blanks', next, behind', hparted, hblanks', hnext⟩
  obtain ⟨init, hprelude⟩ := List.getLast?_eq_some_iff.mp (Option.mem_def.mp hc)
  obtain ⟨before, blanks, hrun, hblanks⟩ := trimBlanks_append run
  have hwhole : tokens = front ++ keyword :: (before ++ init) ++ c :: (blanks ++ u :: rest) := by
    rw [place, hrun, hprelude]
    simp only [List.append_assoc, List.cons_append, List.nil_append]
  have hother : tokens = front' ++ init ++ c :: (blanks' ++ next :: behind') := by
    rw [hparted, atRuleOf, hprelude]
    simp only [List.append_assoc, List.cons_append, List.nil_append]
  have hends : u = next := eq_behind_blanks (hwhole ▸ hnodup) (hwhole.symm.trans hother) hblanks
    hblanks' (by rcases kind with kind | kind <;> simp [kind])
    (by rcases hnext with hnext | hnext <;> simp [hnext])
  subst hends
  rcases kind with kind | kind <;> simp [kind] at hnext

/-- A rule in front of a `}` or the end breaks off. -/
theorem breaksOff_of_broken {keyword eof : Token} {rest : List Token} {block : Option Span}
    (place : tokens = front ++ keyword :: (run ++ rest)) (heof : eof.kind = .eof)
    (kind : ∀ u ∈ rest.head?, u.kind = .rbrace) :
    (atRuleOf keyword run e block).BreaksOff (tokens ++ [eof]) := by
  obtain ⟨before, blanks, hrun, hblanks⟩ := trimBlanks_append run
  obtain ⟨next, behind, hnext, hkind⟩ : ∃ next behind,
      rest ++ [eof] = next :: behind ∧ (next.kind = .rbrace ∨ next.kind = .eof) := by
    cases rest with
    | nil => exact ⟨eof, [], rfl, .inr heof⟩
    | cons u rest => exact ⟨u, _, rfl, .inl (kind u rfl)⟩
  refine ⟨front ++ keyword :: before, blanks, next, behind, ?_, hblanks, hkind⟩
  rw [← hnext, place]
  nth_rewrite 1 [hrun]
  simp only [atRuleOf, List.append_assoc, List.cons_append]

/-- The prelude of a rule lies in the rule unless the rule breaks off and the prelude ends with a
comment. -/
theorem SpellsAtRule.covers_iff (h : SpellsAtRule (tokensFrom 0 source.toList) rule) :
    (∀ t ∈ rule.prelude, rule.span.covers t.span = true) ↔
      ¬ (rule.BreaksOff (scan source) ∧ ∃ c ∈ rule.prelude.getLast?, c.kind = .comment) := by
  have htiles := tiles_tokensFrom 0 source.toList
  have hscan := scan_eq_append source
  have hnodup := scan_nodup source
  generalize tokensFrom 0 source.toList = tokens at h htiles hscan
  cases h with
  | @ended keyword u front run rest block e place kind stops opens =>
    have hscan' : scan source =
        front ++ keyword :: (run ++ u :: (rest ++ [.eof (Text.size source)])) := by
      rw [hscan, place]
      simp only [List.append_assoc, List.cons_append]
    refine iff_of_true (fun t ht => ?_) fun ⟨hbreaks, c, hc, _⟩ =>
      not_breaksOff_of_ended hscan' hnodup kind hc hbreaks
    rw [place] at htiles
    obtain ⟨_, -, -, hname, hkeyword⟩ := tiles_append.mp htiles
    obtain ⟨middle, hprelude, hu, hpos, -⟩ := tiles_append.mp hkeyword
    have hbounds := hprelude.of_mem (mem_of_mem_trimBlanks ht)
    exact Span.covers_iff.mpr ⟨show keyword.start ≤ t.start by omega, show t.stop ≤ e by omega⟩
  | @broken keyword front run rest place kind =>
    have hbreaks : AtRule.BreaksOff (scan source)
        (atRuleOf keyword run (lastSignificantStop keyword.stop run) none) :=
      hscan ▸ breaksOff_of_broken place rfl kind
    rw [place] at htiles
    obtain ⟨_, -, -, hname, hkeyword⟩ := tiles_append.mp htiles
    obtain ⟨middle, hprelude, -⟩ := tiles_append.mp hkeyword
    rw [and_iff_right hbreaks]
    exact hprelude.covers_prelude_iff (Nat.le_of_lt hname)

/-! ## The tokens of a tree -/

/-- The tokens that a node keeps lie where they belong: those of a compound in the part of the
selector, those of a prelude between the name and the block, those of a value in the value. -/
def Node.HoldsTokens : Node → Prop
  | .ruleset rule _ => ∀ s ∈ rule.selectors.selectors, ∀ p ∈ s.parts, ∀ t ∈ p.tokens,
      p.span.covers t.span = true
  | .atRule rule _ => ∀ t ∈ rule.prelude, rule.nameSpan.stop ≤ t.start ∧
      ∀ block ∈ rule.block, t.stop ≤ block.start
  | .declaration decl => ∀ v ∈ decl.value, ∀ t ∈ v.tokens, v.span.covers t.span = true
  | .comment _ => True

/-- A value in a tree is what its tokens spell. -/
theorem ofTokens?_of_mem_nodes {decl : Declaration} {v : Value}
    (h : Node.declaration decl ∈ (parse source).1.nodes) (hv : decl.value = some v) :
    ∃ ts, Value.ofTokens? ts = some v := by
  have hmade := parse_madeOf source (Stylesheet.mem_nodes_iff.mp h)
  generalize hnode : Node.declaration decl = node at hmade
  cases hmade with
  | comment => cases hnode
  | declaration =>
    obtain rfl := Node.declaration.inj hnode
    exact ⟨_, hv⟩
  | statement place statement => cases statement <;> cases hnode
  | block place head => cases head <;> cases hnode

/-- Every node of a source that is read holds its tokens. -/
theorem holdsTokens_of_mem_nodes {node : Node} (h : node ∈ (parse source).1.nodes) :
    node.HoldsTokens := by
  cases node with
  | ruleset rule children =>
    exact fun s hs p hp t ht => covers_of_mem_selectors (List.mem_flatMap.mpr ⟨_, h, hs⟩) hp ht
  | atRule rule children =>
    exact fun t ht => (spellsAtRule_parse h).between (tiles_tokensFrom 0 source.toList) ht
  | declaration decl =>
    intro v hv t ht
    obtain ⟨ts, hspelled⟩ := ofTokens?_of_mem_nodes h hv
    have htokens : decl.tokens = v.tokens := by
      rw [Declaration.tokens, Option.mem_def.mp hv]
    have hrun : decl.tokens <:+: tokensFrom 0 source.toList :=
      (parse_standIn source).infix_of_mem (List.mem_flatMap.mpr ⟨_, h, by simp [Node.runs]⟩)
    obtain ⟨_, _, htiles⟩ := (tiles_tokensFrom 0 source.toList).exists_of_run (htokens ▸ hrun)
    exact htiles.value_covers hspelled ht
  | comment span => trivial

/-- Each run of tokens that the tree keeps is one of the source, in the order of the nodes and no
token twice; the tokens lie where they belong, and those of a prelude in the at-rule as well, unless
the rule breaks off and they end with a comment. -/
structure TokensBelong (source : String) : Prop where
  contiguous : ∀ run ∈ (parse source).1.nodes.flatMap Node.runs, run <:+: scan source
  ordered : ((parse source).1.nodes.flatMap Node.runs).flatten.Sublist (scan source)
  once : ((parse source).1.nodes.flatMap Node.runs).flatten.Nodup
  inside : ∀ node ∈ (parse source).1.nodes, node.HoldsTokens
  preludes : ∀ rule children, .atRule rule children ∈ (parse source).1.nodes →
    ((∀ t ∈ rule.prelude, rule.span.covers t.span = true) ↔
      ¬ (rule.BreaksOff (scan source) ∧ ∃ c ∈ rule.prelude.getLast?, c.kind = .comment))

/-- The tokens in the tree of a source belong to the nodes that keep them. -/
theorem tokensBelong_parse (source : String) : TokensBelong source := by
  have hstand := parse_standIn source
  have hprefix : tokensFrom 0 source.toList <+: scan source :=
    scan_eq_append source ▸ List.prefix_append ..
  have hsublist := hstand.sublist.trans hprefix.sublist
  exact ⟨fun run hrun => (hstand.infix_of_mem hrun).trans hprefix.isInfix, hsublist,
    (scan_nodup source).sublist hsublist, fun node => holdsTokens_of_mem_nodes,
    fun rule children h => (spellsAtRule_parse h).covers_iff⟩

/-- A comment behind the prelude of a rule that nothing ends is kept, but stands behind the rule. -/
theorem prelude_outside_of_comment : ¬ ∀ source rule children,
    .atRule rule children ∈ (parse source).1.nodes →
      ∀ t ∈ rule.prelude, rule.span.covers t.span = true := by
  intro h
  have hnodes : (parse "@a/*c*/").1.nodes =
      [.atRule ⟨⟨0, 2⟩, "a", ⟨0, 2⟩, [⟨.comment, ⟨2, 7⟩, "c"⟩], none⟩ []] := by cbv
  have hcovers := h _ _ _ (hnodes ▸ List.mem_singleton_self _) _ (List.mem_singleton_self _)
  exact absurd hcovers (by decide)

end CssWorkbench
