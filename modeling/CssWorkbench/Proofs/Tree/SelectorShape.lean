import CssWorkbench.Proofs.Tree.NodeOrder
import CssWorkbench.Proofs.Tree.Origins

/-!
# The shape of selectors

Compounds and combinators alternate in a selector, except that combinators may follow one another.
Each compound is a run of tokens with nothing but whole simple selectors in it: no blanks at its ends
and no bracket left open, since a compound is closed only outside brackets. What the grammar of
`Builds` says of tokens holds of every selector in a tree, because a block opens only where its head
has closed its brackets.
-/

namespace CssWorkbench

variable {start stop depth : Nat} {t : Token} {ts used tokens group : List Token}
  {parts : List SelectorPart} {groups : List (List Token)} {s : Selector} {span : Span}

/-- A run of tokens that can stand as a compound: it starts and ends with a token that is no blank or
comment, and closes every bracket that it opens. -/
structure WholeCompound (tokens : List Token) : Prop where
  first : ∃ t, tokens.head? = some t ∧ t.isTrivia = false
  last : ∃ t, tokens.getLast? = some t ∧ t.isTrivia = false
  closed : depthAfter 0 tokens = 0

/-- What the parts of a selector say of one another and of its span. -/
structure Selector.WellFormed (s : Selector) : Prop where
  endsInCompound : ∃ p, s.parts.getLast? = some p ∧ p.isCompound = true
  apart : s.parts.IsChain fun p q => ¬ (p.isCompound = true ∧ q.isCompound = true)
  descendant : ∀ front span behind,
    s.parts = front ++ .combinator span .descendant :: behind →
      (∃ p, front.getLast? = some p ∧ p.isCompound = true) ∧
        ∃ q, behind.head? = some q ∧ q.isCompound = true
  compound : ∀ span tokens, .compound span tokens ∈ s.parts → WholeCompound tokens
  inOrder : InOrder s.span.start s.span.stop (s.parts.map SelectorPart.span)
  ends : (s.parts.head?.map fun p => p.span.start) = some s.span.start ∧
    (s.parts.getLast?.map fun p => p.span.stop) = some s.span.stop

/-- The selectors in front of the block of a node. -/
def Node.selectors : Node → List Selector
  | .ruleset rule _ => rule.selectors.selectors
  | .atRule _ _ => []
  | .declaration _ => []
  | .comment _ => []

/-- All selectors in a tree. -/
def Stylesheet.selectors (sheet : Stylesheet) : List Selector :=
  sheet.nodes.flatMap Node.selectors

/-! ## Compounds -/

/-- Solid tokens lead to the bracket count that is said of them. -/
theorem Solid.depthAfter_eq (h : Solid depth ts stop) : depthAfter depth ts = stop := by
  induction ts generalizing depth with
  | nil => exact h
  | cons t ts ih => exact ih h.2

/-- A blank or comment counts no bracket. -/
theorem inlineDepth_of_isTrivia (h : t.isTrivia = true) (depth : Nat) :
    t.kind.inlineDepth depth = depth := by
  have hkind : t.kind = .whitespace ∨ t.kind = .comment := by simpa [Token.isTrivia] using h
  rcases hkind with hkind | hkind <;> rw [hkind] <;> rfl

/-- A run that keeps to the rules of a compound and closes its brackets is one. The last token is no
blank: outside brackets there are none, and inside them a blank would close nothing. -/
theorem Solid.wholeCompound (h : Solid 0 ts 0) (hne : ts ≠ []) : WholeCompound ts := by
  refine ⟨?_, ?_, h.depthAfter_eq⟩
  · obtain ⟨t, ts, rfl⟩ := List.exists_cons_of_ne_nil hne
    exact ⟨t, rfl, (h.1 rfl).1⟩
  · obtain ⟨front, t, rfl⟩ := List.eq_nil_or_concat ts |>.resolve_left hne
    rw [List.concat_eq_append] at h ⊢
    refine ⟨t, List.getLast?_concat, Bool.eq_false_iff.mpr fun htrivia => ?_⟩
    obtain ⟨middle, -, hlast, hclosed⟩ := solid_append.mp h
    rw [inlineDepth_of_isTrivia htrivia] at hclosed
    rw [(hlast hclosed).1] at htrivia
    cases htrivia

/-! ## What is built of tokens -/

/-- No token means the descendant combinator. -/
theorem combinator?_ne_descendant : t.combinator? ≠ some .descendant := by
  unfold Token.combinator?
  split
  · simp
  split
  · simp
  split <;> simp

/-- All compounds of a selector that is closed are whole. -/
theorem Builds.wholeCompound (h : Builds used parts depth) (hdepth : depth = 0) :
    ∀ span tokens, .compound span tokens ∈ parts → WholeCompound tokens := by
  induction h with
  | start => intro span tokens hmem; cases hmem
  | combinator _ _ _ ih =>
    intro span tokens hmem
    exact ih rfl span tokens (List.mem_of_ne_of_mem (by simp) hmem)
  | compound _ _ _ nonempty solid ih =>
    intro span tokens hmem
    rcases List.mem_cons.mp hmem with heq | hmem
    · obtain rfl := (SelectorPart.compound.inj heq).2
      exact Solid.wholeCompound (hdepth ▸ solid) nonempty
    · exact ih rfl span tokens hmem
  | descendant _ _ _ _ nonempty solid ih =>
    intro span tokens hmem
    rcases List.mem_cons.mp hmem with heq | hmem
    · obtain rfl := (SelectorPart.compound.inj heq).2
      exact Solid.wholeCompound (hdepth ▸ solid) nonempty
    · exact ih rfl span tokens (List.mem_of_ne_of_mem (by simp) hmem)

/-- No compound is built right behind another one. -/
theorem Builds.apart (h : Builds used parts depth) :
    parts.IsChain fun p q => ¬ (p.isCompound = true ∧ q.isCompound = true) := by
  induction h with
  | start => exact .nil
  | @combinator _ _ parts _ _ _ _ _ ih =>
    cases parts with
    | nil => exact .singleton _
    | cons p parts => exact .cons_cons (fun hboth => Bool.false_ne_true hboth.1) ih
  | @compound _ _ _ parts _ _ fresh _ _ _ ih =>
    cases parts with
    | nil => exact .singleton _
    | cons p parts =>
      refine .cons_cons (fun hboth => fresh ?_) ih
      simpa [EndsInCompound] using hboth.2
  | @descendant _ _ _ parts _ _ _ _ _ _ _ _ ih =>
    refine .cons_cons (fun hboth => Bool.false_ne_true hboth.2) ?_
    cases parts with
    | nil => exact .singleton _
    | cons p parts => exact .cons_cons (fun hboth => Bool.false_ne_true hboth.1) ih

/-- A descendant combinator is built between two compounds. The parts are given newest first. -/
theorem Builds.between (h : Builds used parts depth) {front behind : List SelectorPart}
    (hparts : parts = front ++ .combinator span .descendant :: behind) :
    (∃ p, front.getLast? = some p ∧ p.isCompound = true) ∧ EndsInCompound behind := by
  have hgrow : ∀ {first : SelectorPart} {front : List SelectorPart},
      (∃ p, front.getLast? = some p ∧ p.isCompound = true) →
        ∃ p, (first :: front).getLast? = some p ∧ p.isCompound = true := by
    rintro first front ⟨p, hlast, hp⟩
    exact ⟨p, by rw [List.getLast?_cons, hlast, Option.getD_some], hp⟩
  induction h generalizing front with
  | start => cases front <;> cases hparts
  | combinator _ _ combines ih =>
    cases front with
    | nil =>
      obtain ⟨heq, -⟩ := List.cons.inj hparts
      rw [(SelectorPart.combinator.inj heq).2] at combines
      exact absurd combines combinator?_ne_descendant
    | cons first front => exact (ih (List.cons.inj hparts).2).imp_left hgrow
  | compound _ _ _ _ _ ih =>
    cases front with
    | nil => cases (List.cons.inj hparts).1
    | cons first front => exact (ih (List.cons.inj hparts).2).imp_left hgrow
  | @descendant _ _ tokens _ _ _ _ compound _ _ _ _ ih =>
    cases front with
    | nil => cases (List.cons.inj hparts).1
    | cons first front =>
      obtain ⟨rfl, hrest⟩ := List.cons.inj hparts
      cases front with
      | nil =>
        obtain ⟨-, rfl⟩ := List.cons.inj hrest
        exact ⟨⟨compoundOf tokens, rfl, rfl⟩, compound⟩
      | cons second front =>
        exact (ih (List.cons.inj hrest).2).imp_left fun hfront => hgrow (hgrow hfront)

/-! ## The selectors of a tree -/

/-- A selector is well formed where its tokens stand in a row and close their brackets. -/
theorem Tiles.selector_wellFormed (h : Tiles start stop tokens) (hdepth : depthAfter 0 tokens = 0)
    (hs : Selector.ofTokens? tokens = some s) : s.WellFormed := by
  obtain ⟨used, behind, parts, rfl, hbuilds, hends, hparts, hspan⟩ :=
    exists_builds_of_ofTokens? hs hdepth
  obtain ⟨middle, hused, -⟩ := tiles_append.mp h
  have horder := hbuilds.inOrder hused
  obtain ⟨last, before, rfl⟩ : ∃ last before, parts = last :: before := by
    cases parts with
    | nil => cases hends
    | cons last before => exact ⟨last, before, rfl⟩
  have hlast : s.parts.getLast? = some last := by
    rw [hparts, List.getLast?_reverse]
    rfl
  obtain ⟨first, hfirst⟩ : ∃ first, s.parts.head? = some first := by
    rw [hparts, List.head?_reverse]
    exact ⟨_, List.getLast?_cons⟩
  rw [hfirst, hlast, Option.elim_some, Option.elim_some] at hspan
  rw [← hparts] at horder
  refine ⟨⟨last, hlast, by simpa [EndsInCompound] using hends⟩, ?_, ?_, ?_, ?_, ?_⟩
  · rw [hparts, List.isChain_reverse]
    exact hbuilds.apart.imp fun p q hboth hcompounds => hboth hcompounds.symm
  · intro front span behind hsplit
    have hnewest : last :: before = behind.reverse ++ .combinator span .descendant ::
        front.reverse := by
      rw [← List.reverse_reverse (last :: before), ← hparts, hsplit]
      simp
    obtain ⟨hbehind, hfront⟩ := hbuilds.between hnewest
    rw [List.getLast?_reverse] at hbehind
    refine ⟨?_, hbehind⟩
    simpa [EndsInCompound, Option.any_eq_true] using hfront
  · intro span tokens hmem
    rw [hparts, List.mem_reverse] at hmem
    exact hbuilds.wholeCompound rfl span tokens hmem
  · have hspans := horder.tighten (s := first.span) (t := last.span) (by simp [hfirst])
      (by simp [hlast])
    rw [hspan]
    exact hspans
  · rw [hspan, hfirst, hlast]
    exact ⟨rfl, rfl⟩

/-- Each of the groups between commas is a stretch of the tokens that closes its brackets. -/
theorem CommaGroups.closed (h : CommaGroups depth ts groups) (hdepth : depth = 0)
    (hclosed : depthAfter 0 ts = 0) :
    ∀ group ∈ groups, group <:+: ts ∧ depthAfter 0 group = 0 := by
  induction h with
  | last inside =>
    intro group hgroup
    obtain rfl := List.mem_singleton.mp hgroup
    exact ⟨List.infix_refl _, hclosed⟩
  | @more _ comma first ts groups inside kind behind ih =>
    subst hdepth
    have hfirst := inside.depthAfter_eq
    have hrest := depthAfter_behind_comma kind hfirst hclosed
    intro group hgroup
    rcases List.mem_cons.mp hgroup with rfl | hgroup
    · exact ⟨(List.prefix_append group _).isInfix, hfirst⟩
    · obtain ⟨hwithin, hdepth⟩ := ih rfl hrest group hgroup
      exact ⟨(hwithin.trans (List.suffix_cons comma ts).isInfix).trans
        (List.suffix_append first _).isInfix, hdepth⟩

/-- A selector of a list is spelled by a run of the tokens that closes its brackets. -/
theorem exists_group_of_mem_ofTokens (hclosed : depthAfter 0 ts = 0) {behind : Nat}
    (hs : s ∈ (SelectorList.ofTokens ts behind).selectors) :
    ∃ group, group <:+: ts ∧ depthAfter 0 group = 0 ∧ Selector.ofTokens? group = some s := by
  rw [selectors_ofTokens] at hs
  obtain ⟨group, hgroup, hbuilt⟩ := List.mem_filterMap.mp hs
  obtain ⟨hwithin, hdepth⟩ := (splitCommasFrom_groups 0 ts).closed rfl hclosed group hgroup
  exact ⟨group, hwithin, hdepth, hbuilt⟩

/-- A selector in front of a block is spelled by a run of the tokens of the head. -/
theorem Heads.exists_group {n : Nat} {opener : Token} {inner : List Token}
    {make : List Node → Span → Node} (h : Heads n t ts opener inner make) {children : List Node}
    {block : Span} (hs : s ∈ (make children block).selectors) :
    ∃ group, group <:+: t :: ts ∧ depthAfter 0 group = 0 ∧ Selector.ofTokens? group = some s := by
  cases h with
  | atRule => cases hs
  | bare => cases hs
  | @ruleset _ _ head _ _ _ _ run =>
    have hclosed : depthAfter 0 (t :: head) = 0 := (takeRun_inside_zero run).1.depthAfter_eq
    obtain ⟨group, hwithin, hgroup⟩ := exists_group_of_mem_ofTokens hclosed hs
    rw [takeRun_eq_append run]
    exact ⟨group, hwithin.trans (List.prefix_append (t :: head) _).isInfix, hgroup⟩

/-- A selector of a tree is spelled by a run of the tokens of the source. -/
theorem exists_group_of_mem_selectors {source : String} (hs : s ∈ (parse source).1.selectors) :
    ∃ group, group <:+: tokensFrom 0 source.toList ∧ depthAfter 0 group = 0 ∧
      Selector.ofTokens? group = some s := by
  obtain ⟨node, hnode, hs⟩ := List.mem_flatMap.mp hs
  have hmade := parse_madeOf source (Stylesheet.mem_nodes_iff.mp hnode)
  cases hmade with
  | comment | declaration => cases hs
  | statement _ rule => cases rule <;> cases hs
  | block place head _ children =>
    obtain ⟨group, hwithin, hgroup⟩ := head.exists_group hs
    exact ⟨group, hwithin.trans place.isInfix, hgroup⟩

/-- Every selector in the tree of a source is well formed: compounds stand apart, each descendant
combinator stands between two of them, and the last part is one; each compound is whole; and the
parts stand in order from the start of the selector to its end. -/
theorem selectors_wellFormed (source : String) :
    ∀ s ∈ (parse source).1.selectors, s.WellFormed := by
  intro s hs
  obtain ⟨group, hwithin, hdepth, hbuilt⟩ := exists_group_of_mem_selectors hs
  obtain ⟨_, _, htiles⟩ := (tiles_tokensFrom 0 source.toList).exists_of_run hwithin
  exact htiles.selector_wellFormed hdepth hbuilt

/-- A nested rule with a combinator in front, gaps of blanks and comments, brackets and a combinator
that nothing follows. -/
theorem selectors_wellFormed_of_nested :
    (parse "x\x7b> a.b /**/ c:not( d > e )~ f ,g+\x7b\x7d\x7d").1.selectors.map
        (fun s => s.parts.map SelectorPart.isCompound) =
      [[true], [false, true, false, true, false, true], [true]] ∧
    ∃ s, (parse "x\x7b> a.b /**/ c:not( d > e )~ f ,g+\x7b\x7d\x7d").1.selectors[1]? = some s ∧
      s.WellFormed := by
  have hparts : (parse "x\x7b> a.b /**/ c:not( d > e )~ f ,g+\x7b\x7d\x7d").1.selectors.map
      (fun s => s.parts.map SelectorPart.isCompound) =
        [[true], [false, true, false, true, false, true], [true]] := by cbv
  have hlength := congrArg List.length hparts
  rw [List.length_map] at hlength
  have hsecond : 1 < (parse "x\x7b> a.b /**/ c:not( d > e )~ f ,g+\x7b\x7d\x7d").1.selectors.length := by
    rw [hlength]
    decide
  exact ⟨hparts, _, List.getElem?_eq_getElem hsecond,
    selectors_wellFormed _ _ (List.getElem_mem hsecond)⟩

end CssWorkbench
