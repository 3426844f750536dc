import CssWorkbench.Proofs.Text.InOrder
import CssWorkbench.Proofs.Token.Coverage
import CssWorkbench.Proofs.Tree.CommaGroups
import CssWorkbench.Proofs.Tree.SelectorGrammar

/-!
# Where the parts of a selector stand

The tokens in front of a block tile a stretch of the source. Each part that they spell takes a
stretch of its own there, so that the parts of a selector are in order, and with them the selectors
of a list. The list itself stands between the first token and the block.
-/

namespace CssWorkbench

variable {start stop depth middle : Nat} {used gap tokens ts group : List Token}
  {parts : List SelectorPart} {groups : List (List Token)}

/-- A list of tokens that is not empty takes what stands from its first token to its last. -/
theorem Tiles.span_compoundOf (h : Tiles start stop tokens) (hne : tokens ≠ []) :
    (compoundOf tokens).span = ⟨start, stop⟩ := by
  obtain ⟨t, ts, rfl⟩ := List.exists_cons_of_ne_nil hne
  obtain ⟨u, hlast⟩ : ∃ u, (t :: ts).getLast? = some u := ⟨_, List.getLast?_cons⟩
  simp [compoundOf, SelectorPart.span, hlast, h.getLast hlast, h.1]

/-- The span around tokens that tile a stretch is that stretch. -/
theorem Tiles.spanAround_eq (h : Tiles start stop gap) (hne : gap ≠ []) :
    spanAround gap = some ⟨start, stop⟩ := by
  obtain ⟨t, ts, rfl⟩ := List.exists_cons_of_ne_nil hne
  induction ts using List.reverseRecOn generalizing stop with
  | nil =>
    obtain ⟨rfl, -, rfl⟩ := h
    rfl
  | append_singleton us u ih =>
    rw [← List.cons_append] at h ⊢
    obtain ⟨middle, hfront, hmiddle, hpos, hstop⟩ := tiles_append.mp h
    have hlt := hfront.lt (List.cons_ne_nil t us)
    have hspan : (Span.mk start middle).union u.span = ⟨start, stop⟩ := by
      have hmin : min start u.span.start = start := Nat.min_eq_left (by
        have hu : u.span.start = middle := hmiddle
        omega)
      have hmax : max middle u.span.stop = stop := by
        have hu : u.span.stop = stop := hstop
        have hs : u.span.start = middle := hmiddle
        have hp : u.span.start < u.span.stop := hpos
        omega
      rw [Span.union, hmin, hmax]
    rw [spanAround_concat, ih hfront (List.cons_ne_nil t us), Option.elim_some, hspan]

/-- The parts stand in order, each of them where the tokens stand that spell it. -/
theorem Builds.inOrder (h : Builds used parts depth) (htiles : Tiles start stop used) :
    InOrder start stop (parts.reverse.map SelectorPart.span) := by
  induction h generalizing stop with
  | start => exact htiles.le
  | combinator _ _ _ ih =>
    obtain ⟨_, hfront, hstart, hpos, hstop⟩ := tiles_append.mp htiles
    obtain ⟨middle, hused, hgap⟩ := tiles_append.mp hfront
    rw [List.reverse_cons, List.map_append]
    exact (ih hused).concat (Nat.le_trans hgap.le (Nat.le_of_eq hstart.symm)) hpos
      (Nat.le_of_eq hstop)
  | compound _ _ _ nonempty _ ih =>
    obtain ⟨_, hfront, htokens⟩ := tiles_append.mp htiles
    obtain ⟨middle, hused, hgap⟩ := tiles_append.mp hfront
    have hspan := htokens.span_compoundOf nonempty
    rw [List.reverse_cons, List.map_append, List.map_singleton, hspan]
    exact (ih hused).concat hgap.le (htokens.lt nonempty) (Nat.le_refl _)
  | @descendant _ gap _ _ _ _ _ _ _ around nonempty _ ih =>
    obtain ⟨_, hfront, htokens⟩ := tiles_append.mp htiles
    obtain ⟨middle, hused, hgap⟩ := tiles_append.mp hfront
    have hspan := htokens.span_compoundOf nonempty
    have hne : gap ≠ [] := fun hnil => by simp [hnil, spanAround] at around
    rw [hgap.spanAround_eq hne] at around
    obtain rfl := Option.some.inj around
    have hcombinator := (ih hused).concat (s := ⟨_, _⟩) (Nat.le_refl _) (hgap.lt hne) (Nat.le_refl _)
    rw [List.reverse_cons, List.reverse_cons, List.map_append, List.map_append,
      List.map_singleton, List.map_singleton, hspan]
    exact hcombinator.concat (Nat.le_refl _) (htokens.lt nonempty) (Nat.le_refl _)

/-- A selector stands where its tokens stand. -/
theorem Tiles.selector_inOrder {s : Selector} (h : Tiles start stop tokens)
    (hdepth : depthAfter 0 tokens = 0) (hs : Selector.ofTokens? tokens = some s) :
    InOrder start stop [s.span] ∧ InOrder start stop (s.parts.map SelectorPart.span) := by
  obtain ⟨used, behind, parts, rfl, hbuilds, hends, hparts, hspan⟩ :=
    exists_builds_of_ofTokens? hs hdepth
  obtain ⟨middle, hused, hbehind⟩ := tiles_append.mp h
  have horder := (hbuilds.inOrder hused).mono hbehind.le
  rw [← hparts] at horder
  refine ⟨?_, horder⟩
  have hne : s.parts ≠ [] := by
    intro hnil
    rw [hparts, List.reverse_eq_nil_iff] at hnil
    simp [EndsInCompound, hnil] at hends
  obtain ⟨first, rest, hfirst⟩ := List.exists_cons_of_ne_nil hne
  obtain ⟨last, hlast⟩ : ∃ last, s.parts.getLast? = some last := by
    rw [hfirst]
    exact ⟨_, List.getLast?_cons⟩
  have hbounds := horder.ends (s := first.span) (t := last.span) (by simp [hfirst])
    (by simp [hlast])
  rw [hspan, hfirst, List.head?_cons, ← hfirst, hlast]
  exact hbounds

/-- What passes over some tokens counts their brackets. -/
theorem Inside.depthAfter_eq {halts : TokenKind → Bool}
    (h : Inside halts TokenKind.inlineDepth depth ts stop) : depthAfter depth ts = stop := by
  induction ts generalizing depth with
  | nil => exact h
  | cons t ts ih => exact ih h.2

/-- Brackets are counted on over tokens in a row. -/
theorem depthAfter_append (depth : Nat) (ts us : List Token) :
    depthAfter depth (ts ++ us) = depthAfter (depthAfter depth ts) us :=
  List.foldl_append

/-- A comma counts no bracket. -/
theorem inlineDepth_comma (depth : Nat) : TokenKind.comma.inlineDepth depth = depth := rfl

/-- Behind a comma outside brackets the tokens close what they open. -/
theorem depthAfter_behind_comma {comma : Token} (hkind : comma.kind = .comma)
    (hgroup : depthAfter depth group = 0) (h : depthAfter depth (group ++ comma :: ts) = 0) :
    depthAfter 0 ts = 0 := by
  rw [depthAfter_append, hgroup] at h
  simpa [depthAfter, hkind, inlineDepth_comma] using h

/-- The selectors between commas stand in order. -/
theorem CommaGroups.selectors_inOrder (h : CommaGroups depth ts groups) (hdepth : depth = 0)
    (htiles : Tiles start stop ts) (hclosed : depthAfter 0 ts = 0) :
    InOrder start stop ((groups.filterMap Selector.ofTokens?).map Selector.span) := by
  induction h generalizing start with
  | @last _ _ group inside =>
    cases hs : Selector.ofTokens? group with
    | none => simpa [hs, InOrder] using htiles.le
    | some s => simpa [hs] using (htiles.selector_inOrder hclosed hs).1
  | @more _ comma group ts groups inside kind behind ih =>
    subst hdepth
    obtain ⟨middle, hgroup, hcomma, hpos, hbehind⟩ := tiles_append.mp htiles
    have hgroupClosed := inside.depthAfter_eq
    have hrest := depthAfter_behind_comma kind hgroupClosed hclosed
    have horder := (ih rfl hbehind hrest).of_le (show middle ≤ comma.stop by omega)
    cases hs : Selector.ofTokens? group with
    | none =>
      rw [List.filterMap_cons_none hs]
      exact horder.of_le hgroup.le
    | some s =>
      rw [List.filterMap_cons_some hs, List.map_cons]
      exact inOrder_append.mpr ⟨middle, (hgroup.selector_inOrder hgroupClosed hs).1, horder⟩

/-- A list of selectors stands between the first of its tokens and the block. -/
theorem Tiles.selectorList_inOrder (h : Tiles start stop ts) (hclosed : depthAfter 0 ts = 0) :
    start ≤ (SelectorList.ofTokens ts stop).span.start ∧
      (SelectorList.ofTokens ts stop).span.start ≤ (SelectorList.ofTokens ts stop).span.stop ∧
      (SelectorList.ofTokens ts stop).span.stop ≤ stop ∧
      InOrder start stop ((SelectorList.ofTokens ts stop).selectors.map Selector.span) := by
  have horder := (splitCommasFrom_groups 0 ts).selectors_inOrder rfl h hclosed
  unfold SelectorList.ofTokens splitCommas
  simp only
  generalize (splitCommasFrom 0 ts).filterMap Selector.ofTokens? = selectors at horder ⊢
  split
  · rename_i first last hfirst hlast
    have hends := horder.ends (s := first.span) (t := last.span) (by simp [hfirst])
      (by simp [hlast])
    exact ⟨hends.1, Nat.le_of_lt hends.2.1, hends.2.2, horder⟩
  · exact ⟨h.le, Nat.le_refl _, Nat.le_refl _, h.le⟩

end CssWorkbench
