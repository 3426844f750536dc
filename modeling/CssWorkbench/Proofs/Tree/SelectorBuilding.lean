import CssWorkbench.Proofs.Tree.SelectorGrammar

/-!
# Tokens that spell a selector are built into it

The other direction of the grammar of selectors: what `Builds` says of some tokens is what the fold
over them comes to. There is therefore one way only to spell the parts of a selector with given
tokens.
-/

namespace CssWorkbench

variable {t : Token} {ts us gap used tokens behind : List Token} {parts : List SelectorPart}
  {depth stop : Nat} {d : SelectorDraft}

/-- The draft holds the parts, with the newest compound perhaps still pending. -/
structure Drafts (d : SelectorDraft) (parts : List SelectorPart) (depth : Nat) : Prop where
  built : d.flush.parts = parts
  brackets : d.depth = depth
  noGap : d.gap = none
  pending : d.pending = [] ↔ ¬ EndsInCompound parts

/-- After a compound is finished none is pending. -/
theorem SelectorDraft.flush_pending (d : SelectorDraft) : d.flush.pending = [] := by
  by_cases h : d.pending = []
  · rw [flush_of_pending_nil h, h]
  · rw [flush_of_pending_ne_nil h]

/-- Without a pending compound the parts are all there. -/
theorem Drafts.parts_of_pending_nil (h : Drafts d parts depth) (hpending : d.pending = []) :
    d.parts = parts := by
  have hparts := h.built
  rwa [SelectorDraft.flush_of_pending_nil hpending] at hparts

/-- Outside brackets a blank or a comment is added as a gap. -/
theorem SelectorDraft.add_trivia (hdepth : d.depth = 0) (ht : t.isTrivia = true) :
    d.add t = d.addTrivia t := by
  rw [add, if_pos hdepth, if_pos ht]

/-- Blanks and comments behind something that is no compound change nothing. -/
theorem Drafts.foldl_of_not_compound (h : Drafts d parts 0) (hno : ¬ EndsInCompound parts)
    (htrivia : ∀ u ∈ gap, u.isTrivia = true) : gap.foldl SelectorDraft.add d = d := by
  have hpending := h.pending.mpr hno
  induction gap with
  | nil => rfl
  | cons t gap ih =>
    have hcompound : ¬ EndsInCompound d.parts := by rwa [h.parts_of_pending_nil hpending]
    rw [List.foldl_cons, SelectorDraft.add_trivia h.brackets (htrivia t List.mem_cons_self),
      SelectorDraft.addTrivia_of_not_compound hpending hcompound]
    exact ih fun u hu => htrivia u (List.mem_cons_of_mem _ hu)

/-- Blanks and comments behind a compound finish it and are kept as its gap. -/
theorem Drafts.foldl_of_compound (h : Drafts d parts 0) (hcompound : EndsInCompound parts)
    (hne : gap ≠ []) (htrivia : ∀ u ∈ gap, u.isTrivia = true) :
    gap.foldl SelectorDraft.add d = ⟨parts, [], spanAround gap, 0⟩ := by
  obtain ⟨t, gap, rfl⟩ := List.exists_cons_of_ne_nil hne
  have hpending : d.pending ≠ [] := fun hnil => h.pending.mp hnil hcompound
  have hparts := h.built
  rw [SelectorDraft.flush_of_pending_ne_nil hpending] at hparts
  have hfirst : d.add t = ⟨parts, [], some t.span, 0⟩ := by
    rw [SelectorDraft.add_trivia h.brackets (htrivia t List.mem_cons_self),
      SelectorDraft.addTrivia_of_pending hpending h.noGap, ← hparts, h.brackets]
  have hrest : ∀ (ts : List Token) (span : Span), (∀ u ∈ ts, u.isTrivia = true) →
      ts.foldl SelectorDraft.add ⟨parts, [], some span, 0⟩ = ⟨parts, [],
        ts.foldl (fun span t => some (span.elim t.span (·.union t.span))) (some span), 0⟩ := by
    intro ts
    induction ts with
    | nil => intro span _; rfl
    | cons u ts ih =>
      intro span hts
      rw [List.foldl_cons, SelectorDraft.add_trivia rfl (hts u List.mem_cons_self),
        SelectorDraft.addTrivia_of_compound rfl hcompound]
      exact ih _ fun v hv => hts v (List.mem_cons_of_mem _ hv)
  rw [List.foldl_cons, hfirst, hrest gap t.span fun u hu => htrivia u (List.mem_cons_of_mem _ hu)]
  rfl

/-- The tokens of a compound pile up in the draft. -/
theorem SelectorDraft.foldl_solid (hgap : d.gap = none) (hsolid : Solid d.depth tokens stop) :
    tokens.foldl add d = { d with pending := tokens.reverse ++ d.pending, depth := stop } := by
  induction tokens generalizing d with
  | nil =>
    obtain rfl : d.depth = stop := hsolid
    rfl
  | cons t tokens ih =>
    obtain ⟨ht, hrest⟩ := hsolid
    have hadd : d.add t = d.addSimple t := by
      rw [add]
      split
      · rename_i hdepth
        obtain ⟨htrivia, hcombinator⟩ := ht hdepth
        rw [if_neg (Bool.eq_false_iff.mp htrivia), hcombinator, closeGap_of_none hgap]
      · rfl
    rw [List.foldl_cons, hadd, ih (d := d.addSimple t) hgap hrest]
    simp [addSimple]

/-- A compound behind a draft without a pending one is its newest part. -/
theorem drafts_compound (hpending : d.pending = []) (hgap : d.gap = none) (hne : tokens ≠ [])
    (hsolid : Solid d.depth tokens stop) :
    Drafts (tokens.foldl SelectorDraft.add d) (compoundOf tokens :: d.parts) stop := by
  rw [SelectorDraft.foldl_solid hgap hsolid, hpending, List.append_nil]
  have hpiled : tokens.reverse ≠ [] := fun hnil => hne (List.reverse_eq_nil_iff.mp hnil)
  refine ⟨?_, rfl, hgap, ?_⟩
  · rw [SelectorDraft.flush_of_pending_ne_nil hpiled, List.reverse_reverse]
  · exact ⟨fun hnil => absurd hnil hpiled, fun hno => absurd rfl hno⟩

/-- The first token of a compound behind a gap turns the gap into a descendant combinator. -/
theorem SelectorDraft.foldl_closeGap {span : Span} (hcompound : EndsInCompound parts)
    (hne : tokens ≠ []) (hsolid : Solid 0 tokens stop) :
    tokens.foldl add ⟨parts, [], some span, 0⟩ =
      tokens.foldl add ⟨.combinator span .descendant :: parts, [], none, 0⟩ := by
  obtain ⟨t, tokens, rfl⟩ := List.exists_cons_of_ne_nil hne
  obtain ⟨htrivia, hcombinator⟩ := hsolid.1 rfl
  rw [List.foldl_cons, List.foldl_cons]
  have hadd : ∀ e : SelectorDraft, e.depth = 0 → e.add t = e.closeGap.addSimple t := by
    intro e he
    rw [add, if_pos he, if_neg (Bool.eq_false_iff.mp htrivia), hcombinator]
  rw [hadd _ rfl, hadd _ rfl, closeGap_of_compound rfl hcompound rfl, closeGap_of_none rfl]

/-- The fold over tokens that spell some parts comes to these parts. -/
theorem Builds.drafts (h : Builds used parts depth) :
    Drafts (used.foldl SelectorDraft.add .empty) parts depth := by
  induction h with
  | start => exact ⟨rfl, rfl, rfl, by simp [SelectorDraft.empty, EndsInCompound]⟩
  | @combinator used gap parts t kind _ trivia combines ih =>
    rw [List.foldl_append, List.foldl_append, List.foldl_cons, List.foldl_nil]
    generalize used.foldl SelectorDraft.add .empty = d at ih ⊢
    obtain ⟨hparts, hdepth⟩ : (gap.foldl SelectorDraft.add d).flush.parts = parts ∧
        (gap.foldl SelectorDraft.add d).depth = 0 := by
      by_cases hcompound : EndsInCompound parts
      · by_cases hne : gap = []
        · rw [hne]
          exact ⟨ih.built, ih.brackets⟩
        · rw [ih.foldl_of_compound hcompound hne trivia]
          exact ⟨rfl, rfl⟩
      · rw [ih.foldl_of_not_compound hcompound trivia]
        exact ⟨ih.built, ih.brackets⟩
    generalize gap.foldl SelectorDraft.add d = e at hparts hdepth ⊢
    have hadd : e.add t = { e.flush with
        parts := .combinator t.span kind :: e.flush.parts, gap := none } := by
      have htrivia := Bool.eq_false_iff.mp (isTrivia_of_combinator? combines).1
      rw [SelectorDraft.add, if_pos hdepth, if_neg htrivia, combines]
      rfl
    have hpending := SelectorDraft.flush_pending e
    rw [hadd, hparts]
    refine ⟨?_, (SelectorDraft.flush_depth e).trans hdepth, rfl, ?_⟩
    · have hflush := @SelectorDraft.flush_of_pending_nil
        { e.flush with parts := .combinator t.span kind :: parts, gap := none } hpending
      exact congrArg SelectorDraft.parts hflush
    · exact ⟨fun _ hno => Bool.false_ne_true hno, fun _ => hpending⟩
  | @compound used gap tokens parts depth _ fresh trivia nonempty solid ih =>
    rw [List.foldl_append, List.foldl_append, ih.foldl_of_not_compound fresh trivia]
    have hpending := ih.pending.mpr fresh
    rw [← ih.parts_of_pending_nil hpending]
    exact drafts_compound hpending ih.noGap nonempty (ih.brackets ▸ solid)
  | @descendant used gap tokens parts span depth _ compound trivia around nonempty solid ih =>
    have hne : gap ≠ [] := by
      rintro rfl
      cases around
    rw [List.foldl_append, List.foldl_append, ih.foldl_of_compound compound hne trivia, around,
      SelectorDraft.foldl_closeGap compound nonempty solid]
    exact drafts_compound rfl rfl nonempty solid

/-- Tokens that spell parts up to a compound spell a selector, whatever blanks stand behind. -/
theorem ofTokens?_of_builds (h : Builds used parts 0) (hcompound : EndsInCompound parts)
    (hbehind : ∀ u ∈ behind, u.isTrivia = true) :
    ∃ s, Selector.ofTokens? (used ++ behind) = some s ∧ s.parts = parts.reverse := by
  have hdrafts := h.drafts
  have hparts : (((used ++ behind).foldl SelectorDraft.add .empty).flush).parts = parts := by
    rw [List.foldl_append]
    by_cases hne : behind = []
    · rw [hne]
      exact hdrafts.built
    · rw [hdrafts.foldl_of_compound hcompound hne hbehind]
      rfl
  obtain ⟨p, ps, rfl⟩ : ∃ p ps, parts = p :: ps := by
    cases parts with
    | nil => cases hcompound
    | cons p ps => exact ⟨p, ps, rfl⟩
  have hp : p.isCompound = true := by simpa [EndsInCompound] using hcompound
  have hfinish : ((used ++ behind).foldl SelectorDraft.add .empty).finish = (p :: ps).reverse := by
    rw [SelectorDraft.finish, hparts, List.dropWhile_cons_of_neg (by simp [hp])]
  obtain ⟨first, hfirst⟩ : ∃ first, (p :: ps).reverse.head? = some first := by
    rw [List.head?_reverse]
    exact ⟨_, List.getLast?_cons⟩
  have hlast : (p :: ps).reverse.getLast? = some p := by
    rw [List.getLast?_reverse]
    rfl
  rw [Selector.ofTokens?, hfinish]
  simp only [hfirst, hlast]
  exact ⟨_, rfl, rfl⟩

end CssWorkbench
