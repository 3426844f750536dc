import CssWorkbench.Tree.Selector

/-!
# How tokens spell the parts of a selector

`Builds` is the grammar of a selector, read from its end: each compound stands behind a combinator
or behind a gap, which is then a descendant combinator, and a compound is a run of tokens that
holds blanks and combinators only inside brackets. The fold that builds selectors keeps to this
grammar after every token.
-/

namespace CssWorkbench

variable {t : Token} {ts us gap used tokens : List Token} {parts : List SelectorPart}
  {depth stop middle : Nat} {kind : Combinator}

/-- The tokens of a compound from one bracket count to another: outside brackets there are neither
blanks nor comments nor combinators. -/
def Solid : Nat → List Token → Nat → Prop
  | depth, [], stop => depth = stop
  | depth, t :: ts, stop =>
    (depth = 0 → t.isTrivia = false ∧ t.combinator? = none) ∧
      Solid (t.kind.inlineDepth depth) ts stop

/-- Tokens in a row are solid if both parts are, each from the bracket count that it starts at. -/
theorem solid_append : Solid depth (ts ++ us) stop ↔
    ∃ middle, Solid depth ts middle ∧ Solid middle us stop := by
  induction ts generalizing depth with
  | nil => simp [Solid]
  | cons t ts ih => simp only [List.cons_append, Solid, ih, and_assoc, exists_and_left]

/-- A compound grows by a token. -/
theorem Solid.concat (h : Solid depth ts middle)
    (ht : middle = 0 → t.isTrivia = false ∧ t.combinator? = none) :
    Solid depth (ts ++ [t]) (t.kind.inlineDepth middle) :=
  solid_append.mpr ⟨middle, h, ht, rfl⟩

/-- Whether the newest of some parts is a compound. -/
def EndsInCompound (parts : List SelectorPart) : Prop :=
  parts.head?.any SelectorPart.isCompound = true

/-- The compound that some tokens make up. -/
def compoundOf (tokens : List Token) : SelectorPart :=
  .compound ⟨(tokens.head?.map Token.start).getD 0, (tokens.getLast?.map Token.stop).getD 0⟩ tokens

/-- The span around all of some tokens. -/
def spanAround (tokens : List Token) : Option Span :=
  tokens.foldl (fun span t => some (span.elim t.span (·.union t.span))) none

/-- The tokens `used` spell the parts, the newest first, and leave some brackets open. Blanks and
comments separate compounds and mean nothing elsewhere. -/
inductive Builds : List Token → List SelectorPart → Nat → Prop
  | start : Builds [] [] 0
  | combinator {used gap : List Token} {parts : List SelectorPart} {t : Token} {kind : Combinator}
      (before : Builds used parts 0) (trivia : ∀ u ∈ gap, u.isTrivia = true)
      (combines : t.combinator? = some kind) :
      Builds (used ++ gap ++ [t]) (.combinator t.span kind :: parts) 0
  | compound {used gap tokens : List Token} {parts : List SelectorPart} {depth : Nat}
      (before : Builds used parts 0) (fresh : ¬ EndsInCompound parts)
      (trivia : ∀ u ∈ gap, u.isTrivia = true) (nonempty : tokens ≠ [])
      (solid : Solid 0 tokens depth) :
      Builds (used ++ gap ++ tokens) (compoundOf tokens :: parts) depth
  | descendant {used gap tokens : List Token} {parts : List SelectorPart} {span : Span}
      {depth : Nat} (before : Builds used parts 0) (behind : EndsInCompound parts)
      (trivia : ∀ u ∈ gap, u.isTrivia = true) (around : spanAround gap = some span)
      (nonempty : tokens ≠ []) (solid : Solid 0 tokens depth) :
      Builds (used ++ gap ++ tokens) (compoundOf tokens :: .combinator span .descendant :: parts)
        depth

/-- A token that is a combinator is no blank or comment, and opens or closes nothing. -/
theorem isTrivia_of_combinator? (h : t.combinator? = some kind) :
    t.isTrivia = false ∧ ∀ depth, t.kind.inlineDepth depth = depth := by
  have hdelim : t.kind = .delim := by
    by_cases hkind : t.kind = .delim
    · exact hkind
    · simp [Token.combinator?, Token.isDelim, hkind] at h
  simp [Token.isTrivia, hdelim, TokenKind.inlineDepth, TokenKind.opensInline,
    TokenKind.closesInline]

/-- The span around a gap grows by the token that is added. -/
theorem spanAround_concat : spanAround (gap ++ [t]) =
    some ((spanAround gap).elim t.span (·.union t.span)) := by
  simp [spanAround]

/-- A gap that is not empty has a span around it. -/
theorem exists_spanAround (h : gap ≠ []) : ∃ span, spanAround gap = some span := by
  obtain ⟨front, u, rfl⟩ := List.eq_nil_or_concat gap |>.resolve_left h
  exact ⟨_, by rw [List.concat_eq_append, spanAround_concat]⟩

/-- The draft is what the tokens `used` spell: a compound that is still pending counts as a part,
and behind a finished compound the gap is kept. -/
def DraftOf (used : List Token) (d : SelectorDraft) : Prop :=
  (d.pending ≠ [] ∧ d.gap = none ∧ Builds used (compoundOf d.pending.reverse :: d.parts) d.depth) ∨
  (d.pending = [] ∧ d.depth = 0 ∧ ∃ before gap, used = before ++ gap ∧
    (∀ u ∈ gap, u.isTrivia = true) ∧ Builds before d.parts 0 ∧
    (EndsInCompound d.parts → gap ≠ [] ∧ d.gap = spanAround gap) ∧
    (¬ EndsInCompound d.parts → d.gap = none))

namespace SelectorDraft

variable {d : SelectorDraft}

/-- Without a pending compound there is nothing to finish. -/
theorem flush_of_pending_nil (h : d.pending = []) : d.flush = d := by
  unfold flush
  rw [h]

/-- A pending compound becomes the newest part. -/
theorem flush_of_pending_ne_nil (h : d.pending ≠ []) :
    d.flush = { d with parts := compoundOf d.pending.reverse :: d.parts, pending := [] } := by
  obtain ⟨last, rest, hpending⟩ := List.exists_cons_of_ne_nil h
  obtain ⟨first, hfirst⟩ : ∃ first, d.pending.getLast? = some first := by
    rw [hpending]
    exact ⟨_, List.getLast?_cons⟩
  have hspan : compoundOf d.pending.reverse =
      .compound (spanOfTokens first last) d.pending.reverse := by
    rw [compoundOf, List.head?_reverse, hfirst, hpending]
    simp [spanOfTokens]
  unfold flush
  rw [hspan]
  split
  · rename_i last' _ first' hpending' hfirst'
    obtain rfl : last = last' := by
      rw [hpending] at hpending'
      exact (List.cons.inj hpending').1
    obtain rfl : first = first' := by
      rw [hfirst] at hfirst'
      exact Option.some.inj hfirst'
    rfl
  · rename_i hno
    exact absurd hfirst (hno last rest first hpending)

/-- A draft ends in a compound if its parts do. -/
theorem endsInCompound_iff : d.endsInCompound = true ↔ EndsInCompound d.parts := Iff.rfl

/-- Behind a finished compound the gap goes on with the next blank or comment. -/
theorem addTrivia_of_compound (hpending : d.pending = []) (hcompound : EndsInCompound d.parts) :
    d.addTrivia t = { d with gap := some (d.gap.elim t.span (·.union t.span)) } := by
  unfold addTrivia
  simp only [flush_of_pending_nil hpending]
  rw [if_pos (endsInCompound_iff.mpr hcompound)]
  cases d.gap <;> rfl

/-- Blanks and comments in front of the first compound, or behind a combinator, leave a draft as it
is. -/
theorem addTrivia_of_not_compound (hpending : d.pending = [])
    (hcompound : ¬ EndsInCompound d.parts) : d.addTrivia t = d := by
  unfold addTrivia
  simp only [flush_of_pending_nil hpending]
  rw [if_neg (mt endsInCompound_iff.mp hcompound)]

/-- A blank or comment ends the pending compound and opens a gap. -/
theorem addTrivia_of_pending (hpending : d.pending ≠ []) (hgap : d.gap = none) :
    d.addTrivia t = { d with
      parts := compoundOf d.pending.reverse :: d.parts, pending := [], gap := some t.span } := by
  unfold addTrivia
  simp only [flush_of_pending_ne_nil hpending, hgap]
  rw [if_pos (by rfl)]

/-- Without a gap there is nothing to close. -/
theorem closeGap_of_none (hgap : d.gap = none) : d.closeGap = d := by
  unfold closeGap
  rw [hgap]

/-- A gap behind a compound becomes a descendant combinator. -/
theorem closeGap_of_compound {span : Span} (hpending : d.pending = [])
    (hcompound : EndsInCompound d.parts) (hgap : d.gap = some span) :
    d.closeGap =
      { d with parts := .combinator span .descendant :: d.parts, gap := none } := by
  unfold closeGap
  rw [hgap]
  simp only [hpending, List.isEmpty_nil, Bool.true_and]
  rw [if_pos (endsInCompound_iff.mpr hcompound)]

end SelectorDraft

/-- A compound that is spelled at the end of some tokens grows by the next one. -/
theorem Builds.concat (h : Builds used (compoundOf tokens :: parts) depth)
    (ht : depth = 0 → t.isTrivia = false ∧ t.combinator? = none) :
    Builds (used ++ [t]) (compoundOf (tokens ++ [t]) :: parts) (t.kind.inlineDepth depth) := by
  generalize hparts : compoundOf tokens :: parts = all at h
  cases h with
  | start => cases hparts
  | combinator => cases hparts
  | compound before fresh trivia nonempty solid =>
    obtain ⟨hcompound, rfl⟩ := List.cons.inj hparts
    obtain rfl := (SelectorPart.compound.inj hcompound).2
    rw [List.append_assoc]
    exact .compound before fresh trivia (by simp) (solid.concat ht)
  | descendant before behind trivia around nonempty solid =>
    obtain ⟨hcompound, rfl⟩ := List.cons.inj hparts
    obtain rfl := (SelectorPart.compound.inj hcompound).2
    rw [List.append_assoc]
    exact .descendant before behind trivia around (by simp) (solid.concat ht)

/-- A pending compound grows by a token. -/
theorem DraftOf.addSimple_of_pending {d : SelectorDraft}
    (hgap : d.gap = none) (h : Builds used (compoundOf d.pending.reverse :: d.parts) d.depth)
    (ht : d.depth = 0 → t.isTrivia = false ∧ t.combinator? = none) :
    DraftOf (used ++ [t]) (d.addSimple t) := by
  refine .inl ⟨by simp [SelectorDraft.addSimple], hgap, ?_⟩
  have hnext := h.concat ht
  rwa [← List.reverse_cons] at hnext

/-- A draft outside brackets that has no pending compound is what the tokens `used` spell: the
last of them are the blanks and comments that the gap behind a compound goes around. -/
def FlushedDraftOf (used : List Token) (d : SelectorDraft) : Prop :=
  d.pending = [] ∧ d.depth = 0 ∧ ∃ before gap, used = before ++ gap ∧
    (∀ u ∈ gap, u.isTrivia = true) ∧ Builds before d.parts 0 ∧
    (EndsInCompound d.parts → d.gap = spanAround gap) ∧ (¬ EndsInCompound d.parts → d.gap = none)

section DraftOf

variable {d : SelectorDraft}

/-- A pending compound and a finished one look the same once they are flushed. -/
theorem DraftOf.flush (h : DraftOf used d) (hdepth : d.depth = 0) :
    FlushedDraftOf used d.flush := by
  rcases h with ⟨hpending, hgap, hbuilds⟩ |
    ⟨hpending, -, before, gap, hused, htrivia, hbuilds, hin, hout⟩
  · rw [SelectorDraft.flush_of_pending_ne_nil hpending]
    exact ⟨rfl, hdepth, used, [], by simp, by simp, hdepth ▸ hbuilds, fun _ => hgap, fun _ => hgap⟩
  · rw [SelectorDraft.flush_of_pending_nil hpending]
    exact ⟨hpending, hdepth, before, gap, hused, htrivia, hbuilds, fun h => (hin h).2, hout⟩

/-- Outside brackets a blank or comment makes the gap behind a compound longer. -/
theorem DraftOf.addTrivia (h : DraftOf used d) (hdepth : d.depth = 0) (ht : t.isTrivia = true) :
    DraftOf (used ++ [t]) (d.addTrivia t) := by
  obtain ⟨hpending, hzero, before, gap, rfl, htrivia, hbuilds, hin, hout⟩ := h.flush hdepth
  have hlonger : ∀ u ∈ gap ++ [t], u.isTrivia = true := by
    intro u hu
    rcases List.mem_append.mp hu with hu | hu
    · exact htrivia u hu
    · exact List.mem_singleton.mp hu ▸ ht
  unfold SelectorDraft.addTrivia
  by_cases hcompound : EndsInCompound d.flush.parts
  · rw [if_pos (SelectorDraft.endsInCompound_iff.mpr hcompound)]
    refine .inr ⟨hpending, hzero, before, gap ++ [t], by simp, hlonger, hbuilds,
      fun _ => ⟨by simp, ?_⟩, fun hno => absurd hcompound hno⟩
    rw [spanAround_concat, ← hin hcompound]
    cases d.flush.gap <;> rfl
  · rw [if_neg (mt SelectorDraft.endsInCompound_iff.mp hcompound)]
    exact .inr ⟨hpending, hzero, before, gap ++ [t], by simp, hlonger, hbuilds,
      fun hyes => absurd hyes hcompound, hout⟩

/-- Outside brackets a combinator is a part of its own, and the gap before it means nothing. -/
theorem DraftOf.addCombinator (h : DraftOf used d) (hdepth : d.depth = 0)
    (hkind : t.combinator? = some kind) : DraftOf (used ++ [t]) (d.addCombinator t kind) := by
  obtain ⟨hpending, hzero, before, gap, rfl, htrivia, hbuilds, -, -⟩ := h.flush hdepth
  refine .inr ⟨hpending, hzero, before ++ gap ++ [t], [], by simp, by simp,
    .combinator hbuilds htrivia hkind, ?_, fun _ => rfl⟩
  intro hcompound
  cases hcompound

/-- Outside brackets any other token goes on with the pending compound or opens the next one, which
stands behind a gap if a compound does. -/
theorem DraftOf.addSimple (h : DraftOf used d) (hdepth : d.depth = 0) (ht : t.isTrivia = false)
    (hkind : t.combinator? = none) : DraftOf (used ++ [t]) (d.closeGap.addSimple t) := by
  rcases h with ⟨hpending, hgap, hbuilds⟩ |
    ⟨hpending, -, before, gap, rfl, htrivia, hbuilds, hin, hout⟩
  · rw [SelectorDraft.closeGap_of_none hgap]
    exact DraftOf.addSimple_of_pending hgap hbuilds fun _ => ⟨ht, hkind⟩
  · have hsolid : Solid 0 [t] (t.kind.inlineDepth 0) := ⟨fun _ => ⟨ht, hkind⟩, rfl⟩
    by_cases hcompound : EndsInCompound d.parts
    · obtain ⟨hne, hgap⟩ := hin hcompound
      obtain ⟨span, hspan⟩ := exists_spanAround hne
      rw [SelectorDraft.closeGap_of_compound hpending hcompound (hgap.trans hspan)]
      refine .inl ⟨by simp [SelectorDraft.addSimple], rfl, ?_⟩
      have hnext := Builds.descendant hbuilds hcompound htrivia hspan (by simp) hsolid
      simpa [SelectorDraft.addSimple, hpending, hdepth] using hnext
    · rw [SelectorDraft.closeGap_of_none (hout hcompound)]
      refine .inl ⟨by simp [SelectorDraft.addSimple], hout hcompound, ?_⟩
      have hnext := Builds.compound hbuilds hcompound htrivia (by simp) hsolid
      simpa [SelectorDraft.addSimple, hpending, hdepth] using hnext

/-- The draft keeps to the grammar with every token that is put behind it. -/
theorem DraftOf.add (h : DraftOf used d) (t : Token) : DraftOf (used ++ [t]) (d.add t) := by
  unfold SelectorDraft.add
  split
  · rename_i hdepth
    split
    · rename_i ht
      exact h.addTrivia hdepth ht
    · rename_i ht
      split
      · rename_i kind hkind
        exact h.addCombinator hdepth hkind
      · rename_i hkind
        exact h.addSimple hdepth (Bool.eq_false_iff.mpr ht) hkind
  · rename_i hdepth
    -- only a compound that is still pending can stand inside brackets
    rcases h with ⟨-, hgap, hbuilds⟩ | ⟨-, hzero, -⟩
    · exact DraftOf.addSimple_of_pending hgap hbuilds fun hzero => absurd hzero hdepth
    · exact absurd hzero hdepth

/-- The empty draft is what no tokens spell. -/
theorem draftOf_empty : DraftOf [] .empty :=
  .inr ⟨rfl, rfl, [], [], rfl, by simp, .start, by simp [EndsInCompound, SelectorDraft.empty]⟩

/-- A draft to which tokens are added is what all of the tokens spell. -/
theorem DraftOf.foldl (h : DraftOf used d) (ts : List Token) :
    DraftOf (used ++ ts) (ts.foldl SelectorDraft.add d) := by
  induction ts generalizing used d with
  | nil => simpa using h
  | cons t ts ih =>
    rw [← List.singleton_append, ← List.append_assoc]
    exact ih (h.add t)

end DraftOf

/-- The combinators behind the last compound can be left out. -/
theorem Builds.dropWhile (h : Builds used parts depth) :
    ∃ front behind, used = front ++ behind ∧
      Builds front (parts.dropWhile fun p => !p.isCompound) depth := by
  induction h with
  | start => exact ⟨[], [], rfl, .start⟩
  | @combinator used gap parts t kind _ trivia combines ih =>
    obtain ⟨front, behind, rfl, hbuilds⟩ := ih
    exact ⟨front, behind ++ gap ++ [t], by simp, hbuilds⟩
  | compound before fresh trivia nonempty solid =>
    exact ⟨_, [], (List.append_nil _).symm, .compound before fresh trivia nonempty solid⟩
  | descendant before behind trivia around nonempty solid =>
    exact ⟨_, [], (List.append_nil _).symm,
      .descendant before behind trivia around nonempty solid⟩

/-- How many brackets are open behind some tokens. -/
def depthAfter (depth : Nat) (tokens : List Token) : Nat :=
  tokens.foldl (fun depth t => t.kind.inlineDepth depth) depth

/-- Finishing a compound leaves the bracket count. -/
theorem SelectorDraft.flush_depth (d : SelectorDraft) : d.flush.depth = d.depth := by
  unfold flush
  split <;> rfl

/-- Every token counts in the draft, and blanks and combinators count nothing. -/
theorem SelectorDraft.add_depth (d : SelectorDraft) (t : Token) :
    (d.add t).depth = t.kind.inlineDepth d.depth := by
  unfold add
  split
  · rename_i hdepth
    split
    · rename_i ht
      have hkind : t.kind.inlineDepth d.depth = d.depth := by
        have hcases : t.kind = .whitespace ∨ t.kind = .comment := by
          simpa [Token.isTrivia] using ht
        rcases hcases with hk | hk <;> rw [hk] <;> rfl
      rw [hkind]
      unfold addTrivia
      simp only
      split
      · exact flush_depth d
      · exact flush_depth d
    · split
      · rename_i kind hkind
        rw [(isTrivia_of_combinator? hkind).2]
        exact flush_depth d
      · simp only [addSimple]
        congr 1
        unfold closeGap
        split
        · split <;> rfl
        · rfl
  · rfl

/-- The bracket count of a draft goes by the tokens that were added. -/
theorem SelectorDraft.foldl_depth (d : SelectorDraft) (ts : List Token) :
    (ts.foldl SelectorDraft.add d).depth = depthAfter d.depth ts := by
  induction ts generalizing d with
  | nil => rfl
  | cons t ts ih =>
    rw [List.foldl_cons, ih, add_depth]
    rfl

/-- A selector is spelled by the front of its tokens, up to its last compound. -/
theorem exists_builds_of_ofTokens? {s : Selector} (h : Selector.ofTokens? tokens = some s)
    (hdepth : depthAfter 0 tokens = 0) :
    ∃ used behind parts, tokens = used ++ behind ∧ Builds used parts 0 ∧ EndsInCompound parts ∧
      s.parts = parts.reverse ∧ s.span =
        ⟨(s.parts.head?.elim 0 fun p => p.span.start), s.parts.getLast?.elim 0 fun p => p.span.stop⟩ := by
  have hdraft := draftOf_empty.foldl tokens
  have hclosed := SelectorDraft.foldl_depth .empty tokens
  rw [List.nil_append] at hdraft
  unfold Selector.ofTokens? at h
  generalize tokens.foldl SelectorDraft.add .empty = d at h hdraft hclosed
  simp only at h
  split at h
  · rename_i first last hfirst hlast
    obtain rfl := Option.some.inj h
    have hflush : ∃ used behind, tokens = used ++ behind ∧ Builds used d.flush.parts 0 := by
      rcases hdraft with ⟨hpending, -, hbuilds⟩ | ⟨hpending, -, used, gap, hused, -, hbuilds, -⟩
      · rw [SelectorDraft.flush_of_pending_ne_nil hpending]
        rw [hclosed, show SelectorDraft.empty.depth = 0 from rfl, hdepth] at hbuilds
        exact ⟨tokens, [], (List.append_nil _).symm, hbuilds⟩
      · rw [SelectorDraft.flush_of_pending_nil hpending]
        exact ⟨used, gap, hused, hbuilds⟩
    obtain ⟨used, behind, rfl, hbuilds⟩ := hflush
    obtain ⟨front, rest, rfl, hparts⟩ := hbuilds.dropWhile
    refine ⟨front, rest ++ behind, _, by simp, hparts, ?_, rfl, by simp [hfirst, hlast]⟩
    have hne : d.flush.parts.dropWhile (fun p => !p.isCompound) ≠ [] := by
      intro hnil
      simp [SelectorDraft.finish, hnil] at hfirst
    obtain ⟨p, ps, hp⟩ := List.exists_cons_of_ne_nil hne
    have hhead := List.head?_dropWhile_not (fun p => !p.isCompound) d.flush.parts
    rw [hp] at hhead ⊢
    simpa [EndsInCompound] using hhead
  · cases h

end CssWorkbench
