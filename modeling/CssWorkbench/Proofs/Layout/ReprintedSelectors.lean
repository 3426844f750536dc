import CssWorkbench.Proofs.Layout.InPlace
import CssWorkbench.Proofs.Layout.PrintedSelector

/-!
# Selectors are printed again

What is printed of a selector is scanned, wherever it stands in a text, into tokens that spell a
selector that says the same and is printed alike, by induction on the grammar of its parts. Comments
between the parts are left out when they are printed, and a group of tokens that spells no selector
is left out of the list.
-/

namespace CssWorkbench

variable {text source : String} {front cs cs' ds pending lead apart : List Char}
  {used rest tokens printed head : List Token} {parts parts' : List SelectorPart} {depth : Nat}
  {kind : Combinator} {t : Token} {s : Selector} {selectors : List Selector}

/-- What is printed of a selector, and what the selector says. -/
def Selector.seen (source : String) (s : Selector) : String × Selector :=
  (s.text source, s.bare)

/-- Selectors of which the same is seen are printed alike and say the same. -/
theorem text_and_bare_of_seen {selectors' : List Selector}
    (h : selectors'.map (Selector.seen text) = selectors.map (Selector.seen source)) :
    selectors'.map (Selector.text text) = selectors.map (Selector.text source) ∧
      selectors'.map Selector.bare = selectors.map Selector.bare := by
  have htexts := congrArg (List.map Prod.fst) h
  have hbares := congrArg (List.map Prod.snd) h
  rw [List.map_map, List.map_map] at htexts hbares
  exact ⟨htexts, hbares⟩

/-- A compound of a source is scanned, where it is printed, into a compound of which the same is
printed. -/
theorem scannedAs_compound (hsource : Unbroken source) (htail : TailOf source (tokens ++ rest) cs)
    (hrest : rest ≠ []) (hne : tokens ≠ []) (hsolid : Solid 0 tokens 0) (hds : StartsInert ds)
    (place : text.toList = front ++ ((joinTokens source tokens).toList ++ ds)) :
    ∃ new, ScannedAs text front (joinTokens source tokens).toList ds new ∧ new ≠ [] ∧
      Solid 0 new 0 ∧ bareTokens new = bareTokens tokens ∧
        joinTokens text new = joinTokens source tokens := by
  obtain ⟨new, hscan, hbare, hjoin⟩ :=
    scannedAs_run hsource htail hrest hsolid.head hsolid.getLast hds place
  have hsame := (bareTokens_of_spaced hbare).1
  refine ⟨new, hscan, ?_, ?_, hsame, hjoin⟩
  · rintro rfl
    obtain ⟨t, tokens, rfl⟩ := List.exists_cons_of_ne_nil hne
    rw [bareTokens_cons (hsolid.head t rfl)] at hsame
    cases hsame
  · rw [← solid_map_bare, hbare]
    exact hsolid.spaced (by simp)

/-- The text of some parts is scanned into tokens that spell parts of which the same is printed.
Blanks are left over if no compound came last. -/
structure RespellsParts (text source : String) (front ds : List Char) (parts : List SelectorPart)
    (cs pending : List Char) (printed : List Token) (parts' : List SelectorPart) : Prop where
  split : (partsText source parts).toList = cs ++ pending
  scan : ScannedAs text front cs (pending ++ ds) printed
  builds : Builds printed parts' 0
  again : partsText text parts' = partsText source parts
  same : parts'.map SelectorPart.bare = parts.map SelectorPart.bare
  shown : bareTokens printed = parts.reverse.flatMap SelectorPart.shown
  blank : ∀ c ∈ pending, Text.isAsciiBlank c = true
  closed : EndsInCompound parts → pending = []

/-- No text spells no parts. -/
theorem respellsParts_nil (place : text.toList = front ++ ds) :
    RespellsParts text source front ds [] [] [] [] [] :=
  ⟨rfl, scannedAs_nil place, .start, rfl, rfl, rfl, by simp, fun _ => rfl⟩

/-- A compound is printed behind parts that do not end in one. -/
theorem RespellsParts.compound (hsource : Unbroken source)
    (htail : TailOf source (tokens ++ rest) cs') (hrest : rest ≠ []) (hne : tokens ≠ [])
    (hsolid : Solid 0 tokens 0) (hds : StartsInert ds) (hfresh : ¬ EndsInCompound parts)
    (h : RespellsParts text source front ((joinTokens source tokens).toList ++ ds) parts cs pending
      printed parts') :
    ∃ cs printed new, RespellsParts text source front ds (compoundOf tokens :: parts) cs [] printed
      (compoundOf new :: parts') := by
  obtain ⟨_, _, htiles⟩ := htail.tiles_front
  obtain ⟨c, behind, hjoined, hblank⟩ := head?_spacedText htail hne hsolid.head
  rw [← toList_joinTokens htiles hsolid.head] at hjoined
  obtain ⟨gap, hscanGap, hgap⟩ :=
    scannedAs_blanks h.blank h.scan.behind (by rw [hjoined]; exact hblank)
  have hfront := h.scan.append hscanGap
  obtain ⟨new, hscan, hnew, hnewSolid, hsame, hjoin⟩ :=
    scannedAs_compound hsource htail hrest hne hsolid hds hfront.behind
  have hfresh' : ¬ EndsInCompound parts' := by rwa [endsInCompound_congr h.same]
  refine ⟨_, _, new, ?_, hfront.append hscan,
    .compound h.builds hfresh' (isTrivia_of_blanks hgap) hnew hnewSolid, ?_, ?_, ?_, by simp,
    fun _ => rfl⟩
  · rw [partsText_compound, String.toList_append, h.split, List.append_nil]
  · rw [partsText_compound, partsText_compound, h.again, hjoin]
  · rw [List.map_cons, List.map_cons, h.same, bare_compoundOf hsame]
  · rw [bareTokens_append, bareTokens_append, bareTokens_of_blanks hgap, h.shown, hsame,
      flatMap_shown_cons, List.append_nil]
    rfl

/-- A space and a compound are printed behind parts that end in a compound. -/
theorem RespellsParts.descendant {span : Span} (hsource : Unbroken source)
    (htail : TailOf source (tokens ++ rest) cs') (hrest : rest ≠ []) (hne : tokens ≠ [])
    (hsolid : Solid 0 tokens 0) (hds : StartsInert ds) (hcompound : EndsInCompound parts)
    (h : RespellsParts text source front ([' '] ++ ((joinTokens source tokens).toList ++ ds)) parts
      cs pending printed parts') :
    ∃ cs printed new span', RespellsParts text source front ds
      (compoundOf tokens :: .combinator span .descendant :: parts) cs [] printed
        (compoundOf new :: .combinator span' .descendant :: parts') := by
  obtain ⟨_, _, htiles⟩ := htail.tiles_front
  obtain ⟨c, behind, hjoined, hblank⟩ := head?_spacedText htail hne hsolid.head
  rw [← toList_joinTokens htiles hsolid.head] at hjoined
  obtain rfl := h.closed hcompound
  have hscanParts : ScannedAs text front cs ([' '] ++ ((joinTokens source tokens).toList ++ ds))
      printed := h.scan
  obtain ⟨space, hscanSpace, hspace⟩ := scannedAs_space isAsciiBlank_of_mem_space (by simp)
    hscanParts.behind (by rw [hjoined]; exact hblank)
  have hfront := hscanParts.append hscanSpace
  obtain ⟨new, hscan, hnew, hnewSolid, hsame, hjoin⟩ :=
    scannedAs_compound hsource htail hrest hne hsolid hds hfront.behind
  have hcompound' : EndsInCompound parts' := by rwa [endsInCompound_congr h.same]
  refine ⟨_, _, new, space.span, ?_, hfront.append hscan, .descendant h.builds hcompound'
    (by simp [Token.isTrivia, hspace]) rfl hnew hnewSolid, ?_, ?_, ?_, by simp, fun _ => rfl⟩
  · rw [partsText_compound, partsText_descendant, String.toList_append, String.toList_append,
      h.split]
    simp
  · rw [partsText_compound, partsText_compound, partsText_descendant, partsText_descendant, h.again,
      hjoin]
  · simp only [List.map_cons, h.same, bare_compoundOf hsame]
    rfl
  · rw [bareTokens_append, bareTokens_append, bareTokens_cons_blank hspace, bareTokens_nil, h.shown,
      hsame, flatMap_shown_cons, flatMap_shown_cons]
    rfl

/-- A combinator is printed behind parts, between spaces unless nothing stands in front of it. -/
theorem RespellsParts.combinator (combines : t.combinator? = some kind)
    (hlead : lead = if partsText source parts = "" then [] else [' '])
    (h : RespellsParts text source front (lead ++ (kind.text.toList ++ ' ' :: ds)) parts cs pending
      printed parts') :
    ∃ cs printed new, RespellsParts text source front ds (.combinator t.span kind :: parts) cs [' ']
      printed (.combinator new kind :: parts') := by
  obtain ⟨hkind, c, htext, hblank, hbare, hlexeme⟩ := combinator?_eq_some combines
  have hleadBlank : ∀ d ∈ pending ++ lead, Text.isAsciiBlank d = true := by
    intro d hd
    rcases List.mem_append.mp hd with hd | hd
    · exact h.blank d hd
    · rw [hlead] at hd
      split at hd
      · cases hd
      · rw [List.mem_singleton.mp hd]
        decide
  have hscanParts : ScannedAs text front cs (pending ++ lead ++ ([c] ++ ' ' :: ds)) printed := by
    have hscan := h.scan
    rwa [htext, ← List.append_assoc pending] at hscan
  obtain ⟨gap, hscanGap, hgap⟩ := scannedAs_blanks hleadBlank hscanParts.behind hblank
  have hfront := hscanParts.append hscanGap
  obtain ⟨delim, offset', hscanDelim, hdelim⟩ := tokensFrom_lexeme (hlexeme ds)
    (Text.byteLength (front ++ (cs ++ (pending ++ lead))))
  have hplaced : ScannedAs text _ [c] (' ' :: ds) [delim] :=
    scannedAs_of_tokensFrom hfront.behind hscanDelim
  have hnew : delim.bare = t.bare := by
    rw [hbare, String.singleton_eq_ofList, hdelim]
    rfl
  have hcombines : delim.combinator? = some kind := by
    rw [← Token.bare_combinator?, hnew, Token.bare_combinator?, combines]
  refine ⟨_, _, delim.span, ?_, hfront.append hplaced,
    .combinator h.builds (isTrivia_of_blanks hgap) hcombines, ?_, ?_, ?_,
    isAsciiBlank_of_mem_space, fun hno => absurd hno Bool.false_ne_true⟩
  · rw [partsText_cons, appendTo_combinator hkind]
    simp only [String.toList_append, h.split, htext, hlead]
    split <;> simp
  · rw [partsText_cons, partsText_cons, appendTo_combinator hkind, appendTo_combinator hkind,
      h.again]
  · rw [List.map_cons, List.map_cons, h.same]
    rfl
  · rw [bareTokens_append, bareTokens_append, bareTokens_of_blanks hgap, h.shown,
      flatMap_shown_cons, List.append_nil, bareTokens_combinator hcombines t.span]

/-- The text of some parts is scanned into tokens that spell parts of which the same is printed. -/
theorem Builds.respelled (hsource : Unbroken source) (h : Builds used parts depth)
    (hdepth : depth = 0) (htail : TailOf source (used ++ rest) cs') (hrest : rest ≠ [])
    (hds : EndsInCompound parts → StartsInert ds)
    (place : text.toList = front ++ ((partsText source parts).toList ++ ds)) :
    ∃ cs pending printed parts',
      RespellsParts text source front ds parts cs pending printed parts' := by
  induction h generalizing ds rest with
  | start => exact ⟨[], [], [], [], respellsParts_nil place⟩
  | @combinator used gap parts t kind before trivia combines ih =>
    rw [List.append_assoc, List.append_assoc] at htail
    have hkind := (combinator?_eq_some combines).1
    generalize hlead : (if partsText source parts = "" then [] else [' ']) = lead
    have hplace : text.toList = front ++
        ((partsText source parts).toList ++ (lead ++ (kind.text.toList ++ ' ' :: ds))) := by
      rw [place, partsText_cons, appendTo_combinator hkind, ← hlead]
      split <;> simp
    obtain ⟨cs, pending, printed, parts', hparts⟩ :=
      ih rfl htail (by simp) (fun hcompound => by
        rw [← hlead, if_neg (partsText_ne_empty before hcompound htail)]
        exact ⟨' ', _, rfl, by decide⟩) hplace
    obtain ⟨_, _, _, hmore⟩ := hparts.combinator combines hlead.symm
    exact ⟨_, _, _, _, hmore⟩
  | @compound used gap tokens parts depth before fresh trivia nonempty solid ih =>
    subst hdepth
    rw [List.append_assoc, List.append_assoc] at htail
    rw [partsText_compound, String.toList_append, List.append_assoc] at place
    obtain ⟨cs, pending, printed, parts', hparts⟩ :=
      ih rfl htail (by simp [hrest]) (fun hcompound => absurd hcompound fresh) place
    obtain ⟨_, hgap⟩ := htail.append
    obtain ⟨_, htokens⟩ := hgap.append
    obtain ⟨_, _, _, hmore⟩ :=
      hparts.compound hsource htokens hrest nonempty solid (hds rfl) fresh
    exact ⟨_, _, _, _, hmore⟩
  | @descendant used gap tokens parts span depth before compound trivia around nonempty solid ih =>
    subst hdepth
    rw [List.append_assoc, List.append_assoc] at htail
    have hplace : text.toList = front ++ ((partsText source parts).toList ++
        ([' '] ++ ((joinTokens source tokens).toList ++ ds))) := by
      rw [place, partsText_compound, partsText_descendant]
      simp
    obtain ⟨cs, pending, printed, parts', hparts⟩ :=
      ih rfl htail (by simp [hrest]) (fun _ => ⟨' ', _, rfl, by decide⟩) hplace
    obtain ⟨_, hgap⟩ := htail.append
    obtain ⟨_, htokens⟩ := hgap.append
    obtain ⟨_, _, _, _, hmore⟩ :=
      hparts.descendant hsource htokens hrest nonempty solid (hds rfl) compound
    exact ⟨_, _, _, _, hmore⟩

/-- The tokens spell a selector, whatever blanks stand behind them, that says the same as `s` and of
which the same is printed; they close their brackets and halt neither a prelude nor a group. -/
structure Respells (text source : String) (printed : List Token) (s : Selector) : Prop where
  selector : ∀ behind, (∀ u ∈ behind, u.kind = .whitespace) →
    ∃ s', Selector.ofTokens? (printed ++ behind) = some s' ∧ s'.seen text = s.seen source
  shown : bareTokens printed = s.shown
  prelude : Inside haltsPrelude TokenKind.inlineDepth 0 printed 0
  group : Inside partsSelectors TokenKind.inlineDepth 0 printed 0

/-- A group among the tokens of a source spells the selector; the group closes its brackets. -/
def SpelledIn (source : String) (tokens : List Token) (s : Selector) : Prop :=
  ∃ group rest cs, (∀ u ∈ group, u ∈ tokens) ∧ TailOf source (group ++ rest) cs ∧ rest ≠ [] ∧
    Selector.ofTokens? group = some s ∧ Inside haltsPrelude TokenKind.inlineDepth 0 group 0 ∧
      Inside partsSelectors TokenKind.inlineDepth 0 group 0

/-- The text of a selector of a source does not start with a blank. -/
theorem SpelledIn.head?_text (h : SpelledIn source tokens s) (ds : List Char) :
    ((s.text source).toList ++ ds).head?.any Text.isAsciiBlank = false := by
  obtain ⟨group, rest, cs, -, htail, -, hs, hprelude, -⟩ := h
  obtain ⟨used, dropped, parts, rfl, hbuilds, hends, hparts, -⟩ :=
    exists_builds_of_ofTokens? hs hprelude.depthAfter_eq
  rw [List.append_assoc] at htail
  have htext : s.text source = partsText source parts := by
    rw [Selector.text, hparts, partsText]
  obtain ⟨c, chars, hchars, hblank⟩ := hbuilds.head?_partsText htail
    (by rintro rfl; cases hends) ds
  rw [htext, hchars]
  exact hblank

/-- A selector of a source is scanned, where it is printed, into tokens that spell it again. -/
theorem SpelledIn.scannedAs (h : SpelledIn source tokens s) (hsource : Unbroken source)
    (hds : StartsInert ds) (place : text.toList = front ++ ((s.text source).toList ++ ds)) :
    ∃ printed, ScannedAs text front (s.text source).toList ds printed ∧
      Respells text source printed s := by
  obtain ⟨group, rest, cs, -, htail, hrest, hs, hprelude, hgroup⟩ := h
  obtain ⟨used, dropped, parts, rfl, hbuilds, hends, hparts, -⟩ :=
    exists_builds_of_ofTokens? hs hprelude.depthAfter_eq
  rw [List.append_assoc] at htail
  have htext : s.text source = partsText source parts := by
    rw [Selector.text, hparts, partsText]
  rw [htext] at place ⊢
  obtain ⟨taken, pending, printed, parts', hprinted⟩ := hbuilds.respelled hsource rfl htail
    (List.append_ne_nil_of_right_ne_nil dropped hrest) (fun _ => hds) place
  obtain rfl := hprinted.closed hends
  have hsplit := hprinted.split
  rw [List.append_nil] at hsplit
  have hends' : EndsInCompound parts' := (endsInCompound_congr hprinted.same).mpr hends
  have hshown : bareTokens printed = s.shown := by
    rw [hprinted.shown, Selector.shown, hparts]
  have hinside : ∀ {halts : TokenKind → Bool}, halts .whitespace = false → halts .delim = false →
      Inside halts TokenKind.inlineDepth 0 (used ++ dropped) 0 →
      Inside halts TokenKind.inlineDepth 0 printed 0 := by
    intro halts hblank hdelim hinside
    obtain ⟨middle, hused, -⟩ := inside_append.mp hinside
    obtain rfl : middle = 0 := hused.depthAfter_eq.symm.trans hbuilds.depthAfter_eq
    rw [← inside_bareTokens hblank fun _ => rfl, hprinted.shown]
    exact hbuilds.inside_shown hblank hdelim hused
  refine ⟨printed, ?_, fun behind hbehind => ?_, hshown, hinside rfl rfl hprelude,
    hinside rfl rfl hgroup⟩
  · rw [hsplit]
    exact hprinted.scan
  · obtain ⟨s', hs', hparts'⟩ :=
      ofTokens?_of_builds hprinted.builds hends' (isTrivia_of_blanks hbehind)
    refine ⟨s', hs', Prod.ext ?_ ?_⟩
    · rw [Selector.seen, Selector.text, hparts', Selector.seen, htext, ← hprinted.again, partsText]
    · rw [Selector.seen, Selector.seen, Selector.bare, Selector.bare, hparts, hparts',
        List.map_reverse, List.map_reverse, hprinted.same]

/-- Each selector in front of a block is spelled by a group of the tokens there. -/
theorem CommaGroups.spelledIn {groups : List (List Token)} (h : CommaGroups depth tokens groups)
    (hdepth : depth = 0) (htail : TailOf source (tokens ++ rest) cs) (hrest : rest ≠ [])
    (hprelude : Inside haltsPrelude TokenKind.inlineDepth 0 tokens 0) :
    ∀ s ∈ groups.filterMap Selector.ofTokens?, SpelledIn source tokens s := by
  induction h generalizing cs with
  | @last depth stop group inside =>
    subst hdepth
    obtain rfl : stop = 0 := inside.depthAfter_eq.symm.trans hprelude.depthAfter_eq
    intro s hs
    obtain ⟨group', hgroup, hspelled⟩ := List.mem_filterMap.mp hs
    obtain rfl := List.mem_singleton.mp hgroup
    exact ⟨group', rest, cs, fun _ hu => hu, htail, hrest, hspelled, hprelude, inside⟩
  | @more depth comma group ts groups inside kind behind ih =>
    subst hdepth
    rw [List.append_assoc, List.cons_append] at htail
    obtain ⟨middle, hfront, -, hbehind⟩ := inside_append.mp hprelude
    obtain rfl : middle = 0 := hfront.depthAfter_eq.symm.trans inside.depthAfter_eq
    rw [show comma.kind.inlineDepth 0 = 0 by rw [kind]; rfl] at hbehind
    obtain ⟨_, hcomma⟩ := htail.append
    obtain ⟨_, hts⟩ := hcomma.tail
    intro s hs
    obtain ⟨group', hgroup, hspelled⟩ := List.mem_filterMap.mp hs
    rcases List.mem_cons.mp hgroup with rfl | hgroup
    · exact ⟨group', comma :: (ts ++ rest), cs, fun _ hu => List.mem_append_left _ hu, htail,
        List.cons_ne_nil _ _, hspelled, hfront, inside⟩
    · obtain ⟨part, rest', cs', hpart, hspells⟩ :=
        ih rfl hts hbehind s (List.mem_filterMap.mpr ⟨group', hgroup, hspelled⟩)
      exact ⟨part, rest', cs',
        fun u hu => List.mem_append_right _ (List.mem_cons_of_mem _ (hpart u hu)), hspells⟩

/-- The tokens spell selectors, whatever blanks stand behind them, that say the same and of which
the same is printed; they halt no prelude, and start as the first of the selectors does. -/
structure RespellsAll (text source : String) (printed : List Token) (s : Selector)
    (selectors : List Selector) : Prop where
  selectors : ∀ behind, (∀ u ∈ behind, u.kind = .whitespace) →
    (selectorsOf (printed ++ behind)).map (Selector.seen text) =
      (s :: selectors).map (Selector.seen source)
  prelude : Inside haltsPrelude TokenKind.inlineDepth 0 printed 0
  front : ∃ more, bareTokens printed = s.shown ++ more ∧ ∀ u ∈ more.head?, u.kind = .comma

/-- A selector by itself. -/
theorem Respells.single (h : Respells text source printed s) :
    RespellsAll text source printed s [] := by
  refine ⟨fun behind hbehind => ?_, h.prelude, [], by rw [h.shown, List.append_nil], by simp⟩
  obtain ⟨s', hs', htext⟩ := h.selector behind hbehind
  have hblank := @inside_of_blanks behind partsSelectors TokenKind.inlineDepth rfl (fun _ => rfl)
    hbehind 0
  rw [selectorsOf_last (inside_append.mpr ⟨0, h.group, hblank⟩), hs', Option.toList_some,
    List.map_singleton, List.map_singleton, htext]

/-- A selector in front of a comma and others. -/
theorem Respells.more {comma : Token} {behind : List Token} {s' : Selector}
    (h : Respells text source printed s) (hcomma : comma.kind = .comma)
    {gap : List Token} (hgap : ∀ u ∈ gap, u.kind = .whitespace)
    (hbehind : RespellsAll text source behind s' selectors) :
    RespellsAll text source (printed ++ comma :: (gap ++ behind)) s (s' :: selectors) := by
  refine ⟨fun blanks hblanks => ?_, ?_, bareTokens (comma :: (gap ++ behind)), ?_, ?_⟩
  · obtain ⟨made, hmade, htext⟩ := h.selector [] (by simp)
    rw [List.append_nil] at hmade
    rw [List.append_assoc, List.cons_append, List.append_assoc, selectorsOf_more h.group hcomma,
      selectorsOf_blanks hgap, hmade, List.map_append, hbehind.selectors blanks hblanks,
      Option.toList_some, List.map_singleton, htext]
    rfl
  · have hblank :=
      @inside_of_blanks gap haltsPrelude TokenKind.inlineDepth rfl (fun _ => rfl) hgap 0
    refine inside_append.mpr ⟨0, h.prelude, by simp [hcomma, haltsPrelude], ?_⟩
    rw [hcomma]
    exact inside_append.mpr ⟨0, hblank, hbehind.prelude⟩
  · rw [bareTokens_append, h.shown]
  · rw [bareTokens_cons (by rw [hcomma]; decide)]
    simp [Token.bare_kind, hcomma]

/-- The text of selectors of a source does not start with a blank. -/
theorem SpelledIn.head?_selectorsText (h : SpelledIn source tokens s) (apart : List Char)
    (selectors : List Selector) (ds : List Char) :
    (selectorsText source apart (s :: selectors) ++ ds).head?.any Text.isAsciiBlank = false := by
  cases selectors with
  | nil =>
    rw [selectorsText_singleton]
    exact h.head?_text ds
  | cons s' selectors =>
    rw [selectorsText_cons_cons, List.append_assoc]
    exact h.head?_text _

/-- Selectors of a source are scanned, where they are printed, into tokens that spell them again. -/
theorem scannedAs_selectors (hsource : Unbroken source)
    (hselectors : ∀ s' ∈ s :: selectors, SpelledIn source tokens s')
    (hapart : ∀ c ∈ apart, Text.isAsciiBlank c = true) (hds : StartsInert ds)
    (place : text.toList = front ++ (selectorsText source apart (s :: selectors) ++ ds)) :
    ∃ printed, ScannedAs text front (selectorsText source apart (s :: selectors)) ds printed ∧
      RespellsAll text source printed s selectors := by
  induction selectors generalizing s front with
  | nil =>
    rw [selectorsText_singleton] at place ⊢
    obtain ⟨printed, hscan, hprinted⟩ :=
      (hselectors s List.mem_cons_self).scannedAs hsource hds place
    exact ⟨printed, hscan, hprinted.single⟩
  | cons s' selectors ih =>
    have hmore : ∀ t ∈ s' :: selectors, SpelledIn source tokens t :=
      fun t ht => hselectors t (List.mem_cons_of_mem _ ht)
    rw [selectorsText_cons_cons] at place ⊢
    have hplace : text.toList = front ++ ((s.text source).toList ++
        ([','] ++ (apart ++ (selectorsText source apart (s' :: selectors) ++ ds)))) := by
      simpa using place
    obtain ⟨printed, hscan, hprinted⟩ := (hselectors s List.mem_cons_self).scannedAs hsource
      ⟨',', _, rfl, by decide⟩ hplace
    obtain ⟨comma, hscanComma, hcomma⟩ := scannedAs_inert hscan.behind (by decide) (by decide)
    have hfront := hscan.append hscanComma
    obtain ⟨gap, hscanGap, hgap⟩ := scannedAs_blanks hapart hfront.behind
      ((hmore s' List.mem_cons_self).head?_selectorsText apart selectors ds)
    have hgapFront := hfront.append hscanGap
    obtain ⟨behind, hscanBehind, hbehind⟩ := ih hmore hgapFront.behind
    refine ⟨printed ++ comma :: (gap ++ behind), ?_, hprinted.more hcomma hgap hbehind⟩
    simpa using hgapFront.append hscanBehind

end CssWorkbench
