import CssWorkbench.Proofs.Layout.PrintedCompound
import CssWorkbench.Proofs.Tree.SelectorSpans

/-!
# Printing a selector

A selector is printed part by part, each combinator between spaces and each gap as one space. The
comments between the parts and what stands behind the last compound are left out; all other tokens
that are no blanks are shown. A list of selectors is printed with commas between them.
-/

namespace CssWorkbench

variable {source : String} {t : Token} {used rest : List Token} {parts parts' : List SelectorPart}
  {cs : List Char} {depth : Nat} {kind : Combinator} {s : Selector}

/-- The text of parts that are given the newest first. -/
def partsText (source : String) (parts : List SelectorPart) : String :=
  parts.reverse.foldl (SelectorPart.appendTo source) ""

/-- The part found last is printed behind the others. -/
theorem partsText_cons (source : String) (p : SelectorPart) (parts : List SelectorPart) :
    partsText source (p :: parts) = p.appendTo source (partsText source parts) := by
  rw [partsText, List.reverse_cons, List.foldl_append, List.foldl_cons, List.foldl_nil, partsText]

/-- A compound is printed by its tokens, behind the parts in front. -/
theorem partsText_compound (source : String) (tokens : List Token) (parts : List SelectorPart) :
    partsText source (compoundOf tokens :: parts) =
      partsText source parts ++ joinTokens source tokens := by
  rw [partsText_cons, compoundOf, SelectorPart.appendTo]

/-- A descendant combinator is printed as a blank. -/
theorem partsText_descendant (source : String) (span : Span) (parts : List SelectorPart) :
    partsText source (.combinator span .descendant :: parts) = partsText source parts ++ " " := by
  rw [partsText_cons, SelectorPart.appendTo]

/-- Any other combinator is printed between blanks, or in front of one at the very start. -/
theorem appendTo_combinator (hkind : kind ≠ .descendant) (source front : String) (span : Span) :
    (SelectorPart.combinator span kind).appendTo source front =
      front ++ (if front = "" then "" else " ") ++ kind.text ++ " " := by
  cases kind with
  | descendant => exact absurd rfl hkind
  | child | nextSibling | subsequentSibling => rfl

/-- Parts that say the same end alike. -/
theorem endsInCompound_congr (h : parts.map SelectorPart.bare = parts'.map SelectorPart.bare) :
    EndsInCompound parts ↔ EndsInCompound parts' := by
  have hbare : ∀ p : SelectorPart, p.bare.isCompound = p.isCompound := fun p => by
    cases p <;> rfl
  have hparts : ∀ ps : List SelectorPart, EndsInCompound ps ↔
      EndsInCompound (ps.map SelectorPart.bare) := fun ps => by
    cases ps with
    | nil => rfl
    | cons p ps => simp [EndsInCompound, hbare]
  rw [hparts parts, h, ← hparts]

/-- Compounds of tokens that are the same when bare are the same when bare. -/
theorem bare_compoundOf {new tokens : List Token} (h : bareTokens new = bareTokens tokens) :
    (compoundOf new).bare = (compoundOf tokens).bare := by
  rw [compoundOf, compoundOf, SelectorPart.bare, SelectorPart.bare, h]

/-- A token that is a combinator is a single character, and between spaces it is read again. -/
theorem combinator?_eq_some (h : t.combinator? = some kind) :
    kind ≠ .descendant ∧ ∃ c, kind.text.toList = [c] ∧ Text.isAsciiBlank c = false ∧
      t.bare = ⟨.delim, .nowhere, String.singleton c⟩ ∧
      ∀ ds, IsLexeme c (' ' :: ds) (.verbatim .delim [c] (' ' :: ds)) := by
  have hlexeme : ∀ c, (c = '>' ∨ c = '+' ∨ c = '~') → ∀ ds,
      IsLexeme c (' ' :: ds) (.verbatim .delim [c] (' ' :: ds)) := by
    intro c hc ds
    have hstart : BareStart c (' ' :: ds) ∧ ¬ startsIdent (c :: ' ' :: ds) = true := by
      rcases hc with rfl | rfl | rfl <;>
        exact ⟨⟨⟨by decide, by simp [List.isPrefixOf], by decide,
          by simp [startsNumber, startsUnsigned]⟩, by simp, by simp, by simp [List.isPrefixOf],
          by simp [List.isPrefixOf]⟩, by simp [startsIdent, isNameStart, startsEscape]⟩
    have hx := IsLexeme.punctuation hstart.1 hstart.2
    have hkind : punctuationKind c = .delim := by rcases hc with rfl | rfl | rfl <;> rfl
    rwa [hkind] at hx
  unfold Token.combinator? at h
  split at h
  · rename_i hdelim
    obtain rfl := Option.some.inj h
    exact ⟨by decide, '>', rfl, rfl, bare_of_isDelim hdelim, hlexeme _ (.inl rfl)⟩
  · split at h
    · rename_i hdelim
      obtain rfl := Option.some.inj h
      exact ⟨by decide, '+', rfl, rfl, bare_of_isDelim hdelim, hlexeme _ (.inr (.inl rfl))⟩
    · split at h
      · rename_i hdelim
        obtain rfl := Option.some.inj h
        exact ⟨by decide, '~', rfl, rfl, bare_of_isDelim hdelim, hlexeme _ (.inr (.inr rfl))⟩
      · cases h

/-- Parts that end in a compound are not printed as nothing. -/
theorem partsText_ne_empty {cs : List Char} (h : Builds used parts depth)
    (hcompound : EndsInCompound parts) (htail : TailOf source (used ++ rest) cs) :
    partsText source parts ≠ "" := by
  have hjoined : ∀ {front tokens : List Token} {stop : Nat}, tokens ≠ [] → Solid 0 tokens stop →
      TailOf source (front ++ tokens ++ rest) cs → joinTokens source tokens ≠ "" := by
    intro front tokens stop hne hsolid htail
    rw [List.append_assoc] at htail
    obtain ⟨_, htokens⟩ := htail.append
    exact joinTokens_ne_empty htokens hne hsolid.head
  intro hempty
  cases h with
  | start => cases hcompound
  | combinator => cases hcompound
  | compound _ _ _ nonempty solid =>
    rw [partsText_cons, compoundOf, SelectorPart.appendTo] at hempty
    exact hjoined nonempty solid htail (String.append_eq_empty_iff.mp hempty).2
  | descendant _ _ _ _ nonempty solid =>
    rw [partsText_cons, compoundOf, SelectorPart.appendTo] at hempty
    exact hjoined nonempty solid htail (String.append_eq_empty_iff.mp hempty).2

/-- The text of parts, if there are any, does not start with a blank. -/
theorem Builds.head?_partsText (h : Builds used parts depth)
    (htail : TailOf source (used ++ rest) cs) (hne : parts ≠ []) (ds : List Char) :
    ∃ c chars, (partsText source parts).toList ++ ds = c :: chars ∧
      Text.isAsciiBlank c = false := by
  induction h generalizing rest ds with
  | start => exact absurd rfl hne
  | @combinator used gap parts t kind before trivia combines ih =>
    rw [List.append_assoc, List.append_assoc] at htail
    obtain ⟨hkind, c, htext, hblank, -, -⟩ := combinator?_eq_some combines
    rw [partsText_cons, appendTo_combinator hkind]
    simp only [String.toList_append, List.append_assoc]
    by_cases hparts : parts = []
    · subst hparts
      exact ⟨c, ' ' :: ds, by rw [htext]; rfl, hblank⟩
    · exact ih htail hparts _
  | @compound used gap tokens parts depth before fresh trivia nonempty solid ih =>
    rw [List.append_assoc, List.append_assoc] at htail
    rw [partsText_compound, String.toList_append, List.append_assoc]
    by_cases hparts : parts = []
    · subst hparts
      obtain ⟨_, hgap⟩ := htail.append
      obtain ⟨_, htokens⟩ := hgap.append
      obtain ⟨_, _, htiles⟩ := htokens.tiles_front
      obtain ⟨c, chars, hchars, hblank⟩ := head?_spacedText htokens nonempty solid.head
      rw [toList_joinTokens htiles solid.head, hchars]
      exact ⟨c, chars ++ ds, rfl, hblank⟩
    · exact ih htail hparts _
  | @descendant used gap tokens parts span depth before compound trivia around nonempty solid ih =>
    rw [List.append_assoc, List.append_assoc] at htail
    rw [partsText_compound, partsText_descendant]
    simp only [String.toList_append, List.append_assoc]
    refine ih htail ?_ _
    rintro rfl
    cases compound

/-- The tokens that are printed of a part, without blanks and places. -/
def SelectorPart.shown : SelectorPart → List Token
  | .compound _ tokens => bareTokens tokens
  | .combinator _ .descendant => []
  | .combinator _ kind => [⟨.delim, .nowhere, kind.text⟩]

/-- The tokens that are printed of a selector, without blanks and places. -/
def Selector.shown (s : Selector) : List Token :=
  s.parts.flatMap SelectorPart.shown

/-- The tokens of a part stand behind those of the parts in front of it. -/
theorem flatMap_shown_cons (p : SelectorPart) (parts : List SelectorPart) :
    (p :: parts).reverse.flatMap SelectorPart.shown =
      parts.reverse.flatMap SelectorPart.shown ++ p.shown := by
  rw [List.reverse_cons, List.flatMap_append, List.flatMap_singleton]

/-- A token that is a combinator is printed as that combinator. -/
theorem bareTokens_combinator (combines : t.combinator? = some kind) (span : Span) :
    bareTokens [t] = (SelectorPart.combinator span kind).shown := by
  obtain ⟨hkind, c, htext, -, hbare, -⟩ := combinator?_eq_some combines
  have hsolid : t.kind ≠ .whitespace := fun hblank => by
    have htrivia := (isTrivia_of_combinator? combines).1
    simp [Token.isTrivia, hblank] at htrivia
  have hvalue : kind.text = String.singleton c := by
    rw [String.singleton_eq_ofList, ← htext, String.ofList_toList]
  rw [bareTokens_cons hsolid, bareTokens_nil, hbare, ← hvalue]
  cases kind with
  | descendant => exact absurd rfl hkind
  | child | nextSibling | subsequentSibling => rfl

/-- Tokens that spell parts close their brackets. -/
theorem Builds.depthAfter_eq (h : Builds used parts depth) : depthAfter 0 used = depth :=
  (SelectorDraft.foldl_depth .empty used).symm.trans h.drafts.brackets

/-- Where a compound is spelled there is something that is no blank. -/
theorem Builds.bareTokens_ne_nil (h : Builds used parts depth) (hcompound : EndsInCompound parts) :
    bareTokens used ≠ [] := by
  have hsolid : ∀ {front tokens : List Token} {stop : Nat}, tokens ≠ [] → Solid 0 tokens stop →
      bareTokens (front ++ tokens) ≠ [] := by
    intro front tokens stop hne hsolid hnil
    obtain ⟨t, tokens, rfl⟩ := List.exists_cons_of_ne_nil hne
    rw [bareTokens_append, bareTokens_cons (hsolid.head t rfl)] at hnil
    simp at hnil
  cases h with
  | start => cases hcompound
  | combinator => cases hcompound
  | compound _ _ _ nonempty solid => exact hsolid nonempty solid
  | descendant _ _ _ _ nonempty solid => exact hsolid nonempty solid

/-- What is printed of a selector passes the brackets as its tokens do, and halts nothing that these
do not halt. -/
theorem Builds.inside_shown {halts : TokenKind → Bool} (h : Builds used parts depth)
    (hblank : halts .whitespace = false) (hdelim : halts .delim = false)
    (hinside : Inside halts TokenKind.inlineDepth 0 used depth) :
    Inside halts TokenKind.inlineDepth 0 (parts.reverse.flatMap SelectorPart.shown) depth := by
  -- The tokens in front of a part close their brackets, and the gap opens none.
  have hsplit : ∀ {used gap tokens : List Token} {parts : List SelectorPart} {depth : Nat},
      Builds used parts 0 → (∀ u ∈ gap, u.isTrivia = true) →
      Inside halts TokenKind.inlineDepth 0 (used ++ gap ++ tokens) depth →
      Inside halts TokenKind.inlineDepth 0 used 0 ∧
        Inside halts TokenKind.inlineDepth 0 (bareTokens tokens) depth := by
    intro used gap tokens parts depth hbuilds htrivia hinside
    obtain ⟨middle, hfront, htokens⟩ := inside_append.mp hinside
    obtain ⟨closed, hused, hgap⟩ := inside_append.mp hfront
    obtain rfl : closed = 0 := hused.depthAfter_eq.symm.trans hbuilds.depthAfter_eq
    have hneutral : ∀ u ∈ gap, ∀ d, u.kind.inlineDepth d = d := fun u hu d => by
      have hkind : u.kind = .whitespace ∨ u.kind = .comment := by
        simpa [Token.isTrivia] using htrivia u hu
      rcases hkind with hkind | hkind <;> rw [hkind] <;> rfl
    obtain rfl : 0 = middle := hgap.eq_of_neutral hneutral
    exact ⟨hused, (inside_bareTokens hblank fun _ => rfl).mpr htokens⟩
  induction h with
  | start => exact rfl
  | @combinator used gap parts t kind before trivia combines ih =>
    obtain ⟨hused, -⟩ := hsplit before trivia hinside
    rw [flatMap_shown_cons]
    refine inside_append.mpr ⟨0, ih hused, ?_⟩
    cases kind with
    | descendant => exact rfl
    | child | nextSibling | subsequentSibling => exact ⟨by simp [hdelim], rfl⟩
  | @compound used gap tokens parts depth before fresh trivia nonempty solid ih =>
    obtain ⟨hused, htokens⟩ := hsplit before trivia hinside
    rw [flatMap_shown_cons]
    exact inside_append.mpr ⟨0, ih hused, htokens⟩
  | @descendant used gap tokens parts span depth before compound trivia around nonempty solid ih =>
    obtain ⟨hused, htokens⟩ := hsplit before trivia hinside
    rw [flatMap_shown_cons, flatMap_shown_cons]
    refine inside_append.mpr ⟨0, ?_, htokens⟩
    rw [SelectorPart.shown, List.append_nil]
    exact ih hused

/-- Without comments all that is no blank is printed of the tokens that spell some parts. -/
theorem Builds.bareTokens_eq (h : Builds used parts depth) (hcomments : NoComments used) :
    bareTokens used = parts.reverse.flatMap SelectorPart.shown := by
  have hsplit : ∀ {used gap tokens : List Token}, (∀ u ∈ gap, u.isTrivia = true) →
      NoComments (used ++ gap ++ tokens) → NoComments used ∧
        bareTokens (used ++ gap ++ tokens) = bareTokens used ++ bareTokens tokens := by
    intro used gap tokens htrivia hcomments
    have hgap : bareTokens gap = [] := bareTokens_of_blanks fun u hu =>
      hcomments.kind_of_isTrivia (by simp [hu]) (htrivia u hu)
    refine ⟨fun u hu => hcomments u (by simp [hu]), ?_⟩
    rw [bareTokens_append, bareTokens_append, hgap, List.append_nil]
  induction h with
  | start => rfl
  | @combinator used gap parts t kind before trivia combines ih =>
    obtain ⟨hused, hwhole⟩ := hsplit trivia hcomments
    rw [hwhole, ih hused, flatMap_shown_cons, bareTokens_combinator combines]
  | compound before fresh trivia nonempty solid ih =>
    obtain ⟨hused, hwhole⟩ := hsplit trivia hcomments
    rw [hwhole, ih hused, flatMap_shown_cons]
    rfl
  | descendant before compound trivia around nonempty solid ih =>
    obtain ⟨hused, hwhole⟩ := hsplit trivia hcomments
    rw [hwhole, ih hused, flatMap_shown_cons, flatMap_shown_cons, List.append_assoc]
    rfl

/-- Without comments the tokens of a group start with those that are printed of its selector. -/
theorem bareTokens_of_ofTokens? {group : List Token} (hs : Selector.ofTokens? group = some s)
    (hclosed : depthAfter 0 group = 0) (hcomments : NoComments group) :
    s.shown ≠ [] ∧ ∃ hidden, bareTokens group = s.shown ++ hidden := by
  obtain ⟨used, dropped, parts, rfl, hbuilds, hends, hparts, -⟩ :=
    exists_builds_of_ofTokens? hs hclosed
  have hused : bareTokens used = s.shown := by
    rw [hbuilds.bareTokens_eq fun u hu => hcomments u (List.mem_append_left _ hu), Selector.shown,
      hparts]
  refine ⟨hused ▸ hbuilds.bareTokens_ne_nil hends, bareTokens dropped, ?_⟩
  rw [bareTokens_append, hused]

/-! ## Lists of selectors -/

variable {source : String} {s : Selector} {selectors : List Selector} {depth : Nat}
  {tokens group gap : List Token}

/-- Groups that all spell a selector spell one each. -/
theorem map_ofTokens? {groups : List (List Token)}
    (h : ∀ group ∈ groups, (Selector.ofTokens? group).isSome = true) :
    groups.map Selector.ofTokens? = (groups.filterMap Selector.ofTokens?).map some := by
  induction groups with
  | nil => rfl
  | cons group groups ih =>
    obtain ⟨s, hs⟩ := Option.isSome_iff_exists.mp (h group List.mem_cons_self)
    rw [List.map_cons, List.filterMap_cons_some hs, List.map_cons, hs,
      ih fun other hother => h other (List.mem_cons_of_mem _ hother)]

/-- Blanks count no brackets and halt nothing that they do not count for. -/
theorem inside_of_blanks {halts : TokenKind → Bool} {count : Nat → TokenKind → Nat}
    (hhalts : halts .whitespace = false) (hcount : ∀ depth, count depth .whitespace = depth)
    (hgap : ∀ u ∈ gap, u.kind = .whitespace) (depth : Nat) : Inside halts count depth gap depth := by
  rw [← inside_bareTokens hhalts hcount, bareTokens_of_blanks hgap]
  rfl

/-- Blanks separate tokens. -/
theorem isTrivia_of_blanks (hgap : ∀ u ∈ gap, u.kind = .whitespace) :
    ∀ u ∈ gap, u.isTrivia = true := fun u hu => by
  simp [Token.isTrivia, hgap u hu]

/-- Blanks in front of a selector mean nothing. -/
theorem ofTokens?_blanks (hgap : ∀ u ∈ gap, u.kind = .whitespace) (ts : List Token) :
    Selector.ofTokens? (gap ++ ts) = Selector.ofTokens? ts := by
  have hfold := Builds.start.drafts.foldl_of_not_compound (by simp [EndsInCompound])
    (isTrivia_of_blanks hgap)
  have hempty : gap.foldl SelectorDraft.add .empty = .empty := hfold
  rw [Selector.ofTokens?, List.foldl_append, hempty, Selector.ofTokens?]

/-- Blanks in front of selectors mean nothing. -/
theorem selectorsOf_blanks (hgap : ∀ u ∈ gap, u.kind = .whitespace) (ts : List Token) :
    selectorsOf (gap ++ ts) = selectorsOf ts := by
  have hinside := @inside_of_blanks gap partsSelectors TokenKind.inlineDepth rfl (fun _ => rfl)
    hgap 0
  cases hsplit : splitCommasFrom 0 ts with
  | nil => exact absurd hsplit (splitCommasFrom_groups 0 ts).ne_nil
  | cons group groups =>
    rw [selectorsOf, selectorsOf, splitCommas, splitCommas, splitCommasFrom_append hinside hsplit,
      hsplit, List.filterMap_cons, List.filterMap_cons, ofTokens?_blanks hgap]

/-- The selectors of a list are that in front of a comma and those behind it. -/
theorem selectorsOf_more (hgroup : Inside partsSelectors TokenKind.inlineDepth 0 group 0)
    {comma : Token} (hcomma : comma.kind = .comma) (ts : List Token) :
    selectorsOf (group ++ comma :: ts) = (Selector.ofTokens? group).toList ++ selectorsOf ts := by
  have hgroups := CommaGroups.more hgroup hcomma (splitCommasFrom_groups 0 ts)
  rw [selectorsOf, splitCommas, hgroups.splitCommasFrom_eq, List.filterMap_cons, selectorsOf,
    splitCommas]
  cases Selector.ofTokens? group <;> rfl

/-- What stands behind the last comma is one selector at most. -/
theorem selectorsOf_last {stop : Nat}
    (hgroup : Inside partsSelectors TokenKind.inlineDepth 0 group stop) :
    selectorsOf group = (Selector.ofTokens? group).toList := by
  rw [selectorsOf, splitCommas, (CommaGroups.last hgroup).splitCommasFrom_eq]
  cases hs : Selector.ofTokens? group <;> simp [hs]

/-- Without comments the tokens in front of a block start with those that are printed of its first
selector. -/
theorem CommaGroups.bareTokens_eq {groups : List (List Token)} (h : CommaGroups depth tokens groups)
    (hdepth : depth = 0) (hs : groups.map Selector.ofTokens? = (s :: selectors).map some)
    (hprelude : Inside haltsPrelude TokenKind.inlineDepth 0 tokens 0)
    (hcomments : NoComments tokens) :
    s.shown ≠ [] ∧ ∃ hidden, bareTokens tokens = s.shown ++ hidden := by
  subst hdepth
  cases h with
  | last inside =>
    exact bareTokens_of_ofTokens? (List.cons.inj hs).1 hprelude.depthAfter_eq hcomments
  | @more _ comma group ts groups inside kind behind =>
    obtain ⟨hne, hidden, hgroup⟩ := bareTokens_of_ofTokens? (List.cons.inj hs).1
      inside.depthAfter_eq fun u hu => hcomments u (List.mem_append_left _ hu)
    refine ⟨hne, hidden ++ bareTokens (comma :: ts), ?_⟩
    rw [bareTokens_append, hgroup, List.append_assoc]

/-- Selectors with a comma between them and `apart` behind each comma. -/
def selectorsText (source : String) (apart : List Char) (selectors : List Selector) : List Char :=
  (',' :: apart).intercalate (selectors.map fun s => (s.text source).toList)

/-- No selectors are printed as nothing. -/
@[simp] theorem selectorsText_nil (source : String) (apart : List Char) :
    selectorsText source apart [] = [] := rfl

/-- A selector alone is printed by itself. -/
theorem selectorsText_singleton (source : String) (apart : List Char) (s : Selector) :
    selectorsText source apart [s] = (s.text source).toList := by
  rw [selectorsText, List.map_singleton, List.intercalate_singleton]

/-- A selector and the next one are printed with a comma between them. -/
theorem selectorsText_cons_cons (source : String) (apart : List Char) (s s' : Selector)
    (selectors : List Selector) : selectorsText source apart (s :: s' :: selectors) =
      (s.text source).toList ++
        ([','] ++ (apart ++ selectorsText source apart (s' :: selectors))) := by
  simp [selectorsText]

end CssWorkbench
