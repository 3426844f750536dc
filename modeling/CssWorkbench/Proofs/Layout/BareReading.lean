import Mathlib.Data.List.TakeWhile
import CssWorkbench.Proofs.Layout.Bare
import CssWorkbench.Proofs.Tree.Runs
import CssWorkbench.Proofs.Tree.ValueTokens
import CssWorkbench.Proofs.Tree.Reading

/-!
# What the parser makes of tokens without their blanks

Values and preludes are read alike whatever blanks stand in them: where a run ends, whether it
closes with an `!important` and what the node says of it are all settled by `bareTokens`. So nodes
that are read of tokens with the same bare ones are the same when bare.
-/

namespace CssWorkbench

variable {halts : TokenKind → Bool} {count : Nat → TokenKind → Nat} {depth stop : Nat}
  {t u mark word : Token} {ts us front : List Token}

/-- A bare token has its kind. -/
theorem Token.bare_kind (t : Token) : t.bare.kind = t.kind := rfl

/-- A bare token has its value. -/
theorem Token.bare_value (t : Token) : t.bare.value = t.value := rfl

/-- Tokens that are the same when bare have the same kind. -/
theorem kind_eq_of_bare (h : t.bare = u.bare) : t.kind = u.kind := by
  rw [← t.bare_kind, h, u.bare_kind]

/-- Tokens that are the same when bare have the same value. -/
theorem value_eq_of_bare (h : t.bare = u.bare) : t.value = u.value := by
  rw [← t.bare_value, h, u.bare_value]

/-- Tokens that are bare already stay so. -/
theorem bareTokens_map_bare (ts : List Token) : bareTokens (ts.map Token.bare) = bareTokens ts := by
  induction ts with
  | nil => rfl
  | cons t ts ih =>
    rw [List.map_cons]
    by_cases hkind : t.kind = .whitespace
    · rw [@bareTokens_cons_blank t.bare hkind, bareTokens_cons_blank hkind, ih]
    · rw [@bareTokens_cons t.bare hkind, bareTokens_cons hkind, ih]
      rfl

/-- Blanks alone say nothing. -/
theorem bareTokens_of_blanks (h : ∀ t ∈ ts, t.kind = .whitespace) : bareTokens ts = [] := by
  induction ts with
  | nil => rfl
  | cons t ts ih =>
    rw [bareTokens_cons_blank (h t List.mem_cons_self),
      ih fun u hu => h u (List.mem_cons_of_mem _ hu)]

/-- Where a run is passed over, it is with other blanks, when blanks neither halt it nor count. -/
theorem inside_bareTokens (hhalts : halts .whitespace = false)
    (hcount : ∀ depth, count depth .whitespace = depth) :
    Inside halts count depth (bareTokens ts) stop ↔ Inside halts count depth ts stop := by
  induction ts generalizing depth with
  | nil => rfl
  | cons t ts ih =>
    by_cases hkind : t.kind = .whitespace
    · rw [bareTokens_cons_blank hkind, Inside, hkind, hhalts, hcount, ih]
      simp
    · rw [bareTokens_cons hkind, Inside, Inside, Token.bare_kind, ih]

/-- The tokens of a value are passed over with other blanks. -/
theorem inside_value_congr (h : bareTokens ts = bareTokens us) :
    Inside haltsValue valueDepth depth ts stop ↔ Inside haltsValue valueDepth depth us stop := by
  rw [← inside_bareTokens rfl fun _ => rfl, h, inside_bareTokens rfl fun _ => rfl]

/-- The tokens of a prelude are passed over with other blanks. -/
theorem inside_prelude_congr (h : bareTokens ts = bareTokens us) :
    Inside haltsPrelude TokenKind.inlineDepth depth ts stop ↔
      Inside haltsPrelude TokenKind.inlineDepth depth us stop := by
  rw [← inside_bareTokens rfl fun _ => rfl, h, inside_bareTokens rfl fun _ => rfl]

/-- No token is a comment. -/
def NoComments (ts : List Token) : Prop :=
  ∀ t ∈ ts, t.kind ≠ .comment

/-- Without comments only blanks separate tokens. -/
theorem NoComments.kind_of_isTrivia (h : NoComments ts) (ht : t ∈ ts) (htrivia : t.isTrivia = true) :
    t.kind = .whitespace := by
  have hcases : t.kind = .whitespace ∨ t.kind = .comment := by simpa [Token.isTrivia] using htrivia
  exact hcases.resolve_right (h t ht)

/-- Blanks at the end do not show in bare tokens. -/
theorem bareTokens_trimTrailingBlanks (ts : List Token) :
    bareTokens (trimTrailingBlanks ts) = bareTokens ts := by
  obtain ⟨gap, hts, hgap⟩ := trimTrailingBlanks_append ts
  have hwhole := congrArg bareTokens hts
  rw [bareTokens_append, bareTokens_of_blanks hgap, List.append_nil] at hwhole
  exact hwhole.symm

/-- Blanks at the front do not show in bare tokens. -/
theorem bareTokens_dropBlanks (ts : List Token) :
    bareTokens (ts.dropWhile (·.is .whitespace)) = bareTokens ts := by
  induction ts with
  | nil => rfl
  | cons t ts ih =>
    rw [List.dropWhile_cons]
    split
    · rename_i hblank
      rw [ih, bareTokens_cons_blank (by simpa [Token.is] using hblank)]
    · rfl

/-- Blanks around do not show in bare tokens. -/
theorem bareTokens_trimBlanks (ts : List Token) : bareTokens (trimBlanks ts) = bareTokens ts := by
  rw [trimBlanks, bareTokens_trimTrailingBlanks, bareTokens_dropBlanks]

/-- Bare tokens read from behind are those of the tokens read from behind. -/
theorem bareTokens_reverse (ts : List Token) :
    bareTokens ts.reverse = (bareTokens ts).reverse := by
  rw [bareTokens, bareTokens, List.filter_reverse, List.map_reverse]

/-- Blanks are not missed where blanks and comments are dropped. -/
theorem bareTokens_dropTrivia (ts : List Token) :
    bareTokens (ts.dropWhile Token.isTrivia) = (bareTokens ts).dropWhile Token.isTrivia := by
  induction ts with
  | nil => rfl
  | cons t ts ih =>
    by_cases htrivia : t.isTrivia = true
    · rw [List.dropWhile_cons_of_pos htrivia, ih]
      by_cases hkind : t.kind = .whitespace
      · rw [bareTokens_cons_blank hkind]
      · rw [bareTokens_cons hkind, List.dropWhile_cons_of_pos (show t.bare.isTrivia = true from htrivia)]
    · have hkind : t.kind ≠ .whitespace := fun hk => by simp [Token.isTrivia, hk] at htrivia
      rw [List.dropWhile_cons_of_neg htrivia, bareTokens_cons hkind,
        List.dropWhile_cons_of_neg (show ¬ t.bare.isTrivia = true from htrivia)]

/-- The last token that is neither a blank nor a comment is found without the blanks, and so is what
stands in front of it. -/
theorem splitLastSignificant?_congr (heq : bareTokens ts = bareTokens us) :
    (splitLastSignificant? ts = none ∧ splitLastSignificant? us = none) ∨
      ∃ front last front' last', splitLastSignificant? ts = some (front, last) ∧
        splitLastSignificant? us = some (front', last') ∧
          bareTokens front = bareTokens front' ∧ last.bare = last'.bare := by
  have hdrops : bareTokens (ts.reverse.dropWhile Token.isTrivia) =
      bareTokens (us.reverse.dropWhile Token.isTrivia) := by
    rw [bareTokens_dropTrivia, bareTokens_dropTrivia, bareTokens_reverse, bareTokens_reverse, heq]
  have hkind : ∀ {vs last before}, List.dropWhile Token.isTrivia vs = last :: before →
      last.kind ≠ .whitespace := by
    intro vs last before hdrop hk
    have hhead := List.head?_dropWhile_not Token.isTrivia vs
    rw [hdrop] at hhead
    simp [Token.isTrivia, hk] at hhead
  unfold splitLastSignificant?
  cases hts : ts.reverse.dropWhile Token.isTrivia with
  | nil =>
    rw [hts] at hdrops
    cases hus : us.reverse.dropWhile Token.isTrivia with
    | nil => exact .inl ⟨rfl, rfl⟩
    | cons last' before' =>
      rw [hus, bareTokens_cons (hkind hus)] at hdrops
      cases hdrops
  | cons last before =>
    rw [hts, bareTokens_cons (hkind hts)] at hdrops
    cases hus : us.reverse.dropWhile Token.isTrivia with
    | nil =>
      rw [hus] at hdrops
      cases hdrops
    | cons last' before' =>
      rw [hus, bareTokens_cons (hkind hus)] at hdrops
      obtain ⟨hlast, hbefore⟩ := List.cons.inj hdrops
      exact .inr ⟨before.reverse, last, before'.reverse, last', rfl, rfl,
        by rw [bareTokens_reverse, bareTokens_reverse, hbefore], hlast⟩

/-- Whether a value closes with an `!important` is settled without its blanks, and so is what
stands in front of it. -/
theorem beforeImportant?_congr (heq : bareTokens ts = bareTokens us) :
    (beforeImportant? ts = none ∧ beforeImportant? us = none) ∨
      ∃ front front', beforeImportant? ts = some front ∧ beforeImportant? us = some front' ∧
        bareTokens front = bareTokens front' := by
  unfold beforeImportant?
  rcases splitLastSignificant?_congr heq with
    ⟨hnone, hnone'⟩ | ⟨front, word, front', word', hword, hword', hfronts, hsame⟩
  · exact .inl ⟨by rw [hnone], by rw [hnone']⟩
  · rw [hword, hword']
    simp only [kind_eq_of_bare hsame, value_eq_of_bare hsame]
    split
    · rcases splitLastSignificant?_congr hfronts with
        ⟨hnone, hnone'⟩ | ⟨value, mark, value', mark', hmark, hmark', hvalues, hsame⟩
      · exact .inl ⟨by rw [hnone], by rw [hnone']⟩
      · have hdelim : mark.isDelim '!' = mark'.isDelim '!' := by
          rw [Token.isDelim, Token.isDelim, kind_eq_of_bare hsame, value_eq_of_bare hsame]
        rw [hmark, hmark']
        simp only [hdelim]
        split
        · exact .inr ⟨value, value', rfl, rfl, hvalues⟩
        · exact .inl ⟨rfl, rfl⟩
    · exact .inl ⟨rfl, rfl⟩

/-- A value is what its tokens say, and there is none if they say nothing. -/
theorem bare_ofTokens? (ts : List Token) (h : ts = [] ↔ bareTokens ts = []) :
    (Value.ofTokens? ts).map Value.bare =
      if bareTokens ts = [] then none else some ⟨.nowhere, bareTokens ts⟩ := by
  cases ts with
  | nil => rfl
  | cons t ts =>
    obtain ⟨last, hlast⟩ : ∃ last, (t :: ts).getLast? = some last := ⟨_, List.getLast?_cons⟩
    have hne : bareTokens (t :: ts) ≠ [] := fun hnil => List.cons_ne_nil _ _ (h.mpr hnil)
    simp [Value.ofTokens?, hlast, if_neg hne, Value.bare]

/-! ## Nodes -/

variable {t u colon colon' mark : Token} {ts run run' : List Token} {semi semi' : Option Token}

/-- What an `!important` says. -/
def importantTokens : List Token :=
  [⟨.delim, .nowhere, "!"⟩, ⟨.ident, .nowhere, "important"⟩]

/-- A token that is a single character is that character when bare. -/
theorem bare_of_isDelim {c : Char} (h : mark.isDelim c = true) :
    mark.bare = ⟨.delim, .nowhere, String.singleton c⟩ := by
  have hkind := Token.kind_of_isDelim h
  have hvalue := Token.value_of_isDelim h
  have hstring : mark.value = String.singleton c := by
    rw [String.singleton_eq_ofList, ← hvalue, String.ofList_toList]
  rw [Token.bare, hkind, hstring]

/-- A value that starts with no blank says something if it has tokens. -/
theorem valueTokens_eq_nil_iff (hfirst : ∀ t ∈ run.head?, t.kind ≠ .whitespace) :
    valueTokens run = [] ↔ bareTokens (valueTokens run) = [] := by
  obtain ⟨behind, hrun, -⟩ := valueTokens_append run
  cases hvalue : valueTokens run with
  | nil => simp
  | cons t ts =>
    have hkind : t.kind ≠ .whitespace := hfirst t (by rw [hrun, hvalue]; rfl)
    rw [bareTokens_cons hkind]
    simp

/-- The value of a declaration is read off its run. -/
theorem declarationNode_value :
    (declarationNode t colon run semi).value = Value.ofTokens? (valueTokens run) := rfl

/-- A declaration is important if its run ends so. -/
theorem declarationNode_important : (declarationNode t colon run semi).important =
    (beforeImportant? (trimTrailingBlanks run)).isSome := rfl

/-- A declaration says the same when the tokens of its value are parted differently. -/
theorem bare_declarationNode_congr (hproperty : t.bare = u.bare)
    (hvalue : bareTokens (valueTokens run) = bareTokens (valueTokens run'))
    (himportant : (beforeImportant? (trimTrailingBlanks run)).isSome =
      (beforeImportant? (trimTrailingBlanks run')).isSome)
    (hfirst : ∀ t ∈ run.head?, t.kind ≠ .whitespace)
    (hfirst' : ∀ t ∈ run'.head?, t.kind ≠ .whitespace) :
    (declarationNode t colon run semi).bare = (declarationNode u colon' run' semi').bare := by
  have hself := bare_ofTokens? (valueTokens run) (valueTokens_eq_nil_iff hfirst)
  have hother := bare_ofTokens? (valueTokens run') (valueTokens_eq_nil_iff hfirst')
  rw [← hvalue] at hother
  rw [Declaration.bare, Declaration.bare, declarationNode_value, declarationNode_value,
    declarationNode_important, declarationNode_important, himportant, hself, hother]
  exact congrArg (fun property => Declaration.mk .nowhere property _ _ false) hproperty

/-- An at-rule says the same when its prelude is parted differently. -/
theorem bare_atRuleNode_congr {stop stop' : Nat} {block block' : Option Span}
    {children children' : List Node} (hkeyword : t.value = u.value)
    (heq : bareTokens run = bareTokens run')
    (hblock : (block.map fun _ => Span.nowhere) = block'.map fun _ => Span.nowhere)
    (hchildren : bareNodes children = bareNodes children') :
    (atRuleNode t run stop block children).bare =
      (atRuleNode u run' stop' block' children').bare := by
  rw [atRuleNode, atRuleNode, Node.bare, Node.bare, AtRule.bare, AtRule.bare,
    bareTokens_trimBlanks, bareTokens_trimBlanks, hkeyword, heq, hblock, hchildren]

/-- A ruleset says the same when its selectors and its children do. -/
theorem bare_ruleset_congr {rule rule' : Ruleset} {children children' : List Node}
    (hselectors : rule.selectors.selectors.map Selector.bare =
      rule'.selectors.selectors.map Selector.bare)
    (hchildren : bareNodes children = bareNodes children') :
    (Node.ruleset rule children).bare = (Node.ruleset rule' children').bare := by
  rw [Node.bare, Node.bare, Ruleset.bare, Ruleset.bare, SelectorList.bare, SelectorList.bare,
    hselectors, hchildren]

end CssWorkbench
