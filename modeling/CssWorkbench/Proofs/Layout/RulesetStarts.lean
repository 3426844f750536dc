import CssWorkbench.Proofs.Layout.PrintedSelector
import CssWorkbench.Proofs.Tree.ReadingOfParser

/-!
# Where a ruleset starts

What the parser asks in front of a ruleset, and above all whether a declaration starts there, is
settled by the first two tokens that are no blanks. Of what is printed these are tokens of the first
selector, or a comma or the brace comes second.
-/

namespace CssWorkbench

variable {t opener : Token} {ts inner : List Token} {s : Selector}

/-- Whether a declaration starts somewhere is settled without the blanks. -/
theorem startsDeclaration_iff (t : Token) (ts : List Token) :
    StartsDeclaration t ts ↔ t.kind = .ident ∧ ∃ u ∈ (bareTokens ts).head?, u.kind = .colon := by
  refine and_congr_right fun _ => ?_
  induction ts with
  | nil => simp
  | cons u ts ih =>
    by_cases hkind : u.kind = .whitespace
    · rw [List.dropWhile_cons_of_pos (by simp [Token.is, hkind]), ih, bareTokens_cons_blank hkind]
    · rw [List.dropWhile_cons_of_neg (by simp [Token.is, hkind]), bareTokens_cons hkind]
      simp [Token.bare_kind]

/-- A ruleset starts with the tokens that are printed of the selector: outside blocks if none of
them is read as something else, and in a block if no declaration starts there either. -/
def Selector.opensRuleset (nested : Bool) (s : Selector) : Bool :=
  match s.shown with
  | [] => false
  | t :: ts => !t.kind.leads && !(nested && t.kind = .ident && ts.head?.any (·.kind = .colon))

/-- A ruleset of a source opens with the tokens that are printed of its first selector, since these
are the first tokens of the source that are no blanks. -/
theorem opensRuleset_of_bareTokens {nested : Bool} {ts hidden rest : List Token}
    (leads : t.kind.leads = false)
    (notDeclared : nested = true → ¬ StartsDeclaration t (ts ++ rest))
    (hshown : bareTokens (t :: ts) = s.shown ++ hidden) (hne : s.shown ≠ []) :
    s.opensRuleset nested = true := by
  have hblank : t.kind ≠ .whitespace := fun hk => by simp [TokenKind.leads, hk] at leads
  obtain ⟨w, shown, hw⟩ := List.exists_cons_of_ne_nil hne
  rw [bareTokens_cons hblank, hw, List.cons_append] at hshown
  obtain ⟨rfl, hbehind⟩ := List.cons.inj hshown
  have hno : ¬ (nested && t.kind = .ident && shown.head?.any (·.kind = .colon)) = true := by
    intro hdeclared
    obtain ⟨hnested, hcolon⟩ := Bool.and_eq_true_iff.mp hdeclared
    obtain ⟨hnested, hident⟩ := Bool.and_eq_true_iff.mp hnested
    obtain ⟨v, hv, hkind⟩ : ∃ v ∈ shown.head?, v.kind = .colon := by
      cases hhead : shown.head? with
      | none => simp [hhead] at hcolon
      | some v => exact ⟨v, rfl, by simpa [hhead] using hcolon⟩
    refine notDeclared hnested ((startsDeclaration_iff _ _).mpr ⟨by simpa using hident, v, ?_,
      hkind⟩)
    obtain ⟨shown, rfl⟩ := List.head?_eq_some_iff.mp hv
    rw [bareTokens_append, hbehind]
    rfl
  rw [Selector.opensRuleset, hw]
  simp only [Token.bare_kind, leads, Bool.not_false, Bool.true_and, Bool.not_eq_true']
  exact Bool.eq_false_iff.mpr hno

/-- Where a declaration would start behind what was printed, the colon was printed too: neither a
comma nor the brace is one. -/
theorem colon_of_startsDeclaration {behind shown more : List Token}
    (hprinted : bareTokens behind = shown ++ more) (hcomma : ∀ v ∈ more.head?, v.kind = .comma)
    (hopener : opener.kind = .lbrace) (h : StartsDeclaration t (behind ++ opener :: inner)) :
    t.kind = .ident ∧ ∃ v ∈ shown.head?, v.kind = .colon := by
  obtain ⟨hident, v, hv, hcolon⟩ := (startsDeclaration_iff _ _).mp h
  refine ⟨hident, v, ?_, hcolon⟩
  rw [bareTokens_append, hprinted, bareTokens_cons (by rw [hopener]; decide)] at hv
  cases shown with
  | cons w shown => exact hv
  | nil =>
    cases more with
    | cons w more =>
      obtain rfl : w = v := by simpa using hv
      rw [hcomma w rfl] at hcolon
      cases hcolon
    | nil =>
      obtain rfl : opener.bare = v := by simpa using hv
      rw [Token.bare_kind, hopener] at hcolon
      cases hcolon

end CssWorkbench
