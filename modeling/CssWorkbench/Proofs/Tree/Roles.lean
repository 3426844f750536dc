import Mathlib.Data.List.Forall2
import CssWorkbench.Proofs.Tree.Declarations
import CssWorkbench.Proofs.Tree.ValueTokens

/-!
# What the parser looks at

Of a token the parser only looks at its kind and at whether it is a part of `!important`. Two lists
whose tokens agree in this, one by one, are therefore read in the same way: the same tokens end up
in the same declarations.
-/

namespace CssWorkbench

/-- What the parser looks at of a token. -/
def Token.role (t : Token) : TokenKind × Bool × Bool :=
  (t.kind, t.isDelim '!', t.kind = .ident && t.value = "important")

/-- Tokens that are related have the same role. -/
def RespectsRoles (R : Token → Token → Prop) : Prop :=
  ∀ ⦃t u : Token⦄, R t u → u.role = t.role

/-- Declarations of related tokens. -/
structure RelatedDeclarations (R : Token → Token → Prop) (d d' : Declaration) : Prop where
  property : R d.property d'.property
  tokens : List.Forall₂ R d.tokens d'.tokens

variable {R : Token → Token → Prop} {t u : Token} {ts us : List Token}

/-- Tokens that are related have the same kind. -/
theorem RespectsRoles.kind (hR : RespectsRoles R) (h : R t u) : u.kind = t.kind :=
  congrArg Prod.fst (hR h)

/-- Tokens that are related are of the same kinds. -/
theorem RespectsRoles.is (hR : RespectsRoles R) (h : R t u) (kind : TokenKind) :
    u.is kind = t.is kind := by
  rw [Token.is, Token.is, hR.kind h]

/-- Of tokens that are related, both separate others or none does. -/
theorem RespectsRoles.isTrivia (hR : RespectsRoles R) (h : R t u) : u.isTrivia = t.isTrivia := by
  rw [Token.isTrivia, Token.isTrivia, hR.kind h]

/-- Of tokens that are related, both are the mark of importance or none is. -/
theorem RespectsRoles.mark (hR : RespectsRoles R) (h : R t u) : u.isDelim '!' = t.isDelim '!' :=
  congrArg (fun role => role.2.1) (hR h)

/-- Of tokens that are related, both are the word of importance or none is. -/
theorem RespectsRoles.word (hR : RespectsRoles R) (h : R t u) :
    (u.kind = .ident && u.value = "important") = (t.kind = .ident && t.value = "important") :=
  congrArg (fun role => role.2.2) (hR h)

/-- What is dropped from two lists is the same when the test cannot tell related tokens apart. -/
theorem dropWhile_related {p : Token → Bool} (hp : ∀ ⦃t u⦄, R t u → p u = p t)
    (h : List.Forall₂ R ts us) : List.Forall₂ R (ts.dropWhile p) (us.dropWhile p) := by
  induction h with
  | nil => exact .nil
  | @cons t u ts us htu hrest ih =>
    rw [List.dropWhile_cons, List.dropWhile_cons, hp htu]
    split
    · exact ih
    · exact .cons htu hrest

/-- What stays behind the blanks at the front is related. -/
theorem dropBlanks_related (hR : RespectsRoles R) (h : List.Forall₂ R ts us) :
    List.Forall₂ R (ts.dropWhile (·.is .whitespace)) (us.dropWhile (·.is .whitespace)) :=
  dropWhile_related (fun _ _ htu => hR.is htu .whitespace) h

/-- Runs end at related tokens. -/
theorem takeRun_related (hR : RespectsRoles R) {halts : TokenKind → Bool}
    {count : Nat → TokenKind → Nat} {depth : Nat} (h : List.Forall₂ R ts us) :
    List.Forall₂ R (takeRun halts count depth ts).1 (takeRun halts count depth us).1 ∧
      List.Forall₂ R (takeRun halts count depth ts).2 (takeRun halts count depth us).2 := by
  induction h generalizing depth with
  | nil => exact ⟨.nil, .nil⟩
  | @cons t u ts us htu hrest ih =>
    rw [takeRun, takeRun, hR.kind htu]
    split
    · exact ⟨.nil, .cons htu hrest⟩
    · exact ⟨.cons htu ih.1, ih.2⟩

/-- Related runs are taken off related tokens. -/
theorem exists_takeRun_related (hR : RespectsRoles R) {halts : TokenKind → Bool}
    {count : Nat → TokenKind → Nat} {depth : Nat} {run left : List Token}
    (h : List.Forall₂ R ts us) (hrun : takeRun halts count depth ts = (run, left)) :
    ∃ run' left', takeRun halts count depth us = (run', left') ∧ List.Forall₂ R run run' ∧
      List.Forall₂ R left left' := by
  have hrelated := @takeRun_related _ _ _ hR halts count depth h
  rw [hrun] at hrelated
  exact ⟨_, _, rfl, hrelated⟩

/-- What stays behind a semicolon is related. -/
theorem takeSemicolon_related (hR : RespectsRoles R) (h : List.Forall₂ R ts us) :
    List.Forall₂ R (takeSemicolon ts).2 (takeSemicolon us).2 := by
  cases h with
  | nil => exact .nil
  | cons htu hrest =>
    rw [takeSemicolon, takeSemicolon, hR.kind htu]
    split
    · exact hrest
    · exact .cons htu hrest

/-- What stays behind a broken statement is related. -/
theorem afterBroken_related (hR : RespectsRoles R) {n : Nat} (h : List.Forall₂ R ts us) :
    List.Forall₂ R (afterBroken n ts) (afterBroken n us) := by
  cases h with
  | nil => exact .nil
  | cons htu hrest =>
    rw [afterBroken, afterBroken, hR.kind htu]
    split
    · exact hrest
    · exact .cons htu hrest

/-- What stays behind a skipped block is related. -/
theorem skipBlock_related (hR : RespectsRoles R) {stop stop' depth : Nat}
    (h : List.Forall₂ R ts us) :
    List.Forall₂ R (skipBlock stop depth ts).2 (skipBlock stop' depth us).2 := by
  induction h generalizing depth with
  | nil => exact .nil
  | @cons t u ts us htu hrest ih =>
    rw [skipBlock, skipBlock, hR.kind htu]
    split
    · exact ih
    · split
      · exact hrest
      · exact ih
    · exact ih

/-- What stays in front of the blanks at the end is related. -/
theorem trimTrailingBlanks_related (hR : RespectsRoles R) (h : List.Forall₂ R ts us) :
    List.Forall₂ R (trimTrailingBlanks ts) (trimTrailingBlanks us) :=
  List.rel_reverse (dropBlanks_related hR (List.rel_reverse h))

/-- A related list is split at a related token, or not at all. -/
theorem splitLastSignificant?_related (hR : RespectsRoles R) (h : List.Forall₂ R ts us) :
    (splitLastSignificant? ts = none ∧ splitLastSignificant? us = none) ∨
      ∃ front last front' last', splitLastSignificant? ts = some (front, last) ∧
        splitLastSignificant? us = some (front', last') ∧ List.Forall₂ R front front' ∧
          R last last' := by
  have hdrop := dropWhile_related (fun _ _ htu => hR.isTrivia htu) (List.rel_reverse h)
  unfold splitLastSignificant?
  generalize ts.reverse.dropWhile Token.isTrivia = vs at hdrop
  generalize us.reverse.dropWhile Token.isTrivia = ws at hdrop
  cases hdrop with
  | nil => exact .inl ⟨rfl, rfl⟩
  | cons htu hrest => exact .inr ⟨_, _, _, _, rfl, rfl, List.rel_reverse hrest, htu⟩

/-- A related list closes with an `!important` as well, or does not either. -/
theorem beforeImportant?_related (hR : RespectsRoles R) (h : List.Forall₂ R ts us) :
    (beforeImportant? ts = none ∧ beforeImportant? us = none) ∨
      ∃ front front', beforeImportant? ts = some front ∧ beforeImportant? us = some front' ∧
        List.Forall₂ R front front' := by
  unfold beforeImportant?
  rcases splitLastSignificant?_related hR h with
    ⟨hnone, hnone'⟩ | ⟨front, word, front', word', hword, hword', hfront, hrelated⟩
  · exact .inl ⟨by rw [hnone], by rw [hnone']⟩
  · rw [hword, hword']
    simp only [hR.word hrelated]
    split
    · rcases splitLastSignificant?_related hR hfront with
        ⟨hnone, hnone'⟩ | ⟨value, mark, value', mark', hmark, hmark', hvalue, hrelated⟩
      · exact .inl ⟨by rw [hnone], by rw [hnone']⟩
      · rw [hmark, hmark']
        simp only [hR.mark hrelated]
        split
        · exact .inr ⟨value, value', rfl, rfl, hvalue⟩
        · exact .inl ⟨rfl, rfl⟩
    · exact .inl ⟨rfl, rfl⟩

/-- The tokens of related values are related. -/
theorem valueTokens_related (hR : RespectsRoles R) (h : List.Forall₂ R ts us) :
    List.Forall₂ R (valueTokens ts) (valueTokens us) := by
  have htrim := trimTrailingBlanks_related hR h
  unfold valueTokens
  rcases beforeImportant?_related hR htrim with
    ⟨hnone, hnone'⟩ | ⟨front, front', hfront, hfront', hrelated⟩
  · rw [hnone, hnone']
    exact htrim
  · rw [hfront, hfront']
    exact trimTrailingBlanks_related hR hrelated

end CssWorkbench
