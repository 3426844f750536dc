import CssWorkbench.Proofs.Tree.CommaGroups
import CssWorkbench.Proofs.Tree.SelectorGrammar

/-!
# Balanced runs

In a balanced run each bracket is closed by one of its own kind. The counter that follows all kinds
of brackets passes over such a run without coming back to where it was, and so does the counter of a
selector, which leaves braces out. What parts a selector or a list of selectors does so outside
brackets only, so that a run is passed over as a whole if none of its tokens outside brackets does.
-/

namespace CssWorkbench

/-- The closer that belongs to an opener. -/
def TokenKind.closer? : TokenKind → Option TokenKind
  | .function | .lparen => some .rparen
  | .lbracket => some .rbracket
  | .lbrace => some .rbrace
  | _ => none

/-- A token that is no bracket and does not end a scan. -/
structure Token.IsPlain (t : Token) : Prop where
  opens : t.kind.opens = false
  closes : t.kind.closes = false
  inSource : t.kind ≠ .eof

/-- Each bracket is closed by one of its own kind. -/
inductive Balanced : List Token → Prop
  | nil : Balanced []
  | plain {t : Token} {ts : List Token} (plain : t.IsPlain) (behind : Balanced ts) :
      Balanced (t :: ts)
  | block {opener closer : Token} {inner ts : List Token}
      (pair : opener.kind.closer? = some closer.kind) (inside : Balanced inner)
      (behind : Balanced ts) : Balanced (opener :: (inner ++ closer :: ts))

variable {opener closer t : Token} {inner run ts us : List Token} {depth : Nat}
  {halts : TokenKind → Bool}

/-- A pair of brackets opens and closes. -/
theorem TokenKind.opens_of_closer? {kind closer : TokenKind} (h : kind.closer? = some closer) :
    kind.opens = true ∧ closer.opens = false ∧ closer.closes = true := by
  cases kind <;> cases h <;> decide

/-- Balanced runs in a row are balanced. -/
theorem Balanced.append (h : Balanced run) (hts : Balanced ts) : Balanced (run ++ ts) := by
  induction h with
  | nil => exact hts
  | plain plain _ ih => exact .plain plain ih
  | block pair inside _ _ ih =>
    rw [List.cons_append, List.append_assoc, List.cons_append]
    exact .block pair inside ih

/-! ## The counter of all brackets -/

/-- Inside a block a balanced run is passed over. -/
theorem Balanced.closeDistanceFrom_append (h : Balanced run) (hdepth : 0 < depth) (passed : Nat)
    (ts : List Token) : closeDistanceFrom depth passed (run ++ ts) =
      closeDistanceFrom depth (passed + run.length) ts := by
  induction h generalizing depth passed ts with
  | nil => rfl
  | @plain t run plain _ ih =>
    rw [List.cons_append, closeDistanceFrom, if_neg (by simp [plain.opens]),
      if_neg (by simp [plain.closes]), if_neg plain.inSource, ih hdepth, List.length_cons,
      Nat.add_assoc, Nat.add_comm 1]
  | @block opener closer inner run pair _ _ ihInside ihBehind =>
    obtain ⟨hopens, hnot, hcloses⟩ := TokenKind.opens_of_closer? pair
    have hlength : passed + 1 + inner.length + 1 + run.length =
        passed + (opener :: (inner ++ closer :: run)).length := by
      simp only [List.length_cons, List.length_append]
      omega
    rw [List.cons_append, List.append_assoc, List.cons_append, closeDistanceFrom, if_pos hopens,
      ihInside (Nat.succ_pos depth), closeDistanceFrom, if_neg (by simp [hnot]), if_pos hcloses,
      if_neg (by omega), Nat.succ_sub_one, ihBehind hdepth, hlength]

/-- The block around a balanced run ends right behind it. -/
theorem Balanced.closeDistance_block (h : Balanced inner)
    (pair : opener.kind.closer? = some closer.kind) (ts : List Token) :
    closeDistance (opener :: (inner ++ closer :: ts)) = inner.length + 1 := by
  obtain ⟨hopens, hnot, hcloses⟩ := TokenKind.opens_of_closer? pair
  rw [closeDistance, closeDistanceFrom, if_pos hopens, h.closeDistanceFrom_append (Nat.succ_pos 0),
    closeDistanceFrom, if_neg (by simp [hnot]), if_pos hcloses, if_pos (by omega)]
  omega

/-! ## The counter of a selector -/

/-- What is passed over where everything would halt is inside brackets all along. -/
theorem Inside.of_all {stop : Nat}
    (h : Inside (fun _ => true) TokenKind.inlineDepth depth ts stop) :
    Inside halts TokenKind.inlineDepth depth ts stop := by
  induction ts generalizing depth with
  | nil => exact h
  | cons t ts ih => exact ⟨fun hzero => h.1 ⟨hzero.1, rfl⟩, ih h.2⟩

/-- A run that leaves no bracket is solid. -/
theorem Inside.solid_of_all {stop : Nat}
    (h : Inside (fun _ => true) TokenKind.inlineDepth depth ts stop) : Solid depth ts stop := by
  induction ts generalizing depth with
  | nil => exact h
  | cons t ts ih => exact ⟨fun hzero => absurd ⟨hzero, rfl⟩ h.1, ih h.2⟩

/-- A token that is no bracket leaves the counter as it is. -/
theorem Token.IsPlain.inlineDepth (h : t.IsPlain) (depth : Nat) :
    t.kind.inlineDepth depth = depth := by
  obtain ⟨hopens, hcloses, -⟩ := h
  cases hkind : t.kind <;> rw [hkind] at hopens hcloses <;>
    first | rfl | exact absurd hopens (by decide) | exact absurd hcloses (by decide)

/-- A pair of brackets leaves the counter as it is; braces count for nothing. -/
theorem TokenKind.inlineDepth_closer? {kind closer : TokenKind} (h : kind.closer? = some closer)
    (depth : Nat) : depth ≤ kind.inlineDepth depth ∧
      closer.inlineDepth (kind.inlineDepth depth) = depth := by
  cases kind <;> cases h <;>
    simp [TokenKind.inlineDepth, TokenKind.opensInline, TokenKind.closesInline]

/-- Inside brackets a balanced run stays there. -/
theorem Balanced.inside (h : Balanced run) (hdepth : 0 < depth) :
    Inside (fun _ => true) TokenKind.inlineDepth depth run depth := by
  induction h generalizing depth with
  | nil => rfl
  | plain plain _ ih =>
    refine ⟨fun hzero => absurd hzero.1 (Nat.ne_of_gt hdepth), ?_⟩
    rw [plain.inlineDepth]
    exact ih hdepth
  | block pair _ _ ihInside ihBehind =>
    obtain ⟨hle, hclose⟩ := TokenKind.inlineDepth_closer? pair depth
    have hinner := Nat.lt_of_lt_of_le hdepth hle
    refine ⟨fun hzero => absurd hzero.1 (Nat.ne_of_gt hdepth), ?_⟩
    refine inside_append.mpr ⟨_, ihInside hinner, ?_⟩
    refine ⟨fun hzero => absurd hzero.1 (Nat.ne_of_gt hinner), ?_⟩
    rw [hclose]
    exact ihBehind hdepth

/-! ## Tokens outside brackets -/

/-- The brackets are balanced, and the tokens outside them satisfy `p`. -/
inductive OutsideBrackets (p : Token → Prop) : List Token → Prop
  | nil : OutsideBrackets p []
  | plain {t : Token} {ts : List Token} (plain : t.IsPlain) (outside : p t)
      (behind : OutsideBrackets p ts) : OutsideBrackets p (t :: ts)
  | block {opener closer : Token} {inner ts : List Token}
      (pair : opener.kind.closer? = some closer.kind) (inline : opener.kind.opensInline = true)
      (inside : Balanced inner) (behind : OutsideBrackets p ts) :
      OutsideBrackets p (opener :: (inner ++ closer :: ts))

/-- A token that neither parts nor ends a list of selectors. -/
structure Token.IsInner (t : Token) : Prop where
  notComma : partsSelectors t.kind = false
  notHalting : haltsPrelude t.kind = false

/-- A token that belongs to a compound: no blank or comment, and no combinator. -/
structure Token.IsCompact (t : Token) : Prop extends t.IsInner where
  notTrivia : t.isTrivia = false
  notCombinator : t.combinator? = none

namespace OutsideBrackets

variable {p q : Token → Prop}

/-- Tokens outside brackets that satisfy something satisfy everything weaker. -/
theorem mono (h : OutsideBrackets p run) (hpq : ∀ t, p t → q t) : OutsideBrackets q run := by
  induction h with
  | nil => exact .nil
  | plain plain outside _ ih => exact .plain plain (hpq _ outside) ih
  | block pair inline inside _ ih => exact .block pair inline inside ih

/-- Runs in a row satisfy outside brackets what both satisfy. -/
theorem append (h : OutsideBrackets p run) (hts : OutsideBrackets p ts) :
    OutsideBrackets p (run ++ ts) := by
  induction h with
  | nil => exact hts
  | plain plain outside _ ih => exact .plain plain outside ih
  | block pair inline inside _ ih =>
    rw [List.cons_append, List.append_assoc, List.cons_append]
    exact .block pair inline inside ih

/-- A run with something said of its tokens outside brackets is balanced. -/
theorem balanced (h : OutsideBrackets p run) : Balanced run := by
  induction h with
  | nil => exact .nil
  | plain plain _ _ ih => exact .plain plain ih
  | block pair _ inside _ ih => exact .block pair inside ih

end OutsideBrackets

/-- An opener that counts in a selector belongs to a compound. -/
theorem isCompact_of_opensInline (h : t.kind.opensInline = true) : t.IsCompact := by
  have hcases : t.kind = .function ∨ t.kind = .lparen ∨ t.kind = .lbracket := by
    cases hkind : t.kind <;> rw [hkind] at h <;> simp_all [TokenKind.opensInline]
  rcases hcases with hk | hk | hk <;> constructor <;> try constructor
  all_goals
    simp [Token.isTrivia, Token.combinator?, Token.isDelim, partsSelectors, haltsPrelude, hk]

/-- A block that counts in a selector is passed over; what stands behind it is outside brackets. -/
theorem Balanced.inside_block (h : Balanced inner)
    (pair : opener.kind.closer? = some closer.kind) (inline : opener.kind.opensInline = true) :
    opener.kind.inlineDepth 0 = 1 ∧ closer.kind.inlineDepth 1 = 0 ∧
      Inside (fun _ => true) TokenKind.inlineDepth 1 inner 1 := by
  obtain ⟨-, hclose⟩ := TokenKind.inlineDepth_closer? pair 0
  have hopen : opener.kind.inlineDepth 0 = 1 := by rw [TokenKind.inlineDepth, if_pos inline]
  rw [hopen] at hclose
  exact ⟨hopen, hclose, h.inside Nat.one_pos⟩

/-- A run of tokens that belong to a compound may be one. -/
theorem OutsideBrackets.solid (h : OutsideBrackets Token.IsCompact run) : Solid 0 run 0 := by
  induction h with
  | nil => rfl
  | plain plain compact _ ih =>
    refine ⟨fun _ => ⟨compact.notTrivia, compact.notCombinator⟩, ?_⟩
    rw [plain.inlineDepth]
    exact ih
  | block pair inline inside _ ih =>
    have hcompact := isCompact_of_opensInline inline
    obtain ⟨hopen, hclose, hinner⟩ := inside.inside_block pair inline
    refine ⟨fun _ => ⟨hcompact.notTrivia, hcompact.notCombinator⟩, ?_⟩
    rw [hopen]
    refine solid_append.mpr ⟨1, hinner.solid_of_all, fun hone => absurd hone Nat.one_ne_zero, ?_⟩
    rw [hclose]
    exact ih

/-- A run of inner tokens is passed over by what halts at none of these. -/
theorem OutsideBrackets.inside (h : OutsideBrackets Token.IsInner run)
    (hhalts : ∀ t : Token, t.IsInner → halts t.kind = false) :
    Inside halts TokenKind.inlineDepth 0 run 0 := by
  induction h with
  | nil => rfl
  | @plain t _ plain inner _ ih =>
    refine ⟨fun hhalt => ?_, ?_⟩
    · rw [hhalts t inner] at hhalt
      exact Bool.false_ne_true hhalt.2
    · rw [plain.inlineDepth]
      exact ih
  | @block opener _ _ _ pair inline inside _ ih =>
    have hinner := (isCompact_of_opensInline inline).toIsInner
    obtain ⟨hopen, hclose, hinside⟩ := inside.inside_block pair inline
    refine ⟨fun hhalt => ?_, ?_⟩
    · rw [hhalts opener hinner] at hhalt
      exact Bool.false_ne_true hhalt.2
    · rw [hopen]
      refine inside_append.mpr ⟨1, hinside.of_all, fun hone => absurd hone.1 Nat.one_ne_zero, ?_⟩
      rw [hclose]
      exact ih

end CssWorkbench
