import CssWorkbench.Proofs.Layout.BareReading
import CssWorkbench.Proofs.Layout.PrintedRun
import CssWorkbench.Proofs.Tree.SelectorBuilding

/-!
# Printing a compound

Inside brackets a compound may hold blanks, which are printed as spaces; outside brackets it has
none, and none are put there. The printed tokens are therefore a compound again.
-/

namespace CssWorkbench

variable {source : String} {t : Token} {ts tokens rest : List Token} {cs : List Char}
  {depth stop : Nat} {gap : Bool}

/-- Blanks and comments stay such when bare. -/
theorem Token.bare_isTrivia (t : Token) : t.bare.isTrivia = t.isTrivia := rfl

/-- A token means the same combinator when bare. -/
theorem Token.bare_combinator? (t : Token) : t.bare.combinator? = t.combinator? := rfl

/-- Where its tokens stand does not matter to a compound. -/
theorem solid_map_bare : Solid depth (ts.map Token.bare) stop ↔ Solid depth ts stop := by
  induction ts generalizing depth with
  | nil => rfl
  | cons t ts ih =>
    rw [List.map_cons, Solid, Solid, Token.bare_isTrivia, Token.bare_combinator?, Token.bare_kind,
      ih]

/-- A compound stays one with its blanks printed: they only stand inside brackets. -/
theorem Solid.spaced (h : Solid depth ts stop) (hgap : gap = true → depth ≠ 0) :
    Solid depth (spaced gap ts) stop := by
  induction ts generalizing depth gap with
  | nil => exact h
  | cons t ts ih =>
    obtain ⟨ht, hrest⟩ := h
    rw [CssWorkbench.spaced]
    split
    · rename_i hblank
      have hkind : t.kind = .whitespace := by simpa [Token.is] using hblank
      have hinside : depth ≠ 0 := fun hzero => by
        have htrivia := (ht hzero).1
        simp [Token.isTrivia, hkind] at htrivia
      have hsame : t.kind.inlineDepth depth = depth := by rw [hkind]; rfl
      rw [hsame] at hrest
      exact ih hrest fun _ => hinside
    · have hself : Solid depth (t.bare :: CssWorkbench.spaced false ts) stop :=
        ⟨ht, ih hrest (by simp)⟩
      split
      · rename_i hspace
        have hinside := hgap (Bool.and_eq_true_iff.mp hspace).1
        exact ⟨fun hzero => absurd hzero hinside, hself⟩
      · exact hself

/-- A compound starts with no blank. -/
theorem Solid.head (h : Solid 0 ts stop) : ∀ t ∈ ts.head?, t.kind ≠ .whitespace := by
  intro t ht hkind
  obtain ⟨ts, rfl⟩ := List.head?_eq_some_iff.mp ht
  have htrivia := (h.1 rfl).1
  simp [Token.isTrivia, hkind] at htrivia

/-- A compound that closes its brackets ends with neither a blank nor a function. -/
theorem Solid.getLast (h : Solid depth ts 0) :
    ∀ t ∈ ts.getLast?, t.kind ≠ .whitespace ∧ t.kind ≠ .function := by
  intro t ht
  obtain ⟨front, rfl⟩ := List.getLast?_eq_some_iff.mp ht
  obtain ⟨middle, -, hlast, hclosed⟩ := solid_append.mp h
  refine ⟨fun hkind => ?_, fun hkind => ?_⟩
  · rw [hkind] at hclosed
    have htrivia := (hlast hclosed).1
    simp [Token.isTrivia, hkind] at htrivia
  · rw [hkind] at hclosed
    exact absurd hclosed (Nat.succ_ne_zero middle)

/-- The characters of a compound start with one that is no blank. -/
theorem head?_spacedText (htail : TailOf source (tokens ++ rest) cs) (hne : tokens ≠ [])
    (hfirst : ∀ t ∈ tokens.head?, t.kind ≠ .whitespace) :
    ∃ c behind, spacedText source false tokens = c :: behind ∧ Text.isAsciiBlank c = false := by
  obtain ⟨t, tokens, rfl⟩ := List.exists_cons_of_ne_nil hne
  obtain ⟨c, front, x, rfl, hx, hread, -⟩ := htail.cons
  have hkind := hfirst t rfl
  obtain ⟨behind, htaken, -, -⟩ := hx.split hx.append
  refine ⟨c, behind ++ spacedText source false tokens, ?_, ?_⟩
  · rw [spacedText, if_neg (by simpa [Token.is] using hkind), hread.text, htaken]
    rfl
  · rw [Bool.eq_false_iff, ne_eq, hx.isAsciiBlank_iff, ← hread.kind]
    exact hkind

/-- The tokens of a source that stand together tile what they take. -/
theorem TailOf.tiles_front (h : TailOf source (tokens ++ rest) cs) :
    ∃ start stop, Tiles start stop tokens := by
  obtain ⟨start, stop, htiles⟩ := h.tiles
  obtain ⟨middle, hfront, -⟩ := tiles_append.mp htiles
  exact ⟨start, middle, hfront⟩

/-- Something is printed of a run that starts with no blank. -/
theorem joinTokens_ne_empty (htail : TailOf source (tokens ++ rest) cs) (hne : tokens ≠ [])
    (hfirst : ∀ t ∈ tokens.head?, t.kind ≠ .whitespace) : joinTokens source tokens ≠ "" := by
  obtain ⟨_, _, htiles⟩ := htail.tiles_front
  obtain ⟨c, behind, hjoin, -⟩ := head?_spacedText htail hne hfirst
  rw [← toList_joinTokens htiles hfirst] at hjoin
  intro hnil
  rw [hnil] at hjoin
  cases hjoin

end CssWorkbench
