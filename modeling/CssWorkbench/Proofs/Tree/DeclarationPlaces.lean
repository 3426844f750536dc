import CssWorkbench.Proofs.Tree.Declarations
import CssWorkbench.Proofs.Tree.Stretches
import CssWorkbench.Proofs.Token.Coverage

/-!
# Where declarations are read

However deep a declaration stands in the tree, it was read at some place of the tokens: an identifier,
a colon behind it, and a run that goes up to a `;`, a `}` or the end. Without errors the tokens do not
end there. The tokens of the declaration go from its start to its end, and only blanks stand between
its end and what is left.
-/

namespace CssWorkbench

variable {stop n e : Nat} {ts us rest : List Token} {nodes : List Node} {d : Declaration}
  {errors : List SyntaxError}

/-- The declaration is read somewhere among the tokens; `closed` says that it does not end with
them. -/
def ReadFrom (closed : Prop) (ts : List Token) (d : Declaration) : Prop :=
  ∃ t colon behind behindColon run left, t :: behind <:+ ts ∧ t.kind = .ident ∧
    behind.dropWhile (·.is .whitespace) = colon :: behindColon ∧
    takeValue (behindColon.dropWhile (·.is .whitespace)) = (run, left) ∧ (closed → left ≠ []) ∧
    d = declarationNode t colon run (takeSemicolon left).1

variable {closed closed' : Prop}

/-- A declaration that is read from some tokens is read from more tokens in front. -/
theorem ReadFrom.of_suffix (h : ReadFrom closed us d) (himp : closed' → closed)
    (hsuffix : us <:+ ts) : ReadFrom closed' ts d := by
  obtain ⟨t, colon, behind, behindColon, run, left, ht, hrest⟩ := h
  obtain ⟨hkind, gap, value, hleft, hd⟩ := hrest
  exact ⟨t, colon, behind, behindColon, run, left, ht.trans hsuffix, hkind, gap, value,
    fun hclosed => hleft (himp hclosed), hd⟩

/-- Every declaration of the tree is read somewhere among the tokens, and if nothing is wrong it
does not end with them. -/
theorem Reads.readFrom (h : Reads stop n ts nodes e rest errors) :
    ∀ d ∈ declarationsOf nodes, ReadFrom (errors = []) ts d := by
  induction h with
  | finish | unclosed | close => exact fun d hd => absurd hd List.not_mem_nil
  | stray _ _ ih => exact fun d hd => (ih d hd).of_suffix nofun (List.suffix_cons _ _)
  | pass _ _ ih => exact fun d hd => (ih d hd).of_suffix id (List.suffix_cons _ _)
  | comment _ _ ih => exact fun d hd => (ih d hd).of_suffix id (List.suffix_cons _ _)
  | @declaration n t colon ts behindColon run left _ _ _ _ kind gap _ value behind ih =>
    intro d hd
    rw [declarationsOf_declaration, List.mem_cons] at hd
    rcases hd with rfl | hd
    · refine ⟨t, colon, ts, behindColon, run, left, List.suffix_refl _, kind, gap, value, ?_, rfl⟩
      rintro hclean rfl
      exact behind.ne_nil hclean rfl
    · exact (ih d hd).of_suffix id ((declaration_suffix gap value).trans (List.suffix_cons _ _))
  | statement _ rule _ ih =>
    intro d hd
    obtain ⟨hnone, hchildren⟩ := rule.no_declaration
    rw [declarationsOf_cons hnone, hchildren] at hd
    exact (ih d hd).of_suffix (fun hclean => (List.append_eq_nil_iff.mp hclean).2)
      (rule.suffix.trans (List.suffix_cons _ _))
  | @block _ t opener ts _ _ _ _ children _ inside _ _ _ head _ body _ ihBody ih =>
    intro d hd
    obtain ⟨hnone, hchildren⟩ := head.no_declaration children ⟨opener.start, inside⟩
    have hinner := head.suffix.trans (List.suffix_cons t ts)
    rw [declarationsOf_cons hnone, hchildren, List.mem_append] at hd
    rcases hd with hd | hd
    · exact (ihBody d hd).of_suffix (fun hclean => (List.append_eq_nil_iff.mp hclean).1) hinner
    · exact (ih d hd).of_suffix (fun hclean => (List.append_eq_nil_iff.mp hclean).2)
        (body.suffix.trans hinner)
  | @deepBlock _ _ opener _ inner _ _ _ _ _ head _ _ ih =>
    intro d hd
    obtain ⟨hnone, hchildren⟩ := head.no_declaration [] ⟨opener.start, (skipBlock stop 1 inner).1⟩
    rw [declarationsOf_cons hnone, hchildren] at hd
    exact (ih d hd).of_suffix nofun
      (((skipBlock_suffix stop 1 inner).trans head.suffix).trans (List.suffix_cons _ _))
  | broken _ _ _ run _ _ ih =>
    intro d hd
    exact (ih d hd).of_suffix nofun
      (((afterBroken_suffix _ _).trans (takeRun_suffix run)).trans (List.suffix_cons _ _))

variable {start : Nat} {t colon : Token} {run left gap : List Token}

/-- Without a semicolon a declaration ends with its colon or with the last token of its value that is
no blank. -/
theorem Tiles.value (htiles : Tiles start stop (colon :: (gap ++ (run ++ left))))
    (hgap : ∀ u ∈ gap, u.kind = .whitespace) (t : Token) :
    ∃ whole blanks, colon :: (gap ++ run) = whole ++ blanks ∧
      (∀ u ∈ blanks, u.kind = .whitespace) ∧
      Tiles start (declarationNode t colon run none).span.stop whole := by
  obtain ⟨trimmed, hrun, htrimmed⟩ := trimTrailingBlanks_append run
  cases hlast : (trimTrailingBlanks run).getLast? with
  | none =>
    rw [List.getLast?_eq_none_iff.mp hlast, List.nil_append] at hrun
    refine ⟨[colon], gap ++ run, rfl, List.forall_mem_append.mpr ⟨hgap, hrun ▸ htrimmed⟩,
      htiles.1, htiles.2.1, ?_⟩
    simp [declarationNode, hlast, Tiles]
  | some last =>
    generalize hvalue : trimTrailingBlanks run = value at hrun hlast
    subst hrun
    have hwhole : colon :: (gap ++ (value ++ trimmed ++ left)) =
        colon :: (gap ++ value) ++ (trimmed ++ left) := by simp
    rw [hwhole] at htiles
    obtain ⟨middle, hfront, -⟩ := tiles_append.mp htiles
    refine ⟨colon :: (gap ++ value), trimmed, by simp, htrimmed, ?_⟩
    have hend : (colon :: (gap ++ value)).getLast? = some last := by
      rw [List.getLast?_cons, List.getLast?_append, hlast]
      rfl
    have hmiddle := hfront.getLast hend
    have hbehind := hfront.2.2.le
    have hstop : (declarationNode t colon (value ++ trimmed) none).span.stop = middle := by
      simp only [declarationNode, hvalue, hlast, Option.map_none, Option.getD_none]
      omega
    rwa [hstop]

/-- A declaration ends in front of blanks, which stand in front of what is left. -/
theorem ReadsDeclaration.place (h : ReadsDeclaration ts d left) (htiles : Tiles start stop ts) :
    ∃ whole blanks, ts = whole ++ (blanks ++ left) ∧ (∀ u ∈ blanks, u.kind = .whitespace) ∧
      d.span.start = start ∧ Tiles start d.span.stop whole := by
  cases h with
  | @intro t colon ts behindColon run left kind hgap colonKind value =>
    obtain ⟨blanks, rfl, -⟩ := exists_blanks_append hgap
    obtain ⟨blanks', rfl, hblanks'⟩ := exists_blanks_append (takeRun_eq_append value)
    have hlist : t :: (blanks ++ colon :: (blanks' ++ (run ++ left))) =
        t :: blanks ++ colon :: (blanks' ++ (run ++ left)) := rfl
    rw [hlist] at htiles ⊢
    obtain ⟨middle, hname, hvalue⟩ := tiles_append.mp htiles
    have hleft := takeSemicolon_append left
    generalize takeSemicolon left = p at hleft
    obtain ⟨_ | semicolon, behind⟩ := p
    · obtain rfl : behind = left := hleft
      obtain ⟨whole, gap, hwhole, hblank, hplace⟩ := hvalue.value hblanks' t
      refine ⟨t :: blanks ++ whole, gap, ?_, hblank, hname.1, tiles_append.mpr ⟨_, hname, hplace⟩⟩
      rw [List.append_assoc, ← List.append_assoc whole, ← hwhole]
      simp
    · obtain rfl : semicolon :: behind = left := hleft
      have hsplit : colon :: (blanks' ++ (run ++ semicolon :: behind)) =
          colon :: (blanks' ++ (run ++ [semicolon])) ++ behind := by simp
      rw [hsplit] at hvalue ⊢
      obtain ⟨last, hwhole, -⟩ := tiles_append.mp hvalue
      have hend : (colon :: (blanks' ++ (run ++ [semicolon]))).getLast? = some semicolon := by
        rw [List.getLast?_cons, ← List.append_assoc, List.getLast?_concat]
        rfl
      have hlast := hwhole.getLast hend
      refine ⟨t :: blanks ++ colon :: (blanks' ++ (run ++ [semicolon])), [], by simp, by simp,
        hname.1, tiles_append.mpr ⟨_, hname, ?_⟩⟩
      rwa [← hlast] at hwhole

end CssWorkbench
