import CssWorkbench.Proofs.Token.FirmCut
import CssWorkbench.Proofs.Token.Words
import CssWorkbench.Proofs.Tree.DeclarationPlaces
import CssWorkbench.Proofs.Tree.MovedReading
import CssWorkbench.Proofs.Tree.ReadingOfParser
import CssWorkbench.Proofs.Tree.Replacement

/-!
# A source without a declaration, or with another name for it

A source can be cut around each declaration of its tree: in front of it stands a firm token and then
blanks, and what stands behind it does not depend on it. Without the declaration the source is read
as the tree without it, and with another name in the place of its own as the tree with that name.
Only the places of what stands behind are others, so that trees are compared without any places.
-/

namespace CssWorkbench

variable {source after : String} {offset : Nat} {cs ds front blanks part behind name : List Char}
  {t : Token} {ts us : List Token} {nodes made : List Node} {place : TreeGap} {d : Declaration}
  {stop e : Nat} {errors : List SyntaxError}

/-- The nodes without the places where they stand. -/
def unplaced (nodes : List Node) : List Node := moveNodes (fun _ => 0) nodes

/-- The token without its place. -/
def Token.unplaced (t : Token) : Token := t.move fun _ => 0

/-- The tokens of a text are the same ones wherever it stands. -/
theorem unplaced_tokensFrom (offset offset' : Nat) (cs : List Char) :
    (tokensFrom offset cs).map Token.unplaced = (tokensFrom offset' cs).map Token.unplaced := by
  have hzero : ∀ offset, (tokensFrom offset cs).map Token.unplaced =
      (tokensFrom 0 cs).map Token.unplaced := by
    intro offset
    have hadd := tokensFrom_add offset 0 cs
    rw [Nat.add_zero] at hadd
    rw [hadd, List.map_map]
    rfl
  rw [hzero, hzero offset']

/-- A source whose tokens are others in their places only is read as nodes that are others in their
places only, with the same faults. -/
theorem unplaced_parse_of_reads (h : Reads stop 0 ts nodes e [] errors)
    (htokens : (tokensFrom 0 source.toList).map Token.unplaced = ts.map Token.unplaced) :
    unplaced (parse source).1.children = unplaced nodes ∧
      (parse source).2.map SyntaxError.fault = errors.map SyntaxError.fault := by
  have hconst : Monotone fun _ : Nat => 0 := fun _ _ _ => Nat.le_refl 0
  have hreads := (reads_parse source).move hconst
  have hgiven := h.move hconst
  rw [dropLast_scan] at hreads
  obtain ⟨hnodes, herrors⟩ :=
    Prod.mk.inj ((hreads.gives.1 rfl).symm.trans (htokens ▸ hgiven.gives.1 rfl))
  refine ⟨hnodes, ?_⟩
  have hfaults := congrArg (List.map SyntaxError.fault) herrors
  rwa [List.map_map, List.map_map] at hfaults

/-- A source is cut around a declaration of its tree. `front` ends with a firm token, and what is
read is known for whatever stands in the place of the rest. -/
structure CutAround (source : String) (place : TreeGap) (d : Declaration)
    (front blanks part behind : List Char) : Prop where
  text : source.toList = front ++ (blanks ++ (part ++ behind))
  blank : ∀ c ∈ blanks, Text.isAsciiBlank c = true
  span : d.span = ⟨Text.byteLength (front ++ blanks), Text.byteLength (front ++ blanks ++ part)⟩
  reads : ∃ ts left n, FirmFront 0 front ts ∧
    ReadsDeclaration (tokensFrom (Text.byteLength (front ++ blanks)) (part ++ behind)) d left ∧
    left.dropWhile (·.is .whitespace) =
      (tokensFrom (Text.byteLength (front ++ blanks ++ part)) behind).dropWhile
        (·.is .whitespace) ∧
    ∀ us made, ReadsAhead (Text.size source) (n + 1) us made left →
      Reads (Text.size source) 0 (ts ++ us) (place.fill made) (Text.size source) []
        (parse source).2

/-- A kind of token that settles what stands in front is firm and no blank. -/
theorem isFirm_of_settles (h : t.kind.settles = true) :
    t.kind.isFirm = true ∧ t.kind ≠ .whitespace := by
  revert h
  cases t.kind <;> simp [TokenKind.settles, TokenKind.isFirm]

/-- A source can be cut around every declaration of its tree. -/
theorem exists_cutAround (hplace : place.fill [.declaration d] = (parse source).1.children) :
    ∃ front blanks part behind, CutAround source place d front blanks part behind := by
  have hreads := reads_parse source
  rw [dropLast_scan] at hreads
  have hcut := hreads.cutAt (p := Token.eof 0) (.inl rfl) hplace
  obtain ⟨ts, gap, tokens, left, n, htokens, hgap, hsettles, hdeclares, hfill⟩ := hcut
  obtain rfl | ⟨ts, t, rfl⟩ := List.eq_nil_or_concat ts
  · cases hsettles
  rw [List.concat_eq_append] at htokens hsettles hfill
  rw [getLastD_append] at hsettles
  obtain ⟨hfirm, hsolid⟩ := isFirm_of_settles hsettles
  have hne : gap ++ tokens ≠ [] := by
    cases hdeclares
    simp
  rw [List.append_assoc, List.singleton_append] at htokens
  obtain ⟨front, cs, htext, hrest, hfront, -⟩ := exists_firm_cut htokens hfirm hsolid (.inl hne)
  obtain ⟨blanks, cs, rfl, hblanks, rfl⟩ := exists_split_blanks hrest.symm hgap
  rw [Nat.zero_add, ← Text.byteLength_append] at hdeclares
  obtain ⟨whole, gap', hwhole, hgap', hstart, htiles⟩ :=
    hdeclares.place (tiles_tokensFrom _ _)
  obtain ⟨part, behind, rfl, hbehind, hpart⟩ := exists_split hwhole
  refine ⟨front, blanks, part, behind, htext, hblanks, ?_, _, left, n, hfront, hdeclares, ?_, hfill⟩
  · have hspan : d.span = ⟨d.span.start, d.span.stop⟩ := rfl
    rw [Text.byteLength_append _ part, hspan, hstart, hpart.stop_unique htiles]
  · rw [Text.byteLength_append _ part, ← hbehind, List.dropWhile_append_of_pos]
    simpa [Token.is] using hgap'

/-- Blanks in front of a text are blanks in front of the tokens from the first character on that is
none. -/
theorem tokensFrom_dropWhile (hblanks : ∀ c ∈ blanks, Text.isAsciiBlank c = true) (cs : List Char)
    (offset : Nat) :
    ∃ gap offset', tokensFrom offset (blanks ++ cs) =
        gap ++ tokensFrom offset' (cs.dropWhile Text.isAsciiBlank) ∧
      (∀ t ∈ gap, t.kind = .whitespace) ∧
      (tokensFrom offset (blanks ++ cs)).dropWhile (·.is .whitespace) =
        tokensFrom offset' (cs.dropWhile Text.isAsciiBlank) := by
  have hnext := head?_dropWhile_any Text.isAsciiBlank cs
  have hall : ∀ c ∈ blanks ++ cs.takeWhile Text.isAsciiBlank, Text.isAsciiBlank c = true :=
    List.forall_mem_append.mpr ⟨hblanks, List.all_eq_true.mp List.all_takeWhile⟩
  obtain ⟨gap, offset', htokens, hgap, -⟩ := tokensFrom_blanks hall hnext offset
  rw [List.append_assoc, List.takeWhile_append_dropWhile] at htokens
  refine ⟨gap, offset', htokens, hgap, ?_⟩
  rw [htokens, List.dropWhile_append_of_pos (by simpa [Token.is] using hgap)]
  generalize cs.dropWhile Text.isAsciiBlank = ds at hnext
  cases ds with
  | nil => rw [tokensFrom_nil, List.dropWhile_nil]
  | cons c ds =>
    have hc : Text.isAsciiBlank c = false := hnext
    rw [tokensFrom_cons, List.dropWhile_cons_of_neg]
    simp only [Token.is, decide_eq_true_eq]
    rw [Lexeme.token, ← (isLexeme_lexeme c ds).isAsciiBlank_iff, hc]
    exact Bool.false_ne_true

/-- With blanks in the place of a declaration and the blanks around it the source is read as the tree
without the declaration. -/
theorem CutAround.remove (h : CutAround source place d front blanks part (ds ++ behind))
    {gap : List Char} (hds : ∀ c ∈ ds, Text.isAsciiBlank c = true)
    (hgap : ∀ c ∈ gap, Text.isAsciiBlank c = true)
    (hafter : after.toList = front ++ (gap ++ behind)) :
    unplaced (parse after).1.children = unplaced (place.fill []) ∧
      (parse after).2.map SyntaxError.fault = (parse source).2.map SyntaxError.fault := by
  obtain ⟨ts, left, n, hfront, -, hleft, hreads⟩ := h.reads
  obtain ⟨-, middle, -, -, hbefore⟩ := tokensFrom_dropWhile hds behind
    (Text.byteLength (front ++ blanks ++ part))
  obtain ⟨us, middle', htokens, hus, -⟩ := tokensFrom_dropWhile hgap behind
    (0 + Text.byteLength front)
  rw [hbefore] at hleft
  refine unplaced_parse_of_reads (hreads _ [] (readsAhead_blanks hus)) ?_
  rw [hafter, hfront.tokens, htokens, hleft]
  simp only [List.map_append, unplaced_tokensFrom middle middle']

/-- Where a declaration has its colon next, blanks aside, an inert character comes next. -/
theorem StartsDeclaration.inert (h : StartsDeclaration t (tokensFrom offset cs)) :
    ∃ b ds, cs = b :: ds ∧ isInert b = true := by
  obtain ⟨-, colon, behind, hgap, hcolon⟩ := h
  cases cs with
  | nil => simp at hgap
  | cons c cs =>
    refine ⟨c, cs, rfl, ?_⟩
    have hx := isLexeme_lexeme c cs
    rw [tokensFrom_cons, List.dropWhile_cons] at hgap
    generalize lexeme c cs = x at hx hgap
    split at hgap
    · rename_i hblank
      have hkind : x.kind = .whitespace := of_decide_eq_true hblank
      rw [isInert, hx.isAsciiBlank_iff.mpr hkind]
      rfl
    · obtain ⟨rfl, -⟩ := List.cons.inj hgap
      have hkind : x.kind = .colon := hcolon
      rw [hx.eq_punctuation (by rw [hkind]; rfl)] at hkind
      have hc : punctuationKind c = .colon := hkind
      unfold punctuationKind at hc
      split at hc <;> first | rfl | cases hc

/-- A word does not start with a blank. -/
theorem IsWord.not_blank (h : IsWord name) (ds : List Char) :
    (name ++ ds).head?.any Text.isAsciiBlank = false := by
  cases name with
  | nil => cases h.ident
  | cons c cs =>
    have hplain := List.all_eq_true.mp h.plain c List.mem_cons_self
    refine Bool.eq_false_iff.mpr fun hblank => ?_
    have hc : Text.isAsciiBlank c = true := by simpa using hblank
    rw [isNameChar_of_isInert (by simp [isInert, hc])] at hplain
    cases hplain

/-- With another word in the place of its name the source is read as the tree with another name of
the declaration. -/
theorem CutAround.rename (h : CutAround source place d front blanks part behind)
    (hword : IsWord name) :
    ∃ written more, part ++ behind = written ++ more ∧
      d.property.span = ⟨Text.byteLength (front ++ blanks),
        Text.byteLength (front ++ blanks ++ written)⟩ ∧
      ∀ after : String, after.toList = front ++ (blanks ++ (name ++ more)) →
        unplaced (parse after).1.children =
            unplaced (place.fill [.declaration
              { d with property := { d.property with value := String.ofList name } }]) ∧
          (parse after).2.map SyntaxError.fault = (parse source).2.map SyntaxError.fault := by
  obtain ⟨ts, left, n, hfront, hdeclares, -, hreads⟩ := h.reads
  generalize part ++ behind = cs at hdeclares
  cases cs with
  | nil => rw [tokensFrom_nil] at hdeclares; cases hdeclares
  | cons c cs =>
    rw [tokensFrom_cons] at hdeclares
    obtain ⟨hproperty, hstarts⟩ := hdeclares.name
    obtain ⟨b, ds, hmore, hb⟩ := hstarts.inert
    refine ⟨(lexeme c cs).taken, (lexeme c cs).rest, (lexeme_append c cs).symm, ?_, ?_⟩
    · rw [hproperty, Lexeme.token, Text.byteLength_append _ (lexeme c cs).taken]
    · intro after hafter
      obtain ⟨us, middle, htokens, hus, -⟩ := tokensFrom_blanks h.blank
        (hword.not_blank (lexeme c cs).rest) (0 + Text.byteLength front)
      have hident : d.property.kind = .ident := hproperty ▸ hstarts.1
      have hrenamed := hdeclares.rename (u := { d.property with value := String.ofList name })
        hident (hproperty ▸ rfl)
      refine unplaced_parse_of_reads (hreads _ _ (hrenamed.readsAhead hus)) ?_
      rw [hafter, hfront.tokens, htokens]
      cases name with
      | nil => cases hword.ident
      | cons c' cs' =>
        rw [List.cons_append, hmore, tokensFrom_eq_cons (hword.isLexeme_inert hb ds), ← hmore]
        simp only [List.map_append, List.map_cons]
        rw [unplaced_tokensFrom (middle + _), hident]
        rfl

end CssWorkbench
