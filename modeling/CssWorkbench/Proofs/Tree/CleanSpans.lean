import CssWorkbench.Proofs.Tree.Declarations
import CssWorkbench.Proofs.Tree.Origins
import CssWorkbench.Proofs.Tree.ValueTokens

/-!
# Spans that split no character

The spans of a tree start and end where tokens do, or at the end of the source. So the text of a
node and that of a value can be cut out of the source.
-/

namespace CssWorkbench

variable {source : String} {s : Span} {node : Node} {t : Token} {ts inner : List Token} {e : Nat}

/-- The text of a span, if neither of its ends is inside a character. The ends are moved into the
source first. -/
def Span.cut? (s : Span) (source : String) : Option (List Char) :=
  let stop := min s.stop (Text.size source)
  Text.slice? (min s.start stop) stop source.toList

/-- Both ends of a span are places between characters of the source. -/
structure Span.IsClean (source : String) (s : Span) : Prop where
  start : (String.Pos.Raw.mk s.start).IsValid source
  stop : (String.Pos.Raw.mk s.stop).IsValid source

/-- Between two places of a source there is a text. -/
theorem slice?_isSome {start stop : Nat} (hstart : (String.Pos.Raw.mk start).IsValid source)
    (hstop : (String.Pos.Raw.mk stop).IsValid source) (hle : start ≤ stop) :
    (Text.slice? start stop source.toList).isSome := by
  obtain ⟨before, middle, after, hsource, rfl, rfl⟩ := exists_parts hstart hstop hle
  rw [Text.byteLength_append, Text.slice?_of_toList_eq hsource]
  rfl

/-- Places between characters are within the text. -/
theorem le_size_of_isValid {place : Nat} (h : (String.Pos.Raw.mk place).IsValid source) :
    place ≤ Text.size source := by
  obtain ⟨i, rfl⟩ := exists_take_of_isValid h
  have hsize := congrArg Text.byteLength (List.take_append_drop i source.toList)
  rw [Text.byteLength_append] at hsize
  rw [Text.size]
  omega

/-- The text of a span that splits no character is there. -/
theorem Span.IsClean.cut?_eq (h : s.IsClean source) :
    s.cut? source = some (s.chars source.toList) := by
  have hsome : (s.cut? source).isSome := by
    rw [cut?, Nat.min_eq_left (le_size_of_isValid h.stop)]
    rcases Nat.le_total s.start s.stop with hle | hle
    · rw [Nat.min_eq_left hle]
      exact slice?_isSome h.start h.stop hle
    · rw [Nat.min_eq_right hle]
      exact slice?_isSome h.stop h.stop (Nat.le_refl _)
  obtain ⟨text, htext⟩ := Option.isSome_iff_exists.mp hsome
  have hchars : s.chars source.toList = (s.cut? source).getD [] := rfl
  rw [hchars, htext]
  rfl

/-! ## Tokens -/

/-- The end of a text is a place between characters. -/
theorem isValid_size (source : String) : (String.Pos.Raw.mk (Text.size source)).IsValid source :=
  Text.isValid_of_toList_eq (List.append_nil _).symm

/-- The later one of two places between characters is one. -/
theorem isValid_max {m n : Nat} (hm : (String.Pos.Raw.mk m).IsValid source)
    (hn : (String.Pos.Raw.mk n).IsValid source) : (String.Pos.Raw.mk (max m n)).IsValid source := by
  rcases Nat.le_total m n with hle | hle
  · rwa [Nat.max_eq_right hle]
  · rwa [Nat.max_eq_left hle]

/-- The span of a token splits no character. -/
theorem isClean_of_mem_tokensFrom (ht : t ∈ tokensFrom 0 source.toList) :
    t.span.IsClean source := by
  obtain ⟨-, before, part, behind, -, hsource, hstart, hstop⟩ :=
    exists_part_of_mem_tokensFrom [] rfl ht
  have hend : t.stop = Text.byteLength (before ++ part) := by
    rw [hstop, hstart, Text.byteLength_append]
  have hfront := Text.isValid_of_toList_eq hsource
  have hboth := Text.isValid_of_toList_eq (hsource.trans (List.append_assoc ..).symm)
  rw [← hstart] at hfront
  rw [← hend] at hboth
  exact ⟨hfront, hboth⟩

/-- The end of a block among clean tokens is a place between characters. -/
theorem BlockEnd.isValid (h : BlockEnd (Text.size source) inner e)
    (hinner : ∀ u ∈ inner, u.span.IsClean source) : (String.Pos.Raw.mk e).IsValid source := by
  rcases h with rfl | ⟨closer, hcloser, -, rfl⟩
  · exact isValid_size source
  · exact (hinner closer hcloser).stop

/-! ## Nodes -/

/-- An at-rule without a block ends behind one of its tokens. -/
theorem ReadsStatement.isClean {stop : Nat} {left : List Token} {errors : List SyntaxError}
    (h : ReadsStatement stop t ts node left errors)
    (hts : ∀ u ∈ t :: ts, u.span.IsClean source) : node.span.IsClean source := by
  have ht := hts t List.mem_cons_self
  cases h with
  | @ended semicolon prelude _ run =>
    have hmem : semicolon ∈ t :: ts := by
      rw [takeRun_eq_append run]
      simp
    exact ⟨ht.start, (hts semicolon hmem).stop⟩
  | @broken prelude _ run =>
    refine ⟨ht.start, ?_⟩
    show (String.Pos.Raw.mk (lastSignificantStop t.stop prelude)).IsValid source
    unfold lastSignificantStop
    split
    · rename_i front last hsplit
      obtain ⟨-, gap, hprelude, -⟩ := splitLastSignificant?_eq_some hsplit
      refine (hts last ?_).stop
      rw [takeRun_eq_append run, hprelude]
      simp
    · exact ht.stop

/-- A declaration ends behind one of its tokens, and so does its value. -/
theorem declarationNode_isClean {colon : Token} {run : List Token} {semicolon : Option Token}
    (ht : t.span.IsClean source) (hcolon : colon.span.IsClean source)
    (hrun : ∀ u ∈ run, u.span.IsClean source)
    (hsemicolon : ∀ u ∈ semicolon, u.span.IsClean source) :
    (declarationNode t colon run semicolon).span.IsClean source ∧
      ∀ v, (declarationNode t colon run semicolon).value = some v → v.span.IsClean source := by
  rw [declarationNode_eq]
  refine ⟨⟨ht.start, ?_⟩, fun v hv => ?_⟩
  · cases semicolon with
    | some u => exact (hsemicolon u rfl).stop
    | none =>
      show (String.Pos.Raw.mk (valueEnd colon run)).IsValid source
      unfold valueEnd
      split
      · rename_i last hlast
        have hmem := mem_of_mem_trimTrailingBlanks (List.mem_of_getLast? hlast)
        exact isValid_max (hrun last hmem).stop hcolon.stop
      · exact hcolon.stop
  · obtain ⟨behind, happend, -⟩ := valueTokens_append run
    have hmem : ∀ u ∈ valueTokens run, u.span.IsClean source := fun u hu =>
      hrun u (happend ▸ List.mem_append_left _ hu)
    have hvalue : Value.ofTokens? (valueTokens run) = some v := hv
    unfold Value.ofTokens? at hvalue
    split at hvalue
    · rename_i first last hfirst hlast
      obtain rfl := Option.some.inj hvalue
      exact ⟨(hmem first (List.mem_of_head? hfirst)).start,
        (hmem last (List.mem_of_getLast? hlast)).stop⟩
    · cases hvalue

/-- The spans of a node split no character. -/
theorem MadeOf.isClean (h : MadeOf (Text.size source) (tokensFrom 0 source.toList) node) :
    node.span.IsClean source ∧
      ∀ d v, node = .declaration d → d.value = some v → v.span.IsClean source := by
  have htokens : ∀ us, us <:+ tokensFrom 0 source.toList → ∀ u ∈ us, u.span.IsClean source :=
    fun us hus u hu => isClean_of_mem_tokensFrom (hus.mem hu)
  cases h with
  | comment place =>
    exact ⟨htokens _ place _ List.mem_cons_self, fun d v hd => by cases hd⟩
  | @declaration t colon ts behindColon run left place _ gap value =>
    have hts := htokens _ place
    have hcolon : colon :: behindColon <:+ ts := gap ▸ List.dropWhile_suffix _
    have hleft : run ++ left <:+ ts :=
      ((takeRun_eq_append value ▸ List.dropWhile_suffix _).trans (List.suffix_cons _ _)).trans hcolon
    have hbehind : ∀ us, us <:+ ts → ∀ u ∈ us, u.span.IsClean source :=
      fun us hus u hu => hts u (List.mem_cons_of_mem _ (hus.mem hu))
    obtain ⟨hspan, hvalue⟩ := @declarationNode_isClean source t colon run (takeSemicolon left).1
      (hts t List.mem_cons_self) (hbehind _ hcolon colon List.mem_cons_self)
      (fun u hu => hbehind _ hleft u (List.mem_append_left _ hu)) fun u hu => by
        refine hbehind _ hleft u (List.mem_append_right _ ?_)
        cases left with
        | nil => cases hu
        | cons first left =>
          rw [takeSemicolon] at hu
          split at hu
          · exact Option.some.inj hu ▸ List.mem_cons_self
          · cases hu
    exact ⟨hspan, fun d v hd => (Node.declaration.inj hd) ▸ hvalue v⟩
  | statement place rule =>
    refine ⟨rule.isClean (htokens _ place), fun d v hd => ?_⟩
    have hnone := rule.no_declaration.1
    rw [hd] at hnone
    cases hnone
  | @block n e t opener ts inner make place head ends children =>
    obtain ⟨before, happend, -, hspan, -⟩ := head.append children ⟨opener.start, e⟩
    have hinner : ∀ u ∈ inner, u.span.IsClean source := fun u hu => by
      refine htokens _ place u ?_
      rw [happend]
      exact List.mem_append_right _ (List.mem_cons_of_mem _ hu)
    have hend := ends.isValid hinner
    refine ⟨?_, fun d v hd => ?_⟩
    · rw [hspan]
      exact ⟨(htokens _ place t List.mem_cons_self).start, hend⟩
    · have hnone := (head.no_declaration children ⟨opener.start, e⟩).1
      rw [hd] at hnone
      cases hnone

end CssWorkbench
