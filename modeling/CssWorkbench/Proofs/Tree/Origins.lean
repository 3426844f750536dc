import CssWorkbench.Proofs.Text.Positions
import CssWorkbench.Proofs.Token.KindCases
import CssWorkbench.Proofs.Tree.BlockEnds

/-!
# Where the nodes of a tree come from

A node is made at one place among the tokens: of a comment, a declaration, an at-rule without a block
or a head with a block behind it. `MadeOf` keeps what the reading knew there, so that a statement
about single nodes needs no induction over a reading of its own.
-/

namespace CssWorkbench

variable {stop n e : Nat} {t : Token} {ts us tokens inner rest : List Token}
  {node : Node} {nodes : List Node} {errors : List SyntaxError}

/-- A block ends with a `}` among the tokens behind its opener or, when nothing closes it, with the
source. -/
def BlockEnd (stop : Nat) (inner : List Token) (e : Nat) : Prop :=
  e = stop ∨ ∃ closer ∈ inner, closer.kind = .rbrace ∧ closer.stop = e

/-- What a node among and below those that are read of some tokens is made of. -/
inductive MadeOf (stop : Nat) (tokens : List Token) : Node → Prop
  | comment {t : Token} {ts : List Token} (place : t :: ts <:+ tokens) (kind : t.kind = .comment) :
      MadeOf stop tokens (.comment t.span)
  | declaration {t colon : Token} {ts behindColon run left : List Token}
      (place : t :: ts <:+ tokens) (kind : t.kind = .ident)
      (gap : ts.dropWhile (·.is .whitespace) = colon :: behindColon)
      (value : takeValue (behindColon.dropWhile (·.is .whitespace)) = (run, left)) :
      MadeOf stop tokens (.declaration (declarationNode t colon run (takeSemicolon left).1))
  | statement {t : Token} {ts left : List Token} {node : Node} {errors : List SyntaxError}
      (place : t :: ts <:+ tokens) (rule : ReadsStatement stop t ts node left errors) :
      MadeOf stop tokens node
  | block {n e : Nat} {t opener : Token} {ts inner : List Token} {make : List Node → Span → Node}
      (place : t :: ts <:+ tokens) (head : Heads n t ts opener inner make)
      (ends : BlockEnd stop inner e) (children : List Node) :
      MadeOf stop tokens (make children ⟨opener.start, e⟩)

/-- The end of a block among some tokens is one among more tokens in front. -/
theorem BlockEnd.mono (h : BlockEnd stop us e) (hsuffix : us <:+ ts) : BlockEnd stop ts e :=
  h.imp_right fun ⟨closer, hcloser, hkind⟩ => ⟨closer, hsuffix.mem hcloser, hkind⟩

/-- A block that is skipped ends where its `}` is found. -/
theorem blockEnd_skipBlock (stop depth : Nat) (ts : List Token) :
    BlockEnd stop ts (skipBlock stop depth ts).1 := by
  induction ts generalizing depth with
  | nil => exact .inl rfl
  | cons t ts ih =>
    have hrest : ∀ d, BlockEnd stop (t :: ts) (skipBlock stop d ts).1 :=
      fun d => (ih d).mono (List.suffix_cons t ts)
    rw [skipBlock]
    split
    · exact hrest _
    · rename_i hkind
      split
      · exact .inr ⟨t, List.mem_cons_self, hkind, rfl⟩
      · exact hrest _
    · exact hrest _

/-- The body of a block is read up to its end. -/
theorem Reads.blockEnd (h : Reads stop n ts nodes e rest errors) (hn : 0 < n) :
    BlockEnd stop ts e := by
  induction h with
  | finish | stray => exact absurd hn (Nat.lt_irrefl 0)
  | unclosed => exact .inl rfl
  | @close _ t _ kind => exact .inr ⟨t, List.mem_cons_self, kind, rfl⟩
  | pass _ _ ih | comment _ _ ih => exact (ih hn).mono (List.suffix_cons _ _)
  | declaration _ gap _ value _ ih =>
    exact (ih hn).mono ((declaration_suffix gap value).trans (List.suffix_cons _ _))
  | statement _ rule _ ih => exact (ih hn).mono (rule.suffix.trans (List.suffix_cons _ _))
  | block head _ body _ _ ih =>
    exact (ih hn).mono ((body.suffix.trans head.suffix).trans (List.suffix_cons _ _))
  | deepBlock head _ _ ih =>
    exact (ih hn).mono (((skipBlock_suffix stop 1 _).trans head.suffix).trans (List.suffix_cons _ _))
  | broken _ _ _ run _ _ ih =>
    exact (ih hn).mono (((afterBroken_suffix _ _).trans (takeRun_suffix run)).trans
      (List.suffix_cons _ _))

/-- All nodes that are read of some tokens, those below others included, are made of them. -/
theorem Reads.madeOf (h : Reads stop n ts nodes e rest errors) (hts : ts <:+ tokens) :
    ∀ node, Below node nodes → MadeOf stop tokens node := by
  induction h with
  | finish | unclosed | close => exact fun node hnode => absurd hnode not_below_nil
  | stray _ _ ih | pass _ _ ih => exact ih ((List.suffix_cons _ _).trans hts)
  | comment kind _ ih =>
    exact forall_below_cons (.comment hts kind) (fun m hm => absurd hm not_below_nil)
      (ih ((List.suffix_cons _ _).trans hts))
  | declaration kind gap _ value _ ih =>
    exact forall_below_cons (.declaration hts kind gap value) (fun m hm => absurd hm not_below_nil)
      (ih (((declaration_suffix gap value).trans (List.suffix_cons _ _)).trans hts))
  | statement _ rule _ ih =>
    refine forall_below_cons (.statement hts rule) (fun m hm => ?_)
      (ih ((rule.suffix.trans (List.suffix_cons _ _)).trans hts))
    cases rule <;> exact absurd hm not_below_nil
  | @block _ _ opener _ _ _ _ _ children _ inside _ _ _ head _ body _ ihBody ih =>
    have hinner := (head.suffix.trans (List.suffix_cons _ _)).trans hts
    obtain ⟨-, -, -, -, -, hchildren⟩ := head.append children ⟨opener.start, inside⟩
    exact forall_below_cons (.block hts head (body.blockEnd (Nat.succ_pos _)) children)
      (fun m hm => ihBody hinner m (hchildren ▸ hm)) (ih (body.suffix.trans hinner))
  | @deepBlock _ _ opener _ inner _ _ _ _ _ head _ _ ih =>
    have hinner := (head.suffix.trans (List.suffix_cons _ _)).trans hts
    obtain ⟨-, -, -, -, -, hchildren⟩ :=
      head.append [] ⟨opener.start, (skipBlock stop 1 inner).1⟩
    exact forall_below_cons (.block hts head (blockEnd_skipBlock stop 1 _) [])
      (fun m hm => absurd (hchildren ▸ hm) not_below_nil)
      (ih ((skipBlock_suffix stop 1 inner).trans hinner))
  | broken _ _ _ run _ _ ih =>
    exact ih ((((afterBroken_suffix _ _).trans (takeRun_suffix run)).trans
      (List.suffix_cons _ _)).trans hts)

/-- The nodes of a tree are made of the tokens of the source. -/
theorem parse_madeOf (source : String) (h : Below node (parse source).1.children) :
    MadeOf (Text.size source) (tokensFrom 0 source.toList) node :=
  (reads_parse source).madeOf (List.suffix_refl _) node h

/-! ## The text of a block -/

/-- A punctuation mark that has a kind of its own stands where its token does. -/
theorem exists_char_of_mem_tokensFrom {source : String} {d : Char}
    (ht : t ∈ tokensFrom 0 source.toList) (hkind : t.kind = punctuationKind d)
    (hd : punctuationKind d ≠ .delim) :
    ∃ before behind, source.toList = before ++ d :: behind ∧ t.start = Text.byteLength before ∧
      t.stop = t.start + d.utf8Size := by
  obtain ⟨before, c, behind, hsource, rfl⟩ := exists_lexeme_of_mem_tokensFrom [] rfl ht
  have htaken := (isLexeme_lexeme c behind).taken_of_punctuation hkind hd
  rw [← lexeme_append, htaken] at hsource
  exact ⟨before, _, hsource, rfl, by simp [Lexeme.token, Token.start, Token.stop, htaken]⟩

/-- A block is made of an opener and what stands behind it. -/
theorem MadeOf.exists_opener {block : Span} (h : MadeOf stop tokens node)
    (hblock : node.block? = some block) :
    ∃ front opener inner, tokens = front ++ opener :: inner ∧ opener.kind = .lbrace ∧
      block.start = opener.start ∧ BlockEnd stop inner block.stop := by
  cases h with
  | comment | declaration => cases hblock
  | statement _ rule => cases rule <;> cases hblock
  | block place head ends children =>
    obtain ⟨front, hfront⟩ := place
    obtain ⟨before, happend, hkind, -, hmade, -⟩ := head.append children ⟨_, _⟩
    obtain rfl := Option.some.inj (hmade.symm.trans hblock)
    exact ⟨front ++ before, _, _, by rw [← hfront, happend, List.append_assoc], hkind, rfl, ends⟩

/-- A block runs from its `{` to its `}` or to the end of the source. -/
theorem exists_text_of_block {source : String} {block : Span}
    (h : Below node (parse source).1.children) (hblock : node.block? = some block) :
    ∃ before body behind, source.toList = before ++ '\x7b' :: body ++ behind ∧
      block = ⟨Text.byteLength before, Text.byteLength (before ++ '\x7b' :: body)⟩ ∧
      (behind = [] ∨ body.getLast? = some '\x7d') := by
  obtain ⟨front, opener, inner, htokens, hopener, hstart, hends⟩ :=
    (parse_madeOf source h).exists_opener hblock
  have hmem : opener ∈ tokensFrom 0 source.toList :=
    htokens ▸ List.mem_append_right _ List.mem_cons_self
  obtain ⟨before, rest, hsource, hbefore, hstop⟩ :=
    exists_char_of_mem_tokensFrom (d := '\x7b') hmem hopener (by decide)
  rcases hends with hend | ⟨closer, hcloser, hkind, hclosed⟩
  · refine ⟨before, rest, [], by simp [hsource], ?_, .inl rfl⟩
    rw [← hsource, ← hbefore, ← hstart]
    exact congrArg (Span.mk block.start) hend
  · have hmem : closer ∈ tokensFrom 0 source.toList :=
      htokens ▸ List.mem_append_right _ (List.mem_cons_of_mem _ hcloser)
    obtain ⟨before', behind, hsource', hbefore', hstop'⟩ :=
      exists_char_of_mem_tokensFrom (d := '\x7d') hmem hkind (by decide)
    have hle : opener.stop ≤ closer.start := by
      have htiles := tiles_tokensFrom 0 source.toList
      rw [htokens] at htiles
      obtain ⟨_, -, -, -, hinner⟩ := tiles_append.mp htiles
      exact (hinner.of_mem hcloser).1
    rw [hsource, ← List.singleton_append, ← List.append_assoc] at hsource'
    obtain ⟨middle, hfront, hrest⟩ := exists_append_of_byteLength_le hsource'
      (by rw [Text.byteLength_append, ← hbefore, ← hbefore']; exact hstop ▸ hle)
    refine ⟨before, middle ++ ['\x7d'], behind, ?_, ?_, .inr (List.getLast?_concat ..)⟩
    · rw [hsource, hrest, List.append_assoc, List.cons_append, List.append_assoc]
      rfl
    · have hend : block.stop = Text.byteLength (before ++ '\x7b' :: (middle ++ ['\x7d'])) := by
        rw [← hclosed, hstop', hbefore', hfront]
        simp [Nat.add_assoc]
      rw [← hend, ← hbefore, ← hstart]

end CssWorkbench
