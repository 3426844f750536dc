import Mathlib
import CssWorkbench.Proofs.Tree.Nesting
import CssWorkbench.Proofs.Tree.ValueTokens

/-!
# No token is left out

When a source is read without an error, each of its tokens is accounted for: it is a blank or
another token that is passed over between nodes, or it lies in the span of a node. The same holds
in every block of the tokens between its braces. A reading therefore parts its tokens into those
that are accounted for, what ends the reading, and the rest.
-/

namespace CssWorkbench

/-- The token is passed over between the nodes, where `nesting` blocks are open, or lies in one of
them. -/
def Accounted (nesting : Nat) (nodes : List Node) (t : Token) : Prop :=
  Passed nesting t.kind ∨ ∃ node ∈ nodes, node.span.covers t.span = true

/-- The block stands between two braces of the tokens, and each token between them is accounted
for by the children. -/
def Braced (tokens : List Token) (block : Span) (children : List Node) : Prop :=
  ∃ before opener inner closer behind, tokens = before ++ opener :: (inner ++ closer :: behind) ∧
    opener.kind = .lbrace ∧ closer.kind = .rbrace ∧ block = ⟨opener.start, closer.stop⟩ ∧
      ∀ t ∈ inner, Accounted 1 children t

/-- Every block of the nodes, and of the nodes below them, stands between two braces. -/
def AllBraced (tokens : List Token) (nodes : List Node) : Prop :=
  ∀ depth, ∀ p ∈ walkNodes (fun _ => true) depth nodes, ∀ block ∈ p.2.block?,
    Braced tokens block p.2.children

/-- What ends a reading: outside blocks the end of the tokens, in a block the `}` that closes
it. -/
inductive EndsAt (stop : Nat) : Nat → Nat → List Token → List Token → Prop
  | sheet : EndsAt stop 0 stop [] []
  | brace {n : Nat} {t : Token} {ts : List Token} (kind : t.kind = .rbrace) :
      EndsAt stop (n + 1) t.stop (t :: ts) ts

/-- The nodes, read off `tokens` up to the end of the block, account for all that was read. -/
structure Accounts (stop n : Nat) (tokens : List Token) (nodes : List Node) (e : Nat)
    (rest : List Token) : Prop where
  read : ∃ used left, tokens = used ++ left ∧ EndsAt stop n e left rest ∧
    ∀ t ∈ used, Accounted n nodes t
  blocks : AllBraced tokens nodes

variable {start stop n e : Nat} {t u opener : Token} {ts us inner left part rest : List Token}
  {node : Node} {nodes children : List Node} {block : Span} {errors : List SyntaxError}

/-- A token that is accounted for stays so with one more node in front. -/
theorem Accounted.cons (h : Accounted n nodes u) : Accounted n (node :: nodes) u :=
  h.imp_right fun ⟨child, hchild, hcovers⟩ => ⟨child, List.mem_cons_of_mem _ hchild, hcovers⟩

/-- Where some blocks are open the tokens that are passed over are those of one open block. -/
theorem Accounted.nested (h : Accounted (n + 1) nodes u) : Accounted 1 nodes u :=
  h.imp_left fun hpassed => hpassed.imp_right <| Or.imp_right <| Or.imp_right fun hsemi =>
    ⟨hsemi.1, Nat.one_pos⟩

/-- A block with its braces among some tokens has them with more tokens in front. -/
theorem Braced.append (h : Braced ts block children) (us : List Token) :
    Braced (us ++ ts) block children := by
  obtain ⟨before, opener, inner, closer, behind, rfl, h⟩ := h
  exact ⟨us ++ before, opener, inner, closer, behind, (List.append_assoc ..).symm, h⟩

/-- A block with its braces among some tokens has them with more tokens behind. -/
theorem Braced.of_append (h : Braced ts block children) (us : List Token) :
    Braced (ts ++ us) block children := by
  obtain ⟨before, opener, inner, closer, behind, rfl, h⟩ := h
  refine ⟨before, opener, inner, closer, behind ++ us, ?_, h⟩
  simp only [List.append_assoc, List.cons_append]

/-- Without nodes there are no braces to account for. -/
theorem allBraced_nil : AllBraced ts [] :=
  fun _ _ hp => absurd hp List.not_mem_nil

/-- Blocks with their braces among some tokens have them with more tokens in front. -/
theorem AllBraced.append (h : AllBraced ts nodes) (us : List Token) : AllBraced (us ++ ts) nodes :=
  fun depth p hp block hblock => (h depth p hp block hblock).append us

/-- The blocks of a node and of those behind it have their braces together. -/
theorem AllBraced.cons (hself : ∀ block ∈ node.block?, Braced ts block node.children)
    (hbelow : AllBraced ts node.children) (h : AllBraced ts nodes) :
    AllBraced ts (node :: nodes) := by
  intro depth p hp
  rw [walkNodes, List.mem_append, mem_walk_iff] at hp
  rcases hp with (rfl | hp) | hp
  · exact hself
  · exact hbelow _ p hp
  · exact h _ p hp

/-- Tokens that are passed over may stand in front. -/
theorem Accounts.pass (h : Accounts stop n ts nodes e rest) (hkind : Passed n t.kind) :
    Accounts stop n (t :: ts) nodes e rest := by
  obtain ⟨⟨used, left, rfl, hends, hused⟩, hblocks⟩ := h
  exact ⟨⟨t :: used, left, rfl, hends, List.forall_mem_cons.mpr ⟨.inl hkind, hused⟩⟩,
    hblocks.append [t]⟩

/-- A node that accounts for some tokens may stand in front. -/
theorem Accounts.cons (h : Accounts stop n left nodes e rest)
    (hpart : ∀ u ∈ part, u.kind = .whitespace ∨ node.span.covers u.span = true)
    (hself : ∀ block ∈ node.block?, Braced part block node.children)
    (hbelow : AllBraced (part ++ left) node.children) :
    Accounts stop n (part ++ left) (node :: nodes) e rest := by
  obtain ⟨⟨used, behind, rfl, hends, hused⟩, hblocks⟩ := h
  refine ⟨⟨part ++ used, behind, (List.append_assoc ..).symm, hends, fun u hu => ?_⟩,
    .cons (fun block hblock => (hself block hblock).of_append _) hbelow (hblocks.append part)⟩
  rcases List.mem_append.mp hu with hu | hu
  · exact (hpart u hu).imp .inl fun hcovers => ⟨node, List.mem_cons_self, hcovers⟩
  · exact (hused u hu).cons

/-- A declaration ends behind its colon, each token of its value and its `;`. -/
theorem stop_le_declarationNode {colon : Token} {run gap tail : List Token}
    {semicolon : Option Token}
    (htiles : Tiles start stop
      (colon :: gap ++ trimTrailingBlanks run ++ (tail ++ semicolon.toList)))
    (hu : u = colon ∨ u ∈ trimTrailingBlanks run ∨ u ∈ semicolon) :
    u.stop ≤ (declarationNode t colon run semicolon).span.stop := by
  cases semicolon with
  | some semicolon =>
    have hend : semicolon.stop = stop := htiles.getLast (by
      rw [Option.toList_some, ← List.append_assoc, List.getLast?_concat])
    have hmem : u ∈ colon :: gap ++ trimTrailingBlanks run ++ (tail ++ [semicolon]) := by
      rcases hu with rfl | hu | hu
      · exact List.mem_cons_self
      · exact List.mem_append_left _ (List.mem_append_right _ hu)
      · simp [Option.mem_some_iff.mp hu]
    exact Nat.le_trans (htiles.of_mem hmem).2.2 (Nat.le_of_eq hend.symm)
  | none =>
    obtain ⟨_, hfront, -⟩ := tiles_append.mp htiles
    obtain ⟨_, -, hrun⟩ := tiles_append.mp hfront
    cases hlast : (trimTrailingBlanks run).getLast? with
    | none =>
      obtain rfl : u = colon := by simpa [List.getLast?_eq_none_iff.mp hlast] using hu
      simp [declarationNode, hlast]
    | some last =>
      simp only [declarationNode, hlast, Option.map_none, Option.getD_none]
      rcases hu with rfl | hu | hu
      · exact Nat.le_max_right ..
      · have hstop : u.stop ≤ last.stop := hrun.getLast hlast ▸ (hrun.of_mem hu).2.2
        exact Nat.le_trans hstop (Nat.le_max_left ..)
      · cases hu

/-- All tokens of a declaration lie in it, the blanks behind its value aside. -/
theorem declaration_accounted {colon : Token} {behindColon run : List Token}
    (htiles : Tiles start stop (t :: ts))
    (gap : ts.dropWhile (·.is .whitespace) = colon :: behindColon)
    (value : takeValue (behindColon.dropWhile (·.is .whitespace)) = (run, left)) :
    ∃ part, t :: ts = part ++ (takeSemicolon left).2 ∧ ∀ u ∈ part, u.kind = .whitespace ∨
      (declarationNode t colon run (takeSemicolon left).1).span.covers u.span = true := by
  obtain ⟨hstart, hname, -⟩ := declarationNode_span htiles gap value
  obtain ⟨blanks, hts, hblanks⟩ := exists_blanks_append gap
  obtain ⟨blanks', hbehind, hblanks'⟩ := exists_blanks_append (takeRun_eq_append value)
  obtain ⟨tail, hrun, htail⟩ := trimTrailingBlanks_append run
  have hwhole : t :: ts = (t :: blanks ++ (colon :: blanks' ++ trimTrailingBlanks run ++
      (tail ++ (takeSemicolon left).1.toList))) ++ (takeSemicolon left).2 := by
    rw [hts, hbehind]
    nth_rewrite 1 [hrun]
    nth_rewrite 1 [← takeSemicolon_append left]
    simp only [List.append_assoc, List.cons_append]
  refine ⟨_, hwhole, fun u hu => ?_⟩
  rw [hwhole] at htiles
  obtain ⟨middle, hpart, -⟩ := tiles_append.mp htiles
  obtain ⟨_, -, hvalue⟩ := tiles_append.mp hpart
  have hcovers : u.stop ≤ (declarationNode t colon run (takeSemicolon left).1).span.stop →
      (declarationNode t colon run (takeSemicolon left).1).span.covers u.span = true :=
    fun hle => Span.covers_iff.mpr ⟨hstart ▸ (hpart.of_mem hu).1, hle⟩
  simp only [List.mem_append, List.mem_cons, Option.mem_toList] at hu
  rcases hu with (rfl | hu) | ((rfl | hu) | hu) | hu | hu
  · exact .inr (hcovers hname)
  · exact .inl (hblanks u hu)
  · exact .inr (hcovers (stop_le_declarationNode hvalue (.inl rfl)))
  · exact .inl (hblanks' u hu)
  · exact .inr (hcovers (stop_le_declarationNode hvalue (.inr (.inl hu))))
  · exact .inl (htail u hu)
  · exact .inr (hcovers (stop_le_declarationNode hvalue (.inr (.inr hu))))

/-- All tokens of an at-rule that ends in `;` lie in it. -/
theorem ReadsStatement.accounted (h : ReadsStatement stop t ts node left [])
    (htiles : Tiles start stop (t :: ts)) :
    node.block? = none ∧ node.children = [] ∧ ∃ part, t :: ts = part ++ left ∧
      ∀ u ∈ part, node.span.covers u.span = true := by
  obtain ⟨rfl, -⟩ := id htiles
  cases h with
  | @ended semicolon prelude _ run kind =>
    have hwhole : t :: ts = t :: prelude ++ [semicolon] ++ left := by
      rw [takeRun_eq_append run, List.append_assoc, List.singleton_append, List.cons_append]
    refine ⟨rfl, rfl, _, hwhole, fun u hu => ?_⟩
    rw [hwhole] at htiles
    obtain ⟨middle, hpart, -⟩ := tiles_append.mp htiles
    exact hpart.covers hu (Nat.le_of_eq (hpart.getLast List.getLast?_concat).symm)

/-- A reading without an error accounts for all that it takes, and so do the blocks in it. -/
theorem Reads.accounts (h : Reads stop n ts nodes e rest errors) (hclean : errors = [])
    (htiles : Tiles start stop ts) : Accounts stop n ts nodes e rest := by
  induction h generalizing start with
  | finish => exact ⟨⟨[], [], rfl, .sheet, by simp⟩, allBraced_nil⟩
  | unclosed | stray | deepBlock | broken => cases hclean
  | close kind => exact ⟨⟨[], _, rfl, .brace kind, by simp⟩, allBraced_nil⟩
  | pass kind _ ih => exact (ih hclean htiles.2.2).pass kind
  | @comment _ t _ _ _ _ _ kind _ ih =>
    have hself : (Node.comment t.span).span.covers t.span = true :=
      Span.covers_iff.mpr ⟨Nat.le_refl _, Nat.le_refl _⟩
    have hpart : ∀ u ∈ [t], u.kind = .whitespace ∨
        (Node.comment t.span).span.covers u.span = true :=
      List.forall_mem_singleton.mpr (.inr hself)
    exact (ih hclean htiles.2.2).cons hpart (fun _ h => nomatch h) allBraced_nil
  | declaration kind gap colonKind value _ ih =>
    obtain ⟨part, hwhole, hpart⟩ := declaration_accounted htiles gap value
    rw [hwhole] at htiles ⊢
    obtain ⟨_, -, hleft⟩ := tiles_append.mp htiles
    exact (ih hclean hleft).cons hpart (fun _ h => nomatch h) allBraced_nil
  | statement keyword rule _ ih =>
    obtain ⟨rfl, rfl⟩ := List.append_eq_nil_iff.mp hclean
    obtain ⟨hblock, hchildren, part, hwhole, hpart⟩ := rule.accounted htiles
    rw [hwhole] at htiles ⊢
    obtain ⟨_, -, hleft⟩ := tiles_append.mp htiles
    refine (ih rfl hleft).cons (fun u hu => .inr (hpart u hu)) ?_ (hchildren ▸ allBraced_nil)
    simp [hblock]
  | @block n t opener ts inner left rest make children nodes inside e first errors head shallow
      body _ ihBody ih =>
    obtain ⟨rfl, rfl⟩ := List.append_eq_nil_iff.mp hclean
    obtain ⟨front, hwhole, brace, hspan, hblock, hchildren⟩ :=
      head.append children ⟨opener.start, inside⟩
    have hstart := htiles.1
    have hinner := (head.wellPlaced htiles).1
    have hleft := (body.wellNested hinner).2
    obtain ⟨⟨used, closing, rfl, hends, hused⟩, hblocks⟩ := ihBody rfl hinner
    cases hends with
    | @brace _ closer _ kind =>
      have hparted : t :: ts = front ++ opener :: (used ++ [closer]) ++ left := by
        rw [hwhole, List.append_assoc, List.cons_append, List.append_assoc, List.singleton_append]
      rw [hparted] at htiles ⊢
      obtain ⟨middle, hpart, -⟩ := tiles_append.mp htiles
      refine (ih rfl hleft).cons (fun u hu => .inr ?_) (fun block' hblock' => ?_) ?_
      · have hlast := hpart.getLast (t := closer) (by
          rw [← List.cons_append, ← List.append_assoc, List.getLast?_concat])
        rw [hspan, hstart]
        exact hpart.covers hu (Nat.le_of_eq hlast.symm)
      · obtain rfl := Option.some.inj (hblock.symm.trans hblock')
        rw [hchildren]
        exact ⟨front, opener, used, closer, [], rfl, brace, kind, rfl, fun u hu =>
          (hused u hu).nested⟩
      · have hdeep := hblocks.append (front ++ [opener])
        rw [hchildren]
        simpa only [List.append_assoc, List.cons_append, List.nil_append] using hdeep

/-- Nothing of a source is left out of its tree in silence. Outside blocks a token that is no blank
lies in one of the nodes or is a `<!--` or `-->` between them. Each block stands between a `{` and a
`}`, and a token between them that is no blank lies in one of the children or is a `;`, `<!--` or
`-->` between them. -/
structure NothingLeftOut (source : String) : Prop where
  outside : ∀ t ∈ scan source, t.kind ≠ .whitespace → t.kind ≠ .eof →
    (t.kind = .cdo ∨ t.kind = .cdc) ∨
      ∃ node ∈ (parse source).1.children, node.span.covers t.span = true
  inside : ∀ node ∈ (parse source).1.nodes, ∀ block ∈ node.block?,
    ∃ before opener inner closer behind,
      scan source = before ++ opener :: (inner ++ closer :: behind) ∧
        opener.kind = .lbrace ∧ closer.kind = .rbrace ∧ block = ⟨opener.start, closer.stop⟩ ∧
        ∀ t ∈ inner, t.kind ≠ .whitespace →
          (t.kind = .semicolon ∨ t.kind = .cdo ∨ t.kind = .cdc) ∨
            ∃ child ∈ node.children, child.span.covers t.span = true

/-- A source that is read without an error has all its tokens in its tree. -/
theorem parse_leaves_nothing_out {source : String} (hclean : (parse source).2 = []) :
    NothingLeftOut source := by
  have htiles := tiles_tokensFrom 0 source.toList
  rw [Nat.zero_add] at htiles
  obtain ⟨⟨used, left, hparted, hends, hused⟩, hblocks⟩ :=
    (reads_parse source).accounts hclean htiles
  refine ⟨fun t ht hblank heof => ?_, fun node hnode block hblock => ?_⟩
  · cases hends
    rw [dropLast_scan, List.append_nil] at hparted
    rw [scan_eq_append, hparted] at ht
    rcases List.mem_append.mp ht with ht | ht
    · rcases hused t ht with (hkind | hkind | hkind | ⟨-, hpos⟩) | hnode
      · exact absurd hkind hblank
      · exact .inl (.inl hkind)
      · exact .inl (.inr hkind)
      · cases hpos
      · exact .inr hnode
    · obtain rfl := List.mem_singleton.mp ht
      exact absurd rfl heof
  · obtain ⟨p, hp, rfl⟩ := List.mem_map.mp hnode
    obtain ⟨before, opener, inner, closer, behind, htokens, hopener, hcloser, hspan, hinner⟩ :=
      (hblocks 1 p hp block hblock).of_append [Token.eof (Text.size source)]
    rw [scan_eq_append]
    refine ⟨before, opener, inner, closer, behind, htokens, hopener, hcloser, hspan,
      fun t ht hblank => ?_⟩
    rcases hinner t ht with (hkind | hkind | hkind | ⟨hkind, -⟩) | hchild
    · exact absurd hkind hblank
    · exact .inl (.inr (.inl hkind))
    · exact .inl (.inr (.inr hkind))
    · exact .inl (.inl hkind)
    · exact .inr hchild

/-- A rule in an at-rule, with tokens that stand between the nodes in both blocks. -/
theorem nothingLeftOut_of_nested :
    (parse "<!-- @media x \x7b;a\x7bb : c ;; --> /**/\x7d \x7d").2 = [] ∧
      NothingLeftOut "<!-- @media x \x7b;a\x7bb : c ;; --> /**/\x7d \x7d" := by
  have hclean : (parse "<!-- @media x \x7b;a\x7bb : c ;; --> /**/\x7d \x7d").2 = [] := by cbv
  exact ⟨hclean, parse_leaves_nothing_out hclean⟩

end CssWorkbench
