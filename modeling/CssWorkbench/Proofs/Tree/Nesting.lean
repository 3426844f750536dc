import CssWorkbench.Proofs.Token.Coverage
import CssWorkbench.Proofs.Tree.ReadingOfParser
import CssWorkbench.Proofs.Tree.SelectorSpans
import CssWorkbench.Tree.Walk

/-!
# Nodes nest and never overlap

The tokens that the parser reads tile the source, and every node is made of a stretch of them.
From one reading step to the next this keeps the nodes of a block in order, between the brace that
opens it and its end; malformed input is no exception, as the relation has a constructor for each
way to recover.
-/

namespace CssWorkbench

/-- The block of a node, if it has one. -/
def Node.block? : Node → Option Span
  | .ruleset rule _ => some rule.block
  | .atRule rule _ => rule.block
  | .declaration _ => none
  | .comment _ => none

/-- A block closes the node that it belongs to and has its children inside. -/
structure BlockPlaced (outer block : Span) (children : List Node) : Prop where
  starts : outer.start ≤ block.start
  nonempty : block.start < block.stop
  stops : block.stop = outer.stop
  inside : InOrder (block.start + 1) block.stop (children.map Node.span)

/-- What a node says of the places of its own parts and of its children. -/
def Node.WellPlaced : Node → Prop
  | .ruleset rule children =>
    rule.span.start ≤ rule.selectors.span.start ∧
      rule.selectors.span.start ≤ rule.selectors.span.stop ∧
      rule.selectors.span.stop ≤ rule.block.start ∧
      InOrder rule.span.start rule.block.start (rule.selectors.selectors.map Selector.span) ∧
      BlockPlaced rule.span rule.block children
  | .atRule rule children =>
    rule.span.covers rule.nameSpan = true ∧
      match rule.block with
      | some block => rule.nameSpan.stop ≤ block.start ∧ BlockPlaced rule.span block children
      | none => children = []
  | .declaration decl => decl.span.covers decl.property.span = true
  | .comment _ => True

/-- The nodes stand in order between two offsets, and all nodes below them are well placed. -/
def WellNested (start stop : Nat) (nodes : List Node) : Prop :=
  InOrder start stop (nodes.map Node.span) ∧
    ∀ depth, ∀ p ∈ walkNodes (fun _ => true) depth nodes, p.2.WellPlaced

variable {start stop n e middle : Nat} {t opener : Token} {ts inner left rest prelude : List Token}
  {node : Node} {nodes children : List Node} {errors : List SyntaxError}

/-- No nodes are well nested in every span. -/
theorem wellNested_nil (hle : start ≤ stop) : WellNested start stop [] :=
  ⟨hle, fun _ _ hp => absurd hp List.not_mem_nil⟩

/-- A walk meets a node, then what is below it, then the nodes behind it. -/
theorem walkNodes_cons (depth : Nat) (node : Node) (nodes : List Node) :
    walkNodes (fun _ => true) depth (node :: nodes) =
      (depth, node) :: walkNodes (fun _ => true) (depth + 1) node.children ++
        walkNodes (fun _ => true) depth nodes := by
  cases node <;> simp [walkNodes, Node.walk, Node.children]

/-- A walk meets each of the nodes at the depth where it starts. -/
theorem mem_walkNodes_of_mem (depth : Nat) (h : node ∈ nodes) :
    (depth, node) ∈ walkNodes (fun _ => true) depth nodes := by
  induction nodes with
  | nil => cases h
  | cons other nodes ih =>
    rw [walkNodes_cons]
    rcases List.mem_cons.mp h with rfl | h
    · exact List.mem_cons_self
    · exact List.mem_append_right _ (ih h)

/-- A walk meets a node and then what is below it. -/
theorem mem_walk_iff {depth : Nat} {p : Nat × Node} :
    p ∈ node.walk (fun _ => true) depth ↔
      p = (depth, node) ∨ p ∈ walkNodes (fun _ => true) (depth + 1) node.children := by
  cases node <;> simp [Node.walk, Node.children, walkNodes]

/-- A node is put in front of others. -/
theorem WellNested.cons {blockStart blockStop : Nat} (hself : node.WellPlaced)
    (hstart : start ≤ node.span.start) (hpos : node.span.start < node.span.stop)
    (hbelow : WellNested blockStart blockStop node.children)
    (hrest : WellNested node.span.stop stop nodes) : WellNested start stop (node :: nodes) := by
  refine ⟨⟨hstart, hpos, hrest.1⟩, fun depth p hp => ?_⟩
  rw [walkNodes, List.mem_append, mem_walk_iff] at hp
  rcases hp with (rfl | hp) | hp
  · exact hself
  · exact hbelow.2 _ p hp
  · exact hrest.2 _ p hp

/-- Nodes that are well nested are so from every earlier start. -/
theorem WellNested.of_le (hle : start ≤ middle) (h : WellNested middle stop nodes) :
    WellNested start stop nodes :=
  ⟨h.1.of_le hle, h.2⟩

/-- What is left when leading tokens are dropped tiles the end of the stretch. -/
theorem Tiles.dropWhile (h : Tiles start stop ts) (p : Token → Bool) :
    ∃ middle, start ≤ middle ∧ Tiles middle stop (ts.dropWhile p) := by
  rw [← List.takeWhile_append_dropWhile (p := p) (l := ts)] at h
  obtain ⟨middle, hfront, hbehind⟩ := tiles_append.mp h
  exact ⟨middle, hfront.le, hbehind⟩

/-- What is left in front of the blanks at the end was there before. -/
theorem mem_of_mem_trimTrailingBlanks (h : t ∈ trimTrailingBlanks ts) : t ∈ ts := by
  rw [trimTrailingBlanks, List.mem_reverse] at h
  exact List.mem_reverse.mp (List.dropWhile_sublist _ |>.mem h)

/-- What is left behind a block that is skipped tiles what follows the block. -/
theorem tiles_skipBlock (depth : Nat) (h : Tiles start stop ts) :
    start ≤ (skipBlock stop depth ts).1 ∧
      Tiles (skipBlock stop depth ts).1 stop (skipBlock stop depth ts).2 := by
  induction ts generalizing start depth with
  | nil => exact ⟨Nat.le_of_eq h, rfl⟩
  | cons t ts ih =>
    obtain ⟨hstart, hpos, hrest⟩ := h
    have hstep : ∀ depth, start ≤ (skipBlock stop depth ts).1 := fun depth => by
      have hle := (ih depth hrest).1
      omega
    rw [skipBlock]
    split
    · exact ⟨hstep _, (ih _ hrest).2⟩
    · split
      · exact ⟨by omega, hrest⟩
      · exact ⟨hstep _, (ih _ hrest).2⟩
    · exact ⟨hstep _, (ih _ hrest).2⟩

/-- What is left behind a ruleset that breaks off tiles the end of the stretch. -/
theorem tiles_afterBroken (n : Nat) (h : Tiles start stop ts) :
    ∃ middle, start ≤ middle ∧ Tiles middle stop (afterBroken n ts) := by
  cases ts with
  | nil => exact ⟨start, Nat.le_refl _, h⟩
  | cons t ts =>
    rw [afterBroken]
    split
    · obtain ⟨rfl, hpos, hrest⟩ := h
      exact ⟨_, Nat.le_of_lt hpos, hrest⟩
    · exact ⟨start, Nat.le_refl _, h⟩

/-- A statement that breaks off ends behind its keyword and with its last token. -/
theorem lastSignificantStop_bounds (h : Tiles start stop ts) :
    start ≤ lastSignificantStop start ts ∧ lastSignificantStop start ts ≤ stop := by
  have hle := h.le
  unfold lastSignificantStop
  split
  · rename_i front last hsplit
    have hmem : last ∈ ts := by
      unfold splitLastSignificant? at hsplit
      split at hsplit
      · rename_i last' before heq
        obtain ⟨-, rfl⟩ := Prod.mk.inj (Option.some.inj hsplit)
        have hdrop : last' ∈ ts.reverse.dropWhile Token.isTrivia := heq ▸ List.mem_cons_self
        exact List.mem_reverse.mp (List.dropWhile_sublist _ |>.mem hdrop)
      · cases hsplit
    have hbounds := h.of_mem hmem
    omega
  · omega

/-- An at-rule statement takes its own stretch of the source. -/
theorem ReadsStatement.wellPlaced (h : ReadsStatement stop t ts node left errors)
    (htiles : Tiles start stop (t :: ts)) :
    node.WellPlaced ∧ node.children = [] ∧ node.span.start = start ∧ start < node.span.stop ∧
      ∃ middle, node.span.stop ≤ middle ∧ Tiles middle stop left := by
  obtain ⟨rfl, hpos, hts⟩ := htiles
  have hcovers : ∀ {ruleStop}, t.stop ≤ ruleStop → (Span.mk t.start ruleStop).covers t.span = true :=
    fun hle => Span.covers_iff.mpr ⟨Nat.le_refl _, hle⟩
  cases h with
  | @ended semicolon prelude _ run =>
    rw [takeRun_eq_append run] at hts
    obtain ⟨middle, hprelude, hstart, hsemi, hleft⟩ := tiles_append.mp hts
    have hle := hprelude.le
    have hstop : t.stop ≤ semicolon.stop := by omega
    exact ⟨⟨hcovers hstop, rfl⟩, rfl, rfl, Nat.lt_of_lt_of_le hpos hstop, _, Nat.le_refl _, hleft⟩
  | @broken prelude _ run =>
    rw [takeRun_eq_append run] at hts
    obtain ⟨middle, hprelude, hleft⟩ := tiles_append.mp hts
    obtain ⟨hfrom, hto⟩ := lastSignificantStop_bounds hprelude
    exact ⟨⟨hcovers hfrom, rfl⟩, rfl, rfl, Nat.lt_of_lt_of_le hpos hfrom, _, hto, hleft⟩

/-- Behind a declaration stands what follows its semicolon, if it has one. -/
theorem tiles_takeSemicolon {valueEnd : Nat} (h : Tiles start stop ts) (hle : valueEnd ≤ start) :
    valueEnd ≤ ((takeSemicolon ts).1.map Token.stop).getD valueEnd ∧
      ∃ middle, ((takeSemicolon ts).1.map Token.stop).getD valueEnd ≤ middle ∧
        Tiles middle stop (takeSemicolon ts).2 := by
  cases ts with
  | nil => exact ⟨Nat.le_refl _, _, hle, h⟩
  | cons t ts =>
    rw [takeSemicolon]
    split
    · obtain ⟨hstart, hpos, hrest⟩ := h
      exact ⟨show valueEnd ≤ t.stop by omega, _, Nat.le_refl _, hrest⟩
    · exact ⟨Nat.le_refl _, _, hle, h⟩

/-- A declaration starts with its name and takes its own stretch of the source. -/
theorem declarationNode_span {colon : Token} {behindColon run : List Token}
    (htiles : Tiles start stop (t :: ts))
    (gap : ts.dropWhile (·.is .whitespace) = colon :: behindColon)
    (value : takeValue (behindColon.dropWhile (·.is .whitespace)) = (run, left)) :
    start = (declarationNode t colon run (takeSemicolon left).1).span.start ∧
      t.stop ≤ (declarationNode t colon run (takeSemicolon left).1).span.stop ∧
      ∃ middle, (declarationNode t colon run (takeSemicolon left).1).span.stop ≤ middle ∧
        Tiles middle stop (takeSemicolon left).2 := by
  obtain ⟨rfl, hpos, hts⟩ := htiles
  obtain ⟨_, hgap, hcolon⟩ := hts.dropWhile (·.is .whitespace)
  rw [gap] at hcolon
  obtain ⟨hcolonStart, hcolonPos, hbehind⟩ := hcolon
  obtain ⟨_, hblanks, hvalue⟩ := hbehind.dropWhile (·.is .whitespace)
  rw [takeRun_eq_append value] at hvalue
  obtain ⟨middle, hrun, hleft⟩ := tiles_append.mp hvalue
  have hle := hrun.le
  have hend : ∃ valueEnd, t.stop ≤ valueEnd ∧ valueEnd ≤ middle ∧
      (declarationNode t colon run (takeSemicolon left).1).span.stop =
        ((takeSemicolon left).1.map Token.stop).getD valueEnd := by
    cases hlast : (trimTrailingBlanks run).getLast? with
    | none =>
      refine ⟨colon.stop, by omega, by omega, ?_⟩
      simp only [declarationNode, hlast]
    | some last =>
      have hmem := mem_of_mem_trimTrailingBlanks (List.mem_of_getLast? hlast)
      have hbounds := hrun.of_mem hmem
      refine ⟨max last.stop colon.stop, by omega, by omega, ?_⟩
      simp only [declarationNode, hlast]
  obtain ⟨valueEnd, hname, hinside, hstop⟩ := hend
  obtain ⟨hfrom, middle', hto, hrest⟩ := tiles_takeSemicolon hleft hinside
  rw [hstop]
  exact ⟨rfl, Nat.le_trans hname hfrom, middle', hto, hrest⟩

/-- A head and the `{` behind it, and the node that they make. -/
theorem Heads.append {make : List Node → Span → Node} (h : Heads n t ts opener inner make)
    (children : List Node) (block : Span) :
    ∃ head, t :: ts = head ++ opener :: inner ∧ opener.kind = .lbrace ∧
      (make children block).span = ⟨t.start, block.stop⟩ ∧
      (make children block).block? = some block ∧ (make children block).children = children := by
  cases h with
  | @atRule _ _ prelude _ _ run brace =>
    exact ⟨t :: prelude, by rw [takeRun_eq_append run]; rfl, brace, rfl, rfl, rfl⟩
  | bare brace => exact ⟨[], rfl, brace, rfl, rfl, rfl⟩
  | @ruleset _ _ head _ _ _ _ run brace =>
    exact ⟨t :: head, by rw [takeRun_eq_append run]; rfl, brace, rfl, rfl, rfl⟩

/-- A block behind a head has room for its children, and the node around it is well placed. -/
theorem Heads.wellPlaced {make : List Node → Span → Node} (h : Heads n t ts opener inner make)
    (htiles : Tiles start stop (t :: ts)) :
    Tiles opener.stop stop inner ∧ ∀ {children inside}, opener.stop ≤ inside →
      WellNested opener.stop inside children →
        (make children ⟨opener.start, inside⟩).WellPlaced ∧
          (make children ⟨opener.start, inside⟩).children = children ∧
          (make children ⟨opener.start, inside⟩).span = ⟨start, inside⟩ ∧ start < inside := by
  obtain ⟨rfl, hpos, hts⟩ := htiles
  have hblock : ∀ {children inside}, t.start ≤ opener.start → opener.start < opener.stop →
      opener.stop ≤ inside → WellNested opener.stop inside children →
      BlockPlaced ⟨t.start, inside⟩ ⟨opener.start, inside⟩ children :=
    fun hstart hlt hinside hnested =>
      ⟨hstart, Nat.lt_of_lt_of_le hlt hinside, rfl, hnested.1.of_le hlt⟩
  cases h with
  | atRule keyword run =>
    rw [takeRun_eq_append run] at hts
    obtain ⟨middle, hprelude, hstart, hlt, hinner⟩ := tiles_append.mp hts
    have hle := hprelude.le
    refine ⟨hinner, fun {children inside} hinside hnested => ?_⟩
    have hcovers : (Span.mk t.start inside).covers t.span = true :=
      Span.covers_iff.mpr ⟨Nat.le_refl _, show t.stop ≤ inside by omega⟩
    exact ⟨⟨hcovers, show t.stop ≤ opener.start by omega,
      hblock (by omega) hlt hinside hnested⟩, rfl, rfl, by omega⟩
  | bare =>
    have hnone : Tiles t.start t.start [] := rfl
    have hlist := hnone.selectorList_inOrder rfl
    refine ⟨hts, fun {children inside} hinside hnested => ?_⟩
    exact ⟨⟨hlist.1, hlist.2.1, hlist.2.2.1, hlist.2.2.2,
      hblock (Nat.le_refl _) hpos hinside hnested⟩, rfl, rfl, by omega⟩
  | @ruleset _ _ head _ _ _ _ run =>
    rw [takeRun_eq_append run] at hts
    obtain ⟨middle, hhead, hstart, hlt, hinner⟩ := tiles_append.mp hts
    have hle := hhead.le
    have hclosed : depthAfter 0 (t :: head) = 0 := (takeRun_inside_zero run).1.depthAfter_eq
    have hwhole : Tiles t.start opener.start (t :: head) := ⟨rfl, hpos, hstart ▸ hhead⟩
    have hlist := hwhole.selectorList_inOrder hclosed
    refine ⟨hinner, fun {children inside} hinside hnested => ?_⟩
    exact ⟨⟨hlist.1, hlist.2.1, hlist.2.2.1, hlist.2.2.2,
      hblock (by omega) hlt hinside hnested⟩, rfl, rfl, by omega⟩

/-- What is read of tokens that tile a stretch nests in the part of the stretch that is read, and
what is left tiles the rest of it. -/
theorem Reads.wellNested (h : Reads stop n ts nodes e rest errors) (htiles : Tiles start stop ts) :
    WellNested start e nodes ∧ Tiles e stop rest := by
  induction h generalizing start with
  | finish | unclosed => exact ⟨wellNested_nil (Nat.le_of_eq htiles), rfl⟩
  | close =>
    obtain ⟨rfl, hpos, hrest⟩ := htiles
    exact ⟨wellNested_nil (Nat.le_of_lt hpos), hrest⟩
  | stray _ _ ih | pass _ _ ih =>
    obtain ⟨rfl, hpos, hts⟩ := htiles
    exact ⟨(ih hts).1.of_le (Nat.le_of_lt hpos), (ih hts).2⟩
  | comment _ _ ih =>
    obtain ⟨rfl, hpos, hts⟩ := htiles
    exact ⟨.cons trivial (Nat.le_refl _) hpos (wellNested_nil (Nat.le_refl 0)) (ih hts).1,
      (ih hts).2⟩
  | declaration _ gap _ value _ ih =>
    obtain ⟨hstart, hname, middle, hle, hrest⟩ := declarationNode_span htiles gap value
    obtain ⟨rfl, hpos, -⟩ := htiles
    refine ⟨.cons (Span.covers_iff.mpr ⟨Nat.le_of_eq hstart.symm, hname⟩) (Nat.le_of_eq hstart)
      (Nat.lt_of_lt_of_le ?_ hname) (wellNested_nil (Nat.le_refl 0)) ((ih hrest).1.of_le hle),
      (ih hrest).2⟩
    exact Nat.lt_of_le_of_lt (Nat.le_of_eq hstart.symm) hpos
  | @statement _ _ _ _ _ node _ _ _ _ _ rule _ ih =>
    obtain ⟨hself, hnone, hstart, hpos, middle, hle, hrest⟩ := rule.wellPlaced htiles
    have hbelow : WellNested 0 0 node.children := hnone ▸ wellNested_nil (Nat.le_refl 0)
    exact ⟨.cons hself (Nat.le_of_eq hstart.symm) (hstart ▸ hpos) hbelow ((ih hrest).1.of_le hle),
      (ih hrest).2⟩
  | block head _ _ _ ihBody ih =>
    obtain ⟨hinner, hmake⟩ := head.wellPlaced htiles
    obtain ⟨hnested, hleft⟩ := ihBody hinner
    obtain ⟨hself, hchildren, hspan, hpos⟩ := hmake hnested.1.le hnested
    exact ⟨.cons hself (hspan ▸ Nat.le_refl _) (hspan ▸ hpos) (hchildren.symm ▸ hnested)
      (hspan ▸ (ih hleft).1), (ih hleft).2⟩
  | deepBlock head _ _ ih =>
    obtain ⟨hinner, hmake⟩ := head.wellPlaced htiles
    obtain ⟨hle, hleft⟩ := tiles_skipBlock 1 hinner
    have hnested := wellNested_nil hle
    obtain ⟨hself, hchildren, hspan, hpos⟩ := hmake hle hnested
    exact ⟨.cons hself (hspan ▸ Nat.le_refl _) (hspan ▸ hpos) (hchildren.symm ▸ hnested)
      (hspan ▸ (ih hleft).1), (ih hleft).2⟩
  | @broken n t ts head left _ _ _ _ _ _ _ run _ _ ih =>
    obtain ⟨rfl, hpos, hts⟩ := htiles
    rw [takeRun_eq_append run] at hts
    obtain ⟨middle, hhead, hleft⟩ := tiles_append.mp hts
    have hle := hhead.le
    obtain ⟨from', hfrom, hrest⟩ := tiles_afterBroken n hleft
    exact ⟨(ih hrest).1.of_le (by omega), (ih hrest).2⟩

/-- Whatever the source, its tree nests: the nodes stand in order and apart inside the stylesheet,
and the same holds of the children of every node in its block. -/
theorem parse_wellNested (source : String) :
    (parse source).1.span = ⟨0, Text.size source⟩ ∧
      InOrder 0 (Text.size source) ((parse source).1.children.map Node.span) ∧
      ∀ node ∈ (parse source).1.nodes, node.WellPlaced := by
  have htiles := tiles_tokensFrom 0 source.toList
  rw [Nat.zero_add] at htiles
  obtain ⟨⟨horder, hbelow⟩, -⟩ := (reads_parse source).wellNested htiles
  refine ⟨rfl, horder, fun node hnode => ?_⟩
  obtain ⟨p, hp, rfl⟩ := List.mem_map.mp hnode
  exact hbelow 1 p hp

end CssWorkbench
