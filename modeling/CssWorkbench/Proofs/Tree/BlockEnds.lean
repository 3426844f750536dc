import CssWorkbench.Proofs.Tree.Nesting

/-!
# Where blocks end

A block that is closed ends with its `}`, so that all of its nodes end before it does; only a block
that nothing closes ends with its last node, and then it ends with the source. A node that stands
behind a block has therefore nothing of the block at its start.
-/

namespace CssWorkbench

/-- A node that stands somewhere below others, or among them. -/
inductive Below (node : Node) : List Node → Prop
  | here {nodes : List Node} (mem : node ∈ nodes) : Below node nodes
  | inside {nodes : List Node} {outer : Node} (mem : outer ∈ nodes)
      (below : Below node outer.children) : Below node nodes

/-- All of the nodes end before a place, unless the place is the end of the source. -/
def EndBefore (stop place : Nat) (nodes : List Node) : Prop :=
  place = stop ∨ ∀ node ∈ nodes, node.span.stop < place

/-- What holds of the edges of a node: a block ends behind its nodes, and a declaration starts with
its name. -/
def Node.HasEdges (stop : Nat) : Node → Prop
  | .ruleset rule children => EndBefore stop rule.block.stop children
  | .atRule rule children => ∀ block, rule.block = some block → EndBefore stop block.stop children
  | .declaration decl => decl.span.start = decl.property.span.start
  | .comment _ => True

variable {start stop n e middle : Nat} {t opener : Token} {ts inner left rest : List Token}
  {node : Node} {nodes children : List Node} {errors : List SyntaxError}

/-- What is below some nodes is below them with one more in front. -/
theorem Below.cons (h : Below node nodes) (first : Node) : Below node (first :: nodes) := by
  cases h with
  | here mem => exact .here (List.mem_cons_of_mem _ mem)
  | inside mem below => exact .inside (List.mem_cons_of_mem _ mem) below

/-- Below some nodes are the first one, what is below it, and what is below the others. -/
theorem below_cons {first : Node} :
    Below node (first :: nodes) ↔ node = first ∨ Below node first.children ∨ Below node nodes := by
  constructor
  · intro h
    cases h with
    | here mem =>
      rcases List.mem_cons.mp mem with rfl | mem
      · exact .inl rfl
      · exact .inr (.inr (.here mem))
    | inside mem below =>
      rcases List.mem_cons.mp mem with rfl | mem
      · exact .inr (.inl below)
      · exact .inr (.inr (.inside mem below))
  · rintro (rfl | h | h)
    · exact .here List.mem_cons_self
    · exact .inside List.mem_cons_self h
    · exact h.cons first

/-- What is below a node that is below others is below them itself. -/
theorem Below.trans {outer : Node} (h : Below outer nodes) (hnode : Below node outer.children) :
    Below node nodes := by
  induction h with
  | here mem => exact .inside mem hnode
  | inside mem _ ih => exact .inside mem ih

/-- What is below a node that is below others is below one of these. -/
theorem Below.exists_outer {outer : Node} (h : Below outer nodes)
    (hnode : Below node outer.children) : ∃ m ∈ nodes, Below node m.children := by
  cases h with
  | here mem => exact ⟨outer, mem, hnode⟩
  | inside mem below => exact ⟨_, mem, below.trans hnode⟩

/-- A walk over the tree meets every node below. -/
theorem Below.mem_walkNodes (h : Below node nodes) (depth : Nat) :
    ∃ depth', (depth', node) ∈ walkNodes (fun _ => true) depth nodes := by
  induction h generalizing depth with
  | here mem => exact ⟨depth, mem_walkNodes_of_mem depth mem⟩
  | @inside nodes outer mem _ ih =>
    obtain ⟨depth', hmem⟩ := ih (depth + 1)
    refine ⟨depth', ?_⟩
    induction nodes with
    | nil => cases mem
    | cons first nodes ihNodes =>
      rw [walkNodes_cons]
      rcases List.mem_cons.mp mem with rfl | mem
      · exact List.mem_append_left _ (List.mem_cons_of_mem _ hmem)
      · exact List.mem_append_right _ (ihNodes mem)

/-- What holds of a node, of all nodes below it and of all below others still does when the node is
put in front of the others. -/
theorem forall_below_cons {P : Node → Prop} (hself : P node)
    (hbelow : ∀ m, Below m node.children → P m) (hrest : ∀ m, Below m nodes → P m) :
    ∀ m, Below m (node :: nodes) → P m := by
  intro m hm
  rcases below_cons.mp hm with rfl | hm | hm
  · exact hself
  · exact hbelow m hm
  · exact hrest m hm

/-- The end of a block is behind the first node if it is behind what follows that node. -/
theorem endBefore_cons (hle : node.span.stop ≤ middle)
    (h : e = stop ∨ middle < e ∧ ∀ m ∈ nodes, m.span.stop < e) (hfrom : start ≤ middle) :
    e = stop ∨ start < e ∧ ∀ m ∈ node :: nodes, m.span.stop < e := by
  rcases h with h | ⟨hlt, hall⟩
  · exact .inl h
  · refine .inr ⟨Nat.lt_of_le_of_lt hfrom hlt, fun m hm => ?_⟩
    rcases List.mem_cons.mp hm with rfl | hm
    · exact Nat.lt_of_le_of_lt hle hlt
    · exact hall m hm

/-- Nothing is below no nodes. -/
theorem not_below_nil : ¬ Below node [] := by
  rintro (mem | mem) <;> cases mem

/-- Where something is below nodes there are some. -/
theorem Below.ne_nil (h : Below node nodes) : nodes ≠ [] :=
  fun hnil => not_below_nil (hnil ▸ h)

/-- The node of a head has the edges of its block. -/
theorem Heads.hasEdges {make : List Node → Span → Node} (h : Heads n t ts opener inner make)
    {block : Span} (hblock : EndBefore stop block.stop children) :
    (make children block).HasEdges stop := by
  cases h with
  | atRule =>
    intro other hother
    obtain rfl := Option.some.inj hother
    exact hblock
  | bare | ruleset => exact hblock

/-- What is read of tokens that tile a stretch has its edges where the tokens have theirs. -/
theorem Reads.hasEdges (h : Reads stop n ts nodes e rest errors) (htiles : Tiles start stop ts) :
    (0 < n → e = stop ∨ start < e ∧ ∀ m ∈ nodes, m.span.stop < e) ∧
      ∀ m, Below m nodes → m.HasEdges stop := by
  induction h generalizing start with
  | finish => exact ⟨fun hn => absurd hn (Nat.lt_irrefl 0), fun m hm => absurd hm not_below_nil⟩
  | unclosed => exact ⟨fun _ => .inl rfl, fun m hm => absurd hm not_below_nil⟩
  | close =>
    obtain ⟨rfl, hpos, hrest⟩ := htiles
    exact ⟨fun _ => .inr ⟨hpos, by simp⟩, fun m hm => absurd hm not_below_nil⟩
  | stray _ _ ih =>
    obtain ⟨rfl, hpos, hts⟩ := htiles
    exact ⟨fun hn => absurd hn (Nat.lt_irrefl 0), (ih hts).2⟩
  | pass _ _ ih =>
    obtain ⟨rfl, hpos, hts⟩ := htiles
    refine ⟨fun hn => ?_, (ih hts).2⟩
    exact ((ih hts).1 hn).imp_right fun h => ⟨Nat.lt_trans hpos h.1, h.2⟩
  | comment _ _ ih =>
    obtain ⟨rfl, hpos, hts⟩ := htiles
    refine ⟨fun hn => endBefore_cons (Nat.le_refl _) ((ih hts).1 hn) (Nat.le_of_lt hpos), ?_⟩
    exact forall_below_cons trivial (fun m hm => absurd hm not_below_nil) (ih hts).2
  | declaration _ gap _ value _ ih =>
    obtain ⟨hstart, hname, middle, hle, hrest⟩ := declarationNode_span htiles gap value
    obtain ⟨rfl, hpos, -⟩ := htiles
    refine ⟨fun hn => endBefore_cons hle ((ih hrest).1 hn) ?_, ?_⟩
    · exact Nat.le_trans (Nat.le_of_lt hpos) (Nat.le_trans hname hle)
    · exact forall_below_cons rfl (fun m hm => absurd hm not_below_nil) (ih hrest).2
  | statement _ rule _ ih =>
    obtain ⟨-, hnone, hstart, hpos, middle, hle, hrest⟩ := rule.wellPlaced htiles
    refine ⟨fun hn => endBefore_cons hle ((ih hrest).1 hn) (by omega), ?_⟩
    refine forall_below_cons ?_ (fun m hm => absurd (hnone ▸ hm) not_below_nil) (ih hrest).2
    cases rule <;> (intro block hblock; cases hblock)
  | block head shallow body _ ihBody ih =>
    obtain ⟨hinner, hmake⟩ := head.wellPlaced htiles
    obtain ⟨hnested, hleft⟩ := body.wellNested hinner
    obtain ⟨hself, hchildren, hspan, hpos⟩ := hmake hnested.1.le hnested
    obtain ⟨hends, hbelow⟩ := ihBody hinner
    refine ⟨fun hn => endBefore_cons ?_ ((ih hleft).1 hn) (Nat.le_of_lt hpos), ?_⟩
    · rw [hspan]
    · refine forall_below_cons (head.hasEdges ?_) (fun m hm => hbelow m (hchildren ▸ hm)) (ih hleft).2
      exact (hends (Nat.succ_pos _)).imp_right fun h => h.2
  | deepBlock head deep _ ih =>
    obtain ⟨hinner, hmake⟩ := head.wellPlaced htiles
    obtain ⟨hle, hleft⟩ := tiles_skipBlock 1 hinner
    obtain ⟨hself, hchildren, hspan, hpos⟩ := hmake hle (wellNested_nil hle)
    refine ⟨fun hn => endBefore_cons ?_ ((ih hleft).1 hn) (Nat.le_of_lt hpos), ?_⟩
    · rw [hspan]
    · refine forall_below_cons (head.hasEdges (.inr (by simp))) (fun m hm => ?_) (ih hleft).2
      exact absurd (hchildren ▸ hm) not_below_nil
  | @broken n t ts head left _ _ _ _ _ _ _ run _ _ ih =>
    obtain ⟨rfl, hpos, hts⟩ := htiles
    rw [takeRun_eq_append run] at hts
    obtain ⟨middle, hhead, hleft⟩ := tiles_append.mp hts
    have hle := hhead.le
    obtain ⟨from', hfrom, hrest⟩ := tiles_afterBroken n hleft
    refine ⟨fun hn => ?_, (ih hrest).2⟩
    exact ((ih hrest).1 hn).imp_right fun h => ⟨by omega, h.2⟩

/-! ## Where the nodes of a tree are -/

/-- Nodes that stand in order between two offsets of a source that ends at `stop`, with the parts
and the edges of all nodes below where they should be. -/
structure Placed (stop lower upper : Nat) (nodes : List Node) : Prop where
  inOrder : InOrder lower upper (nodes.map Node.span)
  inside : upper ≤ stop
  wellPlaced : ∀ node, Below node nodes → node.WellPlaced
  hasEdges : ∀ node, Below node nodes → node.HasEdges stop

/-- The tree of a source is placed in it. -/
theorem parse_placed (source : String) :
    Placed (Text.size source) 0 (Text.size source) (parse source).1.children := by
  have htiles := tiles_tokensFrom 0 source.toList
  rw [Nat.zero_add] at htiles
  obtain ⟨⟨horder, hwell⟩, -⟩ := (reads_parse source).wellNested htiles
  refine ⟨horder, Nat.le_refl _, fun node hnode => ?_, ((reads_parse source).hasEdges htiles).2⟩
  obtain ⟨depth, hmem⟩ := hnode.mem_walkNodes 1
  exact hwell 1 _ hmem

/-- A node with nodes below has a block around them. -/
theorem Node.WellPlaced.blockPlaced (h : node.WellPlaced) (hne : node.children ≠ []) :
    ∃ block, node.block? = some block ∧ BlockPlaced node.span block node.children := by
  cases node with
  | ruleset rule children => exact ⟨rule.block, rfl, h.2.2.2.2⟩
  | atRule rule children =>
    obtain ⟨-, hblock⟩ := h
    cases hsome : rule.block with
    | none =>
      rw [hsome] at hblock
      exact absurd hblock hne
    | some block =>
      rw [hsome] at hblock
      exact ⟨block, hsome, hblock.2⟩
  | declaration | comment => exact absurd rfl hne

variable {lower upper : Nat} {outer : Node}

/-- A node among others keeps inside them and is not empty. -/
theorem Placed.span_of_mem (h : Placed stop lower upper nodes) (mem : node ∈ nodes) :
    lower ≤ node.span.start ∧ node.span.start < node.span.stop ∧ node.span.stop ≤ upper :=
  (inOrder_iff_pairwise.mp h.inOrder).2.1 _ (List.mem_map_of_mem mem)

/-- Of two nodes among others, one ends before the other starts. -/
theorem Placed.apart (h : Placed stop lower upper nodes) (mem : node ∈ nodes)
    (hother : outer ∈ nodes) :
    outer = node ∨ outer.span.stop ≤ node.span.start ∨ node.span.stop ≤ outer.span.start := by
  obtain ⟨front, behind, rfl⟩ := List.append_of_mem mem
  have hpairs := (inOrder_iff_pairwise.mp h.inOrder).2.2
  rw [List.pairwise_map, List.pairwise_append, List.pairwise_cons] at hpairs
  obtain ⟨-, ⟨hbehind, -⟩, hfront⟩ := hpairs
  rcases List.mem_append.mp hother with hmem | hmem
  · exact .inr (.inl (hfront outer hmem node List.mem_cons_self))
  · rcases List.mem_cons.mp hmem with rfl | hmem
    · exact .inl rfl
    · exact .inr (.inr (hbehind outer hmem))

/-- What is below a node is placed inside it, and ends before it does unless the source ends. -/
theorem Placed.inBlock (h : Placed stop lower upper nodes) (mem : outer ∈ nodes)
    (hbelow : Below node outer.children) :
    ∃ block, outer.block? = some block ∧ outer.span.start ≤ block.start ∧
      block.stop = outer.span.stop ∧ Placed stop (block.start + 1) block.stop outer.children ∧
      EndBefore stop block.stop outer.children := by
  obtain ⟨block, hblock, hplaced⟩ := (h.wellPlaced outer (.here mem)).blockPlaced hbelow.ne_nil
  have hspan := h.span_of_mem mem
  have hedges := h.hasEdges outer (.here mem)
  refine ⟨block, hblock, hplaced.starts, hplaced.stops, ⟨hplaced.inside, ?_, ?_, ?_⟩, ?_⟩
  · exact hplaced.stops ▸ Nat.le_trans hspan.2.2 h.inside
  · exact fun node hnode => h.wellPlaced node (.inside mem hnode)
  · exact fun node hnode => h.hasEdges node (.inside mem hnode)
  · cases outer with
    | ruleset rule children =>
      obtain rfl := Option.some.inj hblock
      exact hedges
    | atRule rule children => exact hedges block hblock
    | declaration | comment => cases hblock

/-- A node below others keeps inside them and is not empty. -/
theorem Placed.span_of_below (h : Placed stop lower upper nodes) (hbelow : Below node nodes) :
    lower ≤ node.span.start ∧ node.span.start < node.span.stop ∧ node.span.stop ≤ upper := by
  induction hbelow generalizing lower upper with
  | here mem => exact h.span_of_mem mem
  | @inside nodes outer mem below ih =>
    obtain ⟨block, -, hstart, hstop, hchildren, -⟩ := h.inBlock mem below
    have hnode := ih hchildren
    have houter := h.span_of_mem mem
    omega

/-- What is below a node that is below others is placed inside it. -/
theorem Placed.descend (h : Placed stop lower upper nodes) (houter : Below outer nodes)
    (hbelow : Below node outer.children) :
    ∃ lower' upper', outer.span.start < lower' ∧ upper' ≤ outer.span.stop ∧
      Placed stop lower' upper' outer.children := by
  induction houter generalizing lower upper with
  | here mem =>
    obtain ⟨block, -, hstart, hstop, hchildren, -⟩ := h.inBlock mem hbelow
    exact ⟨_, _, Nat.lt_succ_of_le hstart, Nat.le_of_eq hstop, hchildren⟩
  | inside mem below ih =>
    obtain ⟨block, -, -, -, hchildren, -⟩ := h.inBlock mem below
    exact ih hchildren

/-- A node below another one starts behind its start and ends before its end, where both may end
with the source. -/
theorem Placed.span_inside (h : Placed stop lower upper nodes) (mem : outer ∈ nodes)
    (hbelow : Below node outer.children) :
    outer.span.start < node.span.start ∧
      (node.span.stop < outer.span.stop ∨ outer.span.stop = stop) := by
  obtain ⟨block, -, hstart, hstop, hchildren, hends⟩ := h.inBlock mem hbelow
  have hnode := hchildren.span_of_below hbelow
  refine ⟨by omega, ?_⟩
  rcases hends with hend | hends
  · exact .inr (hstop ▸ hend)
  · left
    cases hbelow with
    | here hmem => exact hstop ▸ hends node hmem
    | @inside _ m hmem hbelow =>
      have hm := hends m hmem
      obtain ⟨inner, -, -, hinner, hplaced, -⟩ := hchildren.inBlock hmem hbelow
      have hlast := hplaced.span_of_below hbelow
      omega

end CssWorkbench
