import CssWorkbench.Proofs.Tree.Declarations
import CssWorkbench.Proofs.Tree.Paths

/-!
# How two nodes stand to each other

Of two nodes of a tree one is below the other, or one ends before the other starts. Their blocks do
as they do. A walk over the tree meets the nodes in the order in which they start.
-/

namespace CssWorkbench

variable {stop lower upper : Nat} {node outer first : Node} {nodes : List Node}
  {block around : Span} {d : Declaration}

/-- A block belongs to the end of its node. -/
theorem Node.WellPlaced.blockPlaced_of_block? (h : node.WellPlaced)
    (hblock : node.block? = some block) : BlockPlaced node.span block node.children := by
  cases node with
  | ruleset rule children =>
    obtain rfl := Option.some.inj hblock
    exact h.2.2.2.2
  | atRule rule children =>
    obtain ⟨-, hplaced⟩ := h
    have hsome : rule.block = some block := hblock
    rw [hsome] at hplaced
    exact hplaced.2
  | declaration | comment => cases hblock

/-- What stands behind the first of some nodes is placed behind it. -/
theorem Placed.tail (h : Placed stop lower upper (first :: nodes)) :
    Placed stop first.span.stop upper nodes :=
  ⟨h.inOrder.2.2, h.inside, fun m hm => h.wellPlaced m (hm.cons first),
    fun m hm => h.hasEdges m (hm.cons first)⟩

/-- Of two nodes one is below the other, or one ends before the other starts. -/
theorem Placed.below_or_apart (h : Placed stop lower upper nodes) (houter : Below outer nodes)
    (hnode : Below node nodes) :
    outer = node ∨ Below node outer.children ∨ Below outer node.children ∨
      outer.span.stop ≤ node.span.start ∨ node.span.stop ≤ outer.span.start := by
  induction houter generalizing lower upper with
  | here mem =>
    obtain ⟨m, mem', hm, hspan⟩ := h.exists_sibling hnode
    rcases h.apart mem' mem with rfl | hapart | hapart
    · exact hm.imp Eq.symm .inl
    · exact .inr (.inr (.inr (.inl (by omega))))
    · exact .inr (.inr (.inr (.inr (by omega))))
  | @inside _ sibling mem below ih =>
    have hinside := (h.children mem).span_of_below below
    obtain ⟨m, mem', hm, hspan⟩ := h.exists_sibling hnode
    rcases h.apart mem' mem with rfl | hapart | hapart
    · rcases hm with rfl | below'
      · exact .inr (.inr (.inl below))
      · exact ih (h.children mem) below'
    · exact .inr (.inr (.inr (.inl (by omega))))
    · exact .inr (.inr (.inr (.inr (by omega))))

/-- The block of a node is around the blocks of all nodes below. -/
theorem Placed.block_covers (h : Placed stop lower upper nodes) (houter : Below outer nodes)
    (hnode : Below node outer.children) (haround : outer.block? = some around)
    (hblock : node.block? = some block) : around.covers block = true := by
  have hplaced := (h.wellPlaced outer houter).blockPlaced_of_block? haround
  have hinner := (h.wellPlaced node (houter.trans hnode)).blockPlaced_of_block? hblock
  obtain ⟨_, _, -, -, hchildren⟩ := h.descend houter hnode
  have hbelow : Placed stop (around.start + 1) around.stop outer.children :=
    ⟨hplaced.inside, hplaced.stops ▸ Nat.le_trans (h.span_of_below houter).2.2 h.inside,
      hchildren.wellPlaced, hchildren.hasEdges⟩
  have hspan := hbelow.span_of_below hnode
  have hstarts := hinner.starts
  have hstops := hinner.stops
  exact Span.covers_iff.mpr (by omega)

/-! ## The order of a walk -/

mutual

/-- A walk below a node meets the nodes in the order of their starts. -/
theorem Node.pairwise_walkNodes (depth : Nat) : ∀ n : Node, ∀ {lower upper : Nat},
    Placed stop lower upper n.children →
    (walkNodes (fun _ => true) depth n.children).Pairwise
      fun p q => p.2.span.start ≤ q.2.span.start
  | .ruleset _ children => fun h => Placed.pairwise_walkNodes depth children h
  | .atRule _ children => fun h => Placed.pairwise_walkNodes depth children h
  | .declaration _ => fun _ => .nil
  | .comment _ => fun _ => .nil

/-- A walk meets the nodes in the order in which they start. -/
theorem Placed.pairwise_walkNodes (depth : Nat) : ∀ nodes : List Node, ∀ {lower upper : Nat},
    Placed stop lower upper nodes →
    (walkNodes (fun _ => true) depth nodes).Pairwise fun p q => p.2.span.start ≤ q.2.span.start
  | [] => fun _ => .nil
  | first :: rest => fun h => by
    have hchildren := h.children List.mem_cons_self
    have hfirst := h.span_of_mem List.mem_cons_self
    have hinner : ∀ p ∈ walkNodes (fun _ => true) (depth + 1) first.children,
        first.span.start ≤ p.2.span.start ∧ p.2.span.start ≤ first.span.stop := fun p hp => by
      have hspan := hchildren.span_of_below (below_of_mem_walkNodes _ hp)
      omega
    have hbehind : ∀ p ∈ walkNodes (fun _ => true) depth rest,
        first.span.stop ≤ p.2.span.start := fun p hp =>
      (h.tail.span_of_below (below_of_mem_walkNodes _ hp)).1
    rw [walkNodes_cons, List.pairwise_append, List.pairwise_cons]
    refine ⟨⟨fun p hp => (hinner p hp).1, first.pairwise_walkNodes (depth + 1) hchildren⟩,
      Placed.pairwise_walkNodes depth rest h.tail, fun p hp q hq => ?_⟩
    have hq := hbehind q hq
    rcases List.mem_cons.mp hp with rfl | hp
    · show first.span.start ≤ _
      omega
    · have hp := hinner p hp
      omega

end

/-! ## What is listed of a tree -/

/-- The nodes of a stylesheet are those below its children. -/
theorem Stylesheet.mem_nodes_iff {sheet : Stylesheet} :
    node ∈ sheet.nodes ↔ Below node sheet.children := by
  constructor
  · intro h
    obtain ⟨p, hp, rfl⟩ := List.mem_map.mp h
    exact below_of_mem_walkNodes _ hp
  · intro h
    obtain ⟨depth, hmem⟩ := h.mem_walkNodes 1
    exact List.mem_map_of_mem hmem

/-- A declaration that stands below some nodes is one of theirs. -/
theorem Below.mem_declarationsOf (h : Below (.declaration d) nodes) : d ∈ declarationsOf nodes := by
  induction h with
  | here mem =>
    obtain ⟨front, behind, rfl⟩ := List.append_of_mem mem
    rw [declarationsOf_append, declarationsOf_declaration]
    exact List.mem_append_right _ List.mem_cons_self
  | @inside nodes outer mem below ih =>
    obtain ⟨front, behind, rfl⟩ := List.append_of_mem mem
    have hnone : outer.declaration? = none := by
      cases outer with
      | declaration => exact absurd below not_below_nil
      | ruleset | atRule | comment => rfl
    rw [declarationsOf_append, declarationsOf_cons hnone]
    exact List.mem_append_right _ (List.mem_append_left _ ih)

mutual

/-- The declarations of a node are the node or below it. -/
theorem Node.below_of_mem_declarations : ∀ n : Node, d ∈ (n.declarations none).map Prod.fst →
    .declaration d = n ∨ Below (.declaration d) n.children
  | .ruleset rule children => fun h => by
    rw [Node.declarations, map_fst_declarationsBelow] at h
    exact .inr (below_of_mem_declarationsOf children h)
  | .atRule _ children => fun h => .inr (below_of_mem_declarationsOf children h)
  | .declaration _ => fun h => .inl (congrArg Node.declaration (List.mem_singleton.mp h))
  | .comment _ => fun h => absurd h List.not_mem_nil

/-- The declarations of some nodes are below them. -/
theorem below_of_mem_declarationsOf : ∀ nodes : List Node, d ∈ declarationsOf nodes →
    Below (.declaration d) nodes
  | [] => fun h => absurd h List.not_mem_nil
  | n :: ns => fun h => by
    rw [declarationsOf, declarationsBelow, List.map_append, List.mem_append] at h
    rcases h with h | h
    · exact below_cons.mpr ((n.below_of_mem_declarations h).imp_right .inl)
    · exact (below_of_mem_declarationsOf ns h).cons n

end

/-- The nodes of a tree are listed in the order in which they start. -/
theorem pairwise_nodes_parse (source : String) :
    (parse source).1.nodes.Pairwise fun m n => m.span.start ≤ n.span.start :=
  List.pairwise_map.mpr (Placed.pairwise_walkNodes 1 _ (parse_placed source))

end CssWorkbench
