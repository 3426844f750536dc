import CssWorkbench.Proofs.Tree.BlockEnds

/-!
# Places in a tree

Around some nodes that stand next to each other is the rest of the tree, with a gap where they
stand. Filled with these nodes it is the tree; filled with others it is the tree with this one
change.
-/

namespace CssWorkbench

/-- A node with other nodes in its block. -/
def Node.withChildren (new : List Node) : Node → Node
  | .ruleset rule _ => .ruleset rule new
  | .atRule rule _ => .atRule rule new
  | node => node

/-- A tree with a gap between two of its nodes: the nodes in front of the gap come first, and around
the gap may be rulesets and at-rules. -/
inductive TreeGap
  | here (behind : List Node)
  | after (node : Node) (place : TreeGap)
  | inRuleset (rule : Ruleset) (inner : TreeGap) (behind : List Node)
  | inAtRule (rule : AtRule) (inner : TreeGap) (behind : List Node)

namespace TreeGap

/-- The tree with some nodes in the gap. -/
def fill (nodes : List Node) : TreeGap → List Node
  | here behind => nodes ++ behind
  | after node place => node :: place.fill nodes
  | inRuleset rule inner behind => .ruleset rule (inner.fill nodes) :: behind
  | inAtRule rule inner behind => .atRule rule (inner.fill nodes) :: behind

/-- Behind some nodes there is a gap further on. -/
def behindAll (front : List Node) (place : TreeGap) : TreeGap :=
  front.foldr after place

/-- The gap in the block of a ruleset, which stands in the gap itself. -/
def within (rule : Ruleset) (front behind : List Node) : TreeGap → TreeGap
  | here outer => inRuleset rule (behindAll front (here behind)) outer
  | after node place => after node (place.within rule front behind)
  | inRuleset outer inner outside => inRuleset outer (inner.within rule front behind) outside
  | inAtRule outer inner outside => inAtRule outer (inner.within rule front behind) outside

variable {node first : Node} {nodes new : List Node} {place : TreeGap}

/-- Nodes put in front of a gap stay in front. -/
theorem fill_behindAll (front : List Node) (place : TreeGap) (new : List Node) :
    (behindAll front place).fill new = front ++ place.fill new := by
  induction front with
  | nil => rfl
  | cons node front ih => exact congrArg (node :: ·) ih

/-- A gap within a ruleset is filled in its block. -/
theorem fill_within (rule : Ruleset) (front behind : List Node) (place : TreeGap)
    (new : List Node) :
    (place.within rule front behind).fill new =
      place.fill [.ruleset rule (front ++ (new ++ behind))] := by
  induction place with
  | here outer =>
    simp only [within, fill, fill_behindAll, List.singleton_append]
  | after node place ih => exact congrArg (node :: ·) ih
  | inRuleset outer inner outside ih => rw [within, fill, ih, fill]
  | inAtRule outer inner outside ih => rw [within, fill, ih, fill]

/-- A gap that is filled with something does not become empty. -/
theorem fill_ne_nil (h : new ≠ []) (place : TreeGap) : place.fill new ≠ [] := by
  cases place with
  | here behind => exact List.append_ne_nil_of_left_ne_nil h behind
  | after | inRuleset | inAtRule => exact List.cons_ne_nil _ _

/-- The first node of a tree stands in the gap, in front of it or around it. -/
theorem fill_eq_cons (h : place.fill [node] = first :: nodes) :
    place = here nodes ∧ node = first ∨
      (∃ inner, place = after first inner ∧ inner.fill [node] = nodes) ∨
      ∃ inner : TreeGap, inner.fill [node] = first.children ∧
        ∀ new, place.fill new = first.withChildren (inner.fill new) :: nodes := by
  cases place with
  | here behind =>
    obtain ⟨rfl, rfl⟩ := List.cons.inj h
    exact .inl ⟨rfl, rfl⟩
  | after outer inner =>
    obtain ⟨rfl, hnodes⟩ := List.cons.inj h
    exact .inr (.inl ⟨inner, rfl, hnodes⟩)
  | inRuleset rule inner behind | inAtRule rule inner behind =>
    obtain ⟨rfl, rfl⟩ := List.cons.inj h
    exact .inr (.inr ⟨inner, rfl, fun _ => rfl⟩)

/-- Only behind a first node that holds no others can the gap be. -/
theorem exists_after (h : place.fill [node] = first :: nodes) (hne : node ≠ first)
    (hleaf : first.children = []) :
    ∃ inner, place = after first inner ∧ inner.fill [node] = nodes := by
  obtain ⟨-, heq⟩ | hafter | ⟨inner, hinner, -⟩ := fill_eq_cons h
  · exact absurd heq hne
  · exact hafter
  · exact absurd (hinner.trans hleaf) (inner.fill_ne_nil (List.cons_ne_nil node []))

end TreeGap

variable {node : Node} {nodes : List Node}

/-- Every node below others stands in a gap of their tree. -/
theorem Below.exists_gap (h : Below node nodes) :
    ∃ place : TreeGap, place.fill [node] = nodes := by
  induction h with
  | here mem =>
    obtain ⟨front, behind, rfl⟩ := List.append_of_mem mem
    exact ⟨.behindAll front (.here behind), TreeGap.fill_behindAll front _ _⟩
  | @inside nodes outer mem below ih =>
    obtain ⟨inner, hinner⟩ := ih
    obtain ⟨front, behind, rfl⟩ := List.append_of_mem mem
    cases outer with
    | ruleset rule children =>
      refine ⟨.behindAll front (.inRuleset rule inner behind), ?_⟩
      rw [TreeGap.fill_behindAll, TreeGap.fill, hinner]
      rfl
    | atRule rule children =>
      refine ⟨.behindAll front (.inAtRule rule inner behind), ?_⟩
      rw [TreeGap.fill_behindAll, TreeGap.fill, hinner]
      rfl
    | declaration | comment => exact absurd below not_below_nil

end CssWorkbench
