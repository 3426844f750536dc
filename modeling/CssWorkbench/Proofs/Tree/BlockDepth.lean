import CssWorkbench.Proofs.Tree.Declarations
import CssWorkbench.Proofs.Tree.Nesting
import CssWorkbench.Proofs.Tree.Turns

/-!
# How deep blocks nest

No node stands in more than `maxNesting` blocks, and one that stands in so many has no children. The
blocks that are cut for this are those of the nodes at that depth: the errors tell of each of them,
in order, and of no other block.
-/

namespace CssWorkbench

/-- Where the blocks start that are one too deep, in nodes that stand at a depth. -/
def cutBlocks (depth : Nat) (nodes : List Node) : List Nat :=
  (walkNodes (fun _ => true) depth nodes).filterMap fun p =>
    if p.1 = maxNesting + 1 then p.2.block?.map Span.start else none

/-- Where the errors are that tell of a block that is cut. -/
def cutErrors (errors : List SyntaxError) : List Nat :=
  (errors.filter (·.fault = .nestedTooDeeply)).map (·.span.start)

variable {stop n e depth : Nat} {t : Token} {ts left rest : List Token} {node : Node}
  {nodes : List Node} {errors first : List SyntaxError}

/-- The errors of blocks that lie too deep are those of both parts. -/
theorem cutErrors_append : cutErrors (first ++ errors) = cutErrors first ++ cutErrors errors := by
  rw [cutErrors, List.filter_append, List.map_append, cutErrors, cutErrors]

/-- The blocks of a node, of what is below it, and of the nodes behind it. -/
theorem cutBlocks_cons : cutBlocks depth (node :: nodes) =
    (if depth = maxNesting + 1 then node.block?.map Span.start else none).toList ++
      cutBlocks (depth + 1) node.children ++ cutBlocks depth nodes := by
  rw [cutBlocks, walkNodes_cons, List.filterMap_append, List.filterMap_cons]
  split <;> rename_i hself <;> simp only [hself] <;> rfl

/-- What the bound says of a node that a walk meets at a depth. -/
def InBound (p : Nat × Node) : Prop :=
  p.1 ≤ maxNesting + 1 ∧ (p.1 = maxNesting + 1 → p.2.children = [])

/-- The nodes at a depth and below it keep to the bound, and the errors tell of the blocks that were
cut for it. -/
structure KeepsBound (depth : Nat) (nodes : List Node) (errors : List SyntaxError) : Prop where
  bounded : ∀ p ∈ walkNodes (fun _ => true) depth nodes, InBound p
  told : cutErrors errors = cutBlocks depth nodes

/-- Without nodes and such errors the bound is kept. -/
theorem keepsBound_nil (herrors : cutErrors errors = []) : KeepsBound depth [] errors :=
  ⟨fun _ hp => absurd hp List.not_mem_nil, herrors⟩

/-- An error of another kind may be met on the way. -/
theorem KeepsBound.after (h : KeepsBound depth nodes errors) {fault : SyntaxFault}
    (hfault : fault ≠ .nestedTooDeeply) (span : Span) :
    KeepsBound depth nodes (⟨fault, span⟩ :: errors) :=
  ⟨h.bounded, by rw [cutErrors, List.filter_cons_of_neg (by simpa using hfault)]; exact h.told⟩

/-- A node stands in front of others, with the errors that were met in it. -/
theorem KeepsBound.cons (h : KeepsBound depth nodes errors) (hself : InBound (depth, node))
    (hbelow : ∀ p ∈ walkNodes (fun _ => true) (depth + 1) node.children, InBound p)
    (hfirst : cutErrors first =
      (if depth = maxNesting + 1 then node.block?.map Span.start else none).toList ++
        cutBlocks (depth + 1) node.children) :
    KeepsBound depth (node :: nodes) (first ++ errors) := by
  refine ⟨fun p hp => ?_, by rw [cutErrors_append, hfirst, h.told, cutBlocks_cons]⟩
  rw [walkNodes_cons] at hp
  rcases List.mem_append.mp hp with hp | hp
  · exact List.forall_mem_cons.mpr ⟨hself, hbelow⟩ p hp
  · exact h.bounded p hp

/-- A node that is no block may stand wherever a block may be open. -/
theorem KeepsBound.leaf (h : KeepsBound depth nodes errors) (hdepth : depth ≤ maxNesting + 1)
    (hblock : node.block? = none) (hchildren : node.children = []) (hfirst : cutErrors first = []) :
    KeepsBound depth (node :: nodes) (first ++ errors) := by
  refine h.cons ⟨hdepth, fun _ => hchildren⟩ (by simp [hchildren, walkNodes]) ?_
  rw [hblock, hchildren, Option.map_none, ite_self, hfirst]
  rfl

/-- A block that is not too deep may stand around nodes that keep to the bound. -/
theorem KeepsBound.around (h : KeepsBound depth nodes errors) (hdepth : depth ≤ maxNesting)
    (hbelow : KeepsBound (depth + 1) node.children first) :
    KeepsBound depth (node :: nodes) (first ++ errors) := by
  have hne : depth ≠ maxNesting + 1 := by omega
  refine h.cons ⟨Nat.le_succ_of_le hdepth, fun heq => absurd heq hne⟩ hbelow.bounded ?_
  rw [if_neg hne, hbelow.told]
  rfl

/-- A block that is one too deep is empty, and an error tells of it. -/
theorem KeepsBound.cut (h : KeepsBound (maxNesting + 1) nodes errors) {opener : Token}
    {inside : Nat}
    (hblock : node.block? = some ⟨opener.start, inside⟩) (hchildren : node.children = []) :
    KeepsBound (maxNesting + 1) (node :: nodes) (⟨.nestedTooDeeply, opener.span⟩ :: errors) := by
  have hfirst : cutErrors [⟨.nestedTooDeeply, opener.span⟩] = [opener.start] := rfl
  refine h.cons ⟨Nat.le_refl _, fun _ => hchildren⟩ (by simp [hchildren, walkNodes])
    (hfirst.trans ?_)
  rw [hblock, hchildren, if_pos rfl]
  rfl

/-- A stray token is no block that lies too deep. -/
theorem Stray.fault_ne {kind : TokenKind} {fault : SyntaxFault} (h : Stray kind fault) :
    fault ≠ .nestedTooDeeply := by
  cases h <;> decide

/-- An at-rule without a block has no block that lies too deep. -/
theorem cutErrors_statement (h : ReadsStatement stop t ts node left errors) :
    cutErrors errors = [] ∧ node.block? = none := by
  cases h with
  | ended | broken => exact ⟨rfl, rfl⟩

/-- What is read with some blocks open keeps to the bound if they do. -/
theorem Reads.keepsBound (h : Reads stop n ts nodes e rest errors) (hn : n ≤ maxNesting) :
    KeepsBound (n + 1) nodes errors := by
  induction h with
  | finish | unclosed | close => exact keepsBound_nil rfl
  | stray kind _ ih => exact (ih hn).after kind.fault_ne _
  | pass _ _ ih => exact ih hn
  | comment _ _ ih | declaration _ _ _ _ _ ih =>
    exact (ih hn).leaf (Nat.succ_le_succ hn) rfl rfl (rfl : cutErrors [] = [])
  | statement _ rule _ ih =>
    obtain ⟨hfirst, hblock⟩ := cutErrors_statement rule
    exact (ih hn).leaf (Nat.succ_le_succ hn) hblock rule.no_declaration.2 hfirst
  | block head shallow _ _ ihBody ih =>
    obtain ⟨-, -, -, -, -, hchildren⟩ := head.append _ _
    exact (ih hn).around shallow (hchildren.symm ▸ ihBody shallow)
  | deepBlock head deep _ ih =>
    obtain ⟨-, -, -, -, hblock, hchildren⟩ := head.append _ _
    obtain rfl := Nat.le_antisymm hn deep
    exact (ih hn).cut hblock hchildren
  | broken _ _ _ _ _ _ ih => exact (ih hn).after (by decide) _

/-- The parser comes to an end, and blocks do not nest too deeply. It can go turn by turn from the
start of a source to its answer. Wherever it may be on the way, its counter is the number of open
blocks and in its bound, every next turn leaves less to do, and without a next turn it has no token
ahead, its counter is at zero, and it holds the answer. No place of the tree is deeper than
`maxNesting` blocks, one that is so deep has nothing in it, and the errors tell of each block that
was cut for this, and of no other. -/
theorem parse_nesting_bounded (source : String) :
    Relation.ReflTransGen (Turn (Text.size source)) (.start source)
        (.done (parse source).1.children (parse source).2) ∧
      (∀ s, Relation.ReflTransGen (Turn (Text.size source)) (.start source) s →
        s.nesting = s.opened.length ∧ s.nesting ≤ maxNesting ∧
          (∀ s', Turn (Text.size source) s s' → s'.turnsLeft < s.turnsLeft) ∧
          (s = .done (parse source).1.children (parse source).2 ∨
            ∃ s', Turn (Text.size source) s s')) ∧
      (∀ p ∈ (parse source).1.walk fun _ => true,
        p.1 ≤ maxNesting + 1 ∧ (p.1 = maxNesting + 1 → p.2.children = [])) ∧
      cutErrors (parse source).2 = cutBlocks 1 (parse source).1.children := by
  have hbound := (reads_parse source).keepsBound (Nat.zero_le _)
  refine ⟨?_, fun s hrun => ?_, fun p hp => ?_, hbound.told⟩
  · obtain ⟨nodes, errors, hrun⟩ := exists_run (Text.size source) (counted_start source)
    obtain ⟨rfl, rfl⟩ := parse_eq_of_run hrun
    exact hrun
  · have hcounted := (counted_of_run hrun (counted_start source))
    refine ⟨hcounted.1, hcounted.2, fun _ hturn => hturn.turnsLeft_lt, ?_⟩
    refine (exists_turn (Text.size source) hcounted).imp_left fun hdone => ?_
    rw [hdone] at hrun ⊢
    obtain ⟨hnodes, herrors⟩ := parse_eq_of_run hrun
    rw [← hnodes, ← herrors]
  · rw [Stylesheet.walk, if_pos rfl] at hp
    rcases List.mem_cons.mp hp with rfl | hp
    · exact ⟨Nat.zero_le _, fun heq => nomatch heq⟩
    · obtain ⟨q, hq, rfl⟩ := List.mem_map.mp hp
      exact hbound.bounded q hq

end CssWorkbench
