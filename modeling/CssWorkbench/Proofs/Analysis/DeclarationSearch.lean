import CssWorkbench.Analysis.Fix
import CssWorkbench.Proofs.Analysis.LintedDeclarations

/-!
# The search for a declaration

The search for the declaration at an offset goes down into the first ruleset or block that the
offset touches, and takes the first declaration there that it touches. A declaration that is found
stands right in the block of a ruleset; and a declaration of a ruleset is found at all of its
offsets, except at its start if another one ends there.
-/

namespace CssWorkbench

variable {stop lower upper offset : Nat} {node : Node} {nodes front children : List Node}
  {rule : Ruleset} {d : Declaration} {siblings earlier later : List Declaration}
  {found : Option (List Declaration × Declaration)}

/-! ## What is found -/

/-- The declarations in a block are the children that are declarations. -/
theorem mem_declarationsIn_iff : d ∈ declarationsIn children ↔ .declaration d ∈ children := by
  rw [declarationsIn, List.mem_filterMap]
  constructor
  · rintro ⟨node, hnode, hsome⟩
    cases node with
    | declaration =>
      obtain rfl := Option.some.inj hsome
      exact hnode
    | ruleset | atRule | comment => cases hsome
  · intro hmem
    exact ⟨_, hmem, rfl⟩

/-- A declaration that is split off those of a block stands in the block. -/
theorem mem_of_declarationsIn_eq (h : declarationsIn children = earlier ++ d :: later) :
    .declaration d ∈ children := by
  rw [← mem_declarationsIn_iff, h]
  exact List.mem_append_right _ List.mem_cons_self

mutual

/-- What the search finds in a node is a declaration of a ruleset there that touches the offset. -/
theorem Node.declarationAt_sound : ∀ node : Node,
    (node.declarationAt offset).1 = some (siblings, d) → ∃ rule children,
      (Node.ruleset rule children = node ∨ Below (.ruleset rule children) node.children) ∧
        siblings = declarationsIn children ∧ d ∈ siblings ∧ d.span.contains offset = true
  | .ruleset rule children => by
    intro h
    rw [Node.declarationAt] at h
    split at h
    · split at h
      · rename_i found hamong
        obtain rfl := Option.some.inj h
        obtain ⟨rule', children', hbelow, hfound⟩ := declarationAmong_sound children hamong
        exact ⟨rule', children', .inr hbelow, hfound⟩
      · obtain ⟨e, hfind, heq⟩ := Option.map_eq_some_iff.mp h
        obtain ⟨rfl, rfl⟩ := Prod.mk.inj heq
        have htouch := List.find?_some hfind
        exact ⟨rule, children, .inl rfl, rfl, List.mem_of_find?_eq_some hfind, htouch⟩
    · cases h
  | .atRule rule children => by
    intro h
    rw [Node.declarationAt] at h
    split at h
    · obtain ⟨rule', children', hbelow, hfound⟩ := declarationAmong_sound children h
      exact ⟨rule', children', .inr hbelow, hfound⟩
    · cases h
  | .declaration _ | .comment _ => by
    intro h
    cases h

/-- A declaration that is found contains the offset and stands in the block of a ruleset, with the
other declarations there. -/
theorem declarationAmong_sound : ∀ nodes : List Node,
    declarationAmong offset nodes = some (siblings, d) → ∃ rule children,
      Below (.ruleset rule children) nodes ∧ siblings = declarationsIn children ∧ d ∈ siblings ∧
        d.span.contains offset = true
  | [] => by
    intro h
    cases h
  | node :: nodes => by
    intro h
    rw [declarationAmong] at h
    split at h
    · rename_i found heq
      obtain ⟨rule, children, hself, hfound⟩ := node.declarationAt_sound (heq ▸ h)
      refine ⟨rule, children, below_cons.mpr ?_, hfound⟩
      exact hself.imp_right .inl
    · obtain ⟨rule, children, hbelow, hfound⟩ := declarationAmong_sound nodes h
      exact ⟨rule, children, hbelow.cons node, hfound⟩

end

/-! ## What is passed over -/

/-- The search passes over a node that the offset does not touch. -/
theorem Node.declarationAt_of_not_contains (h : node.span.contains offset = false) :
    node.declarationAt offset = (none, false) := by
  cases node with
  | ruleset rule children =>
    have hrule : rule.span.contains offset = false := h
    rw [Node.declarationAt, hrule]
    rfl
  | atRule rule children =>
    have hrule : rule.span.contains offset = false := h
    rw [Node.declarationAt, hrule, Bool.false_and]
    rfl
  | declaration | comment => rfl

/-- The search ends with a node that is searched to the end and has the offset behind its start. -/
theorem declarationAmong_of_mem (h : InOrder lower upper (nodes.map Node.span))
    (mem : node ∈ nodes) (hfrom : node.span.start < offset)
    (hnode : node.declarationAt offset = (found, true)) :
    declarationAmong offset nodes = found := by
  induction nodes generalizing lower with
  | nil => cases mem
  | cons first nodes ih =>
    obtain ⟨-, hpos, hrest⟩ := h
    rw [declarationAmong]
    rcases List.mem_cons.mp mem with rfl | mem
    · rw [hnode]
    · have hstart := ((inOrder_iff_pairwise.mp hrest).2.1 _ (List.mem_map_of_mem mem)).1
      rw [first.declarationAt_of_not_contains]
      · exact ih hrest mem
      · rw [Bool.eq_false_iff, ne_eq, Span.contains_iff]
        omega

/-- Where the offset touches a declaration of a block, nothing is found below the block. -/
theorem Placed.declarationAmong_eq_none (h : Placed stop lower upper nodes)
    (mem : .declaration d ∈ nodes) (hcontains : d.span.contains offset = true) :
    declarationAmong offset nodes = none := by
  rw [Option.eq_none_iff_forall_ne_some]
  rintro ⟨siblings, e⟩ hamong
  obtain ⟨rule, children, hbelow, rfl, hmem, htouch⟩ := declarationAmong_sound nodes hamong
  obtain ⟨outer, houter, hinside⟩ := hbelow.exists_outer (.here (mem_declarationsIn_iff.mp hmem))
  obtain ⟨hstart, hends⟩ := h.span_inside houter hinside
  have hspan := h.span_of_mem mem
  have hstop := h.inside
  rw [Span.contains_iff] at hcontains htouch
  rcases h.apart mem houter with rfl | hapart
  · exact not_below_nil hinside
  · simp only [Node.span] at *
    omega

/-! ## What is reached -/

/-- What is found in the block of a node is found in the node. -/
theorem Node.declarationAt_of_children {block : Span} {pair : List Declaration × Declaration}
    (hcontains : node.span.contains offset = true) (hblock : node.block? = some block)
    (hfound : declarationAmong offset node.children = some pair) :
    node.declarationAt offset = (some pair, true) := by
  cases node with
  | ruleset rule children =>
    have hspan : rule.span.contains offset = true := hcontains
    have hchildren : declarationAmong offset children = some pair := hfound
    rw [Node.declarationAt, if_pos hspan, hchildren]
  | atRule rule children =>
    have hspan : rule.span.contains offset = true := hcontains
    have hsome : rule.block = some block := hblock
    have hchildren : declarationAmong offset children = some pair := hfound
    rw [Node.declarationAt, hspan, hsome, hchildren]
    rfl
  | declaration | comment => cases hblock

/-- The search reaches a ruleset that the offset is inside, whatever stands around it. -/
theorem Placed.declarationAmong_of_below {pair : List Declaration × Declaration}
    (h : Placed stop lower upper nodes) (hbelow : Below node nodes)
    (hfrom : node.span.start < offset) (hto : offset ≤ node.span.stop)
    (hnode : node.declarationAt offset = (some pair, true)) :
    declarationAmong offset nodes = some pair := by
  induction hbelow generalizing lower upper with
  | here mem => exact declarationAmong_of_mem h.inOrder mem hfrom hnode
  | @inside nodes outer mem below ih =>
    obtain ⟨block, hblock, hstart, hstop, hchildren, -⟩ := h.inBlock mem below
    have hspan := hchildren.span_of_below below
    apply declarationAmong_of_mem h.inOrder mem (by omega)
    apply Node.declarationAt_of_children _ hblock (ih hchildren)
    rw [Span.contains_iff]
    omega

/-- The declarations of a block stand in order. -/
theorem Placed.stop_le_start (h : Placed stop lower upper children)
    (hsplit : declarationsIn children = earlier ++ d :: later) :
    ∀ e ∈ earlier, e.span.start < e.span.stop ∧ e.span.stop ≤ d.span.start := by
  intro e he
  have hmem : e ∈ declarationsIn children := hsplit ▸ List.mem_append_left _ he
  have hpairs := (inOrder_iff_pairwise.mp h.inOrder).2.2
  rw [List.pairwise_map] at hpairs
  have hinside : (declarationsIn children).Pairwise fun e d => e.span.stop ≤ d.span.start := by
    refine hpairs.filterMap _ fun m n hle e he d hd => ?_
    cases m <;> cases he
    cases n <;> cases hd
    exact hle
  rw [hsplit, List.pairwise_append] at hinside
  refine ⟨(h.span_of_mem (mem_declarationsIn_iff.mp hmem)).2.1, ?_⟩
  exact hinside.2.2 e he d List.mem_cons_self

/-- A declaration of a ruleset is found at each of its offsets, its start only if no declaration
in front of it ends there. -/
theorem Placed.declarationAmong_of_declaration (h : Placed stop lower upper nodes)
    (hbelow : Below (.ruleset rule children) nodes)
    (hsplit : declarationsIn children = earlier ++ d :: later)
    (hcontains : d.span.contains offset = true)
    (hfirst : offset = d.span.start → ∀ e ∈ earlier, e.span.stop ≠ offset) :
    declarationAmong offset nodes = some (declarationsIn children, d) := by
  have hd := mem_of_declarationsIn_eq hsplit
  obtain ⟨lower', upper', hstart, hstop, hchildren⟩ := h.descend hbelow (.here hd)
  have hspan := hchildren.span_of_mem hd
  have hoffset := Span.contains_iff.mp hcontains
  have hfind : (declarationsIn children).find? (fun e => e.span.contains offset) = some d := by
    rw [List.find?_eq_some_iff_append]
    refine ⟨hcontains, earlier, later, hsplit, fun e he => ?_⟩
    have hbefore := hchildren.stop_le_start hsplit e he
    rw [Bool.not_eq_true', Bool.eq_false_iff, ne_eq, Span.contains_iff]
    rintro ⟨-, hle⟩
    apply hfirst (by omega) e he
    omega
  have hrule : (Node.ruleset rule children).declarationAt offset =
      (some (declarationsIn children, d), true) := by
    have hrule : rule.span.contains offset = true := by
      rw [Span.contains_iff]
      simp only [Node.span] at *
      omega
    have hnone : declarationAmong offset children = none :=
      hchildren.declarationAmong_eq_none hd hcontains
    rw [Node.declarationAt, if_pos hrule, hnone]
    simp only [hfind, Option.map_some]
  apply h.declarationAmong_of_below hbelow _ _ hrule
  · simp only [Node.span] at *
    omega
  · simp only [Node.span] at *
    omega

end CssWorkbench
