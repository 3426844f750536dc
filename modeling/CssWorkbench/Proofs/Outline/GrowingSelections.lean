import CssWorkbench.Proofs.Outline.LinkedChains
import CssWorkbench.Proofs.Tree.Paths

/-!
# Selections that grow

Everything that is offered around an offset goes through one filter: a span is put in front of the
others only when it is inside the first of them. So the chain grows from each span to the next, but
one span that is too small shuts out all that is offered after it. The block of a node on the path
offers such a span when nothing closes it: there is no brace to leave out at its end, and the nodes
that end with the source stick out.
-/

namespace CssWorkbench

variable {offset stop lower upper : Nat} {last span s : Span} {rest chain spans : List Span}
  {node outer : Node} {nodes path : List Node}

/-! ## The filter -/

/-- A span is inside the one it is put in front of, and around the offset. -/
def Span.Fits (offset : Nat) (last span : Span) : Prop :=
  last.covers span = true ∧ last ≠ span ∧ span.isEmpty = false ∧ span.contains offset = true

/-- A span that fits becomes the innermost one. -/
theorem growInwards_of_fits (h : Span.Fits offset last span) :
    growInwards offset (last :: rest) span = span :: last :: rest := by
  obtain ⟨hcovers, hne, hempty, htouched⟩ := h
  simp [growInwards, hcovers, hne, hempty, htouched]

/-- A span that does not fit is passed over. -/
theorem growInwards_of_not_fits (h : ¬ Span.Fits offset last span) :
    growInwards offset (last :: rest) span = last :: rest := by
  refine if_neg fun hif => h ?_
  simp only [Bool.and_eq_true, decide_eq_true_eq, Bool.not_eq_true'] at hif
  obtain ⟨⟨⟨hcovers, hne⟩, hempty⟩, htouched⟩ := hif
  exact ⟨hcovers, hne, hempty, htouched⟩

/-- A span around the offset that the first one covers is the first one afterwards. -/
theorem exists_growInwards (rest : List Span) (hcovers : last.covers span = true)
    (hempty : span.isEmpty = false) (htouched : span.contains offset = true) :
    ∃ rest', growInwards offset (last :: rest) span = span :: rest' := by
  by_cases heq : last = span
  · subst heq
    exact ⟨rest, growInwards_of_not_fits fun h => h.2.1 rfl⟩
  · exact ⟨last :: rest, growInwards_of_fits ⟨hcovers, heq, hempty, htouched⟩⟩

/-- A span with an offset inside is not empty. -/
theorem Span.HasInside.not_isEmpty (h : span.HasInside offset) : span.isEmpty = false :=
  decide_eq_false (Nat.not_le_of_lt (Nat.lt_of_le_of_lt h.1 h.2))

/-- Spans that grow and are all around an offset, the smallest one first. -/
structure Growing (offset : Nat) (chain : List Span) : Prop where
  nested : chain.IsChain fun s t => t.covers s = true ∧ s ≠ t
  touched : ∀ s ∈ chain, s.contains offset = true

/-- A chain that grows goes on to grow when one more span is looked at. -/
theorem Growing.step (h : Growing offset (last :: rest)) (span : Span) :
    Growing offset (growInwards offset (last :: rest) span) := by
  by_cases hfits : Span.Fits offset last span
  · rw [growInwards_of_fits hfits]
    obtain ⟨hcovers, hne, -, htouched⟩ := hfits
    exact ⟨.cons_cons ⟨hcovers, hne.symm⟩ h.nested, List.forall_mem_cons.mpr ⟨htouched, h.touched⟩⟩
  · rw [growInwards_of_not_fits hfits]
    exact h

/-- What was there before stays behind what is put in front. -/
theorem suffix_growInwards : last :: rest <:+ growInwards offset (last :: rest) span := by
  by_cases hfits : Span.Fits offset last span
  · rw [growInwards_of_fits hfits]
    exact List.suffix_cons _ _
  · rw [growInwards_of_not_fits hfits]

/-- A chain does not become empty. -/
theorem growInwards_ne_nil : growInwards offset (last :: rest) span ≠ [] := by
  intro hnil
  have hsuffix : last :: rest <:+ growInwards offset (last :: rest) span := suffix_growInwards
  rw [hnil] at hsuffix
  cases List.suffix_nil.mp hsuffix

/-! ## Everything that is offered -/

/-- A chain that grows goes on to grow when some more spans are looked at. -/
theorem Growing.foldl (h : Growing offset chain) (hne : chain ≠ []) :
    Growing offset (spans.foldl (growInwards offset) chain) := by
  induction spans generalizing chain with
  | nil => exact h
  | cons span spans ih =>
    obtain ⟨last, rest, rfl⟩ := List.exists_cons_of_ne_nil hne
    exact ih (h.step span) growInwards_ne_nil

/-- The outermost spans of a chain stay. -/
theorem suffix_foldl (hne : chain ≠ []) : chain <:+ spans.foldl (growInwards offset) chain := by
  induction spans generalizing chain with
  | nil => exact List.suffix_refl _
  | cons span spans ih =>
    obtain ⟨last, rest, rfl⟩ := List.exists_cons_of_ne_nil hne
    exact suffix_growInwards.trans (ih growInwards_ne_nil)

/-- The last span of a chain stays the last one. -/
theorem getLast?_foldl (hne : chain ≠ []) :
    (spans.foldl (growInwards offset) chain).getLast? = chain.getLast? := by
  have hsuffix : chain <:+ spans.foldl (growInwards offset) chain := suffix_foldl hne
  obtain ⟨front, hfront⟩ := hsuffix
  rw [← hfront, List.getLast?_append_of_ne_nil front hne]

/-- What is new in a chain was offered, and is inside what was the first span before. -/
theorem covers_of_mem_foldl (h : s ∈ spans.foldl (growInwards offset) (last :: rest)) :
    s ∈ last :: rest ∨ last.covers s = true ∧ s ∈ spans := by
  induction spans generalizing last rest with
  | nil => exact .inl h
  | cons span spans ih =>
    rw [List.foldl_cons] at h
    by_cases hfits : Span.Fits offset last span
    · rw [growInwards_of_fits hfits] at h
      rcases ih h with hold | ⟨hcovers, hnew⟩
      · rcases List.mem_cons.mp hold with rfl | hold
        · exact .inr ⟨hfits.1, List.mem_cons_self⟩
        · exact .inl hold
      · have hspan := Span.covers_iff.mp hfits.1
        have hs := Span.covers_iff.mp hcovers
        refine .inr ⟨Span.covers_iff.mpr ?_, List.mem_cons_of_mem _ hnew⟩
        omega
    · rw [growInwards_of_not_fits hfits] at h
      exact (ih h).imp_right fun hnew => ⟨hnew.1, List.mem_cons_of_mem _ hnew.2⟩

/-- The first span of a chain covers what the one before it and all new ones cover. -/
theorem exists_foldl_covers (rest : List Span) (hlast : last.covers s = true)
    (hspans : ∀ span ∈ spans, span.covers s = true ∨ span.isEmpty = true) :
    ∃ last' rest', spans.foldl (growInwards offset) (last :: rest) = last' :: rest' ∧
      last'.covers s = true := by
  induction spans generalizing last rest with
  | nil => exact ⟨last, rest, rfl, hlast⟩
  | cons span spans ih =>
    obtain ⟨hspan, hspans⟩ := List.forall_mem_cons.mp hspans
    rw [List.foldl_cons]
    by_cases hfits : Span.Fits offset last span
    · rw [growInwards_of_fits hfits]
      refine ih _ (hspan.resolve_right fun hempty => ?_) hspans
      rw [hfits.2.2.1] at hempty
      cases hempty
    · rw [growInwards_of_not_fits hfits]
      exact ih rest hlast hspans

/-! ## What the nodes of a path offer -/

/-- A node offers itself first. -/
theorem exists_selections (offset : Nat) (node : Node) :
    ∃ inner, Place.selections offset (.node node) = node.span :: inner := by
  cases node with
  | ruleset rule children =>
    simp only [Place.selections, Ruleset.selections]
    split
    · exact ⟨_, rfl⟩
    · exact ⟨_, rfl⟩
  | atRule rule children =>
    simp only [Place.selections, AtRule.selections]
    split
    · split
      · exact ⟨_, rfl⟩
      · exact ⟨_, rfl⟩
    · exact ⟨_, rfl⟩
  | declaration decl => exact ⟨_, rfl⟩
  | comment span => exact ⟨_, rfl⟩

/-- Behind the start of its block a node offers the block, with its braces and without. -/
theorem selections_of_block {block : Span} (hblock : outer.block? = some block)
    (hlt : block.start < offset) :
    Place.selections offset (.node outer) = [outer.span, block, block.inside] := by
  cases outer with
  | ruleset rule children =>
    obtain rfl := Option.some.inj hblock
    have hnot : ¬ offset ≤ rule.block.start := Nat.not_le_of_lt hlt
    simp only [Place.selections, Ruleset.selections, decide_eq_false hnot, Bool.and_false]
    rfl
  | atRule rule children =>
    have hsome : rule.block = some block := hblock
    simp only [Place.selections, AtRule.selections, hsome, if_pos hlt]
    rfl
  | declaration | comment => cases hblock

/-- The block of a node is inside the node and around all that is below. -/
theorem Placed.block_around (h : Placed stop lower upper nodes) (mem : outer ∈ nodes)
    (hbelow : Below node outer.children) {block : Span} (hblock : outer.block? = some block) :
    outer.span.start ≤ block.start ∧ block.start < node.span.start ∧
      node.span.stop ≤ block.stop ∧ block.stop = outer.span.stop := by
  obtain ⟨found, hfound, hstarts, hstops, hplaced, -⟩ := h.inBlock mem hbelow
  obtain rfl := Option.some.inj (hfound.symm.trans hblock)
  obtain ⟨hstart, -, hstop⟩ := hplaced.span_of_below hbelow
  exact ⟨hstarts, hstart, hstop, hstops⟩

/-- What ends before the source does is inside the blocks around it, their braces left out. -/
theorem Placed.inside_covers (h : Placed stop lower upper nodes) (houter : Below outer nodes)
    (hbelow : Below node outer.children) (hlt : node.span.stop < stop) {block : Span}
    (hblock : outer.block? = some block) : block.inside.covers node.span = true := by
  induction houter generalizing lower upper with
  | inside mem below ih =>
    obtain ⟨_, -, -, -, hplaced, -⟩ := h.inBlock mem below
    exact ih hplaced
  | here mem =>
    obtain ⟨hstarts, hnode, -, hstops⟩ := h.block_around mem hbelow hblock
    obtain ⟨-, hends⟩ := h.span_inside mem hbelow
    have hspan := h.span_of_mem mem
    have hinside := h.inside
    refine Span.covers_iff.mpr ?_
    simp only [Span.inside]
    omega

/-- A node around the offset is in the chain when the blocks of the path do not shut it out. -/
theorem Descends.mem_chain (rest : List Span) (h : Descends offset nodes path)
    (hplaced : Placed stop lower upper nodes) (hbelow : Below node nodes)
    (hinside : node.span.HasInside offset) (hlast : last.covers node.span = true)
    (hblocks : ∀ outer block, Below outer nodes → Below node outer.children →
      outer.block? = some block →
        block.inside.covers node.span = true ∨ block.inside.isEmpty = true) :
    node.span ∈ (path.flatMap fun n => Place.selections offset (.node n)).foldl
      (growInwards offset) (last :: rest) := by
  induction h generalizing lower upper last rest with
  | stops untouched =>
    obtain ⟨m, hm, hm', -⟩ := hplaced.exists_hasInside hbelow hinside
    exact absurd hm'.contains (Bool.eq_false_iff.mp (untouched m hm))
  | @enters front behind path first touched untouched below ih =>
    obtain ⟨m, hm, hm', hnode⟩ := hplaced.exists_hasInside hbelow hinside
    obtain rfl := eq_of_hasInside hplaced touched untouched hm hm'
    rw [List.flatMap_cons, List.foldl_append]
    rcases hnode with rfl | hnode
    · obtain ⟨inner, hinner⟩ := exists_selections offset node
      obtain ⟨rest', hgrown⟩ := exists_growInwards rest hlast hinside.not_isEmpty hinside.contains
      rw [hinner, List.foldl_cons, hgrown, ← List.foldl_append]
      exact (suffix_foldl (List.cons_ne_nil _ _)).subset List.mem_cons_self
    · obtain ⟨block, hblock, -⟩ := hplaced.inBlock hm hnode
      obtain ⟨hstarts, hstart, hstop, hstops⟩ := hplaced.block_around hm hnode hblock
      rw [selections_of_block hblock (Nat.lt_of_lt_of_le hstart hinside.1)]
      have hspans : ∀ span ∈ [m.span, block, block.inside],
          span.covers node.span = true ∨ span.isEmpty = true := by
        have hself : m.span.covers node.span = true := Span.covers_iff.mpr (by omega)
        have hwhole : block.covers node.span = true := Span.covers_iff.mpr (by omega)
        have hinner := hblocks m block (.here hm) hnode hblock
        simp only [List.forall_mem_cons]
        exact ⟨.inl hself, .inl hwhole, hinner, fun span hs => absurd hs List.not_mem_nil⟩
      obtain ⟨last', rest', hgrown, hlast'⟩ := exists_foldl_covers rest hlast hspans
      rw [hgrown]
      refine ih rest' (hplaced.children hm) hnode hlast' fun outer found houter => ?_
      exact hblocks outer found (.inside hm houter)

/-! ## The chain of an offset -/

/-- A node ends with the source, below a node of the stylesheet whose block nothing closes and has
more than one byte behind its brace: without its last byte, the block does not cover the node. -/
def Stylesheet.CutsOff (sheet : Stylesheet) (node : Node) : Prop :=
  node.span.stop = sheet.span.stop ∧ ∃ outer ∈ sheet.children, Below node outer.children ∧
    ∃ block, outer.block? = some block ∧ block.inside.isEmpty = false

/-- Where a node is not cut off, each block around it covers it without the braces, or offers
nothing. -/
theorem Stylesheet.inside_of_not_cutsOff {sheet : Stylesheet}
    (hplaced : Placed sheet.span.stop lower upper sheet.children)
    (hbelow : Below node sheet.children) (hnot : ¬ sheet.CutsOff node)
    (houter : Below outer sheet.children) (hnode : Below node outer.children) {block : Span}
    (hblock : outer.block? = some block) :
    block.inside.covers node.span = true ∨ block.inside.isEmpty = true := by
  have hstop := Nat.le_trans (hplaced.span_of_below hbelow).2.2 hplaced.inside
  rcases Nat.lt_or_eq_of_le hstop with hlt | hend
  · exact .inl (hplaced.inside_covers houter hnode hlt hblock)
  · right
    -- All blocks of the stylesheet around the node have one byte, so that only one is around it.
    have hone : ∀ m ∈ sheet.children, Below node m.children → ∀ found, m.block? = some found →
        found.inside.isEmpty = true := by
      intro m hm hbelow found hfound
      by_contra hne
      exact hnot ⟨hend, m, hm, hbelow, found, hfound, Bool.eq_false_iff.mpr hne⟩
    cases houter with
    | here mem => exact hone outer mem hnode block hblock
    | @inside _ m mem below =>
      obtain ⟨found, hfound, -⟩ := hplaced.inBlock mem below
      have hempty := of_decide_eq_true (hone m mem (below.trans hnode) found hfound)
      obtain ⟨-, hstart, -⟩ := hplaced.block_around mem below hfound
      obtain ⟨-, -, hlast, -⟩ := hplaced.block_around mem (below.trans hnode) hfound
      obtain ⟨lower', upper', hlower, -, hinner⟩ := hplaced.descend (.inside mem below) hnode
      obtain ⟨hafter, hpos, -⟩ := hinner.span_of_below hnode
      simp only [Span.inside] at hempty
      omega

/-- After a node whose block is around the offset, the chain goes on from the block without its
braces. -/
theorem exists_foldl_inside (rest : List Span) {block : Span}
    (hlast : last.covers outer.span = true)
    (hinside : outer.span.HasInside offset) (hstarts : outer.span.start ≤ block.start)
    (hstops : block.stop = outer.span.stop) (hlt : block.start < offset)
    (hne : block.inside.isEmpty = false) :
    ∃ rest', [outer.span, block, block.inside].foldl (growInwards offset) (last :: rest) =
      block.inside :: rest' := by
  have hblock : block.HasInside offset := ⟨Nat.le_of_lt hlt, hstops ▸ hinside.2⟩
  have hto := hblock.2
  have houter : outer.span.covers block = true := Span.covers_iff.mpr ⟨hstarts, Nat.le_of_eq hstops⟩
  have hinner : block.covers block.inside = true := by
    rw [Span.covers_iff]
    simp only [Span.inside]
    omega
  have htouched : block.inside.contains offset = true := by
    rw [Span.contains_iff]
    simp only [Span.inside]
    omega
  obtain ⟨rest₁, h₁⟩ := exists_growInwards rest hlast hinside.not_isEmpty hinside.contains
  obtain ⟨rest₂, h₂⟩ := exists_growInwards rest₁ houter hblock.not_isEmpty hblock.contains
  obtain ⟨rest₃, h₃⟩ := exists_growInwards rest₂ hinner hne htouched
  refine ⟨rest₃, ?_⟩
  rw [List.foldl_cons, h₁, List.foldl_cons, h₂, List.foldl_cons, h₃]
  rfl

/-- A node that sticks out of the block of a node on the path, the braces of the block left out, is
not in the chain. -/
theorem Descends.not_mem_chain {block : Span} (h : Descends offset nodes path)
    (hplaced : Placed stop lower upper nodes) (mem : outer ∈ nodes)
    (hbelow : Below node outer.children) (hinside : node.span.HasInside offset)
    (hblock : outer.block? = some block) (hne : block.inside.isEmpty = false)
    (hout : block.inside.stop < node.span.stop) (hlast : last.covers outer.span = true)
    (more : List Span) :
    node.span ∉ ((path.flatMap fun n => Place.selections offset (.node n)) ++ more).foldl
      (growInwards offset) [last] := by
  obtain ⟨hstarts, hstart, hstop, hstops⟩ := hplaced.block_around mem hbelow hblock
  have hlt := Nat.lt_of_lt_of_le hstart hinside.1
  have houter : outer.span.HasInside offset :=
    ⟨Nat.le_trans hstarts (Nat.le_of_lt hlt), Nat.lt_of_lt_of_le hinside.2 (hstops ▸ hstop)⟩
  cases h with
  | stops untouched => exact absurd houter.contains (Bool.eq_false_iff.mp (untouched outer mem))
  | @enters front behind path first touched untouched below =>
    obtain rfl := eq_of_hasInside hplaced touched untouched mem houter
    obtain ⟨rest, hgrown⟩ := exists_foldl_inside [] hlast houter hstarts hstops hlt hne
    rw [List.flatMap_cons, selections_of_block hblock hlt, List.append_assoc, List.foldl_append,
      hgrown]
    intro hmem
    rcases covers_of_mem_foldl hmem with hmem | ⟨hcovers, -⟩
    · -- What comes first starts in front of the node, and the last span ends before the node does.
      have hahead : ∀ s ∈ [last, outer.span, block], s.start < node.span.start := by
        have hcover := Span.covers_iff.mp hlast
        simp only [List.forall_mem_cons]
        exact ⟨by omega, by omega, hstart, fun s hs => absurd hs List.not_mem_nil⟩
      rw [← hgrown] at hmem
      have hold : node.span ∈ [last, outer.span, block] ++ [block.inside] := by
        rcases covers_of_mem_foldl hmem with hfirst | ⟨-, hoffered⟩
        · exact List.mem_append_left _ (List.mem_singleton.mp hfirst ▸ List.mem_cons_self)
        · exact List.mem_cons_of_mem _ hoffered
      rcases List.mem_append.mp hold with hfirst | hinner
      · exact absurd (hahead _ hfirst) (Nat.lt_irrefl _)
      · rw [List.mem_singleton.mp hinner] at hout
        exact absurd hout (Nat.lt_irrefl _)
    · exact absurd (Span.covers_iff.mp hcovers).2 (Nat.not_le_of_lt hout)

/-! ## The chains of a source -/

/-- The stylesheet is offered first, and nothing is around it. -/
theorem selectionsAt_eq (source : String) (offset : Nat) :
    let sheet := (parse source).1
    let inside := min offset (Text.size source)
    ∃ more, sheet.selectionsAt source offset =
      (((pathTo inside sheet.children).flatMap fun n => Place.selections inside (.node n)) ++
        more).foldl (growInwards inside) [sheet.span] := by
  intro sheet inside
  have htouched : sheet.span.contains inside = true :=
    Span.contains_iff.mpr ⟨Nat.zero_le _, Nat.min_le_right _ _⟩
  have hfirst : growInwards inside [] sheet.span = [sheet.span] := by
    simp [growInwards, htouched]
  refine ⟨((tokenAt? (scan source) inside).map (·.span)).toList, ?_⟩
  rw [Stylesheet.selectionsAt, Stylesheet.pathAt, List.flatMap_cons, List.flatMap_map]
  rw [List.append_assoc, List.foldl_append]
  exact congrArg (List.foldl _ · _) hfirst

/-- The chain of an offset grows, is around the offset and ends with the stylesheet. -/
theorem growing_selectionsAt (source : String) (offset : Nat) :
    Growing (min offset (Text.size source)) ((parse source).1.selectionsAt source offset) ∧
      ((parse source).1.selectionsAt source offset).getLast? = some (parse source).1.span := by
  obtain ⟨more, hmore⟩ := selectionsAt_eq source offset
  rw [hmore]
  have hsheet : Growing (min offset (Text.size source)) [(parse source).1.span] :=
    ⟨.singleton _, fun s hs => List.mem_singleton.mp hs ▸
      Span.contains_iff.mpr ⟨Nat.zero_le _, Nat.min_le_right _ _⟩⟩
  exact ⟨hsheet.foldl (List.cons_ne_nil _ _), getLast?_foldl (List.cons_ne_nil _ _)⟩

/-- A node around the offset is in the chain unless it is cut off. -/
theorem mem_selectionsAt_iff (source : String) (hbelow : Below node (parse source).1.children)
    (hinside : node.span.HasInside offset) :
    node.span ∈ (parse source).1.selectionsAt source offset ↔ ¬ (parse source).1.CutsOff node := by
  have hplaced : Placed (parse source).1.span.stop 0 (Text.size source) (parse source).1.children :=
    parse_placed source
  have hstop : ∀ n, Below n (parse source).1.children → n.span.stop ≤ Text.size source :=
    fun n hn => (hplaced.span_of_below hn).2.2
  have hcovers : ∀ n, Below n (parse source).1.children →
      (parse source).1.span.covers n.span = true :=
    fun n hn => Span.covers_iff.mpr ⟨Nat.zero_le _, hstop n hn⟩
  have hle := Nat.le_trans (Nat.le_of_lt hinside.2) (hstop node hbelow)
  obtain ⟨more, hmore⟩ := selectionsAt_eq source offset
  rw [hmore, Nat.min_eq_left hle]
  have hpath := descends_pathTo offset (parse source).1.children
  constructor
  · rintro hmem ⟨hend, outer, mem, hnode, block, hblock, hne⟩
    have hout : block.inside.stop < node.span.stop := by
      obtain ⟨-, hstart, -, hstops⟩ := hplaced.block_around mem hnode hblock
      have houter := hstop outer (.here mem)
      have hpos := (hplaced.span_of_below hbelow).2.1
      have hsize : node.span.stop = Text.size source := hend
      simp only [Span.inside]
      omega
    exact hpath.not_mem_chain hplaced mem hnode hinside hblock hne hout (hcovers outer (.here mem))
      more hmem
  · intro hnot
    have hchain := hpath.mem_chain [] hplaced hbelow hinside (hcovers node hbelow)
      fun _ _ houter hnode hblock =>
        Stylesheet.inside_of_not_cutsOff hplaced hbelow hnot houter hnode hblock
    rw [List.foldl_append]
    exact (suffix_foldl (List.ne_nil_of_mem hchain)).subset hchain

/-- The chain of an offset among others is the one it has alone. It grows from each span to the
next, all of them are around the offset, which counts as the end of the source if it is behind it,
and the last one is the stylesheet. It goes through every node that has the offset inside but for
those that are cut off. -/
theorem selectionChains_parse (source : String) (offsets : List Nat) {i offset : Nat}
    (hoffset : offsets[i]? = some offset) :
    ∃ chain, ((parse source).1.selectionChains source offsets).chains[i]? = some chain ∧
      ((parse source).1.selectionChains source [offset]).chains = [chain] ∧
      chain.IsChain (fun s t => t.covers s = true ∧ s ≠ t) ∧
      (∀ s ∈ chain, s.contains (min offset (Text.size source)) = true) ∧
      chain.getLast? = some (parse source).1.span ∧
      ∀ node, .node node ∈ (parse source).1.places → node.span.HasInside offset →
        (node.span ∈ chain ↔ ¬ (parse source).1.CutsOff node) := by
  have hne : ∀ offset, (parse source).1.selectionsAt source offset ≠ [] := by
    intro offset hnil
    have hlast := (growing_selectionsAt source offset).2
    rw [hnil] at hlast
    cases hlast
  have hchains : ∀ offsets, ((parse source).1.selectionChains source offsets).chains =
      offsets.map ((parse source).1.selectionsAt source) :=
    fun offsets => chains_selectionChains fun offset _ => hne offset
  obtain ⟨hgrowing, hlast⟩ := growing_selectionsAt source offset
  refine ⟨(parse source).1.selectionsAt source offset, ?_, hchains [offset], hgrowing.nested,
    hgrowing.touched, hlast, ?_⟩
  · rw [hchains, List.getElem?_map, hoffset]
    rfl
  · intro node hnode hinside
    rcases Stylesheet.mem_places_iff.mp hnode with hsheet | ⟨n, hbelow, hn⟩
    · cases hsheet
    · obtain rfl := Place.node.inj hn
      exact mem_selectionsAt_iff source hbelow hinside

/-- In a block that is closed the declaration is in the chain, and the offset in front does not
change it. -/
theorem selectionChains_parse_of_closed :
    let sheet := (parse "a\x7bb:c\x7d").1
    [0, 2][1]? = some 2 ∧
      (sheet.selectionChains "a\x7bb:c\x7d" [2]).chains = [[⟨2, 3⟩, ⟨2, 5⟩, ⟨1, 6⟩, ⟨0, 6⟩]] ∧
      ∃ chain, (sheet.selectionChains "a\x7bb:c\x7d" [0, 2]).chains[1]? = some chain ∧
        (sheet.selectionChains "a\x7bb:c\x7d" [2]).chains = [chain] ∧
        chain.getLast? = some sheet.span ∧
        ∀ node, .node node ∈ sheet.places → node.span.HasInside 2 →
          (node.span ∈ chain ↔ ¬ sheet.CutsOff node) := by
  intro sheet
  have hsecond : [0, 2][1]? = some 2 := rfl
  obtain ⟨chain, hchain, halone, -, -, hlast, hnodes⟩ :=
    selectionChains_parse "a\x7bb:c\x7d" [0, 2] hsecond
  exact ⟨hsecond, by cbv, chain, hchain, halone, hlast, hnodes⟩

/-- When nothing closes the block, a declaration that ends with the source is not in the chain of an
offset inside it. -/
theorem selectionChains_parse_of_unclosed :
    let sheet := (parse "a\x7bb:c").1
    (sheet.selectionChains "a\x7bb:c" [2]).chains = [[⟨2, 3⟩, ⟨2, 4⟩, ⟨1, 5⟩, ⟨0, 5⟩]] ∧
      ∃ node, .node node ∈ sheet.places ∧ node.span = ⟨2, 5⟩ ∧ node.span.HasInside 2 ∧
        ∀ chain ∈ (sheet.selectionChains "a\x7bb:c" [2]).chains, node.span ∉ chain := by
  intro sheet
  have hchains : (sheet.selectionChains "a\x7bb:c" [2]).chains =
      [[⟨2, 3⟩, ⟨2, 4⟩, ⟨1, 5⟩, ⟨0, 5⟩]] := by cbv
  have hplaces : sheet.places.map Place.span = [⟨0, 5⟩, ⟨0, 5⟩, ⟨2, 5⟩] := by cbv
  have hmem : (⟨2, 5⟩ : Span) ∈ sheet.places.map Place.span := by
    rw [hplaces]
    decide
  obtain ⟨p, hp, hspan⟩ := List.mem_map.mp hmem
  refine ⟨hchains, ?_⟩
  rcases Stylesheet.mem_places_iff.mp hp with rfl | ⟨node, -, rfl⟩
  · have hsheet : (Place.sheet sheet).span = ⟨0, 5⟩ := by cbv
    rw [hsheet] at hspan
    cases hspan
  · have hnode : node.span = ⟨2, 5⟩ := hspan
    refine ⟨node, hp, hnode, ?_, ?_⟩
    · rw [hnode]
      exact ⟨by decide, by decide⟩
    · rw [hchains, hnode]
      decide

end CssWorkbench
