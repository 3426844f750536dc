import Mathlib
import CssWorkbench.Proofs.Tree.BlockEnds

/-!
# Paths to an offset

The path to an offset goes down through the last of some siblings that the offset touches, and never
back. As siblings stand in order and apart, a node that has the offset inside, its start included,
is the last one that is touched, so that the path meets all of these nodes. It may go on through
nodes that end where the offset is, once nothing else is left.
-/

namespace CssWorkbench

variable {stop lower upper offset : Nat} {node outer : Node} {nodes path : List Node}

/-- The nodes that a path goes through, from siblings on: the last of them that the offset touches,
and so on among its children. -/
inductive Descends (offset : Nat) : List Node → List Node → Prop
  | stops {nodes : List Node} (untouched : ∀ n ∈ nodes, n.span.contains offset = false) :
      Descends offset nodes []
  | enters {front behind path : List Node} {node : Node}
      (touched : node.span.contains offset = true)
      (untouched : ∀ n ∈ behind, n.span.contains offset = false)
      (below : Descends offset node.children path) :
      Descends offset (front ++ node :: behind) (node :: path)

/-- A path that descends into some nodes does so with one more in front. -/
theorem Descends.cons (h : Descends offset nodes path) (hne : path ≠ []) (first : Node) :
    Descends offset (first :: nodes) path := by
  cases h with
  | stops => exact absurd rfl hne
  | @enters front _ _ _ touched untouched below =>
    exact @Descends.enters _ (first :: front) _ _ _ touched untouched below

/-- Where a path ends no node touches the offset. -/
theorem Descends.untouched (h : Descends offset nodes []) :
    ∀ n ∈ nodes, n.span.contains offset = false := by
  cases h with
  | stops untouched => exact untouched

mutual

/-- The path below a node descends into its children. -/
theorem Node.descends (offset : Nat) : ∀ n : Node, Descends offset n.children (n.pathBelow offset)
  | .ruleset _ children => descends_pathTo offset children
  | .atRule _ children => descends_pathTo offset children
  | .declaration _ => .stops (fun _ h => absurd h List.not_mem_nil)
  | .comment _ => .stops (fun _ h => absurd h List.not_mem_nil)

/-- The path to an offset descends to it. -/
theorem descends_pathTo (offset : Nat) :
    ∀ nodes : List Node, Descends offset nodes (pathTo offset nodes)
  | [] => .stops (fun _ h => absurd h List.not_mem_nil)
  | n :: ns => by
    have hrest := descends_pathTo offset ns
    rw [pathTo]
    split
    · rename_i hnil
      rw [hnil] at hrest
      split
      · rename_i htouched
        exact @Descends.enters _ [] ns _ n htouched hrest.untouched (n.descends offset)
      · rename_i hnot
        exact .stops (List.forall_mem_cons.mpr ⟨Bool.eq_false_iff.mpr hnot, hrest.untouched⟩)
    · rename_i hne
      exact hrest.cons hne n

end

/-! ## What is on a path -/

/-- What a path goes through is below the siblings where it starts, and the offset touches it. -/
theorem Descends.below_of_mem (h : Descends offset nodes path) :
    ∀ n ∈ path, Below n nodes ∧ n.span.contains offset = true := by
  induction h with
  | stops => exact fun n hn => absurd hn List.not_mem_nil
  | @enters front behind path node touched _ _ ih =>
    have hmem : node ∈ front ++ node :: behind := List.mem_append_right _ List.mem_cons_self
    intro n hn
    rcases List.mem_cons.mp hn with rfl | hn
    · exact ⟨.here hmem, touched⟩
    · exact ⟨.inside hmem (ih n hn).1, (ih n hn).2⟩

/-- A place is directly below another one. -/
def Place.IsChildOf (p q : Place) : Prop := ∃ n ∈ q.children, p = .node n

/-- Each place on a path is a child of the one before it. -/
theorem Descends.isChain (h : Descends offset nodes path) {from' : Place}
    (hfrom : from'.children = nodes) :
    (from' :: path.map Place.node).IsChain fun p q => q.IsChildOf p := by
  induction h generalizing from' with
  | stops => exact .singleton _
  | @enters front behind path node _ _ _ ih =>
    refine .cons_cons ⟨node, ?_, rfl⟩ (ih rfl)
    rw [hfrom]
    exact List.mem_append_right _ List.mem_cons_self

/-- The children of a node are placed in it, behind its start. -/
theorem Placed.children (h : Placed stop lower upper nodes) (mem : node ∈ nodes) :
    Placed stop (node.span.start + 1) node.span.stop node.children := by
  obtain ⟨-, hpos, hstop⟩ := h.span_of_mem mem
  cases hchildren : node.children with
  | nil =>
    exact ⟨hpos, Nat.le_trans hstop h.inside, fun _ hm => absurd hm not_below_nil,
      fun _ hm => absurd hm not_below_nil⟩
  | cons first rest =>
    have hbelow : Below first node.children := hchildren ▸ .here List.mem_cons_self
    obtain ⟨block, -, hstart, hblock, hplaced, -⟩ := h.inBlock mem hbelow
    rw [← hchildren]
    refine ⟨?_, Nat.le_trans hstop h.inside, hplaced.wellPlaced, hplaced.hasEdges⟩
    exact (hplaced.inOrder.of_le (by omega)).mono (Nat.le_of_eq hblock)

/-- A node below some siblings is one of them or below one, and inside it either way. -/
theorem Placed.exists_sibling (h : Placed stop lower upper nodes) (hnode : Below node nodes) :
    ∃ m ∈ nodes, (node = m ∨ Below node m.children) ∧
      m.span.start ≤ node.span.start ∧ node.span.stop ≤ m.span.stop := by
  cases hnode with
  | here mem => exact ⟨node, mem, .inl rfl, Nat.le_refl _, Nat.le_refl _⟩
  | @inside _ m mem below =>
    have hspan := (h.children mem).span_of_below below
    exact ⟨m, mem, .inr below, by omega, hspan.2.2⟩

/-- The offset is inside the span: at its start or behind it, and in front of its end. -/
def Span.HasInside (s : Span) (offset : Nat) : Prop :=
  s.start ≤ offset ∧ offset < s.stop

/-- A span contains what is inside it. -/
theorem Span.HasInside.contains {s : Span} (h : s.HasInside offset) : s.contains offset = true :=
  Span.contains_iff.mpr ⟨h.1, Nat.le_of_lt h.2⟩

/-- A node below some siblings that has the offset inside is one of them or below one that has the
offset inside as well. -/
theorem Placed.exists_hasInside (h : Placed stop lower upper nodes) (hbelow : Below node nodes)
    (hinside : node.span.HasInside offset) :
    ∃ m ∈ nodes, m.span.HasInside offset ∧ (node = m ∨ Below node m.children) := by
  obtain ⟨m, mem, hm, hstart, hstop⟩ := h.exists_sibling hbelow
  exact ⟨m, mem, ⟨Nat.le_trans hstart hinside.1, Nat.lt_of_lt_of_le hinside.2 hstop⟩, hm⟩

/-- Of some siblings that stand in order, one that has the offset inside is the last one that the
offset touches. -/
theorem eq_of_hasInside {front behind : List Node}
    (h : Placed stop lower upper (front ++ node :: behind))
    (htouched : node.span.contains offset = true)
    (huntouched : ∀ n ∈ behind, n.span.contains offset = false)
    (mem : outer ∈ front ++ node :: behind) (hinside : outer.span.HasInside offset) :
    outer = node := by
  have hpairs := (inOrder_iff_pairwise.mp h.inOrder).2.2
  rw [List.pairwise_map, List.pairwise_append] at hpairs
  rw [Span.contains_iff] at htouched
  obtain ⟨hfrom, hto⟩ := hinside
  rcases List.mem_append.mp mem with hfront | hrest
  · have hapart := hpairs.2.2 outer hfront node List.mem_cons_self
    omega
  · rcases List.mem_cons.mp hrest with rfl | hbehind
    · rfl
    · have hcontains : outer.span.contains offset = true :=
        Span.contains_iff.mpr ⟨hfrom, Nat.le_of_lt hto⟩
      rw [huntouched outer hbehind] at hcontains
      cases hcontains

/-- A path goes through all nodes that have the offset inside, and then through nodes that end at
the offset. -/
theorem Descends.exists_split (h : Descends offset nodes path)
    (hplaced : Placed stop lower upper nodes) :
    ∃ around ending, path = around ++ ending ∧
      (∀ n, n ∈ around ↔ Below n nodes ∧ n.span.HasInside offset) ∧
      ∀ n ∈ ending, n.span.stop = offset := by
  induction h generalizing lower upper with
  | stops untouched =>
    refine ⟨[], [], rfl, fun n => ⟨fun hn => absurd hn List.not_mem_nil, ?_⟩, by simp⟩
    rintro ⟨hbelow, hinside⟩
    obtain ⟨m, hm, hm', -⟩ := hplaced.exists_hasInside hbelow hinside
    exact absurd hm'.contains (Bool.eq_false_iff.mp (untouched m hm))
  | @enters front behind path node touched untouched below ih =>
    have hmem : node ∈ front ++ node :: behind := List.mem_append_right _ List.mem_cons_self
    have hchildren := hplaced.children hmem
    have htouched := Span.contains_iff.mp touched
    rcases Nat.lt_or_eq_of_le htouched.2 with hlt | hend
    · obtain ⟨around, ending, rfl, haround, hending⟩ := ih hchildren
      refine ⟨node :: around, ending, rfl, fun n => ?_, hending⟩
      rw [List.mem_cons, haround]
      constructor
      · rintro (rfl | ⟨hbelow, hinside⟩)
        · exact ⟨.here hmem, htouched.1, hlt⟩
        · exact ⟨.inside hmem hbelow, hinside⟩
      · rintro ⟨hbelow, hinside⟩
        obtain ⟨m, hm, hm', hn⟩ := hplaced.exists_hasInside hbelow hinside
        obtain rfl := eq_of_hasInside hplaced touched untouched hm hm'
        exact hn.imp_right fun hn => ⟨hn, hinside⟩
    · -- Nothing has the offset inside; what is below ends no later than the node.
      refine ⟨[], node :: path, rfl, fun n => ⟨fun hn => absurd hn List.not_mem_nil, ?_⟩, ?_⟩
      · rintro ⟨hbelow, hinside⟩
        obtain ⟨m, hm, hm', -⟩ := hplaced.exists_hasInside hbelow hinside
        obtain rfl := eq_of_hasInside hplaced touched untouched hm hm'
        exact absurd hend (Nat.ne_of_lt hm'.2)
      · intro n hn
        rcases List.mem_cons.mp hn with rfl | hn
        · exact hend.symm
        · obtain ⟨hbelow, hcontains⟩ := below.below_of_mem n hn
          have hspan := hchildren.span_of_below hbelow
          have hoffset := Span.contains_iff.mp hcontains
          omega

/-! ## The path of a source -/

mutual

/-- What a walk from a node on meets is the node or below it. -/
theorem Node.below_of_mem_walk {depth : Nat} {p : Nat × Node} :
    ∀ n : Node, p ∈ n.walk (fun _ => true) depth → p.2 = n ∨ Below p.2 n.children
  | .ruleset _ children => fun h => by
    rcases mem_walk_iff.mp h with rfl | h
    · exact .inl rfl
    · exact .inr (below_of_mem_walkNodes children h)
  | .atRule _ children => fun h => by
    rcases mem_walk_iff.mp h with rfl | h
    · exact .inl rfl
    · exact .inr (below_of_mem_walkNodes children h)
  | .declaration _ => fun h => .inl (congrArg Prod.snd (List.mem_singleton.mp h))
  | .comment _ => fun h => .inl (congrArg Prod.snd (List.mem_singleton.mp h))

/-- A node that a walk meets is below the nodes that it starts from. -/
theorem below_of_mem_walkNodes {depth : Nat} {p : Nat × Node} :
    ∀ nodes : List Node, p ∈ walkNodes (fun _ => true) depth nodes → Below p.2 nodes
  | [] => fun h => absurd h List.not_mem_nil
  | n :: ns => fun h => by
    rw [walkNodes, List.mem_append] at h
    rcases h with h | h
    · exact below_cons.mpr ((n.below_of_mem_walk h).imp_right .inl)
    · exact (below_of_mem_walkNodes ns h).cons n

end

/-- All places of a tree. -/
def Stylesheet.places (sheet : Stylesheet) : List Place :=
  (sheet.walk fun _ => true).map Prod.snd

/-- The places of a tree are the stylesheet and the nodes below it. -/
theorem Stylesheet.mem_places_iff {sheet : Stylesheet} {p : Place} :
    p ∈ sheet.places ↔ p = .sheet sheet ∨ ∃ n, Below n sheet.children ∧ p = .node n := by
  simp only [places, walk, if_true, List.map_cons, List.map_map, List.mem_cons, List.mem_map]
  refine or_congr_right ⟨?_, ?_⟩
  · rintro ⟨q, hq, rfl⟩
    exact ⟨q.2, below_of_mem_walkNodes _ hq, rfl⟩
  · rintro ⟨n, hn, rfl⟩
    obtain ⟨depth, hmem⟩ := hn.mem_walkNodes 1
    exact ⟨_, hmem, rfl⟩

/-- The path to an offset of a source starts at the stylesheet, each place on it is a child of the
one before it, and the offset touches them all. It goes through every place of the tree that has the
offset inside, and then only through places that end at the offset. -/
theorem pathAt_parse (source : String) {offset : Nat} (hle : offset ≤ Text.size source) :
    let sheet := (parse source).1
    (sheet.pathAt offset).head? = some (.sheet sheet) ∧
      (sheet.pathAt offset).IsChain (fun p q => q.IsChildOf p) ∧
      (∀ p ∈ sheet.pathAt offset, p.span.contains offset = true) ∧
      ∃ around ending, sheet.pathAt offset = around ++ ending ∧
        (∀ p, p ∈ around ↔ p ∈ sheet.places ∧ p.span.HasInside offset) ∧
        ∀ p ∈ ending, p.span.stop = offset := by
  intro sheet
  have hplaced : Placed (Text.size source) 0 (Text.size source) sheet.children :=
    parse_placed source
  have hsheet : (Place.sheet sheet).span = ⟨0, Text.size source⟩ := rfl
  have hpath := descends_pathTo offset sheet.children
  have hspan : ∀ n, Below n sheet.children → n.span.stop ≤ Text.size source :=
    fun n hn => (hplaced.span_of_below hn).2.2
  refine ⟨rfl, hpath.isChain rfl, ?_, ?_⟩
  · intro p hp
    rcases List.mem_cons.mp hp with rfl | hp
    · exact Span.contains_iff.mpr ⟨Nat.zero_le _, hle⟩
    · obtain ⟨n, hn, rfl⟩ := List.mem_map.mp hp
      exact (hpath.below_of_mem n hn).2
  · obtain ⟨around, ending, hsplit, haround, hending⟩ := hpath.exists_split hplaced
    rw [Stylesheet.pathAt, hsplit]
    rcases Nat.lt_or_eq_of_le hle with hlt | rfl
    · refine ⟨.sheet sheet :: around.map .node, ending.map .node, by simp, fun p => ?_, ?_⟩
      · rw [List.mem_cons, List.mem_map, Stylesheet.mem_places_iff]
        constructor
        · rintro (rfl | ⟨n, hn, rfl⟩)
          · exact ⟨.inl rfl, Nat.zero_le _, hlt⟩
          · obtain ⟨hbelow, hinside⟩ := (haround n).mp hn
            exact ⟨.inr ⟨n, hbelow, rfl⟩, hinside⟩
        · rintro ⟨rfl | ⟨n, hbelow, rfl⟩, hinside⟩
          · exact .inl rfl
          · exact .inr ⟨n, (haround n).mpr ⟨hbelow, hinside⟩, rfl⟩
      · intro p hp
        obtain ⟨n, hn, rfl⟩ := List.mem_map.mp hp
        exact hending n hn
    · -- At the end of the source nothing has the offset inside, the stylesheet neither.
      have hnone : ∀ n, n ∉ around := fun n hn => by
        obtain ⟨hbelow, hinside⟩ := (haround n).mp hn
        exact absurd hinside.2 (Nat.not_lt_of_le (hspan n hbelow))
      rw [List.eq_nil_iff_forall_not_mem.mpr hnone]
      refine ⟨[], _, rfl, fun p => ⟨fun hp => absurd hp List.not_mem_nil, ?_⟩, ?_⟩
      · rw [Stylesheet.mem_places_iff]
        rintro ⟨rfl | ⟨n, hbelow, rfl⟩, hinside⟩
        · exact absurd hinside.2 (Nat.lt_irrefl _)
        · exact absurd hinside.2 (Nat.not_lt_of_le (hspan n hbelow))
      · intro p hp
        rcases List.mem_cons.mp hp with rfl | hp
        · rfl
        · obtain ⟨n, hn, rfl⟩ := List.mem_map.mp hp
          exact hending n hn

/-- Between two declarations that touch, the second one is on the path and the first is not; at the
end of a source that nothing closes all places on the path end there. -/
theorem pathAt_parse_of_unclosed :
    6 ≤ Text.size "a\x7bb:c;d:e" ∧
      ((parse "a\x7bb:c;d:e").1.pathAt 6).map Place.span = [⟨0, 9⟩, ⟨0, 9⟩, ⟨6, 9⟩] ∧
      ((parse "a\x7bb:c;d:e").1.pathAt 6).IsChain (fun p q => q.IsChildOf p) ∧
      9 ≤ Text.size "a\x7bb:c;d:e" ∧
      ∃ around ending, (parse "a\x7bb:c;d:e").1.pathAt 9 = around ++ ending ∧
        (∀ p, p ∈ around ↔ p ∈ (parse "a\x7bb:c;d:e").1.places ∧ p.span.HasInside 9) ∧
        ∀ p ∈ ending, p.span.stop = 9 := by
  have hsix : 6 ≤ Text.size "a\x7bb:c;d:e" := by decide
  have hnine : 9 ≤ Text.size "a\x7bb:c;d:e" := by decide
  obtain ⟨-, hchain, -, -⟩ := pathAt_parse "a\x7bb:c;d:e" hsix
  obtain ⟨-, -, -, hsplit⟩ := pathAt_parse "a\x7bb:c;d:e" hnine
  exact ⟨hsix, by cbv, hchain, hnine, hsplit⟩

end CssWorkbench
