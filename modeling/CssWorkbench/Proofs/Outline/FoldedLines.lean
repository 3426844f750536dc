import Mathlib.Order.Interval.Finset.Nat
import Mathlib.Data.Prod.Lex
import CssWorkbench.Outline.Folding
import CssWorkbench.Proofs.Tree.NodeOrder
import CssWorkbench.Proofs.Tree.Origins

/-!
# Folded lines do not cross

A block folds up to the line before that of its `}`, so that blocks that touch have no line in
common; a block that nothing closes ends with the source, and so does everything in it. Regions are
paired by a stack, in the order in which the comments start: a region that is still open started no
later than those that are closed, or no earlier than they ended.
-/

namespace CssWorkbench

variable {source : String} {node outer : Node} {nodes : List Node} {block around span : Span}
  {r s : FoldingRange} {d : FoldingDraft} {offset now : Nat}

/-! ## Lines -/

/-- What stands in front of an offset stands in front of all later ones. -/
theorem before_prefix_before {offset later : Nat} (hle : offset ≤ later) (cs : List Char) :
    Text.before offset cs <+: Text.before later cs := by
  induction cs generalizing offset later with
  | nil => exact List.prefix_refl _
  | cons c cs ih =>
    rw [Text.before]
    split
    · rename_i hfits
      rw [Text.before, if_pos (Nat.le_trans hfits hle)]
      exact List.prefix_cons_inj c |>.mpr (ih (Nat.sub_le_sub_right hle _))
    · exact List.nil_prefix

/-- The line of an offset is the number of line feeds in front of it. -/
theorem lineAt_eq_count (source : String) (offset : Nat) :
    lineAt source offset = (Text.before offset source.toList).count '\n' :=
  line_endPosition _

/-- Lines are in the order of their offsets. -/
theorem lineAt_mono (source : String) {offset later : Nat} (hle : offset ≤ later) :
    lineAt source offset ≤ lineAt source later := by
  rw [lineAt_eq_count, lineAt_eq_count]
  exact (before_prefix_before hle _).sublist.count_le _

/-- The last line is the one behind all line feeds. -/
theorem lineAt_le (source : String) (offset : Nat) :
    lineAt source offset ≤ source.toList.count '\n' := by
  obtain ⟨after, hsource⟩ := exists_append_before offset source.toList
  rw [lineAt_eq_count]
  conv_rhs => rw [hsource]
  exact (List.sublist_append_left _ after).count_le _

namespace FoldingRange

/-- The lines of a range. -/
def lines (r : FoldingRange) : Finset Nat :=
  Finset.Icc r.startLine r.stopLine

/-- A range within another one has lines of that one only. -/
theorem lines_subset (hstart : s.startLine ≤ r.startLine) (hstop : r.stopLine ≤ s.stopLine) :
    r.lines ⊆ s.lines :=
  Finset.Icc_subset_Icc hstart hstop

/-- A range that stops in front of another one shares no line with it. -/
theorem disjoint_lines (h : r.stopLine < s.startLine) : Disjoint r.lines s.lines := by
  rw [Finset.disjoint_left]
  intro line hr hs
  have hr := Finset.mem_Icc.mp hr
  have hs := Finset.mem_Icc.mp hs
  omega

/-- A range that stops where another one starts shares that line at most. -/
theorem card_inter_lines_le_one (h : r.stopLine ≤ s.startLine) : (r.lines ∩ s.lines).card ≤ 1 := by
  rw [Finset.card_le_one]
  intro line hline other hother
  simp only [lines, Finset.mem_inter, Finset.mem_Icc] at hline hother
  omega

/-- Ranges are in order by their first line, then by their last. -/
theorem le_iff : r.le s = true ↔
    r.startLine < s.startLine ∨ r.startLine = s.startLine ∧ r.stopLine ≤ s.stopLine := by
  simp [le]

end FoldingRange

/-! ## Blocks -/

/-- The last line of what folds of a block. -/
def Span.foldStop (block : Span) (source : String) : Nat :=
  if block.lastChar? source = some '\x7d' then lineAt source (block.stop - 1) - 1
  else lineAt source block.stop

/-- A block folds from its first line to the last one that folds, if that is another line. -/
theorem foldBlock?_eq_some_iff : foldBlock? source block = some r ↔
    lineAt source block.start < block.foldStop source ∧
      r = ⟨lineAt source block.start, block.foldStop source, none⟩ := by
  show FoldingRange.lines? (lineAt source block.start) (block.foldStop source) none = some r ↔ _
  simp [FoldingRange.lines?, eq_comm]

/-- What folds of a block stops no later than the block. -/
theorem Span.foldStop_le (block : Span) (source : String) :
    block.foldStop source ≤ lineAt source block.stop := by
  unfold foldStop
  split
  · exact Nat.le_trans (Nat.sub_le _ _) (lineAt_mono source (Nat.sub_le _ _))
  · exact Nat.le_refl _

/-- A block ends with `}` or with the source, and then with its last character. -/
theorem lastChar?_of_block (h : Below node (parse source).1.children)
    (hblock : node.block? = some block) :
    (block.stop = Text.size source ∨ block.lastChar? source = some '\x7d') ∧
      (block.stop = Text.size source → block.lastChar? source = source.toList.getLast?) := by
  obtain ⟨before, body, behind, hsource, rfl, hends⟩ := exists_text_of_block h hblock
  have hlast : Span.lastChar? ⟨Text.byteLength before, Text.byteLength (before ++ '\x7b' :: body)⟩
      source = ('\x7b' :: body).getLast? := by
    rw [Span.lastChar?, hsource, Text.byteLength_append, Span.chars_append]
  rw [hlast]
  have hsize := congrArg Text.byteLength hsource
  rw [Text.byteLength_append] at hsize
  refine ⟨?_, fun hstop => ?_⟩
  · rcases hends with rfl | hbrace
    · exact .inl (by rw [Text.size, hsize]; rfl)
    · exact .inr (by simp [List.getLast?_cons, hbrace])
  · have hwhole : Text.byteLength (before ++ '\x7b' :: body) = Text.byteLength source.toList := hstop
    have hnil : behind = [] := Text.byteLength_eq_zero_iff.mp (by omega)
    rw [hsource, hnil, List.append_nil, List.getLast?_append_of_ne_nil _ (List.cons_ne_nil _ _)]

/-- Of two blocks that nest, the inner one folds no further than the outer one. -/
theorem foldStop_le_of_covers (houter : Below outer (parse source).1.children)
    (haround : outer.block? = some around) (hnode : Below node (parse source).1.children)
    (hblock : node.block? = some block) (hcovers : around.covers block = true) :
    block.foldStop source ≤ around.foldStop source := by
  obtain ⟨hends, hlast⟩ := lastChar?_of_block hnode hblock
  obtain ⟨-, haroundLast⟩ := lastChar?_of_block houter haround
  have hstop := (Span.covers_iff.mp hcovers).2
  by_cases hbrace : around.lastChar? source = some '\x7d'
  · have hblockBrace : block.lastChar? source = some '\x7d' := by
      refine hends.elim (fun hend => ?_) id
      have hsize : around.stop = Text.size source := by
        have hplaced := (parse_placed source).span_of_below houter
        have hwell := ((parse_placed source).wellPlaced outer houter).blockPlaced_of_block? haround
        have hstops := hwell.stops
        omega
      rw [hlast hend, ← haroundLast hsize, hbrace]
    rw [Span.foldStop, Span.foldStop, if_pos hbrace, if_pos hblockBrace]
    exact Nat.sub_le_sub_right (lineAt_mono source (Nat.sub_le_sub_right hstop 1)) 1
  · have haroundStop : around.foldStop source = lineAt source around.stop := if_neg hbrace
    rw [haroundStop]
    exact Nat.le_trans (block.foldStop_le source) (lineAt_mono source hstop)

/-- A block that folds and ends before another one starts ends on an earlier line. -/
theorem foldStop_lt_of_apart (houter : Below outer (parse source).1.children)
    (haround : outer.block? = some around) (hnode : Below node (parse source).1.children)
    (hblock : node.block? = some block) (hapart : outer.span.stop ≤ node.span.start)
    (hfolds : lineAt source around.start < around.foldStop source) :
    around.foldStop source < lineAt source block.start := by
  have hplaced := parse_placed source
  have hleft := (hplaced.wellPlaced outer houter).blockPlaced_of_block? haround
  have hright := (hplaced.wellPlaced node hnode).blockPlaced_of_block? hblock
  have hspan := hplaced.span_of_below hnode
  have hstops := hleft.stops
  have hstarts := hright.starts
  obtain ⟨hends, -⟩ := lastChar?_of_block houter haround
  have hbrace := hends.resolve_left (by omega)
  rw [Span.foldStop, if_pos hbrace] at hfolds ⊢
  have hline : lineAt source (around.stop - 1) ≤ lineAt source block.start :=
    lineAt_mono source (by omega)
  omega

/-- Two blocks that fold have no line in common, or the lines of one are among those of the other. -/
theorem foldBlock?_disjoint_or_subset (houter : Below outer (parse source).1.children)
    (haround : outer.block? = some around) (hr : foldBlock? source around = some r)
    (hnode : Below node (parse source).1.children) (hblock : node.block? = some block)
    (hs : foldBlock? source block = some s) :
    Disjoint r.lines s.lines ∨ r.lines ⊆ s.lines ∨ s.lines ⊆ r.lines := by
  obtain ⟨hrfolds, rfl⟩ := foldBlock?_eq_some_iff.mp hr
  obtain ⟨hsfolds, rfl⟩ := foldBlock?_eq_some_iff.mp hs
  have hplaced := parse_placed source
  rcases hplaced.below_or_apart houter hnode with rfl | hbelow | hbelow | hapart | hapart
  · obtain rfl := Option.some.inj (haround.symm.trans hblock)
    exact .inr (.inl subset_rfl)
  · have hcovers := hplaced.block_covers houter hbelow haround hblock
    exact .inr (.inr (FoldingRange.lines_subset
      (lineAt_mono source (Span.covers_iff.mp hcovers).1)
      (foldStop_le_of_covers houter haround hnode hblock hcovers)))
  · have hcovers := hplaced.block_covers hnode hbelow hblock haround
    exact .inr (.inl (FoldingRange.lines_subset
      (lineAt_mono source (Span.covers_iff.mp hcovers).1)
      (foldStop_le_of_covers hnode hblock houter haround hcovers)))
  · exact .inl (FoldingRange.disjoint_lines
      (foldStop_lt_of_apart houter haround hnode hblock hapart hrfolds))
  · exact .inl (FoldingRange.disjoint_lines
      (foldStop_lt_of_apart hnode hblock houter haround hapart hsfolds)).symm

/-! ## Regions -/

/-- A range that is a region. -/
def FoldingRange.IsRegion (r : FoldingRange) : Prop := r.kind = some .region

/-- Two ranges of which one is inside the other, or starts on the last line of the other at the
earliest. -/
def FoldingRange.Nest (r s : FoldingRange) : Prop :=
  (s.startLine ≤ r.startLine ∧ r.stopLine ≤ s.stopLine) ∨
    (r.startLine ≤ s.startLine ∧ s.stopLine ≤ r.stopLine) ∨
    r.stopLine ≤ s.startLine ∨ s.stopLine ≤ r.startLine

/-- Ranges nest or are apart in either order. -/
theorem FoldingRange.Nest.symm (h : r.Nest s) : s.Nest r := by
  unfold Nest at h ⊢
  omega

/-- Of two ranges that nest one has all lines of the other, or they share one line at most. -/
theorem FoldingRange.Nest.lines (h : r.Nest s) :
    r.lines ⊆ s.lines ∨ s.lines ⊆ r.lines ∨ (r.lines ∩ s.lines).card ≤ 1 := by
  rcases h with ⟨hstart, hstop⟩ | ⟨hstart, hstop⟩ | hbefore | hbehind
  · exact .inl (lines_subset hstart hstop)
  · exact .inr (.inl (lines_subset hstart hstop))
  · exact .inr (.inr (card_inter_lines_le_one hbefore))
  · exact .inr (.inr (Finset.inter_comm s.lines r.lines ▸ card_inter_lines_le_one hbehind))

/-- Foldings found up to a line of a source with a last line: the regions among them nest, and those
still open started in order, each one outside the regions found so far. -/
structure FoldingDraft.Paired (last now : Nat) (d : FoldingDraft) : Prop where
  bounds : ∀ r ∈ d.ranges, r.startLine ≤ r.stopLine ∧ r.stopLine ≤ last
  found : ∀ r ∈ d.ranges, r.IsRegion → r.stopLine ≤ now
  nest : ∀ r ∈ d.ranges, ∀ s ∈ d.ranges, r.IsRegion → s.IsRegion → r.Nest s
  opened : d.regions.Pairwise (· ≥ ·)
  openedBefore : ∀ line ∈ d.regions, line ≤ now
  outside : ∀ r ∈ d.ranges, r.IsRegion → ∀ line ∈ d.regions, line ≤ r.startLine ∨ r.stopLine ≤ line

namespace FoldingDraft

variable {last later : Nat}

/-- Regions that are paired up to a line are so up to every later line. -/
theorem Paired.mono (h : d.Paired last now) (hle : now ≤ later) : d.Paired last later where
  bounds := h.bounds
  found r hr hregion := Nat.le_trans (h.found r hr hregion) hle
  nest := h.nest
  opened := h.opened
  openedBefore line hline := Nat.le_trans (h.openedBefore line hline) hle
  outside := h.outside

/-- A range that is no region changes nothing for the regions. -/
theorem Paired.put_other (h : d.Paired last now) {range : Option FoldingRange}
    (hrange : ∀ r ∈ range, r.startLine ≤ r.stopLine ∧ r.stopLine ≤ last ∧ ¬ r.IsRegion) :
    (d.put range).Paired last now := by
  cases range with
  | none => exact h
  | some new =>
    obtain ⟨hle, hlast, hother⟩ := hrange new rfl
    have hold : ∀ r ∈ new :: d.ranges, r.IsRegion → r ∈ d.ranges := fun r hr hregion =>
      (List.mem_cons.mp hr).resolve_left fun heq => hother (heq ▸ hregion)
    exact {
      bounds := List.forall_mem_cons.mpr ⟨⟨hle, hlast⟩, h.bounds⟩
      found := fun r hr hregion => h.found r (hold r hr hregion) hregion
      nest := fun r hr s hs hrr hss => h.nest r (hold r hr hrr) s (hold s hs hss) hrr hss
      opened := h.opened
      openedBefore := h.openedBefore
      outside := fun r hr hregion => h.outside r (hold r hr hregion) hregion }

/-- A region is opened. -/
theorem Paired.open (h : d.Paired last now) :
    Paired last now { d with regions := now :: d.regions } where
  bounds := h.bounds
  found := h.found
  nest := h.nest
  opened := List.pairwise_cons.mpr ⟨h.openedBefore, h.opened⟩
  openedBefore := List.forall_mem_cons.mpr ⟨Nat.le_refl _, h.openedBefore⟩
  outside r hr hregion := List.forall_mem_cons.mpr
    ⟨.inr (h.found r hr hregion), h.outside r hr hregion⟩

/-- The innermost open region is closed. It is around all regions that started after it, and behind
or around the others. -/
theorem Paired.close {line : Nat} {lines : List Nat} (h : d.Paired last now) (hnow : now ≤ last)
    (hregions : d.regions = line :: lines) :
    ({ d with regions := lines }.put (some ⟨line, now, some .region⟩)).Paired last now := by
  obtain ⟨hinner, hopened⟩ := List.pairwise_cons.mp (hregions ▸ h.opened)
  obtain ⟨hline, hbefore⟩ := List.forall_mem_cons.mp (hregions ▸ h.openedBefore)
  have hnew : ∀ r ∈ d.ranges, r.IsRegion → r.Nest ⟨line, now, some .region⟩ := by
    intro r hr hregion
    have hmem : line ∈ d.regions := hregions ▸ List.mem_cons_self
    rcases h.outside r hr hregion line hmem with hfrom | hto
    · exact .inl ⟨hfrom, h.found r hr hregion⟩
    · exact .inr (.inr (.inl hto))
  exact {
    bounds := List.forall_mem_cons.mpr ⟨⟨hline, hnow⟩, h.bounds⟩
    found := List.forall_mem_cons.mpr ⟨fun _ => Nat.le_refl _, h.found⟩
    nest := by
      intro r hr s hs hrr hss
      rcases List.mem_cons.mp hr with rfl | hr
      · rcases List.mem_cons.mp hs with rfl | hs
        · exact .inl ⟨Nat.le_refl _, Nat.le_refl _⟩
        · exact (hnew s hs hss).symm
      · rcases List.mem_cons.mp hs with rfl | hs
        · exact hnew r hr hrr
        · exact h.nest r hr s hs hrr hss
    opened := hopened
    openedBefore := hbefore
    outside := by
      intro r hr hregion other hother
      rcases List.mem_cons.mp hr with rfl | hr
      · exact .inl (hinner other hother)
      · exact h.outside r hr hregion other (hregions ▸ List.mem_cons_of_mem _ hother) }

/-- One node keeps the regions paired. -/
theorem Paired.add (h : d.Paired (source.toList.count '\n') (lineAt source offset))
    (hle : offset ≤ node.span.start) :
    (d.add source node).Paired (source.toList.count '\n') (lineAt source node.span.start) := by
  have h := h.mono (lineAt_mono source hle)
  have hblock : ∀ block, ∀ r ∈ foldBlock? source block,
      r.startLine ≤ r.stopLine ∧ r.stopLine ≤ source.toList.count '\n' ∧ ¬ r.IsRegion := by
    intro block r hr
    obtain ⟨hlt, rfl⟩ := foldBlock?_eq_some_iff.mp hr
    have hstop := Nat.le_trans (block.foldStop_le source) (lineAt_le source block.stop)
    exact ⟨Nat.le_of_lt hlt, hstop, by simp [FoldingRange.IsRegion]⟩
  cases node with
  | ruleset rule children => exact h.put_other (hblock rule.block)
  | atRule rule children =>
    refine h.put_other fun r hr => ?_
    obtain ⟨block, -, hr⟩ := Option.bind_eq_some_iff.mp hr
    exact hblock block r hr
  | declaration decl => exact h
  | comment span =>
    show (d.addComment source span).Paired _ (lineAt source span.start)
    unfold addComment
    split
    · exact h.open
    · split
      · rename_i hregions
        exact h.close (lineAt_le source _) hregions
      · exact h
    · refine h.put_other fun r hr => ?_
      obtain ⟨hlt, rfl⟩ : lineAt source span.start < lineAt source span.stop ∧
          r = ⟨lineAt source span.start, lineAt source span.stop, some .comment⟩ := by
        simpa [FoldingRange.lines?, eq_comm] using hr
      exact ⟨Nat.le_of_lt hlt, lineAt_le source _, by simp [FoldingRange.IsRegion]⟩

/-- Nodes in the order in which they start keep the regions paired. -/
theorem Paired.foldl (h : d.Paired (source.toList.count '\n') (lineAt source offset))
    (hnodes : nodes.Pairwise fun m n => m.span.start ≤ n.span.start)
    (hle : ∀ n ∈ nodes, offset ≤ n.span.start) :
    ∃ now, (nodes.foldl (FoldingDraft.add source) d).Paired (source.toList.count '\n') now := by
  induction nodes generalizing d offset with
  | nil => exact ⟨_, h⟩
  | cons node nodes ih =>
    obtain ⟨hfirst, hrest⟩ := List.pairwise_cons.mp hnodes
    exact ih (h.add (hle node List.mem_cons_self)) hrest hfirst

/-- The blocks among the foldings are those of the nodes. -/
theorem mem_add_iff (hkind : r.kind = none) : r ∈ (d.add source node).ranges ↔
    r ∈ d.ranges ∨ node.block?.bind (foldBlock? source) = some r := by
  have hput : ∀ range, r ∈ (d.put range).ranges ↔ r ∈ d.ranges ∨ range = some r := by
    intro range
    simp [put, or_comm]
  cases node with
  | ruleset | atRule => exact hput _
  | declaration => simp [add, Node.block?]
  | comment span =>
    have hsame : r ∈ (d.addComment source span).ranges ↔ r ∈ d.ranges := by
      unfold addComment
      split
      · exact Iff.rfl
      · split
        · simp [put]
          rintro rfl
          cases hkind
        · exact Iff.rfl
      · rw [hput, or_iff_left]
        intro hlines
        simp only [FoldingRange.lines?, Option.ite_none_right_eq_some] at hlines
        obtain ⟨-, hr⟩ := hlines
        rw [← Option.some.inj hr] at hkind
        cases hkind
    rw [show d.add source (.comment span) = d.addComment source span from rfl, hsame]
    simp [Node.block?]

/-- The foldings of blocks are those of the nodes, besides what was found before. -/
theorem mem_foldl_iff (hkind : r.kind = none) : r ∈ (nodes.foldl (add source) d).ranges ↔
    r ∈ d.ranges ∨ ∃ n ∈ nodes, n.block?.bind (foldBlock? source) = some r := by
  induction nodes generalizing d with
  | nil => simp
  | cons node nodes ih =>
    rw [List.foldl_cons, ih, mem_add_iff hkind, or_assoc]
    simp

end FoldingDraft

/-! ## All foldings of a source -/

/-- The foldings of a stylesheet are those that were found, in order. -/
theorem Stylesheet.mem_foldings_iff {sheet : Stylesheet} : r ∈ sheet.foldings source ↔
    r ∈ (sheet.nodes.foldl (FoldingDraft.add source) ⟨[], []⟩).ranges := by
  rw [foldings, List.mem_mergeSort, List.mem_reverse]

/-- The block ranges of a tree are what its blocks fold to. -/
theorem Stylesheet.mem_foldings_iff_of_block {sheet : Stylesheet} (hkind : r.kind = none) :
    r ∈ sheet.foldings source ↔
      ∃ n, Below n sheet.children ∧ ∃ block, n.block? = some block ∧
        foldBlock? source block = some r := by
  rw [mem_foldings_iff, FoldingDraft.mem_foldl_iff hkind]
  simp [mem_nodes_iff, Option.bind_eq_some_iff]

/-- Foldings are listed by their first line, then by their last. -/
theorem Stylesheet.foldings_pairwise_le (sheet : Stylesheet) (source : String) :
    (sheet.foldings source).Pairwise fun r s => r.le s = true := by
  refine List.pairwise_mergeSort (fun r s t hrs hst => ?_) (fun r s => ?_) _
  · rw [FoldingRange.le_iff] at hrs hst ⊢
    omega
  · rw [Bool.or_eq_true, FoldingRange.le_iff, FoldingRange.le_iff]
    omega

/-- Foldings stay on the lines up to the last one, and they are in order. Two blocks fold apart or one
inside the other. Of two regions one is inside the other, or they have at most one line in common. -/
structure FoldingRange.WellNested (lastLine : Nat) (ranges : List FoldingRange) : Prop where
  bounds : ∀ r ∈ ranges, r.startLine ≤ r.stopLine ∧ r.stopLine ≤ lastLine
  ordered : ranges.Pairwise fun r s =>
    r.startLine < s.startLine ∨ r.startLine = s.startLine ∧ r.stopLine ≤ s.stopLine
  blocks : ∀ r ∈ ranges, ∀ s ∈ ranges, r.kind = none → s.kind = none →
    Disjoint r.lines s.lines ∨ r.lines ⊆ s.lines ∨ s.lines ⊆ r.lines
  regions : ∀ r ∈ ranges, ∀ s ∈ ranges, r.kind = some .region → s.kind = some .region →
    r.lines ⊆ s.lines ∨ s.lines ⊆ r.lines ∨ (r.lines ∩ s.lines).card ≤ 1

/-- The foldings of a source nest on its lines. -/
theorem foldings_parse_nest (source : String) :
    FoldingRange.WellNested (source.toList.count '\n') ((parse source).1.foldings source) := by
  have hstart : FoldingDraft.Paired (source.toList.count '\n') (lineAt source 0) ⟨[], []⟩ :=
    { bounds := by simp, found := by simp, nest := by simp, opened := .nil, openedBefore := by simp,
      outside := by simp }
  obtain ⟨now, hpaired⟩ := hstart.foldl (pairwise_nodes_parse source) fun _ _ => Nat.zero_le _
  constructor
  case bounds => exact fun r hr => hpaired.bounds r (Stylesheet.mem_foldings_iff.mp hr)
  case ordered => exact (Stylesheet.foldings_pairwise_le _ source).imp FoldingRange.le_iff.mp
  case blocks =>
    intro r hr s hs hrkind hskind
    obtain ⟨outer, houter, around, haround, hr⟩ :=
      (Stylesheet.mem_foldings_iff_of_block hrkind).mp hr
    obtain ⟨node, hnode, block, hblock, hs⟩ := (Stylesheet.mem_foldings_iff_of_block hskind).mp hs
    exact foldBlock?_disjoint_or_subset houter haround hr hnode hblock hs
  case regions =>
    intro r hr s hs hrkind hskind
    exact (hpaired.nest r (Stylesheet.mem_foldings_iff.mp hr) s
      (Stylesheet.mem_foldings_iff.mp hs) hrkind hskind).lines

/-- Nothing closes the first block, which still ends with a `}`; the blocks in it touch. Of two
regions one starts where the other ends. -/
theorem foldings_parse_nest_of_touching :
    let blocks := "a\x7b\nb\x7b\nc:d\n\x7de\x7b\nf:g\n\x7d"
    let regions := "/*#region*/\n/*#endregion*//*#region*/\n/*#endregion*/"
    let first : FoldingRange := ⟨0, 1, some .region⟩
    let second : FoldingRange := ⟨1, 2, some .region⟩
    (parse blocks).1.foldings blocks = [⟨0, 4, none⟩, ⟨1, 2, none⟩, ⟨3, 4, none⟩] ∧
      (∀ r ∈ (parse blocks).1.foldings blocks, r.stopLine ≤ blocks.toList.count '\n') ∧
      (∀ r ∈ (parse blocks).1.foldings blocks, r.kind = none →
        Disjoint r.lines (Finset.Icc 1 2) ∨ r.lines ⊆ Finset.Icc 1 2 ∨ Finset.Icc 1 2 ⊆ r.lines) ∧
      first ∈ (parse regions).1.foldings regions ∧ second ∈ (parse regions).1.foldings regions ∧
      (first.lines ⊆ second.lines ∨ second.lines ⊆ first.lines ∨
        (first.lines ∩ second.lines).card ≤ 1) := by
  intro blocks regions first second
  have hblocks : (parse blocks).1.foldings blocks = [⟨0, 4, none⟩, ⟨1, 2, none⟩, ⟨3, 4, none⟩] := by
    unfold blocks
    cbv
  have hnodes : (parse regions).1.nodes = [.comment ⟨0, 11⟩, .comment ⟨12, 26⟩, .comment ⟨26, 37⟩,
      .comment ⟨38, 52⟩] := by
    unfold regions
    cbv
  have hfound : ∀ r ∈ [first, second], r ∈ (parse regions).1.foldings regions := by
    intro r hr
    rw [Stylesheet.mem_foldings_iff, hnodes]
    revert r
    decide +kernel
  have hnested := foldings_parse_nest blocks
  have hpaired := foldings_parse_nest regions
  obtain ⟨hfirst, hsecond, -⟩ := List.forall_mem_cons.mp hfound |>.imp_right List.forall_mem_cons.mp
  have hinner : ⟨1, 2, none⟩ ∈ (parse blocks).1.foldings blocks := by
    rw [hblocks]
    decide
  exact ⟨hblocks, fun r hr => (hnested.bounds r hr).2,
    fun r hr hkind => hnested.blocks r hr _ hinner hkind rfl,
    hfirst, hsecond, hpaired.regions first hfirst second hsecond rfl rfl⟩

end CssWorkbench
