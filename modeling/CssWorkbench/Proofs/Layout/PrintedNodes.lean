import CssWorkbench.Layout.Format
import CssWorkbench.Proofs.Layout.PrintedSelector
import CssWorkbench.Proofs.Layout.Writing

/-!
# Printing nodes

What a node is printed as in any layout writes the node: a statement on a line of its own, and a
block on one line or on several, from what opens it and from its children. The blanks of the layout
part the statements and are read as nothing.
-/

namespace CssWorkbench

variable {source head line : String} {n depth : Nat} {nodes children : List Node}
  {make : List Node → Node} {rule : Ruleset} {media : AtRule} {d : Declaration}
  {options : FormatOptions} {span : Span}

/-- Whatever the layout is, what is printed of the node writes it. A declaration may also stand on
one line with others. -/
structure Printable (source : String) (n : Nat) (node : Node) : Prop where
  layout : ∀ options depth, Writes n (node.layout options source depth).toList [node]
  statement : ∀ d, node = .declaration d → Writes n ((d.text source).toList ++ [';']) [node]

/-- Nothing but blanks stands in front of a line. -/
theorem isAsciiBlank_of_mem_indent (options : FormatOptions) (depth : Nat) :
    ∀ c ∈ (options.indent depth).toList, Text.isAsciiBlank c = true := by
  intro c hc
  unfold FormatOptions.indent at hc
  split at hc
  · rw [String.toList_ofList] at hc
    rw [List.eq_of_mem_replicate hc]
    decide
  · rw [String.toList_ofList] at hc
    rw [List.eq_of_mem_replicate hc]
    decide

/-- A node that writes itself on one line may be indented. -/
theorem Writes.ownLine {text : List Char} (h : Writes n text nodes) (options : FormatOptions)
    (depth : Nat) : Writes n ((options.indent depth).toList ++ text ++ ['\n']) nodes :=
  (h.indented (isAsciiBlank_of_mem_indent options depth)).trailed isAsciiBlank_of_mem_newline

/-- A declaration whose text is read as it again can be printed. -/
theorem printable_declaration (h : Writes n ((d.text source).toList ++ [';']) [.declaration d]) :
    Printable source n (.declaration d) := by
  refine ⟨fun options depth => ?_, fun d' hd => ?_⟩
  · have hline := h.ownLine options depth
    have htext : (Node.layout options source depth (.declaration d)).toList =
        (options.indent depth).toList ++ ((d.text source).toList ++ [';']) ++ ['\n'] := by
      rw [Node.layout]
      simp
    rwa [htext]
  · obtain rfl := Node.declaration.inj hd
    exact h

/-- An at-rule whose head is read as it again can be printed. -/
theorem printable_statement (hblock : media.block = none)
    (h : Writes n ((media.head source).toList ++ [';']) [.atRule media []]) :
    Printable source n (.atRule media []) := by
  refine ⟨fun options depth => ?_, fun d hd => by cases hd⟩
  have hline := h.ownLine options depth
  have htext : (Node.layout options source depth (.atRule media [])).toList =
      (options.indent depth).toList ++ ((media.head source).toList ++ [';']) ++ ['\n'] := by
    rw [Node.layout, hblock]
    simp
  rwa [htext]

/-- Nodes are printed one behind the other, perhaps with an empty line between them. -/
theorem writes_layoutNodes (h : ∀ node ∈ nodes, Printable source n node) (options : FormatOptions)
    (depth : Nat) (last : Option Nat) :
    Writes n (layoutNodes options source depth last nodes).toList nodes := by
  induction nodes generalizing last with
  | nil =>
    rw [layoutNodes]
    exact writes_nil n
  | cons node nodes ih =>
    have hnode := (h node List.mem_cons_self).layout options depth
    have hrest := ih (fun m hm => h m (List.mem_cons_of_mem _ hm)) (some node.span.stop)
    rw [layoutNodes]
    simp only [String.toList_append]
    have hblank : ∀ c ∈ (if (last.any fun stop => blankLineBetween source stop node.span.start) then
        "\n" else "").toList, Text.isAsciiBlank c = true := by
      split
      · exact isAsciiBlank_of_mem_newline
      · simp
    exact (hnode.indented hblank).append hrest

/-- Behind each declaration on a line stand a semicolon and a space. -/
theorem writes_declarations {ds : List Declaration}
    (h : ∀ d ∈ ds, Writes n ((d.text source).toList ++ [';']) [.declaration d]) :
    Writes n (ds.flatMap fun d => (d.text source).toList ++ [';', ' ']) (ds.map .declaration) := by
  induction ds with
  | nil => exact writes_nil n
  | cons d ds ih =>
    have hfirst := (h d List.mem_cons_self).trailed isAsciiBlank_of_mem_space
    have hrest := ih fun e he => h e (List.mem_cons_of_mem _ he)
    rw [List.flatMap_cons, List.map_cons]
    simpa using hfirst.append hrest

/-- Parts that are joined, with one more separator, are parts each of which a separator follows. -/
theorem intercalate_append {α : Type} (separator : List α) (xs : List (List α)) (hne : xs ≠ []) :
    separator.intercalate xs ++ separator = xs.flatMap (· ++ separator) := by
  induction xs with
  | nil => exact absurd rfl hne
  | cons x xs ih =>
    cases xs with
    | nil => simp
    | cons y xs =>
      rw [List.intercalate_cons_cons, List.append_assoc, ih (List.cons_ne_nil y xs)]
      simp

/-- Parts that are indented and joined are joined by separators with the indent behind them. -/
theorem intercalate_indented {α : Type} (separator indent : List α) (xs : List (List α))
    (hne : xs ≠ []) : separator.intercalate (xs.map (indent ++ ·)) =
      indent ++ (separator ++ indent).intercalate xs := by
  induction xs with
  | nil => exact absurd rfl hne
  | cons x xs ih =>
    cases xs with
    | nil => simp
    | cons y xs =>
      rw [List.map_cons, List.map_cons, List.intercalate_cons_cons, List.intercalate_cons_cons,
        ← List.map_cons, ih (List.cons_ne_nil y xs)]
      simp

/-- Nodes as many as the declarations among them are all declarations. -/
theorem eq_map_declaration (h : (declarationsIn children).length = children.length) :
    children = (declarationsIn children).map .declaration := by
  induction children with
  | nil => rfl
  | cons node children ih =>
    have hle : (declarationsIn children).length ≤ children.length := List.length_filterMap_le _ _
    cases node with
    | declaration d =>
      have hcons : declarationsIn (.declaration d :: children) = d :: declarationsIn children := rfl
      rw [hcons] at h ⊢
      rw [List.map_cons, ← ih (Nat.succ.inj h)]
    | ruleset | atRule | comment =>
      exact absurd h (Nat.ne_of_lt (Nat.lt_succ_of_le hle))

/-- What is printed on one line is a block of declarations, between semicolons. -/
theorem singleLine?_eq_some (h : singleLine? options source head children span depth = some line) :
    children = (declarationsIn children).map .declaration ∧
      line = options.indent depth ++ head ++ " \x7b " ++
        "; ".intercalate ((declarationsIn children).map (Declaration.text source)) ++ "; \x7d" ++
          "\n" := by
  obtain ⟨hallowed, hline⟩ := Option.ite_none_right_eq_some.mp h
  have hlength := (Bool.and_eq_true_iff.mp hallowed).1
  exact ⟨eq_map_declaration (by simpa using hlength), (Option.some.inj hline).symm⟩

/-- Declarations on one line, with a semicolon and a space behind each. -/
theorem toList_intercalate_declarations {ds : List Declaration} (hne : ds ≠ []) :
    ("; ".intercalate (ds.map (Declaration.text source))).toList ++ [';', ' '] =
      ds.flatMap fun d => (d.text source).toList ++ [';', ' '] := by
  have hjoined := intercalate_append [';', ' ']
    ((ds.map (Declaration.text source)).map String.toList) (by simpa using hne)
  rw [List.flatMap_map, List.flatMap_map] at hjoined
  rw [String.toList_intercalate]
  exact hjoined

/-- A block of declarations on one line. -/
theorem writes_singleLine (hopen : Opens n (head.toList ++ [' ', '{']) make)
    (shallow : n < maxNesting) (hne : children ≠ [])
    (h : ∀ child ∈ children, Printable source (n + 1) child)
    (hline : singleLine? options source head children span depth = some line) :
    Writes n line.toList [make children] := by
  obtain ⟨hdeclarations, rfl⟩ := singleLine?_eq_some hline
  generalize declarationsIn children = ds at hdeclarations
  subst hdeclarations
  have hds : ds ≠ [] := fun hnil => hne (by rw [hnil]; rfl)
  have hinner : Writes (n + 1) (ds.flatMap fun d => (d.text source).toList ++ [';', ' '])
      (ds.map .declaration) := writes_declarations fun d hd =>
    (h _ (List.mem_map_of_mem hd)).statement d rfl
  have hblock := (hopen.writes shallow (hinner.indented isAsciiBlank_of_mem_space)).ownLine options
    depth
  rw [← toList_intercalate_declarations hds] at hblock
  simpa using hblock

/-- A block with each of its nodes on a line of its own. -/
theorem writes_expanded {lines : List Char} (hopen : Opens n (lines ++ [' ', '{']) make)
    (shallow : n < maxNesting) (h : ∀ child ∈ children, Printable source (n + 1) child)
    (options : FormatOptions) (depth : Nat) :
    Writes n (lines ++ [' ', '{', '\n'] ++
      (layoutNodes options source (depth + 1) none children).toList ++
        (options.indent depth).toList ++ ['}', '\n']) [make children] := by
  have hinner := ((writes_layoutNodes h options (depth + 1) none).indented
    isAsciiBlank_of_mem_newline).trailed (isAsciiBlank_of_mem_indent options depth)
  have hblock := (hopen.writes shallow hinner).trailed isAsciiBlank_of_mem_newline
  simpa using hblock

/-- A block that holds nothing. -/
theorem writes_empty (hopen : Opens n (head.toList ++ [' ', '{']) make) (shallow : n < maxNesting)
    (options : FormatOptions) (depth : Nat) :
    Writes n (options.indent depth ++ head ++ " \x7b\x7d\n").toList [make []] := by
  have hblock := (hopen.writes shallow (writes_nil (n + 1))).ownLine options depth
  simpa using hblock

/-- An at-rule with a block can be printed if its head opens the block and its children can be
printed. -/
theorem printable_atRule (hblock : media.block.isSome = true)
    (hopen : Opens n ((media.head source).toList ++ [' ', '{']) (.atRule media))
    (shallow : n < maxNesting) (h : ∀ child ∈ children, Printable source (n + 1) child) :
    Printable source n (.atRule media children) := by
  refine ⟨fun options depth => ?_, fun d hd => by cases hd⟩
  have hsome : ¬ media.block.isNone = true := by simp [Option.isSome_iff_ne_none.mp hblock]
  rw [Node.layout]
  simp only [if_neg hsome]
  split
  · rename_i hempty
    obtain rfl := List.isEmpty_iff.mp hempty
    exact writes_empty hopen shallow options depth
  · rename_i hne
    split
    · rename_i line hline
      exact writes_singleLine hopen shallow (by simpa using hne) h hline
    · have hlines := (writes_expanded hopen shallow h options depth).indented
        (isAsciiBlank_of_mem_indent options depth)
      simpa using hlines

/-- The selectors of a ruleset on one line. -/
theorem toList_intercalate_selectors (source : String) (selectors : List Selector) :
    (", ".intercalate (selectors.map (Selector.text source))).toList =
      selectorsText source [' '] selectors := by
  rw [String.toList_intercalate, List.map_map]
  rfl

/-- The selectors of a ruleset on a line each. -/
theorem toList_intercalate_indented (indent : String) (selectors : List Selector)
    (hne : selectors ≠ []) :
    (",\n".intercalate ((selectors.map (Selector.text source)).map (indent ++ ·))).toList =
      indent.toList ++ selectorsText source ('\n' :: indent.toList) selectors := by
  have hlines : ((selectors.map (Selector.text source)).map (indent ++ ·)).map String.toList =
      (selectors.map fun s => (s.text source).toList).map (indent.toList ++ ·) := by
    simp
  rw [String.toList_intercalate, hlines]
  exact intercalate_indented [',', '\n'] indent.toList _ (by simpa using hne)

/-- A ruleset can be printed if its selectors open the block, however far they are apart, and its
children can be printed. -/
theorem printable_ruleset (hopen : ∀ apart, (∀ c ∈ apart, Text.isAsciiBlank c = true) →
      Opens n (selectorsText source apart rule.selectors.selectors ++ [' ', '{']) (.ruleset rule))
    (shallow : n < maxNesting) (h : ∀ child ∈ children, Printable source (n + 1) child) :
    Printable source n (.ruleset rule children) := by
  refine ⟨fun options depth => ?_, fun d hd => by cases hd⟩
  have hone := hopen [' '] isAsciiBlank_of_mem_space
  rw [← toList_intercalate_selectors] at hone
  rw [Node.layout]
  split
  · rename_i hempty
    obtain rfl := List.isEmpty_iff.mp hempty
    exact writes_empty hone shallow options depth
  · rename_i hne
    split
    · rename_i line hline
      exact writes_singleLine hone shallow (by simpa using hne) h hline
    · by_cases hselectors : rule.selectors.selectors = []
      · have hlines := writes_expanded (hopen [] (by simp)) shallow h options depth
        rw [hselectors] at hlines ⊢
        simpa using hlines
      · have hindent : ∀ c ∈ '\n' :: (options.indent depth).toList, Text.isAsciiBlank c = true :=
          List.forall_mem_cons.mpr ⟨by decide, isAsciiBlank_of_mem_indent options depth⟩
        have hlines := (writes_expanded (hopen _ hindent) shallow h options depth).indented
          (isAsciiBlank_of_mem_indent options depth)
        have htext := @toList_intercalate_indented source (options.indent depth)
          rule.selectors.selectors hselectors
        simp only [String.toList_append, htext]
        simpa using hlines

end CssWorkbench
