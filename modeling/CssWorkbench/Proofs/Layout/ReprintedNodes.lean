import CssWorkbench.Proofs.Layout.ReprintedHeads
import CssWorkbench.Proofs.Tree.Declarations
import CssWorkbench.Proofs.Tree.Nesting

/-!
# Nodes are printed again

What is printed of a node stands on lines of its own, behind an indentation. It is read as one node
that takes just these lines, and of which the same is printed: empty lines are printed where they
stood, and a block that was printed on one line is printed on one line again.
-/

namespace CssWorkbench

variable {text source line out : String} {front ds core lead inner pending trail : List Char}
  {n depth : Nat} {options : FormatOptions} {node : Node} {nodes children made : List Node}
  {lines : Nat → String} {P Q : String → Node → Prop} {R : String → List Node → Prop}
  {span span' : Span} {last last' : Option Nat}

/-- The texts of nodes that are declarations; others have none. -/
def declarationTexts (source : String) (nodes : List Node) : List (Option String) :=
  nodes.map fun node => node.declaration?.map (Declaration.text source)

/-- What is printed of `made`, read from `text`, is what is printed of `node`. -/
structure PrintsAs (options : FormatOptions) (source : String) (depth : Nat) (node : Node)
    (text : String) (made : Node) : Prop where
  layout : made.layout options text depth = node.layout options source depth
  declaration : made.declaration?.map (Declaration.text text) =
    node.declaration?.map (Declaration.text source)

/-- A node that is no declaration is printed as another one by its layout. -/
theorem printsAs_of_none {made : Node} (hnode : node.declaration? = none)
    (hmade : made.declaration? = none)
    (hlayout : made.layout options text depth = node.layout options source depth) :
    PrintsAs options source depth node text made :=
  ⟨hlayout, by rw [hnode, hmade, Option.map_none, Option.map_none]⟩

/-- What is printed of the node at any depth is read, behind its indentation, as a node of which the
same is printed. A declaration may also stand on one line with others. -/
structure Reprints (options : FormatOptions) (source : String) (n : Nat) (node : Node) : Prop where
  layout : ∀ depth, ∃ lead core,
    (node.layout options source depth).toList = lead ++ core ++ ['\n'] ∧
    Indents lead ∧ StartsSolid core ∧ ReadInPlace n core (PrintsAs options source depth node)
  statement : ∀ d, node = .declaration d → StartsSolid ((d.text source).toList ++ [';']) ∧
    ReadInPlace n ((d.text source).toList ++ [';'])
      fun text made => made.declaration?.map (Declaration.text text) = some (d.text source)

/-- Blanks may stand in front of what is read in its place. -/
theorem ReadInPlace.behind (h : ReadInPlace n core P) (hsolid : StartsSolid core)
    (hlead : ∀ c ∈ lead, Text.isAsciiBlank c = true)
    (place : text.toList = front ++ (lead ++ (core ++ ds))) :
    ∃ tokens made, ScannedAs text front (lead ++ core) ds tokens ∧ Conveys n tokens [made] ∧
      made.span = ⟨Text.byteLength (front ++ lead), Text.byteLength (front ++ lead ++ core)⟩ ∧
        P text made := by
  obtain ⟨gap, hscanGap, hgap⟩ := scannedAs_blanks hlead place (hsolid.append ds).head?
  obtain ⟨tokens, made, hscan, hconveys, hspan, hmade⟩ := h _ _ _ hscanGap.behind
  have hblank : Conveys n gap [] := conveys_blanks n hgap
  exact ⟨gap ++ tokens, made, hscanGap.append hscan, hblank.append hconveys, hspan, hmade⟩

/-- The node that is read in its place spans just the characters. -/
theorem ReadInPlace.imp_chars (h : ReadInPlace n core P)
    (himp : ∀ text made, made.span.chars text.toList = core → P text made → Q text made) :
    ReadInPlace n core Q := by
  intro text front ds place
  obtain ⟨tokens, made, hscan, hconveys, hspan, hmade⟩ := h text front ds place
  refine ⟨tokens, made, hscan, hconveys, hspan, himp text made ?_ hmade⟩
  rw [hspan, place, ← List.append_assoc, Text.byteLength_append, Span.chars_append]

/-- Nodes that are printed one behind the other are read one behind the other, and an empty line is
printed again where there is one. -/
theorem scannedAs_layoutNodes (h : ∀ node ∈ nodes, Reprints options source n node)
    (hpending : ∀ c ∈ pending, Text.isAsciiBlank c = true)
    (htrail : ∀ c ∈ trail, Text.isAsciiBlank c = true)
    (hnext : ds.head?.any Text.isAsciiBlank = false)
    (hlast : (last = none ∧ last' = none) ∨
      (last.isSome = true ∧ last' = some (Text.byteLength front) ∧ pending = ['\n']))
    (place : text.toList = front ++ (pending ++
      ((layoutNodes options source depth last nodes).toList ++ (trail ++ ds)))) :
    ∃ tokens made, ScannedAs text front
        (pending ++ ((layoutNodes options source depth last nodes).toList ++ trail)) ds tokens ∧
      Conveys n tokens made ∧
      layoutNodes options text depth last' made = layoutNodes options source depth last nodes ∧
      declarationTexts text made = declarationTexts source nodes := by
  induction nodes generalizing front pending last last' with
  | nil =>
    have hblanks : ∀ c ∈ pending ++ trail, Text.isAsciiBlank c = true :=
      List.forall_mem_append.mpr ⟨hpending, htrail⟩
    rw [layoutNodes] at place ⊢
    obtain ⟨gap, hscan, hgap⟩ := scannedAs_blanks hblanks (by simpa using place) hnext
    exact ⟨gap, [], by simpa using hscan, conveys_blanks n hgap, by rw [layoutNodes],
      by simp [declarationTexts]⟩
  | cons node nodes ih =>
    obtain ⟨lead, core, hlayout, hlead, hsolid, hread⟩ := (h node List.mem_cons_self).layout depth
    obtain ⟨blank, hblank⟩ :
        ∃ blank, (last.any fun stop => blankLineBetween source stop node.span.start) = blank :=
      ⟨_, rfl⟩
    generalize hempty : (if blank then ['\n'] else []) = empty
    have hlines : (layoutNodes options source depth last (node :: nodes)).toList =
        empty ++ lead ++ core ++
          (['\n'] ++ (layoutNodes options source depth (some node.span.stop) nodes).toList) := by
      rw [layoutNodes, hblank, ← hempty]
      simp only [String.toList_append, hlayout]
      cases blank <;> simp
    have hgap : ∀ c ∈ pending ++ (empty ++ lead), Text.isAsciiBlank c = true := by
      refine List.forall_mem_append.mpr ⟨hpending, List.forall_mem_append.mpr ⟨?_, hlead.isAsciiBlank⟩⟩
      rw [← hempty]
      split
      · exact isAsciiBlank_of_mem_newline
      · simp
    rw [hlines] at place ⊢
    have hplace : text.toList = front ++ (pending ++ (empty ++ lead) ++ (core ++ (['\n'] ++
        ((layoutNodes options source depth (some node.span.stop) nodes).toList ++
          (trail ++ ds))))) := by simpa using place
    obtain ⟨tokens, new, hscan, hconveys, hspan, hnew⟩ := hread.behind hsolid hgap hplace
    obtain ⟨tokens', made, hscan', hconveys', hmade, htexts⟩ :=
      ih (fun m hm => h m (List.mem_cons_of_mem _ hm)) isAsciiBlank_of_mem_newline
        (.inr ⟨rfl, rfl, rfl⟩) hscan.behind
    have hfront : Text.byteLength (front ++ (pending ++ (empty ++ lead)) ++ core) =
        Text.byteLength (front ++ (pending ++ (empty ++ lead) ++ core)) := by simp
    refine ⟨tokens ++ tokens', new :: made, ?_, hconveys.append hconveys', ?_, ?_⟩
    · have hfront : ScannedAs text front (pending ++ (empty ++ lead) ++ core)
          (['\n'] ++ ((layoutNodes options source depth (some node.span.stop) nodes).toList ++
            trail) ++ ds) tokens := by simpa using hscan
      simpa using hfront.append hscan'
    · have hsame : (last'.any fun stop => blankLineBetween text stop new.span.start) = blank := by
        rcases hlast with ⟨rfl, rfl⟩ | ⟨hsome, rfl, rfl⟩
        · exact hblank
        · have hcount : (['\n'] ++ (empty ++ lead)).count '\n' = 1 + if blank then 1 else 0 := by
            rw [List.count_append, List.count_append, hlead.count_newline, ← hempty]
            cases blank <;> rfl
          rw [Option.any_some, hspan, blankLineBetween_of_place hplace, hcount]
          cases blank <;> rfl
      rw [layoutNodes, layoutNodes, hsame, hblank, hnew.layout, ← hmade, hspan, hfront]
    · rw [declarationTexts, declarationTexts, List.map_cons, List.map_cons, hnew.declaration]
      exact congrArg _ htexts

/-- Declarations on one line, each with a semicolon and a space behind it, are read one behind the
other. -/
theorem scannedAs_declarations {ds' : List Declaration}
    (h : ∀ d ∈ ds', StartsSolid ((d.text source).toList ++ [';']) ∧
      ReadInPlace n ((d.text source).toList ++ [';'])
        fun text made => made.declaration?.map (Declaration.text text) = some (d.text source))
    (hnext : ds.head?.any Text.isAsciiBlank = false)
    (place : text.toList = front ++
      ([' '] ++ ds'.flatMap (fun d => (d.text source).toList ++ [';', ' ']) ++ ds)) :
    ∃ tokens made, ScannedAs text front
        ([' '] ++ ds'.flatMap fun d => (d.text source).toList ++ [';', ' ']) ds tokens ∧
      Conveys n tokens made ∧
      declarationTexts text made = ds'.map fun d => some (d.text source) := by
  induction ds' generalizing front with
  | nil =>
    obtain ⟨gap, hscan, hgap⟩ := scannedAs_blanks isAsciiBlank_of_mem_space place hnext
    exact ⟨gap, [], hscan, conveys_blanks n hgap, by simp [declarationTexts]⟩
  | cons d ds' ih =>
    obtain ⟨hsolid, hread⟩ := h d List.mem_cons_self
    have hplace : text.toList = front ++ ([' '] ++ ((d.text source).toList ++ [';'] ++
        ([' '] ++ ds'.flatMap (fun d => (d.text source).toList ++ [';', ' ']) ++ ds))) := by
      simpa using place
    obtain ⟨tokens, new, hscan, hconveys, -, hnew⟩ :=
      hread.behind hsolid isAsciiBlank_of_mem_space hplace
    obtain ⟨tokens', made, hscan', hconveys', hmade⟩ :=
      ih (fun e he => h e (List.mem_cons_of_mem _ he)) hscan.behind
    refine ⟨tokens ++ tokens', new :: made, ?_, hconveys.append hconveys', ?_⟩
    · simpa using hscan.append hscan'
    · rw [declarationTexts, List.map_cons, hnew, List.map_cons]
      exact congrArg _ hmade

/-- Wherever `inner` stands in front of a `}`, it is read as nodes, and the text and these nodes
satisfy `R`. -/
def FillsBlock (n : Nat) (inner : List Char) (R : String → List Node → Prop) : Prop :=
  ∀ (text : String) (front ds : List Char), text.toList = front ++ (inner ++ '}' :: ds) →
    ∃ tokens made, ScannedAs text front inner ('}' :: ds) tokens ∧ Conveys n tokens made ∧
      R text made

/-- What opens a block, what fills it and a `}` are read as one node. -/
theorem Reopens.readInPlace (hopen : Reopens options n core line lines) (shallow : n < maxNesting)
    (hinner : FillsBlock (n + 1) inner R) :
    ReadInPlace n (core ++ (inner ++ ['}'])) fun text made => made.declaration? = none ∧
      ∃ children, R text children ∧ ∀ depth, made.layout options text depth =
        blockLayout options text depth line (lines depth) children made.span := by
  intro text front ds place
  have hplace : text.toList = front ++ (core ++ (inner ++ '}' :: ds)) := by simpa using place
  obtain ⟨t, behind, opener, make, hscanHead, hheads, hlayout⟩ := hopen _ _ _ hplace
  obtain ⟨body, children, hscanBody, hconveys, hchildren⟩ := hinner _ _ _ hscanHead.behind
  have hfront := hscanHead.append hscanBody
  obtain ⟨close, hscanClose, hclose⟩ :=
    scannedAs_inert (c := '}') hfront.behind (by decide) (by decide)
  have hscan : ScannedAs text front (core ++ inner ++ ['}']) ds
      (t :: behind ++ body ++ [close]) := hfront.append hscanClose
  refine ⟨_, make children ⟨opener.start, close.stop⟩, by simpa using hscan, ?_, ?_,
    ((hheads []).no_declaration _ _).1, children, hchildren, fun depth => hlayout _ _ depth⟩
  · intro stop ts more e rest errors hreads
    have hend : Reads stop (n + 1) (close :: ts) [] close.stop ts [] := .close hclose
    have hbody : Reads stop (n + 1) (body ++ close :: ts) children close.stop ts [] := by
      simpa using hconveys hend
    have hblock := Reads.block (hheads _) shallow hbody hreads
    simpa using hblock
  · obtain ⟨_, -, -, hspan, -⟩ := (hheads []).append children ⟨opener.start, close.stop⟩
    have hstop : close.stop = Text.byteLength (front ++ (core ++ inner ++ ['}'])) :=
      hscan.tiles.getLast List.getLast?_concat
    rw [hspan, show t.start = Text.byteLength front from hscan.tiles.1, ← List.append_assoc core]
    exact congrArg _ hstop

/-- The texts of the declarations are those that are there. -/
theorem map_text_declarationsIn (source : String) (nodes : List Node) :
    (declarationsIn nodes).map (Declaration.text source) =
      (declarationTexts source nodes).filterMap id := by
  rw [declarationsIn, declarationTexts, List.map_filterMap, List.filterMap_map]
  rfl

/-- Nodes with the same texts have as many declarations, of which the same is printed. -/
theorem declarationsIn_congr
    (htexts : declarationTexts text made = declarationTexts source children) :
    (declarationsIn made).map (Declaration.text text) =
        (declarationsIn children).map (Declaration.text source) ∧
      (declarationsIn made).length = (declarationsIn children).length ∧
      made.length = children.length := by
  have hbody : (declarationsIn made).map (Declaration.text text) =
      (declarationsIn children).map (Declaration.text source) := by
    rw [map_text_declarationsIn, map_text_declarationsIn, htexts]
  refine ⟨hbody, by simpa using congrArg List.length hbody, ?_⟩
  simpa [declarationTexts] using congrArg List.length htexts

/-- A block that was printed on one line is printed on one line again, if it stands on one wherever
the source has it on one. -/
theorem singleLine?_some_again
    (htexts : declarationTexts text made = declarationTexts source children)
    (hspan : onOneLine source span = true → onOneLine text span' = true)
    (h : singleLine? options source line children span depth = some out) :
    singleLine? options text line made span' depth = some out := by
  obtain ⟨hbody, hdeclarations, hlength⟩ := declarationsIn_congr htexts
  simp only [singleLine?, hbody, hdeclarations, hlength] at h ⊢
  obtain ⟨hallowed, hout⟩ := Option.ite_none_right_eq_some.mp h
  rw [if_pos, hout]
  cases hmode : options.mode with
  | expanded => simp [hmode] at hallowed
  | compact => simpa [hmode] using hallowed
  | preserve | detect =>
    simp only [hmode, Bool.and_eq_true, decide_eq_true_eq] at hallowed ⊢
    exact ⟨hallowed.1, hspan hallowed.2⟩

/-- A block that was printed on several lines is printed on several lines again, if it stands on
several. -/
theorem singleLine?_none_again
    (htexts : declarationTexts text made = declarationTexts source children)
    (hspan : onOneLine text span' = false)
    (h : singleLine? options source line children span depth = none) :
    singleLine? options text line made span' depth = none := by
  obtain ⟨hbody, hdeclarations, hlength⟩ := declarationsIn_congr htexts
  simp only [singleLine?, hbody, hdeclarations, hlength] at h ⊢
  cases hmode : options.mode with
  | expanded => simp
  | compact => simpa [hmode] using h
  | preserve | detect => simp [hspan]

/-- A block without children is printed as two braces. -/
theorem blockLayout_nil (options : FormatOptions) (source : String) (depth : Nat)
    (line lines : String) (span : Span) :
    blockLayout options source depth line lines [] span =
      options.indent depth ++ line ++ " \x7b\x7d\n" := by
  rw [blockLayout, if_pos List.isEmpty_nil]

/-- A block that has a single line is printed on it. -/
theorem blockLayout_of_some (hne : children ≠ [])
    (h : singleLine? options source line children span depth = some out) (lines : String) :
    blockLayout options source depth line lines children span = out := by
  rw [blockLayout, if_neg (by simpa using hne), h]

/-- Any other block is printed with its children between the lines of its braces. -/
theorem blockLayout_of_none (hne : children ≠ [])
    (h : singleLine? options source line children span depth = none) (lines : String) :
    blockLayout options source depth line lines children span = lines ++ " \x7b\n" ++
      layoutNodes options source (depth + 1) none children ++ options.indent depth ++ "\x7d\n" := by
  rw [blockLayout, if_neg (by simpa using hne), h]

/-- A block that holds nothing. -/
theorem reprints_empty (hopen : ReopensBehind options n (line.toList ++ [' ', '{']) line lines)
    (shallow : n < maxNesting) (depth : Nat) :
    ∃ lead core, (options.indent depth ++ line ++ " \x7b\x7d\n").toList = lead ++ core ++ ['\n'] ∧
      Indents lead ∧ StartsSolid core ∧
      ReadInPlace n core fun text made => made.declaration? = none ∧
        made.layout options text depth = options.indent depth ++ line ++ " \x7b\x7d\n" := by
  obtain ⟨lead, core, hhead, hlead, hsolid, hreopens⟩ := hopen
  have hinner : FillsBlock (n + 1) [] fun _ made => made = [] :=
    fun _ _ _ place => ⟨[], [], scannedAs_nil place, conveys_nil _, rfl⟩
  refine ⟨(options.indent depth).toList ++ lead, core ++ ([] ++ ['}']), ?_,
    List.forall_mem_append.mpr ⟨indents_indent options depth, hlead⟩, hsolid.append _,
    (hreopens.readInPlace shallow hinner).imp ?_⟩
  · have htext : (options.indent depth ++ line ++ " \x7b\x7d\n").toList =
        (options.indent depth).toList ++ (line.toList ++ [' ', '{']) ++ ['}', '\n'] := by simp
    rw [htext, hhead]
    simp
  · rintro text made ⟨hdeclaration, _, rfl, hlayout⟩
    exact ⟨hdeclaration, by rw [hlayout depth, blockLayout_nil]⟩

/-- A block that is printed on one line. -/
theorem reprints_singleLine
    (hopen : ReopensBehind options n (line.toList ++ [' ', '{']) line lines)
    (shallow : n < maxNesting) (hne : children ≠ [])
    (h : ∀ child ∈ children, Reprints options source (n + 1) child)
    (hspan : onOneLine source span = true →
      '\n' ∉ line.toList ∧ ∀ d ∈ declarationsIn children, '\n' ∉ (d.text source).toList)
    (hline : singleLine? options source line children span depth = some out) :
    ∃ lead core, out.toList = lead ++ core ++ ['\n'] ∧ Indents lead ∧ StartsSolid core ∧
      ReadInPlace n core fun text made => made.declaration? = none ∧
        made.layout options text depth = out := by
  obtain ⟨lead, core, hhead, hlead, hsolid, hreopens⟩ := hopen
  obtain ⟨hdeclarations, hout⟩ := singleLine?_eq_some hline
  generalize hds : declarationsIn children = ds at hdeclarations hout hspan
  have hdsNe : ds ≠ [] := by
    rintro rfl
    exact hne hdeclarations
  have htexts : declarationTexts source children = ds.map fun d => some (d.text source) := by
    rw [hdeclarations, declarationTexts, List.map_map]
    rfl
  have hstatements : ∀ d ∈ ds, StartsSolid ((d.text source).toList ++ [';']) ∧
      ReadInPlace (n + 1) ((d.text source).toList ++ [';'])
        fun text made => made.declaration?.map (Declaration.text text) = some (d.text source) := by
    intro d hd
    refine (h (.declaration d) ?_).statement d rfl
    rw [hdeclarations]
    exact List.mem_map_of_mem hd
  generalize hinner : [' '] ++ ds.flatMap (fun d => (d.text source).toList ++ [';', ' ']) = inner
  have hfills : FillsBlock (n + 1) inner fun text made =>
      declarationTexts text made = declarationTexts source children := by
    intro text front ds' place
    rw [← hinner] at place ⊢
    rw [htexts]
    exact scannedAs_declarations hstatements rfl (by simpa using place)
  refine ⟨(options.indent depth).toList ++ lead, core ++ (inner ++ ['}']), ?_,
    List.forall_mem_append.mpr ⟨indents_indent options depth, hlead⟩, hsolid.append _,
    (hreopens.readInPlace shallow hfills).imp_chars ?_⟩
  · have htext : out.toList = (options.indent depth).toList ++ (line.toList ++ [' ', '{']) ++
        (inner ++ ['}', '\n']) := by
      rw [hout, ← hinner, ← toList_intercalate_declarations hdsNe]
      simp
    rw [htext, hhead]
    simp
  · rintro text made hchars ⟨hdeclaration, children', hchildren, hlayout⟩
    refine ⟨hdeclaration, ?_⟩
    have hne' : children' ≠ [] := by
      rintro rfl
      rw [htexts] at hchildren
      exact hdsNe (List.map_eq_nil_iff.mp hchildren.symm)
    rw [hlayout depth]
    refine blockLayout_of_some hne' (singleLine?_some_again hchildren (fun hone => ?_) hline) _
    obtain ⟨hheadFree, htextsFree⟩ := hspan hone
    have hcore : '\n' ∉ core := by
      intro hmem
      have hhere : '\n' ∈ line.toList ++ [' ', '{'] := by
        rw [hhead]
        exact List.mem_append_right _ hmem
      simp [hheadFree] at hhere
    have hinnerFree : '\n' ∉ inner := by
      rw [← hinner]
      simpa using htextsFree
    rw [onOneLine, hchars]
    simp [hcore, hinnerFree]

/-- A block that is printed on several lines. -/
theorem reprints_expanded
    (hopen : ReopensBehind options n ((lines depth).toList ++ [' ', '{']) line lines)
    (shallow : n < maxNesting) (hne : children ≠ [])
    (h : ∀ child ∈ children, Reprints options source (n + 1) child)
    (hline : singleLine? options source line children span depth = none) :
    ∃ lead core, (blockLayout options source depth line (lines depth) children span).toList =
        lead ++ core ++ ['\n'] ∧ Indents lead ∧ StartsSolid core ∧
      ReadInPlace n core fun text made => made.declaration? = none ∧
        made.layout options text depth =
          blockLayout options source depth line (lines depth) children span := by
  obtain ⟨lead, core, hhead, hlead, hsolid, hreopens⟩ := hopen
  generalize hinner : ['\n'] ++ ((layoutNodes options source (depth + 1) none children).toList ++
    (options.indent depth).toList) = inner
  have hfills : FillsBlock (n + 1) inner fun text made =>
      layoutNodes options text (depth + 1) none made =
          layoutNodes options source (depth + 1) none children ∧
        declarationTexts text made = declarationTexts source children := by
    intro text front ds place
    rw [← hinner] at place ⊢
    exact scannedAs_layoutNodes h isAsciiBlank_of_mem_newline
      (isAsciiBlank_of_mem_indent options depth) rfl (.inl ⟨rfl, rfl⟩) (by simpa using place)
  rw [blockLayout_of_none hne hline]
  refine ⟨lead, core ++ (inner ++ ['}']), ?_, hlead, hsolid.append _,
    (hreopens.readInPlace shallow hfills).imp_chars ?_⟩
  · rw [← hinner, ← List.append_assoc lead, ← hhead]
    simp
  · rintro text made hchars ⟨hdeclaration, children', ⟨hnodes, hchildren⟩, hlayout⟩
    refine ⟨hdeclaration, ?_⟩
    have hne' : children' ≠ [] := by
      rintro rfl
      have hlength := (declarationsIn_congr hchildren).2.2
      exact hne (List.length_eq_zero_iff.mp hlength.symm)
    have hseveral : onOneLine text made.span = false := by
      rw [onOneLine, hchars, ← hinner]
      simp
    rw [hlayout depth, blockLayout_of_none hne' (singleLine?_none_again hchildren hseveral hline),
      hnodes]

/-- A block whose children are printed again is printed again itself. -/
theorem reprints_block
    (hlayout : ∀ depth, node.layout options source depth =
      blockLayout options source depth line (lines depth) children span)
    (hnode : node.declaration? = none)
    (hopen : ReopensBehind options n (line.toList ++ [' ', '{']) line lines)
    (hopens : ∀ depth, ReopensBehind options n ((lines depth).toList ++ [' ', '{']) line lines)
    (shallow : n < maxNesting) (h : ∀ child ∈ children, Reprints options source (n + 1) child)
    (hspan : onOneLine source span = true →
      '\n' ∉ line.toList ∧ ∀ d ∈ declarationsIn children, '\n' ∉ (d.text source).toList) :
    Reprints options source n node := by
  have hsame : ∀ {core : List Char} {out : String} {depth : Nat},
      node.layout options source depth = out →
      (ReadInPlace n core fun text made => made.declaration? = none ∧
        made.layout options text depth = out) →
      ReadInPlace n core (PrintsAs options source depth node) := by
    intro core out depth hout hread
    exact hread.imp fun text made hmade => printsAs_of_none hnode hmade.1 (hmade.2.trans hout.symm)
  refine ⟨fun depth => ?_, fun d hd => by rw [hd] at hnode; cases hnode⟩
  have hdepth := hlayout depth
  rw [hdepth]
  by_cases hempty : children = []
  · subst hempty
    obtain ⟨lead, core, htext, hlead, hsolid, hread⟩ := reprints_empty hopen shallow depth
    rw [blockLayout_nil] at hdepth ⊢
    exact ⟨lead, core, htext, hlead, hsolid, hsame hdepth hread⟩
  · cases hline : singleLine? options source line children span depth with
    | some out =>
      obtain ⟨lead, core, htext, hlead, hsolid, hread⟩ :=
        reprints_singleLine hopen shallow hempty h hspan hline
      rw [blockLayout_of_some hempty hline] at hdepth ⊢
      exact ⟨lead, core, htext, hlead, hsolid, hsame hdepth hread⟩
    | none =>
      obtain ⟨lead, core, htext, hlead, hsolid, hread⟩ :=
        reprints_expanded (hopens depth) shallow hempty h hline
      exact ⟨lead, core, htext, hlead, hsolid, hsame hdepth hread⟩

end CssWorkbench
