import CssWorkbench.Proofs.Layout.Formatting
import CssWorkbench.Proofs.Layout.OneLine
import CssWorkbench.Proofs.Layout.ReprintedNodes
import CssWorkbench.Proofs.Tree.ReadingOfParser

/-!
# Formatting once more changes nothing

What is printed of a source that is read without errors is read without errors again, and the same
is printed of it. This does not hold of every source. The name of a property or of an at-rule is
printed as it is read, and not as it is written with escapes; an escape at the end of a token takes
in the space that is printed behind it; a comment or a string that breaks off goes on in what is
printed behind it; and without what is left out of the selectors of a ruleset something else may
start in its place.
-/

namespace CssWorkbench

variable {source : String} {n depth e : Nat} {t colon opener : Token}
  {ts inner left rest run prelude : List Token} {cs : List Char} {options : FormatOptions}
  {node : Node} {nodes children : List Node} {semi : Option Token} {errors : List SyntaxError}
  {make : List Node → Span → Node} {stop : Nat}

/-- Whether a node is printed with the start it has in the source: a property or an at-rule with its
name as it is written, a ruleset with a selector that starts one at this depth of the tree. -/
def Node.startsAgain (source : String) (depth : Nat) : Node → Bool
  | .ruleset rule _ => rule.selectors.selectors.head?.all (Selector.opensRuleset (1 < depth))
  | .atRule rule _ => rule.nameSpan.text source = "@" ++ rule.name
  | .declaration d => d.property.text source = d.property.value
  | .comment _ => true

/-- What a layout is asked for to be printed again: the source is read without errors, no escape at
the end of a token is left open and no string breaks off in it, its comments are closed, and its
nodes are printed with the start they have. -/
structure Reproducible (source : String) : Prop where
  accepted : (parse source).2 = []
  unbroken : Unbroken source
  closed : ∀ t ∈ scan source, t.kind = .comment → t.text source = "/*" ++ t.value ++ "*/"
  starts : ∀ p ∈ walkNodes (fun _ => true) 1 (parse source).1.children,
    p.2.startsAgain source p.1 = true

/-- A declaration is printed again as it was printed. -/
theorem reprints_declaration (hsource : Unbroken source) (htail : TailOf source (t :: ts) cs)
    (hts : ts ≠ []) (kind : t.kind = .ident) (hname : t.text source = t.value)
    (hrun : ValueRun source run) :
    Reprints options source (n + 1) (.declaration (declarationNode t colon run semi)) := by
  have htext : (t.text source).toList = t.value.toList := congrArg String.toList hname
  have hsolid : StartsSolid (((declarationNode t colon run semi).text source).toList ++ [';']) :=
    startsSolid_declaration htail kind htext
  have hplace :=
    @reprintedInPlace_declaration source cs n t colon ts run semi hsource htail hts kind htext hrun
  refine ⟨fun depth => ⟨(options.indent depth).toList, _, ?_, indents_indent options depth, hsolid,
    hplace.imp ?_⟩, fun d hd => ?_⟩
  · rw [Node.layout]
    simp
  · rintro text made ⟨d, rfl, hd, -⟩
    refine ⟨?_, congrArg some hd⟩
    rw [Node.layout, Node.layout, hd]
  · obtain rfl := Node.declaration.inj hd
    refine ⟨hsolid, hplace.imp ?_⟩
    rintro text made ⟨d, rfl, hd, -⟩
    exact congrArg some hd

/-- An at-rule without a block is printed as its head and a semicolon. -/
theorem layout_statement (options : FormatOptions) (source : String) (depth : Nat) {rule : AtRule}
    (hblock : rule.block = none) (children : List Node) :
    (Node.atRule rule children).layout options source depth =
      options.indent depth ++ rule.head source ++ ";\n" := by
  rw [Node.layout, if_pos (by rw [hblock]; rfl)]

/-- An at-rule without a block is printed again as it was printed. -/
theorem reprints_statement (hsource : Unbroken source) (htail : TailOf source (t :: ts) cs)
    (keyword : t.kind = .atKeyword) (htext : (t.text source).toList = '@' :: t.value.toList)
    (hrun : takePrelude 0 ts = (prelude, opener :: left)) :
    Reprints options source n (.atRule (atRuleOf t prelude stop none) []) := by
  refine ⟨fun depth => ⟨(options.indent depth).toList, _, ?_, indents_indent options depth,
    startsSolid_head stop none [';'],
    (readInPlace_atRule hsource htail keyword htext hrun stop).imp ?_⟩, fun d hd => by cases hd⟩
  · rw [layout_statement options source depth rfl]
    simp
  · rintro text made ⟨rule, rfl, hblock, hhead, -⟩
    refine printsAs_of_none rfl rfl ?_
    rw [layout_statement options text depth hblock, layout_statement options source depth rfl,
      hhead]

/-- A comment that is closed is printed again. -/
theorem reprints_comment (htail : TailOf source (t :: ts) cs) (kind : t.kind = .comment)
    (hclosed : t.text source = "/*" ++ t.value ++ "*/") :
    Reprints options source n (.comment t.span) := by
  have hsolid : StartsSolid (t.text source).toList := by
    rw [hclosed]
    simp only [String.toList_append, List.append_assoc]
    exact ⟨'/', _, rfl, by decide⟩
  refine ⟨fun depth => ⟨(options.indent depth).toList, _, ?_, indents_indent options depth, hsolid,
    (readInPlace_comment htail kind hclosed).imp ?_⟩, fun d hd => by cases hd⟩
  · rw [Node.layout]
    simp [Token.text]
  · rintro text made ⟨span, rfl, hspan⟩
    refine printsAs_of_none rfl rfl ?_
    rw [Node.layout, Node.layout, hspan]
    rfl

/-- A ruleset is printed again as it was printed if its children are. -/
theorem reprints_ruleset {rule : Ruleset} {tokens : List Token} (hsource : Unbroken source)
    (hselectors : ∀ s ∈ rule.selectors.selectors, SpelledIn source tokens s)
    (hstarts : (Node.ruleset rule children).startsAgain source (n + 1) = true)
    (shallow : n < maxNesting)
    (hchildren : ∀ child ∈ children, Reprints options source (n + 1) child)
    (hline : onOneLine source rule.span = true →
      OneLine source tokens ∧ ∀ d ∈ declarationsIn children, '\n' ∉ (d.text source).toList) :
    Reprints options source n (.ruleset rule children) := by
  have hopens : rule.selectors.selectors.head?.all (Selector.opensRuleset (0 < n)) = true := by
    simpa [Node.startsAgain] using hstarts
  obtain ⟨hone, hseveral⟩ :=
    @reopensBehind_ruleset source n options tokens rule hsource hselectors hopens
  refine reprints_block (fun depth => layout_ruleset options source depth rule children) rfl hone
    hseveral shallow hchildren fun hspan => ?_
  obtain ⟨htokens, hdeclarations⟩ := hline hspan
  rw [selectorsLine, toList_intercalate_selectors]
  exact ⟨htokens.selectorsText hselectors, hdeclarations⟩

/-- An at-rule that is printed with the start it has stands in the source with its name. -/
theorem text_of_startsAgain {block : Option Span}
    (h : (Node.atRule (atRuleOf t prelude stop block) children).startsAgain source depth = true) :
    (t.text source).toList = '@' :: t.value.toList := by
  have htext : t.text source = "@" ++ t.value := of_decide_eq_true h
  rw [htext, String.toList_append]
  rfl

/-- The declarations among nodes that are printed with the start they have are spelled as read. -/
theorem property_of_startsAgain
    (h : ∀ p ∈ walkNodes (fun _ => true) depth nodes, p.2.startsAgain source p.1 = true) :
    ∀ d ∈ declarationsIn nodes, d.property.text source = d.property.value := by
  intro d hd
  obtain ⟨node, hnode, hself⟩ := List.mem_filterMap.mp hd
  cases node with
  | ruleset | atRule | comment => cases hself
  | declaration d' =>
    obtain rfl := Option.some.inj hself
    exact of_decide_eq_true (h _ (mem_walkNodes_of_mem depth hnode))

/-- A block of a source whose children are printed again is printed again. -/
theorem Heads.reprints (hsource : Unbroken source) (head : Heads n t ts opener inner make)
    (htail : TailOf source (t :: ts) cs) (shallow : n < maxNesting)
    (body : Reads (Text.size source) (n + 1) inner children e left [])
    (hstarts : (make children ⟨opener.start, e⟩).startsAgain source (n + 1) = true)
    (hspelled : ∀ d ∈ declarationsIn children, d.property.text source = d.property.value)
    (hchildren : ∀ child ∈ children, Reprints options source (n + 1) child) :
    Reprints options source n (make children ⟨opener.start, e⟩) := by
  cases head with
  | @atRule _ _ prelude _ keyword run brace =>
    have hhead : t :: ts = t :: prelude ++ opener :: inner := by rw [takeRun_eq_append run]; rfl
    have htext := text_of_startsAgain hstarts
    have hopens : ∀ {lead : List Char}, Indents lead → ReopensBehind options n _ _ _ :=
      reopensBehind_atRule hsource htail keyword htext run e ⟨opener.start, e⟩
    refine reprints_block (fun depth => layout_atRule options source depth rfl children) rfl
      (@hopens [] (by simp [Indents])) (fun depth => ?_) shallow hchildren fun hline => ?_
    · rw [String.toList_append]
      exact hopens (indents_indent options depth)
    · obtain ⟨hfront, hdeclarations⟩ := body.oneLine htail hhead hspelled hline
      exact ⟨OneLine.head htext (hfront t List.mem_cons_self)
        (hfront.of_mem fun u hu => List.mem_cons_of_mem _ hu), hdeclarations⟩
  | bare brace =>
    refine @reprints_ruleset source n options children _ [] hsource ?_ hstarts shallow hchildren
      fun hline => body.oneLine htail rfl hspelled hline
    rw [selectors_ofTokens, show selectorsOf [] = [] from rfl]
    simp
  | @ruleset _ _ head _ leads notBrace notDeclared run brace =>
    have hhead : t :: ts = t :: head ++ opener :: inner := by rw [takeRun_eq_append run]; rfl
    have hinside : Inside haltsPrelude TokenKind.inlineDepth 0 (t :: head) 0 :=
      ⟨fun hhalts => by simp [not_haltsPrelude_of_leads leads notBrace] at hhalts,
        (takeRun_inside_zero run).1⟩
    refine reprints_ruleset hsource ?_ hstarts shallow hchildren
      fun hline => body.oneLine htail hhead hspelled hline
    rw [selectors_ofTokens]
    rw [hhead] at htail
    exact (splitCommasFrom_groups 0 (t :: head)).spelledIn rfl htail (List.cons_ne_nil _ _) hinside

/-- All nodes that are read without errors are printed again. -/
theorem Reads.reprints (hsource : Unbroken source)
    (hclosed : ∀ t ∈ scan source, t.kind = .comment → t.text source = "/*" ++ t.value ++ "*/")
    (h : Reads (Text.size source) n ts nodes e rest errors) (hclean : errors = [])
    (htail : TailOf source ts cs)
    (hstarts : ∀ p ∈ walkNodes (fun _ => true) (n + 1) nodes, p.2.startsAgain source p.1 = true) :
    ∀ node ∈ nodes, Reprints options source n node := by
  induction h generalizing cs with
  | finish | close => simp
  | unclosed | stray | deepBlock | broken => cases hclean
  | pass kind behind ih =>
    obtain ⟨_, hts⟩ := htail.tail
    exact ih hclean hts hstarts
  | comment kind behind ih =>
    obtain ⟨_, hts⟩ := htail.tail
    have hnodes := ih hclean hts fun p hp => hstarts p (by simp [walkNodes_cons, hp])
    have hcomment := hclosed _ (htail.mem_scan List.mem_cons_self) kind
    exact List.forall_mem_cons.mpr ⟨reprints_comment htail kind hcomment, hnodes⟩
  | @declaration n t colon ts behindColon run left rest nodes e errors kind gap colonKind value
      behind ih =>
    have hleft : left ≠ [] := by
      rintro rfl
      exact behind.ne_nil hclean rfl
    have hts : ts ≠ [] := by
      rintro rfl
      cases gap
    obtain ⟨part, hpart, -⟩ := declarationNode_declaredIn gap value
    have hwhole := htail
    rw [hpart] at hwhole
    obtain ⟨_, hbehind⟩ := hwhole.append
    have hnodes := ih hclean hbehind fun p hp => hstarts p (by simp [walkNodes_cons, hp])
    have hvalue := valueRun_of_takeValue htail gap value hleft
    have hname := of_decide_eq_true (hstarts (_, _) (mem_walkNodes_of_mem _ List.mem_cons_self))
    exact List.forall_mem_cons.mpr
      ⟨reprints_declaration hsource htail hts kind hname hvalue, hnodes⟩
  | @statement n t ts left rest node nodes e first errors keyword rule behind ih =>
    obtain ⟨rfl, rfl⟩ := List.append_eq_nil_iff.mp hclean
    cases rule with
    | @ended semicolon prelude left run kind =>
      have hwhole := htail
      rw [takeRun_eq_append run] at hwhole
      obtain ⟨_, hts⟩ := hwhole.tail
      obtain ⟨_, hsemicolon⟩ := hts.append
      obtain ⟨_, hleft⟩ := hsemicolon.tail
      have hnodes := ih rfl hleft fun p hp => hstarts p (by simp [walkNodes_cons, hp])
      have htext := text_of_startsAgain (hstarts (_, _) (mem_walkNodes_of_mem _ List.mem_cons_self))
      exact List.forall_mem_cons.mpr ⟨reprints_statement hsource htail keyword htext run, hnodes⟩
  | @block n t opener ts inner left rest make children nodes inside e first errors head shallow body
      behind ihBody ih =>
    obtain ⟨rfl, rfl⟩ := List.append_eq_nil_iff.mp hclean
    obtain ⟨_, hinner⟩ := head.tail htail
    have hchildren := (head.no_declaration children ⟨opener.start, inside⟩).2
    obtain ⟨_, hleft⟩ := body.tail rfl hinner
    have hstartsBelow : ∀ p ∈ walkNodes (fun _ => true) (n + 2) children,
        p.2.startsAgain source p.1 = true := fun p hp =>
      hstarts p (by simp [walkNodes_cons, hchildren, hp])
    have hbelow := ihBody rfl hinner hstartsBelow
    have hnodes := ih rfl hleft fun p hp => hstarts p (by simp [walkNodes_cons, hp])
    have hself := hstarts (_, _) (mem_walkNodes_of_mem _ List.mem_cons_self)
    exact List.forall_mem_cons.mpr ⟨head.reprints hsource htail shallow body hself
      (property_of_startsAgain hstartsBelow) hbelow, hnodes⟩

/-- What is printed of a stylesheet is what is printed of its nodes, or a line feed. -/
theorem format_of_layoutNodes {sheet : Stylesheet} {layout : String}
    (h : layoutNodes options source 0 none sheet.children = layout) :
    sheet.format source options =
      if layout.toList.getLast? = some '\n' then layout else layout ++ "\n" := by
  rw [Stylesheet.format, h]

/-- Formatting is settled at once where a source is reproducible: what is printed of it is read
without errors, and formatting that changes nothing. -/
theorem format_format (h : Reproducible source) (options : FormatOptions) :
    (parse ((parse source).1.format source options)).2 = [] ∧
      (parse ((parse source).1.format source options)).1.format
        ((parse source).1.format source options) options =
          (parse source).1.format source options := by
  have hreads := reads_parse source
  rw [scan_eq_append, List.dropLast_concat] at hreads
  have hnodes : ∀ node ∈ (parse source).1.children, Reprints options source 0 node :=
    hreads.reprints h.unbroken h.closed h.accepted (tailOf_source source) h.starts
  generalize hlayout : layoutNodes options source 0 none (parse source).1.children = layout
  rw [format_of_layoutNodes hlayout]
  generalize honce : (if layout.toList.getLast? = some '\n' then layout else layout ++ "\n") = once
  obtain ⟨trail, htrail, htext⟩ : ∃ trail : List Char, (∀ c ∈ trail, Text.isAsciiBlank c = true) ∧
      once.toList = [] ++ ([] ++ (layout.toList ++ (trail ++ []))) := by
    rw [← honce]
    split
    · exact ⟨[], by simp, by simp⟩
    · exact ⟨['\n'], isAsciiBlank_of_mem_newline, by simp⟩
  rw [← hlayout] at htext
  obtain ⟨tokens, made, hscan, hconveys, hmade, -⟩ :=
    scannedAs_layoutNodes hnodes (by simp) htrail rfl (.inl ⟨rfl, rfl⟩) htext
  have hread : Reads (Text.size once) 0 (scan once).dropLast made (Text.size once) [] [] := by
    have htokens : tokensFrom 0 once.toList = tokens := by
      have hwhole := hscan.scan
      rw [tokensFrom_nil, List.append_nil] at hwhole
      rw [htext]
      simpa using hwhole
    rw [scan_eq_append, List.dropLast_concat, htokens]
    simpa using hconveys .finish
  rw [parse_eq_of_reads hread]
  exact ⟨rfl, (format_of_layoutNodes (hmade.trans hlayout)).trans honce⟩

/-- Comments between statements and in a selector, escapes in a name and in a string, a block on one
line and an empty line are printed again. -/
theorem format_format_of_nested :
    Reproducible "/**/@x\x7b.a\\:b,c/**/\x7bd : \"\\e\"\x7d\n\n\nf\x7b\x7d\x7d" ∧
      (parse ((parse "/**/@x\x7b.a\\:b,c/**/\x7bd : \"\\e\"\x7d\n\n\nf\x7b\x7d\x7d").1.format
        "/**/@x\x7b.a\\:b,c/**/\x7bd : \"\\e\"\x7d\n\n\nf\x7b\x7d\x7d"
          ⟨4, true, .preserve, 40⟩)).2 = [] ∧
      (parse ((parse "/**/@x\x7b.a\\:b,c/**/\x7bd : \"\\e\"\x7d\n\n\nf\x7b\x7d\x7d").1.format
        "/**/@x\x7b.a\\:b,c/**/\x7bd : \"\\e\"\x7d\n\n\nf\x7b\x7d\x7d"
          ⟨4, true, .preserve, 40⟩)).1.format
        ((parse "/**/@x\x7b.a\\:b,c/**/\x7bd : \"\\e\"\x7d\n\n\nf\x7b\x7d\x7d").1.format
          "/**/@x\x7b.a\\:b,c/**/\x7bd : \"\\e\"\x7d\n\n\nf\x7b\x7d\x7d"
            ⟨4, true, .preserve, 40⟩) ⟨4, true, .preserve, 40⟩ =
        (parse "/**/@x\x7b.a\\:b,c/**/\x7bd : \"\\e\"\x7d\n\n\nf\x7b\x7d\x7d").1.format
          "/**/@x\x7b.a\\:b,c/**/\x7bd : \"\\e\"\x7d\n\n\nf\x7b\x7d\x7d"
            ⟨4, true, .preserve, 40⟩ := by
  have hescapes : (scan "/**/@x\x7b.a\\:b,c/**/\x7bd : \"\\e\"\x7d\n\n\nf\x7b\x7d\x7d").all
      (fun t => endsInEscape (t.text
        "/**/@x\x7b.a\\:b,c/**/\x7bd : \"\\e\"\x7d\n\n\nf\x7b\x7d\x7d").toList = false) = true := by
    cbv
  have hstrings : (scan "/**/@x\x7b.a\\:b,c/**/\x7bd : \"\\e\"\x7d\n\n\nf\x7b\x7d\x7d").all
      (fun t => t.kind ≠ .badString) = true := by cbv
  have hcomments : (scan "/**/@x\x7b.a\\:b,c/**/\x7bd : \"\\e\"\x7d\n\n\nf\x7b\x7d\x7d").all
      (fun t => t.kind = .comment →
        t.text "/**/@x\x7b.a\\:b,c/**/\x7bd : \"\\e\"\x7d\n\n\nf\x7b\x7d\x7d" =
          "/*" ++ t.value ++ "*/") = true := by cbv
  have hstarts : (walkNodes (fun _ => true) 1
      (parse "/**/@x\x7b.a\\:b,c/**/\x7bd : \"\\e\"\x7d\n\n\nf\x7b\x7d\x7d").1.children).all
        (fun p => p.2.startsAgain
          "/**/@x\x7b.a\\:b,c/**/\x7bd : \"\\e\"\x7d\n\n\nf\x7b\x7d\x7d" p.1) = true := by cbv
  have h : Reproducible "/**/@x\x7b.a\\:b,c/**/\x7bd : \"\\e\"\x7d\n\n\nf\x7b\x7d\x7d" := by
    refine ⟨by cbv, ⟨fun t ht => ?_, fun t ht => ?_⟩, fun t ht => ?_, List.all_eq_true.mp hstarts⟩
    · exact of_decide_eq_true (List.all_eq_true.mp hescapes t ht)
    · exact of_decide_eq_true (List.all_eq_true.mp hstrings t ht)
    · exact of_decide_eq_true (List.all_eq_true.mp hcomments t ht)
  exact ⟨h, format_format h _⟩

/-- A name with an escape is printed without it, and then as something else. -/
theorem format_format_of_escape :
    (parse "a\x7bb\\:c:d\x7d").2 = [] ∧
      (parse ((parse "a\x7bb\\:c:d\x7d").1.format "a\x7bb\\:c:d\x7d"
          ⟨2, true, .expanded, 80⟩)).1.format
        ((parse "a\x7bb\\:c:d\x7d").1.format "a\x7bb\\:c:d\x7d" ⟨2, true, .expanded, 80⟩)
          ⟨2, true, .expanded, 80⟩ ≠
        (parse "a\x7bb\\:c:d\x7d").1.format "a\x7bb\\:c:d\x7d" ⟨2, true, .expanded, 80⟩ := by
  have hlayout : layoutNodes ⟨2, true, .expanded, 80⟩ "a\x7bb\\:c:d\x7d" 0 none
      (parse "a\x7bb\\:c:d\x7d").1.children = "a \x7b\n  b:c: d;\n\x7d\n" := by cbv
  have hagain : layoutNodes ⟨2, true, .expanded, 80⟩ "a \x7b\n  b:c: d;\n\x7d\n" 0 none
      (parse "a \x7b\n  b:c: d;\n\x7d\n").1.children = "a \x7b\n  b: c: d;\n\x7d\n" := by cbv
  have hends : ("a \x7b\n  b:c: d;\n\x7d\n".toList.getLast? = some '\n') ∧
      "a \x7b\n  b: c: d;\n\x7d\n".toList.getLast? = some '\n' := by decide
  refine ⟨by cbv, ?_⟩
  rw [format_of_layoutNodes hlayout, if_pos hends.1, format_of_layoutNodes hagain, if_pos hends.2]
  simp

end CssWorkbench
