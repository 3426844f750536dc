import Mathlib
import CssWorkbench.Proofs.Layout.CompleteHeads
import CssWorkbench.Proofs.Layout.PrintedNodes
import CssWorkbench.Proofs.Layout.ReprintedHeads
import CssWorkbench.Proofs.Tree.Declarations
import CssWorkbench.Proofs.Tree.Nesting

/-!
# A layout keeps what a source says

A source that is read without errors is read again from each of its layouts: the tree says the
same, and there are no errors either. The proof follows the reading of the source; every node that
is read can be printed.
-/

namespace CssWorkbench

variable {source : String} {stop n depth e : Nat} {t opener : Token} {ts inner left rest : List Token}
  {node : Node} {nodes : List Node} {make : List Node → Span → Node} {errors : List SyntaxError}
  {cs : List Char}

/-- What a layout is asked to keep: the source is read without errors, no escapes, comments or
broken strings stand in it, and each of its selectors holds a compound. -/
structure Formattable (source : String) : Prop where
  accepted : (parse source).2 = []
  plain : Plain source
  complete : ∀ node ∈ (parse source).1.nodes, node.isComplete source = true

/-- A statement that ends as it should can be printed. -/
theorem ReadsStatement.printable (hplain : Plain source) (h : ReadsStatement stop t ts node left [])
    (htail : TailOf source (t :: ts) cs) (keyword : t.kind = .atKeyword) :
    Printable source n node ∧ ∃ ds, TailOf source left ds := by
  cases h with
  | @ended semicolon prelude rest run kind =>
    refine ⟨printable_statement rfl (writes_atRule hplain.unbroken htail keyword
      (text_eq_value_of_atKeyword hplain htail keyword) run _), ?_⟩
    obtain ⟨_, hts⟩ := htail.tail
    rw [takeRun_eq_append run] at hts
    obtain ⟨_, hsemicolon⟩ := hts.append
    exact hsemicolon.tail

/-- A block whose children can be printed can be printed itself. -/
theorem Heads.printable (hplain : Plain source) (h : Heads n t ts opener inner make)
    (htail : TailOf source (t :: ts) cs) (shallow : n < maxNesting) {children : List Node} {e : Nat}
    (hcomplete : (make children ⟨opener.start, e⟩).isComplete source = true)
    (hchildren : ∀ child ∈ children, Printable source (n + 1) child) :
    Printable source n (make children ⟨opener.start, e⟩) := by
  cases h with
  | atRule keyword run brace =>
    have htext := text_eq_value_of_atKeyword hplain htail keyword
    exact printable_atRule rfl (opens_atRule hplain.unbroken htail keyword htext run _ _) shallow
      hchildren
  | bare brace =>
    refine printable_ruleset (fun apart _ => ?_) shallow hchildren
    exact opens_bare (selectors_ofTokens [] t.start) source apart
  | ruleset leads notBrace notDeclared run brace =>
    rename_i head
    have hheadTail : TailOf source (t :: head ++ opener :: inner) cs := by
      rw [List.cons_append, ← takeRun_eq_append run]
      exact htail
    have hgroups : ∀ group ∈ splitCommas (t :: head), (Selector.ofTokens? group).isSome = true := by
      have hself : Ruleset.isComplete source
        ⟨⟨t.start, e⟩, SelectorList.ofTokens (t :: head) opener.start, ⟨opener.start, e⟩⟩ = true :=
        hcomplete
      rw [Ruleset.isComplete] at hself
      simp only [hheadTail.tokensBetween_eq] at hself
      simpa [isSome_ofTokens?_iff] using hself
    refine printable_ruleset (fun apart hapart => ?_) shallow hchildren
    exact opens_ruleset hplain htail leads notBrace notDeclared run hgroups hapart
      (selectors_ofTokens (t :: head) opener.start)

/-- Behind the head of a block the tokens go on. -/
theorem Heads.tail (h : Heads n t ts opener inner make) (htail : TailOf source (t :: ts) cs) :
    ∃ ds, TailOf source inner ds := by
  obtain ⟨_, hts⟩ := htail.tail
  cases h with
  | atRule keyword run brace =>
    rw [takeRun_eq_append run] at hts
    obtain ⟨_, hopener⟩ := hts.append
    exact hopener.tail
  | bare brace => exact ⟨_, hts⟩
  | ruleset leads notBrace notDeclared run brace =>
    rw [takeRun_eq_append run] at hts
    obtain ⟨_, hopener⟩ := hts.append
    exact hopener.tail

/-- All nodes that are read without errors can be printed. -/
theorem Reads.printable (hplain : Plain source) (h : Reads stop n ts nodes e rest errors)
    (hclean : errors = []) (htail : TailOf source ts cs)
    (hcomplete : ∀ p ∈ walkNodes (fun _ => true) depth nodes, p.2.isComplete source = true) :
    (∀ node ∈ nodes, Printable source n node) ∧ ∃ ds, TailOf source rest ds := by
  have hcons : ∀ {depth : Nat} {node : Node} {nodes : List Node},
      (∀ p ∈ walkNodes (fun _ => true) depth (node :: nodes), p.2.isComplete source = true) →
      node.isComplete source = true ∧
      (∀ p ∈ walkNodes (fun _ => true) (depth + 1) node.children, p.2.isComplete source = true) ∧
      ∀ p ∈ walkNodes (fun _ => true) depth nodes, p.2.isComplete source = true := by
    intro depth node nodes h
    simp only [walkNodes, List.mem_append, mem_walk_iff] at h
    exact ⟨h _ (.inl (.inl rfl)), fun p hp => h p (.inl (.inr hp)), fun p hp => h p (.inr hp)⟩
  induction h generalizing depth cs with
  | finish => exact ⟨by simp, cs, htail⟩
  | unclosed | stray | deepBlock | broken => cases hclean
  | close kind => exact ⟨by simp, htail.tail⟩
  | pass kind behind ih =>
    obtain ⟨_, hts⟩ := htail.tail
    exact ih hclean hts hcomplete
  | comment kind => exact absurd kind (hplain.kind htail List.mem_cons_self).1
  | @declaration n t colon ts behindColon run left rest nodes e errors kind gap colonKind value behind
      ih =>
    have hleft : left ≠ [] := by
      rintro rfl
      exact behind.ne_nil hclean rfl
    have hts : ts ≠ [] := by
      rintro rfl
      cases gap
    obtain ⟨-, -, hrest⟩ := hcons hcomplete
    obtain ⟨_, hrunTail⟩ := htail.value gap value
    obtain ⟨_, hleftTail⟩ := hrunTail.append
    obtain ⟨_, hbehind⟩ : ∃ ds, TailOf source (takeSemicolon left).2 ds := by
      cases left with
      | nil => exact absurd rfl hleft
      | cons u left =>
        rw [takeSemicolon]
        split
        · exact hleftTail.tail
        · exact ⟨_, hleftTail⟩
    obtain ⟨hnodes, hends⟩ := ih hclean hbehind hrest
    have hvalue := valueRun_of_takeValue htail gap value hleft
    have hnode : Printable source (n + 1)
        (.declaration (declarationNode t colon run (takeSemicolon left).1)) :=
      printable_declaration (writes_declaration hplain.unbroken htail hts kind
        (text_eq_value_of_ident hplain htail kind) hvalue)
    exact ⟨List.forall_mem_cons.mpr ⟨hnode, hnodes⟩, hends⟩
  | statement keyword rule behind ih =>
    obtain ⟨rfl, rfl⟩ := List.append_eq_nil_iff.mp hclean
    obtain ⟨-, -, hrest⟩ := hcons hcomplete
    obtain ⟨hnode, _, hleft⟩ := rule.printable hplain htail keyword
    obtain ⟨hnodes, hends⟩ := ih rfl hleft hrest
    exact ⟨List.forall_mem_cons.mpr ⟨hnode, hnodes⟩, hends⟩
  | block head shallow body behind ihBody ih =>
    obtain ⟨rfl, rfl⟩ := List.append_eq_nil_iff.mp hclean
    obtain ⟨hself, hbelow, hrest⟩ := hcons hcomplete
    obtain ⟨_, hinner⟩ := head.tail htail
    rw [(head.no_declaration _ _).2] at hbelow
    obtain ⟨hchildren, _, hleft⟩ := ihBody rfl hinner hbelow
    obtain ⟨hnodes, hends⟩ := ih rfl hleft hrest
    have hnode := head.printable hplain htail shallow hself hchildren
    exact ⟨List.forall_mem_cons.mpr ⟨hnode, hnodes⟩, hends⟩

/-- What a layout of a source that is read without errors is read as: a tree that says the same,
again without errors. -/
theorem parse_format (h : Formattable source) (options : FormatOptions) :
    (parse ((parse source).1.format source options)).2 = [] ∧
      (parse ((parse source).1.format source options)).1.bare = (parse source).1.bare := by
  have hreads := reads_parse source
  rw [scan_eq_append, List.dropLast_concat] at hreads
  have hcomplete : ∀ p ∈ walkNodes (fun _ => true) 1 (parse source).1.children,
      p.2.isComplete source = true := fun p hp => h.complete p.2 (List.mem_map_of_mem hp)
  obtain ⟨hnodes, -⟩ := hreads.printable h.plain h.accepted (tailOf_source source) hcomplete
  have hlayout := writes_layoutNodes hnodes options 0 none
  have hwrites : Writes 0 ((parse source).1.format source options).toList (parse source).1.children := by
    rw [Stylesheet.format]
    split
    · exact hlayout
    · rw [String.toList_append]
      exact hlayout.trailed isAsciiBlank_of_mem_newline
  generalize (parse source).1.format source options = text at hwrites
  obtain ⟨tokens, middle, pending, made, hscan, hpending, hconveys, hsame⟩ :=
    hwrites [] (by simp) [] 0
  obtain ⟨gap, offset', hscanGap, hgap, -⟩ := @tokensFrom_blanks [] pending hpending rfl middle
  have hend : Reads (Text.size text) 0 (tokens ++ (gap ++ [])) (made ++ []) (Text.size text) [] [] :=
    hconveys (conveys_blanks 0 hgap .finish)
  have hread : Reads (Text.size text) 0 (scan text).dropLast made (Text.size text) [] [] := by
    rw [List.nil_append, List.append_nil, hscanGap, tokensFrom_nil] at hscan
    rw [scan_eq_append, List.dropLast_concat, hscan]
    simpa using hend
  rw [parse_eq_of_reads hread]
  refine ⟨rfl, ?_⟩
  rw [Stylesheet.bare, Stylesheet.bare, hsame]

/-- A rule with another one in it keeps what it says in a compact layout. -/
theorem parse_format_of_nested :
    Formattable "a , b>c\x7bd : e !important;f\x7bg:h\x7d\x7d" ∧
      (parse ((parse "a , b>c\x7bd : e !important;f\x7bg:h\x7d\x7d").1.format
        "a , b>c\x7bd : e !important;f\x7bg:h\x7d\x7d" ⟨4, true, .compact, 40⟩)).2 = [] ∧
      (parse ((parse "a , b>c\x7bd : e !important;f\x7bg:h\x7d\x7d").1.format
        "a , b>c\x7bd : e !important;f\x7bg:h\x7d\x7d" ⟨4, true, .compact, 40⟩)).1.bare =
          (parse "a , b>c\x7bd : e !important;f\x7bg:h\x7d\x7d").1.bare := by
  have htokens : (scan "a , b>c\x7bd : e !important;f\x7bg:h\x7d\x7d").all
      (fun t => t.kind ≠ .comment ∧ t.kind ≠ .badString) = true := by cbv
  have hcomplete : (parse "a , b>c\x7bd : e !important;f\x7bg:h\x7d\x7d").1.nodes.all
      (Node.isComplete "a , b>c\x7bd : e !important;f\x7bg:h\x7d\x7d") = true := by cbv
  have h : Formattable "a , b>c\x7bd : e !important;f\x7bg:h\x7d\x7d" := by
    refine ⟨by cbv, ⟨by decide, fun t ht => ?_⟩, fun node hnode => ?_⟩
    · exact of_decide_eq_true (List.all_eq_true.mp htokens t ht)
    · exact List.all_eq_true.mp hcomplete node hnode
  exact ⟨h, parse_format h _⟩

end CssWorkbench
