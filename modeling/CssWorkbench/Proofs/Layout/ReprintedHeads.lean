import CssWorkbench.Proofs.Layout.PrintedNodes
import CssWorkbench.Proofs.Layout.ReprintedSelectors
import CssWorkbench.Proofs.Layout.ReprintedStatements
import CssWorkbench.Proofs.Layout.RulesetStarts

/-!
# Heads of blocks are printed again

What is printed in front of a block opens, wherever it stands in a text, a block in front of which
the same is printed and whose node says the same. For a ruleset this asks that its first selector
starts a ruleset: what is left out of the source in front of it or in it might be what kept a
declaration from starting there.
-/

namespace CssWorkbench

variable {text source line : String} {front cs ds core lead apart : List Char} {n : Nat}
  {options : FormatOptions} {t u opener : Token} {ts inner prelude printed tokens : List Token}
  {s : Selector} {selectors : List Selector} {lines : Nat → String}

/-- A block as it is printed behind its head, which stands on one line or on several. -/
def blockLayout (options : FormatOptions) (source : String) (depth : Nat) (line lines : String)
    (children : List Node) (span : Span) : String :=
  if children.isEmpty then options.indent depth ++ line ++ " \x7b\x7d\n"
  else
    match singleLine? options source line children span depth with
    | some text => text
    | none =>
      lines ++ " \x7b\n" ++ layoutNodes options source (depth + 1) none children ++
        options.indent depth ++ "\x7d\n"

/-- The selectors in front of a block on one line. -/
def selectorsLine (texts : List String) : String :=
  ", ".intercalate texts

/-- The selectors in front of a block on a line each. -/
def selectorsLines (options : FormatOptions) (depth : Nat) (texts : List String) : String :=
  ",\n".intercalate (texts.map (options.indent depth ++ ·))

/-- A ruleset is printed as its selectors and its block. -/
theorem layout_ruleset (options : FormatOptions) (source : String) (depth : Nat) (rule : Ruleset)
    (children : List Node) : (Node.ruleset rule children).layout options source depth =
      blockLayout options source depth
        (selectorsLine (rule.selectors.selectors.map (Selector.text source)))
        (selectorsLines options depth (rule.selectors.selectors.map (Selector.text source)))
        children rule.span := by
  rw [Node.layout]
  rfl

/-- An at-rule with a block is printed as its head and the block. -/
theorem layout_atRule (options : FormatOptions) (source : String) (depth : Nat) {rule : AtRule}
    (hblock : rule.block.isSome = true) (children : List Node) :
    (Node.atRule rule children).layout options source depth =
      blockLayout options source depth (rule.head source)
        (options.indent depth ++ rule.head source) children rule.span := by
  have hsome : ¬ rule.block.isNone = true := by simp [Option.isSome_iff_ne_none.mp hblock]
  rw [Node.layout]
  simp only [if_neg hsome]
  rfl

/-- Wherever `core` stands in a text, it opens a block, and the text and what makes the node of its
children satisfy `P`. -/
def OpensInPlace (n : Nat) (core : List Char) (P : String → (List Node → Span → Node) → Prop) :
    Prop :=
  ∀ (text : String) (front ds : List Char), text.toList = front ++ (core ++ ds) →
    ∃ t behind opener make, ScannedAs text front core ds (t :: behind) ∧
      (∀ inner, Heads n t (behind ++ inner) opener inner make) ∧ P text make

/-- What opens a block with some property does so with every weaker one. -/
theorem OpensInPlace.imp {P Q : String → (List Node → Span → Node) → Prop}
    (h : OpensInPlace n core P) (himp : ∀ text make, P text make → Q text make) :
    OpensInPlace n core Q := by
  intro text front ds place
  obtain ⟨t, behind, opener, make, hscan, hheads, hmake⟩ := h text front ds place
  exact ⟨t, behind, opener, make, hscan, hheads, himp text make hmake⟩

/-- What is made of children is printed behind the head `line`, or behind `lines` at some depth, and
says what `original` makes of children that say the same. -/
structure Remakes (line : String) (lines : FormatOptions → Nat → String)
    (original : List Node → Node) (text : String) (make : List Node → Span → Node) : Prop where
  layout : ∀ options children block depth, (make children block).layout options text depth =
    blockLayout options text depth line (lines options depth) children (make children block).span
  same : ∀ children children' block, bareNodes children = bareNodes children' →
    (make children block).bare = (original children').bare

/-- What opens a block in its place opens the block. -/
theorem OpensInPlace.opens {lines : FormatOptions → Nat → String} {original : List Node → Node}
    (h : OpensInPlace n core (Remakes line lines original)) (hsolid : StartsSolid core) :
    Opens n core original := by
  intro blanks hblanks ds offset
  obtain ⟨text, front, place, rfl⟩ := exists_place offset (blanks ++ (core ++ ds))
  obtain ⟨gap, hscanGap, hgap⟩ := scannedAs_blanks hblanks place (hsolid.append ds).head?
  obtain ⟨t, behind, opener, make, hscan, hheads, hmake⟩ :=
    h text (front ++ blanks) ds hscanGap.behind
  have hwhole := (hscanGap.append hscan).scan
  rw [List.append_assoc, List.append_assoc] at hwhole
  exact ⟨gap, t, behind, opener, _, make, hwhole, hgap, hheads, hmake.same⟩

/-- Wherever `core` stands in a text, it opens a block that is printed behind the head `line`, or
behind `lines` at some depth. -/
def Reopens (options : FormatOptions) (n : Nat) (core : List Char) (line : String)
    (lines : Nat → String) : Prop :=
  OpensInPlace n core fun text make => ∀ children block depth,
    (make children block).layout options text depth =
      blockLayout options text depth line (lines depth) children (make children block).span

/-- What opens a block that is printed behind some heads is printed so in both ways. -/
theorem OpensInPlace.reopens {lines : FormatOptions → Nat → String} {original : List Node → Node}
    (h : OpensInPlace n core (Remakes line lines original)) (options : FormatOptions) :
    Reopens options n core line (lines options) :=
  h.imp fun _ _ hmake => hmake.layout options

/-- A space and a brace behind a head. -/
theorem scannedAs_brace (place : text.toList = front ++ ([' ', '{'] ++ ds)) :
    ∃ space opener, ScannedAs text front [' ', '{'] ds [space, opener] ∧
      space.kind = .whitespace ∧ opener.kind = .lbrace := by
  obtain ⟨space, opener, offset', hscan, hspace, hopener⟩ :=
    tokensFrom_brace ds (Text.byteLength front)
  exact ⟨space, opener, scannedAs_of_tokensFrom place hscan, hspace, hopener⟩

/-- The head of an at-rule of a source opens its block again. -/
theorem opensInPlace_atRule (hsource : Unbroken source) (htail : TailOf source (t :: ts) cs)
    (keyword : t.kind = .atKeyword) (htext : (t.text source).toList = '@' :: t.value.toList)
    (run : takePrelude 0 ts = (prelude, opener :: inner))
    (stop : Nat) (block : Span) :
    OpensInPlace n (((atRuleOf t prelude stop (some block)).head source).toList ++ [' ', '{'])
      (Remakes ((atRuleOf t prelude stop (some block)).head source)
        (fun options depth =>
          options.indent depth ++ (atRuleOf t prelude stop (some block)).head source)
        (atRuleNode t prelude stop (some block))) := by
  intro text front ds place
  rw [List.append_assoc] at place
  obtain ⟨v, behind, hscanHead, hv, hhead⟩ := scannedAs_atRule hsource htail keyword htext run
    ⟨' ', _, rfl, by decide⟩ stop (some block) place
  obtain ⟨space, opener', hscanBrace, hspace, hopener⟩ := scannedAs_brace hscanHead.behind
  obtain ⟨hsame, hagain⟩ := hhead [space] (by simpa using hspace)
  have hinside := (inside_prelude_congr hsame).mpr (takeRun_inside_zero run).1
  have hkeyword : v.kind = .atKeyword := (kind_eq_of_bare hv).trans keyword
  refine ⟨v, behind ++ [space, opener'], opener', fun children block =>
    atRuleNode v (behind ++ [space]) block.stop (some block) children,
    hscanHead.append hscanBrace, fun inner => ?_, fun options children block' depth => ?_,
    fun children children' block' hchildren => ?_⟩
  · have hwhole : behind ++ [space, opener'] ++ inner = behind ++ [space] ++ opener' :: inner := by
      simp
    rw [hwhole]
    exact .atRule hkeyword (takeRun_of_inside hinside (by rw [hopener]; rfl) inner) hopener
  · have hline := hagain block'.stop (some block')
    simp only [atRuleNode_eq]
    rw [layout_atRule options text depth rfl, hline]
    rfl
  · exact bare_atRuleNode_congr (value_eq_of_bare hv) hsame rfl hchildren

/-- The head of an at-rule and a brace open the block of the at-rule. -/
theorem opens_atRule (hsource : Unbroken source) (htail : TailOf source (t :: ts) cs)
    (keyword : t.kind = .atKeyword) (htext : (t.text source).toList = '@' :: t.value.toList)
    (run : takePrelude 0 ts = (prelude, opener :: inner))
    (stop : Nat) (block : Span) :
    Opens n (((atRuleOf t prelude stop (some block)).head source).toList ++ [' ', '{'])
      (atRuleNode t prelude stop (some block)) :=
  (opensInPlace_atRule hsource htail keyword htext run stop block).opens (startsSolid_head _ _ _)

/-- A block without selectors is opened by its brace. -/
theorem opensInPlace_bare {rule : Ruleset} (hnone : rule.selectors.selectors = []) :
    OpensInPlace n ['{'] (Remakes (selectorsLine []) (fun options depth =>
      selectorsLines options depth []) (.ruleset rule)) := by
  intro text front ds place
  obtain ⟨opener, hscan, hopener⟩ := scannedAs_inert place (by decide) (by decide)
  refine ⟨opener, [], opener, rulesetNode opener.start [] opener, hscan, fun inner => .bare hopener,
    fun options children block depth => ?_, fun children children' block' hchildren => ?_⟩
  · rw [rulesetNode, layout_ruleset, selectors_ofTokens]
    rfl
  · refine bare_ruleset_congr ?_ hchildren
    rw [hnone, selectors_ofTokens]
    rfl

/-- A brace without selectors in front opens the block of a ruleset without selectors. -/
theorem opens_bare {rule : Ruleset} (hnone : rule.selectors.selectors = []) (source : String)
    (apart : List Char) :
    Opens n (selectorsText source apart rule.selectors.selectors ++ [' ', '{'])
      (.ruleset rule) := by
  rw [hnone]
  exact ((opensInPlace_bare hnone).opens ⟨'{', [], rfl, by decide⟩).indented
    isAsciiBlank_of_mem_space

/-- The selectors of a ruleset of a source open its block again. -/
theorem opensInPlace_ruleset {rule : Ruleset} (hrule : rule.selectors.selectors = s :: selectors)
    (hsource : Unbroken source) (hselectors : ∀ s' ∈ s :: selectors, SpelledIn source tokens s')
    (hopens : s.opensRuleset (0 < n) = true) (hapart : ∀ c ∈ apart, Text.isAsciiBlank c = true) :
    OpensInPlace n (selectorsText source apart (s :: selectors) ++ [' ', '{'])
      (Remakes (selectorsLine ((s :: selectors).map (Selector.text source)))
        (fun options depth =>
          selectorsLines options depth ((s :: selectors).map (Selector.text source)))
        (.ruleset rule)) := by
  intro text front ds place
  rw [List.append_assoc] at place
  obtain ⟨printed, hscan, hprinted⟩ := scannedAs_selectors hsource hselectors hapart
    ⟨' ', _, rfl, by decide⟩ place
  obtain ⟨space, opener, hscanBrace, hspace, hopener⟩ := scannedAs_brace hscan.behind
  obtain ⟨more, hfront, hcomma⟩ := hprinted.front
  rw [Selector.opensRuleset] at hopens
  split at hopens
  · cases hopens
  rename_i w shown hshown
  rw [hshown] at hfront
  -- The first token that is printed is the first one that is no blank, since no blank comes first.
  obtain ⟨u, behind, rfl⟩ : ∃ u behind, printed = u :: behind := by
    cases printed with
    | nil => cases hfront
    | cons u behind => exact ⟨u, behind, rfl⟩
  have hu : u.kind ≠ .whitespace :=
    hscan.head?_ne_blank ((hselectors s List.mem_cons_self).head?_selectorsText _ _ _) u rfl
  rw [bareTokens_cons hu, List.cons_append] at hfront
  obtain ⟨hw, hbehind⟩ := List.cons.inj hfront
  have hkind : u.kind = w.kind := by rw [← hw, Token.bare_kind]
  obtain ⟨hleads, hdeclares⟩ := Bool.and_eq_true_iff.mp hopens
  obtain ⟨hstart, hclosed⟩ := hprinted.prelude
  have hspaced : bareTokens (behind ++ [space]) = shown ++ more := by
    rw [bareTokens_append, bareTokens_cons_blank hspace, bareTokens_nil, List.append_nil, hbehind]
  have hinside : Inside haltsPrelude TokenKind.inlineDepth (u.kind.inlineDepth 0)
      (behind ++ [space]) 0 :=
    inside_append.mpr ⟨0, hclosed, inside_of_blanks rfl (fun _ => rfl) (by simpa using hspace) 0⟩
  have hwhole : ∀ inner, behind ++ [space, opener] ++ inner =
      behind ++ [space] ++ opener :: inner := fun inner => by simp
  obtain ⟨htexts, hbares⟩ :=
    text_and_bare_of_seen (hprinted.selectors [space] (by simpa using hspace))
  refine ⟨u, behind ++ [space, opener], opener,
    rulesetNode u.start (u :: (behind ++ [space])) opener,
    by simpa using hscan.append hscanBrace, fun inner => ?_,
    fun options children block depth => ?_, fun children children' block hchildren => ?_⟩
  · rw [hwhole]
    refine .ruleset (by simpa [hkind] using hleads) (fun hbrace => ?_) (fun hn hdeclared => ?_)
      (takeRun_of_inside hinside (by rw [hopener]; rfl) inner) hopener
    · exact hstart ⟨rfl, by rw [hbrace]; rfl⟩
    · obtain ⟨hident, v, hv, hcolon⟩ :=
        colon_of_startsDeclaration hspaced hcomma hopener hdeclared
      rw [Option.mem_def.mp hv] at hdeclares
      simp [hn, ← hkind, hident, hcolon] at hdeclares
  · rw [rulesetNode, layout_ruleset, selectors_ofTokens, ← List.cons_append, htexts]
    rfl
  · refine bare_ruleset_congr ?_ hchildren
    rw [selectors_ofTokens, ← List.cons_append, hbares, hrule]

/-- The selectors of a ruleset and a brace open the block of the ruleset. -/
theorem opens_ruleset {rule : Ruleset} {head : List Token} (hplain : Plain source)
    (htail : TailOf source (t :: ts) cs) (leads : t.kind.leads = false)
    (notBrace : t.kind ≠ .lbrace)
    (notDeclared : 0 < n → ¬ StartsDeclaration t ts)
    (run : takePrelude (t.kind.inlineDepth 0) ts = (head, opener :: inner))
    (hcomplete : ∀ group ∈ splitCommas (t :: head), (Selector.ofTokens? group).isSome = true)
    (hapart : ∀ c ∈ apart, Text.isAsciiBlank c = true)
    (hrule : rule.selectors.selectors = selectorsOf (t :: head)) :
    Opens n (selectorsText source apart rule.selectors.selectors ++ [' ', '{'])
      (.ruleset rule) := by
  have hts : ts = head ++ opener :: inner := takeRun_eq_append run
  have hheadTail : TailOf source (t :: head ++ opener :: inner) cs := by
    rw [List.cons_append, ← hts]
    exact htail
  have hinside : Inside haltsPrelude TokenKind.inlineDepth 0 (t :: head) 0 :=
    ⟨fun hhalts => by simp [not_haltsPrelude_of_leads leads notBrace] at hhalts,
      (takeRun_inside_zero run).1⟩
  have hcomments : NoComments (t :: head) := fun u hu =>
    (hplain.kind hheadTail (List.mem_append_left _ hu)).1
  have hgroups := splitCommasFrom_groups 0 (t :: head)
  have hspelled : ∀ s ∈ selectorsOf (t :: head), SpelledIn source (t :: head) s :=
    hgroups.spelledIn rfl hheadTail (List.cons_ne_nil _ _) hinside
  have hsome : (splitCommasFrom 0 (t :: head)).map Selector.ofTokens? =
      (selectorsOf (t :: head)).map some := map_ofTokens? hcomplete
  cases hselectors : selectorsOf (t :: head) with
  | nil =>
    rw [hselectors, List.map_nil, List.map_eq_nil_iff] at hsome
    exact absurd hsome hgroups.ne_nil
  | cons s selectors =>
    rw [hselectors] at hrule hspelled hsome
    obtain ⟨hne, hidden, hshown⟩ := hgroups.bareTokens_eq rfl hsome hinside hcomments
    have hopens : s.opensRuleset (0 < n) = true := opensRuleset_of_bareTokens leads
      (fun hn => hts ▸ notDeclared (of_decide_eq_true hn)) hshown hne
    rw [hrule]
    refine (opensInPlace_ruleset hrule hplain.unbroken hspelled hopens hapart).opens ?_
    exact startsSolid_of_head? (by simp)
      ((hspelled s List.mem_cons_self).head?_selectorsText apart selectors [' ', '{'])

/-- Nothing but blanks, and no line feed among them. -/
def Indents (lead : List Char) : Prop :=
  ∀ c ∈ lead, Text.isAsciiBlank c = true ∧ c ≠ '\n'

/-- An indent is made of blanks. -/
theorem Indents.isAsciiBlank (h : Indents lead) : ∀ c ∈ lead, Text.isAsciiBlank c = true :=
  fun c hc => (h c hc).1

/-- An indent holds no line feed. -/
theorem Indents.count_newline (h : Indents lead) : lead.count '\n' = 0 :=
  List.count_eq_zero.mpr fun hmem => (h _ hmem).2 rfl

/-- What a depth is indented by is an indent. -/
theorem indents_indent (options : FormatOptions) (depth : Nat) :
    Indents (options.indent depth).toList := by
  intro c hc
  refine ⟨isAsciiBlank_of_mem_indent options depth c hc, ?_⟩
  unfold FormatOptions.indent at hc
  split at hc
  · rw [String.toList_ofList] at hc
    rw [List.eq_of_mem_replicate hc]
    decide
  · rw [String.toList_ofList] at hc
    rw [List.eq_of_mem_replicate hc]
    decide

/-- Behind an indentation the characters open a block that is printed behind the head `line`, or
behind `lines` at some depth. -/
def ReopensBehind (options : FormatOptions) (n : Nat) (head : List Char) (line : String)
    (lines : Nat → String) : Prop :=
  ∃ lead core, head = lead ++ core ∧ Indents lead ∧ StartsSolid core ∧
    Reopens options n core line lines

/-- The head of an at-rule opens its block behind any indentation. -/
theorem reopensBehind_atRule (hsource : Unbroken source) (htail : TailOf source (t :: ts) cs)
    (keyword : t.kind = .atKeyword) (htext : (t.text source).toList = '@' :: t.value.toList)
    (run : takePrelude 0 ts = (prelude, opener :: inner))
    (stop : Nat) (block : Span) (hlead : Indents lead) :
    ReopensBehind options n
      (lead ++ ((atRuleOf t prelude stop (some block)).head source).toList ++ [' ', '{'])
      ((atRuleOf t prelude stop (some block)).head source)
      (fun depth => options.indent depth ++ (atRuleOf t prelude stop (some block)).head source) :=
  ⟨lead, _, List.append_assoc .., hlead, startsSolid_head _ _ _,
    (opensInPlace_atRule hsource htail keyword htext run stop block).reopens options⟩

/-- The selectors of a ruleset open its block, on one line or on several. -/
theorem reopensBehind_ruleset {rule : Ruleset} (hsource : Unbroken source)
    (hselectors : ∀ s ∈ rule.selectors.selectors, SpelledIn source tokens s)
    (hopens : rule.selectors.selectors.head?.all (Selector.opensRuleset (0 < n)) = true) :
    ReopensBehind options n
        ((selectorsLine (rule.selectors.selectors.map (Selector.text source))).toList ++ [' ', '{'])
        (selectorsLine (rule.selectors.selectors.map (Selector.text source)))
        (fun depth =>
          selectorsLines options depth (rule.selectors.selectors.map (Selector.text source))) ∧
      ∀ depth, ReopensBehind options n
        ((selectorsLines options depth
          (rule.selectors.selectors.map (Selector.text source))).toList ++ [' ', '{'])
        (selectorsLine (rule.selectors.selectors.map (Selector.text source)))
        (fun depth =>
          selectorsLines options depth (rule.selectors.selectors.map (Selector.text source))) := by
  cases hrule : rule.selectors.selectors with
  | nil =>
    have hbare : ReopensBehind options n [' ', '{'] (selectorsLine [])
        (fun depth => selectorsLines options depth []) :=
      ⟨[' '], ['{'], rfl, by simp [Indents]; decide, ⟨'{', [], rfl, by decide⟩,
        (opensInPlace_bare hrule).reopens options⟩
    exact ⟨hbare, fun _ => hbare⟩
  | cons s selectors =>
    rw [hrule] at hselectors hopens
    have hstarts : s.opensRuleset (0 < n) = true := by simpa using hopens
    have hsolid : ∀ apart,
        StartsSolid (selectorsText source apart (s :: selectors) ++ [' ', '{']) :=
      fun apart => startsSolid_of_head? (by simp)
        ((hselectors s List.mem_cons_self).head?_selectorsText apart selectors [' ', '{'])
    have hreopens : ∀ {apart}, (∀ c ∈ apart, Text.isAsciiBlank c = true) →
        Reopens options n _ _ _ := fun hapart =>
      (opensInPlace_ruleset hrule hsource hselectors hstarts hapart).reopens options
    refine ⟨⟨[], selectorsText source [' '] (s :: selectors) ++ [' ', '{'], ?_, by simp [Indents],
      hsolid _, hreopens isAsciiBlank_of_mem_space⟩, fun depth =>
      ⟨(options.indent depth).toList,
        selectorsText source ('\n' :: (options.indent depth).toList) (s :: selectors) ++ [' ', '{'],
        ?_, indents_indent options depth, hsolid _, hreopens ?_⟩⟩
    · rw [selectorsLine, toList_intercalate_selectors, List.nil_append]
    · rw [selectorsLines, toList_intercalate_indented _ _ (List.cons_ne_nil s selectors),
        List.append_assoc]
    · exact List.forall_mem_cons.mpr ⟨by decide, isAsciiBlank_of_mem_indent options depth⟩

end CssWorkbench
