import CssWorkbench.Proofs.Layout.ReprintedSelectors
import CssWorkbench.Proofs.Layout.ReprintedStatements
import CssWorkbench.Proofs.Tree.Accounting
import CssWorkbench.Proofs.Tree.Declarations

/-!
# What stands on one line is printed on one line

Apart from spaces and punctuation everything that is printed of a node is text of its tokens. If
the source has a block on one line, then no line feed is printed of what stands in it.
-/

namespace CssWorkbench

variable {source : String} {t opener : Token} {ts used left rest inner tokens : List Token}
  {cs : List Char} {parts : List SelectorPart} {depth n start stop e : Nat} {s : Selector}
  {nodes : List Node} {errors : List SyntaxError} {make : List Node → Span → Node}

/-- None of the tokens holds a line feed. -/
def OneLine (source : String) (tokens : List Token) : Prop :=
  ∀ t ∈ tokens, '\n' ∉ (t.text source).toList

/-- Some of the tokens on one line are on one line. -/
theorem OneLine.of_mem (h : OneLine source ts) (hmem : ∀ t ∈ used, t ∈ ts) : OneLine source used :=
  fun t ht => h t (hmem t ht)

/-- Tokens on one line are printed on one line. -/
theorem OneLine.joinTokens (h : OneLine source ts) : '\n' ∉ (joinTokens source ts).toList := by
  have hafter : ∀ last, '\n' ∉ (joinTokensAfter source last ts).toList := by
    induction ts with
    | nil => simp [joinTokensAfter]
    | cons t ts ih =>
      have hrest := ih (h.of_mem fun _ hu => List.mem_cons_of_mem _ hu)
      intro last
      rw [joinTokensAfter]
      split
      · exact hrest last
      · simp only [String.toList_append, List.mem_append, not_or]
        refine ⟨⟨?_, h t List.mem_cons_self⟩, hrest (some t)⟩
        split <;> simp
  exact hafter none

/-- Parts that tokens on one line spell are printed on one line. -/
theorem Builds.oneLine (h : Builds used parts depth) (hline : OneLine source used) :
    '\n' ∉ (partsText source parts).toList := by
  induction h with
  | start => simp [partsText]
  | @combinator used gap parts t kind before trivia combines ih =>
    have hused := ih (hline.of_mem fun u hu => by simp [hu])
    have hkind := (combinator?_eq_some combines).1
    rw [partsText_cons, appendTo_combinator hkind]
    simp only [String.toList_append, List.mem_append, not_or]
    refine ⟨⟨⟨hused, ?_⟩, ?_⟩, by simp⟩
    · split <;> simp
    · cases kind <;> decide
  | @compound used gap tokens parts depth before fresh trivia nonempty solid ih =>
    have hused := ih (hline.of_mem fun u hu => by simp [hu])
    have htokens : OneLine source tokens := hline.of_mem fun u hu => by simp [hu]
    rw [partsText_compound, String.toList_append, List.mem_append, not_or]
    exact ⟨hused, htokens.joinTokens⟩
  | @descendant used gap tokens parts span depth before compound trivia around nonempty solid ih =>
    have hused := ih (hline.of_mem fun u hu => by simp [hu])
    have htokens : OneLine source tokens := hline.of_mem fun u hu => by simp [hu]
    rw [partsText_compound, partsText_descendant, String.toList_append, String.toList_append,
      List.mem_append, List.mem_append, not_or, not_or]
    exact ⟨⟨hused, by simp⟩, htokens.joinTokens⟩

/-- A selector that tokens on one line spell is printed on one line. -/
theorem SpelledIn.oneLine (h : SpelledIn source tokens s) (hline : OneLine source tokens) :
    '\n' ∉ (s.text source).toList := by
  obtain ⟨group, _, _, hgroup, -, -, hs, hprelude, -⟩ := h
  obtain ⟨used, dropped, parts, rfl, hbuilds, -, hparts, -⟩ :=
    exists_builds_of_ofTokens? hs hprelude.depthAfter_eq
  have htext : s.text source = partsText source parts := by
    rw [Selector.text, hparts, partsText]
  rw [htext]
  exact hbuilds.oneLine (hline.of_mem fun u hu => hgroup u (List.mem_append_left _ hu))

/-- Selectors on one line, with a comma and a space between them. -/
theorem OneLine.selectorsText {selectors : List Selector} (hline : OneLine source tokens)
    (hselectors : ∀ s ∈ selectors, SpelledIn source tokens s) :
    '\n' ∉ selectorsText source [' '] selectors := by
  induction selectors with
  | nil => simp
  | cons s selectors ih =>
    have hself := (hselectors s List.mem_cons_self).oneLine hline
    have hrest := ih fun s' hs' => hselectors s' (List.mem_cons_of_mem _ hs')
    cases selectors with
    | nil => rwa [selectorsText_singleton]
    | cons s' selectors =>
      rw [selectorsText_cons_cons]
      simp [hself, hrest]

/-- The head of an at-rule on one line is printed on one line. -/
theorem OneLine.head {prelude : List Token} {block : Option Span}
    (htext : (t.text source).toList = '@' :: t.value.toList) (ht : '\n' ∉ (t.text source).toList)
    (h : OneLine source prelude) : '\n' ∉ ((atRuleOf t prelude stop block).head source).toList := by
  have hjoined : '\n' ∉ (CssWorkbench.joinTokens source (trimBlanks prelude)).toList :=
    (h.of_mem fun u hu =>
      (List.dropWhile_sublist _).mem (mem_of_mem_trimTrailingBlanks hu)).joinTokens
  rw [htext, List.mem_cons, not_or] at ht
  rw [head_atRuleOf]
  simp only [String.toList_append, List.mem_append, not_or]
  refine ⟨⟨by simp, ht.2⟩, ?_⟩
  split
  · simp
  · rw [String.toList_append, List.mem_append, not_or]
    exact ⟨by simp, hjoined⟩

/-- The declaration is made of some of the tokens. -/
structure DeclaredIn (tokens : List Token) (d : Declaration) : Prop where
  property : d.property ∈ tokens
  value : ∀ t ∈ d.tokens, t ∈ tokens

/-- A declaration that some tokens spell is spelled by more of them. -/
theorem DeclaredIn.of_mem {d : Declaration} (h : DeclaredIn ts d) (hmem : ∀ t ∈ ts, t ∈ used) :
    DeclaredIn used d :=
  ⟨hmem _ h.property, fun t ht => hmem t (h.value t ht)⟩

/-- A declaration that tokens on one line spell is printed on one line. -/
theorem DeclaredIn.oneLine {d : Declaration} (h : DeclaredIn tokens d)
    (hspelled : d.property.text source = d.property.value) (hline : OneLine source tokens) :
    '\n' ∉ (d.text source).toList := by
  have hname := hline _ h.property
  rw [hspelled] at hname
  have hvalue := (hline.of_mem h.value).joinTokens
  rw [Declaration.text]
  simp only [String.toList_append, List.mem_append, not_or]
  refine ⟨⟨⟨hname, by simp⟩, hvalue⟩, ?_⟩
  split
  · rw [String.toList_append, List.mem_append, not_or]
    refine ⟨?_, by simp⟩
    split <;> simp
  · simp

/-- The tokens of a declaration are among those that are taken for it. -/
theorem declarationNode_declaredIn {colon : Token} {behindColon run : List Token}
    (gap : ts.dropWhile (·.is .whitespace) = colon :: behindColon)
    (value : takeValue (behindColon.dropWhile (·.is .whitespace)) = (run, left)) :
    ∃ part, t :: ts = part ++ (takeSemicolon left).2 ∧
      DeclaredIn part (declarationNode t colon run (takeSemicolon left).1) := by
  obtain ⟨blanks, hts, -⟩ := exists_blanks_append gap
  obtain ⟨blanks', hbehind, -⟩ := exists_blanks_append (takeRun_eq_append value)
  obtain ⟨behind, hrun, -⟩ := valueTokens_append run
  refine ⟨t :: (blanks ++ colon :: (blanks' ++ run ++ (takeSemicolon left).1.toList)), ?_,
    List.mem_cons_self, fun u hu => ?_⟩
  · rw [hts, hbehind]
    simp [takeSemicolon_append]
  · rw [declarationNode_tokens] at hu
    have hmem : u ∈ run := by
      rw [hrun]
      exact List.mem_append_left _ hu
    simp [hmem]

/-- What is read without errors is taken off the front of the tokens, and the declarations among
the nodes are made of what is taken. -/
theorem Reads.declaredIn (h : Reads stop n ts nodes e rest errors) (hclean : errors = []) :
    ∃ used, ts = used ++ rest ∧ ∀ d ∈ declarationsIn nodes, DeclaredIn used d := by
  induction h with
  | finish => exact ⟨[], rfl, by simp [declarationsIn]⟩
  | unclosed | stray | deepBlock | broken => cases hclean
  | @close n t ts kind => exact ⟨[t], rfl, by simp [declarationsIn]⟩
  | @pass n t ts rest nodes e errors kind behind ih =>
    obtain ⟨used, rfl, hused⟩ := ih hclean
    exact ⟨t :: used, rfl, fun d hd => (hused d hd).of_mem fun u hu => List.mem_cons_of_mem _ hu⟩
  | @comment n t ts rest nodes e errors kind behind ih =>
    obtain ⟨used, rfl, hused⟩ := ih hclean
    exact ⟨t :: used, rfl, fun d hd => (hused d hd).of_mem fun u hu => List.mem_cons_of_mem _ hu⟩
  | declaration _ gap _ value behind ih =>
    obtain ⟨used, hleft, hused⟩ := ih hclean
    obtain ⟨part, hpart, hdeclared⟩ := declarationNode_declaredIn gap value
    refine ⟨part ++ used, by rw [hpart, hleft, List.append_assoc], fun d hd => ?_⟩
    rcases List.mem_cons.mp hd with rfl | hd
    · exact hdeclared.of_mem fun u hu => List.mem_append_left _ hu
    · exact (hused d hd).of_mem fun u hu => List.mem_append_right _ hu
  | @statement n t ts left rest node nodes e first errors keyword rule behind ih =>
    obtain ⟨rfl, rfl⟩ := List.append_eq_nil_iff.mp hclean
    obtain ⟨used, rfl, hused⟩ := ih rfl
    have hnodes : declarationsIn (node :: nodes) = declarationsIn nodes :=
      List.filterMap_cons_none rule.no_declaration.1
    cases rule with
    | @ended semicolon prelude rest run kind =>
      refine ⟨t :: (prelude ++ [semicolon]) ++ used, ?_, fun d hd => ?_⟩
      · rw [takeRun_eq_append run]
        simp
      · exact (hused d (hnodes ▸ hd)).of_mem fun u hu => List.mem_append_right _ hu
  | @block n t opener ts inner left rest make children nodes inside e first errors head shallow body
      behind ihBody ih =>
    obtain ⟨rfl, rfl⟩ := List.append_eq_nil_iff.mp hclean
    obtain ⟨used, rfl, hused⟩ := ih rfl
    obtain ⟨part, rfl, -⟩ := ihBody rfl
    have hnodes : declarationsIn (make children ⟨opener.start, inside⟩ :: nodes) =
        declarationsIn nodes := List.filterMap_cons_none (head.no_declaration _ _).1
    obtain ⟨front, hfront, -⟩ := head.append children ⟨opener.start, inside⟩
    refine ⟨front ++ opener :: part ++ used, by rw [hfront]; simp, fun d hd => ?_⟩
    exact (hused d (hnodes ▸ hd)).of_mem fun u hu => List.mem_append_right _ hu

/-- Behind what is read without errors the tokens of the source go on. -/
theorem Reads.tail (h : Reads stop n ts nodes e rest errors) (hclean : errors = [])
    (htail : TailOf source ts cs) : ∃ ds, TailOf source rest ds := by
  obtain ⟨used, rfl, -⟩ := h.declaredIn hclean
  exact htail.append

/-- Tokens of a source from some place on are scanned where they stand. -/
theorem TailOf.scannedAs (h : TailOf source (used ++ rest) cs) :
    ∃ front part behind, ScannedAs source front part behind used := by
  obtain ⟨-, before, hsource, htokens⟩ := h
  refine ⟨before, ?_⟩
  induction used generalizing before cs with
  | nil => exact ⟨[], cs, scannedAs_nil hsource⟩
  | cons t used ih =>
    cases cs with
    | nil =>
      rw [tokensFrom_nil] at htokens
      cases htokens
    | cons c cs =>
      have hwhole := append_lexeme hsource
      rw [tokensFrom_cons, ← Text.byteLength_append] at htokens
      obtain ⟨rfl, hused⟩ := List.cons.inj htokens
      obtain ⟨part, behind, hpart⟩ := ih _ (hwhole.trans (List.append_assoc ..).symm) hused
      have hrest : (lexeme c cs).rest = part ++ behind := by
        have hplace := hpart.place
        rw [hwhole, ← List.append_assoc] at hplace
        exact List.append_cancel_left hplace
      have hfirst : ScannedAs source before (lexeme c cs).taken (part ++ behind)
          [(lexeme c cs).token (Text.byteLength before)] := by
        rw [← hrest]
        refine ⟨hwhole, ?_⟩
        rw [lexeme_append, tokensFrom_cons, Text.byteLength_append]
        rfl
      exact ⟨_, behind, hfirst.append hpart⟩

/-- The tokens of a tail tile the source up to its end. -/
theorem TailOf.tiles_size (h : TailOf source ts cs) :
    ∃ start, Tiles start (Text.size source) ts := by
  obtain ⟨-, before, hsource, rfl⟩ := h
  refine ⟨Text.byteLength before, ?_⟩
  rw [Text.size, hsource, Text.byteLength_append]
  exact tiles_tokensFrom _ cs

/-- Where the source has a stretch on one line, no token there holds a line feed. -/
theorem TailOf.oneLine (h : TailOf source (used ++ rest) cs) (htiles : Tiles start stop used)
    (hne : used ≠ []) (hline : onOneLine source ⟨start, stop⟩ = true) : OneLine source used := by
  obtain ⟨front, part, behind, hpart⟩ := h.scannedAs
  obtain ⟨t, ts, rfl⟩ := List.exists_cons_of_ne_nil hne
  obtain ⟨last, hlast⟩ : ∃ last, (t :: ts).getLast? = some last := ⟨_, List.getLast?_cons⟩
  have hstart : start = Text.byteLength front := htiles.1.symm.trans hpart.tiles.1
  have hstop : stop = Text.byteLength (front ++ part) :=
    (htiles.getLast hlast).symm.trans (hpart.tiles.getLast hlast)
  rw [hstart, hstop, onOneLine_of_place hpart.place] at hline
  have hfree : '\n' ∉ part := by simpa using hline
  intro u hu hmem
  refine hfree ?_
  rw [← hpart.texts]
  exact List.mem_flatMap.mpr ⟨u, hu, hmem⟩

/-- Tokens that tile a stretch up to the same place start at the same place. -/
theorem Tiles.start_unique {start' : Nat} (h : Tiles start stop ts) (h' : Tiles start' stop ts) :
    start = start' := by
  cases ts with
  | nil => exact Eq.trans h (Eq.symm h')
  | cons t ts => exact h.1.symm.trans h'.1

/-- If a block stands on one line with its head, then no token of the head holds a line feed, and
none is printed of a declaration in the block. -/
theorem Reads.oneLine {front : List Token} {children : List Node}
    (body : Reads (Text.size source) (n + 1) inner children e left [])
    (htail : TailOf source (t :: ts) cs) (hhead : t :: ts = front ++ opener :: inner)
    (hspelled : ∀ d ∈ declarationsIn children, d.property.text source = d.property.value)
    (hline : onOneLine source ⟨t.start, e⟩ = true) :
    OneLine source front ∧ ∀ d ∈ declarationsIn children, '\n' ∉ (d.text source).toList := by
  obtain ⟨used, rfl, hdeclared⟩ := body.declaredIn rfl
  obtain ⟨first, htiles⟩ := htail.tiles_size
  obtain rfl : t.start = first := htiles.1
  have hwhole : t :: ts = (front ++ opener :: used) ++ left := by rw [hhead]; simp
  rw [hhead] at htiles
  obtain ⟨_, -, hopener⟩ := tiles_append.mp htiles
  have hleft := (body.wellNested hopener.2.2).2
  rw [← hhead, hwhole] at htiles
  obtain ⟨middle, hused, hbehind⟩ := tiles_append.mp htiles
  obtain rfl := hbehind.start_unique hleft
  rw [hwhole] at htail
  have hall := htail.oneLine hused (by simp) hline
  refine ⟨hall.of_mem fun u hu => List.mem_append_left _ hu, fun d hd => ?_⟩
  exact (hdeclared d hd).oneLine (hspelled d hd)
    (hall.of_mem fun u hu => List.mem_append_right _ (List.mem_cons_of_mem _ hu))

end CssWorkbench
