import CssWorkbench.Proofs.Custom.NameTokens
import CssWorkbench.Proofs.Tree.Declarations
import CssWorkbench.Proofs.Tree.Stretches

/-!
# Where the parser finds the names of custom properties

The declarations of a tree are read off the tokens in order. A declaration starts in a block, and
what the parser has just passed there is a firm token, unless a `}` comes next or nothing does.
From this the name tokens of all occurrences are found by one induction on the reading.
-/

namespace CssWorkbench

variable {stop n e depth : Nat} {p t colon opener : Token}
  {ts us left rest run behindColon head inner : List Token} {node : Node} {nodes : List Node}
  {make : List Node → Span → Node} {errors : List SyntaxError}

/-- Whether a declaration with a custom name could start here is settled: none does outside
blocks, in front of a `}` or at the end, and elsewhere the last token is firm. -/
def Guarded (n : Nat) (p : Token) (ts : List Token) : Prop :=
  n = 0 ∨ p.isFirm = true ∨ ∀ t ∈ ts.head?, t.kind = .rbrace

/-- The name tokens of some nodes, found in the tokens that are read. -/
def NamesRead (p : Token) (read : List Token) (nodes : List Node) : Prop :=
  ∃ us, Named p read us ∧
    ((declarationsOf nodes).flatMap Declaration.occurrences).map Occurrence.labels =
      us.map Token.labels

/-- No nodes name no tokens. -/
theorem namesRead_nil (p : Token) (ts : List Token) : NamesRead p ts [] :=
  ⟨[], .none p ts, rfl⟩

/-- Names are read in one stretch and then in the next one. -/
theorem NamesRead.append {ms ns : List Node} (h : NamesRead p ts ms)
    (hrest : NamesRead (ts.getLastD p) rest ns) : NamesRead p (ts ++ rest) (ms ++ ns) := by
  obtain ⟨us, hnamed, hlabels⟩ := h
  obtain ⟨vs, hnamed', hlabels'⟩ := hrest
  refine ⟨us ++ vs, hnamed.append hnamed', ?_⟩
  rw [declarationsOf_append, List.flatMap_append, List.map_append, List.map_append, hlabels,
    hlabels']

/-- A stretch that ends with a firm token. -/
theorem isFirm_concat (h : t.kind.isFirm = true) (front : List Token) (p : Token) :
    ((front ++ [t]).getLastD p).isFirm = true := by
  rw [getLastD_append]
  exact isFirm_of_kind h

/-- Nodes without declarations have no names. -/
theorem namesRead_of_none (h : declarationsOf nodes = []) (p : Token) (ts : List Token) :
    NamesRead p ts nodes :=
  ⟨[], .none p ts, by rw [h]; rfl⟩

/-- The names in a block are those of the node that the block belongs to. -/
theorem NamesRead.wrap {children : List Node} (h : NamesRead (ts.getLastD p) rest children)
    (hnone : node.declaration? = none) (hchildren : node.children = children) :
    NamesRead p (ts ++ rest) [node] := by
  obtain ⟨us, hnamed, hlabels⟩ := h
  refine ⟨us, hnamed.behind, ?_⟩
  rw [declarationsOf_cons hnone, hchildren, declarationsOf_nil, List.append_nil, hlabels]

/-- What is read of some tokens has its names there, and then everything is read or the last
token that was is firm. -/
def Consumes (p : Token) (ts : List Token) (nodes : List Node) (rest : List Token) : Prop :=
  ∃ read, ts = read ++ rest ∧ NamesRead p read nodes ∧
    (rest = [] ∨ (read.getLastD p).isFirm = true)

/-- What is consumed behind a stretch is consumed with the nodes of the stretch in front. -/
theorem Consumes.after {front : List Token} {ms : List Node} (h : NamesRead p front ms)
    (hrest : Consumes (front.getLastD p) ts nodes rest) :
    Consumes p (front ++ ts) (ms ++ nodes) rest := by
  obtain ⟨read, rfl, hread, hlast⟩ := hrest
  exact ⟨front ++ read, (List.append_assoc ..).symm, h.append hread, by rwa [getLastD_append]⟩

/-- A token that is passed over is firm. -/
theorem isFirm_of_passed (h : Passed n t.kind) : t.isFirm = true := by
  rcases h with hk | hk | hk | ⟨hk, -⟩ <;> exact isFirm_of_kind (by rw [hk]; rfl)

/-- A stray token is firm. -/
theorem isFirm_of_stray {fault : SyntaxFault} (h : Stray t.kind fault) : t.isFirm = true := by
  generalize hk : t.kind = kind at h
  cases h <;> exact isFirm_of_kind (by rw [hk]; rfl)

/-- Where the parser looks for a statement, whether a name could be there is settled. -/
theorem Settled.guarded (h : Settled n p ts) : Guarded n p ts := by
  refine h.imp_right (Or.imp_left fun hsettles => isFirm_of_kind ?_)
  revert hsettles
  cases p.kind <;> simp [TokenKind.settles, TokenKind.isFirm]

/-- The names of a declaration: its own, if it is custom, and those in its value. -/
theorem namesRead_declaration {semicolon : Option Token} {gap : List Token}
    (hp : p.isFirm = true) (hkind : t.kind = .ident) (hgap : ∃ behind, gap = run ++ behind) :
    ∀ front, NamesRead p (t :: (front ++ gap))
      [.declaration (declarationNode t colon run semicolon)] := by
  intro front
  obtain ⟨behind, rfl⟩ := hgap
  obtain ⟨after, hrun, -⟩ := valueTokens_append run
  obtain ⟨us, hnamed, hlabels⟩ := exists_named_references (front.getLastD t) (valueTokens run)
  have hvalue : Named t (front ++ (run ++ behind)) us := by
    rw [hrun, List.append_assoc]
    exact (hnamed.append_none _).behind
  have hoccurrences : (declarationNode t colon run semicolon).occurrences =
      (if t.isCustomName then [⟨t.value, t.span, t.span, .write⟩] else []) ++
        references (valueTokens run) := by
    rw [Declaration.occurrences, declarationNode_tokens]
    rfl
  rw [NamesRead, declarationsOf_declaration, declarationsOf_nil, List.flatMap_singleton,
    hoccurrences, List.map_append, hlabels]
  by_cases hcustom : t.isCustomName = true
  · rw [if_pos hcustom]
    exact ⟨t :: us, .take hp hkind hcustom hvalue, rfl⟩
  · rw [if_neg hcustom]
    exact ⟨us, .skip hvalue, rfl⟩

/-- A run that is parted from its property by a colon and blanks. -/
theorem declaration_eq_append {gap : List Token}
    (hcolon : ts.dropWhile (·.is .whitespace) = colon :: behindColon)
    (value : takeValue (behindColon.dropWhile (·.is .whitespace)) = (run, gap ++ rest)) :
    ∃ front, t :: ts = (t :: (front ++ run)) ++ (gap ++ rest) := by
  obtain ⟨blanks, hts, -⟩ := exists_blanks_append hcolon
  obtain ⟨blanks', hbehind, -⟩ := exists_blanks_append (takeRun_eq_append value)
  refine ⟨blanks ++ colon :: blanks', ?_⟩
  simp only [List.append_assoc, List.cons_append, hbehind, hts]

/-- Where a custom property could start in a block, the last token is firm. -/
theorem Guarded.isFirm (h : Guarded (n + 1) p (t :: ts)) (hkind : t.kind = .ident) :
    p.isFirm = true := by
  rcases h with hn | hp | hclose
  · cases hn
  · exact hp
  · have hno := hclose t rfl
    rw [hkind] at hno
    cases hno

/-- What a declaration takes of the tokens holds its names, up to where the next statement is
looked for. -/
theorem exists_declaration_names (hguard : Guarded (n + 1) p (t :: ts)) (hkind : t.kind = .ident)
    (hcolon : ts.dropWhile (·.is .whitespace) = colon :: behindColon)
    (value : takeValue (behindColon.dropWhile (·.is .whitespace)) = (run, left)) :
    ∃ front, t :: ts = front ++ (takeSemicolon left).2 ∧
      NamesRead p front [.declaration (declarationNode t colon run (takeSemicolon left).1)] ∧
        Guarded (n + 1) (front.getLastD p) (takeSemicolon left).2 := by
  obtain ⟨_, _, hhalts⟩ := takeRun_inside value
  obtain ⟨semi, hleft, hsettled, -⟩ := takeSemicolon_parts fun u hu => (hhalts u hu).2
  rw [hleft] at value
  obtain ⟨front, hts⟩ := @declaration_eq_append t _ _ _ _ _ _ hcolon value
  have hlist : t :: (front ++ run) ++ semi = t :: (front ++ (run ++ semi)) := by simp
  rw [← List.append_assoc] at hts
  refine ⟨t :: (front ++ run) ++ semi, hts, ?_, ?_⟩
  · rw [hlist]
    exact namesRead_declaration (hguard.isFirm hkind) hkind ⟨semi, rfl⟩ front
  · rw [getLastD_append]
    exact (hsettled (n + 1) _).guarded

/-- What a block that is nested too deeply takes of the tokens, with its head. -/
theorem Heads.exists_skipped (head : Heads n t ts opener inner make) (stop : Nat) (p : Token) :
    ∃ front, t :: ts = front ++ (skipBlock stop 1 inner).2 ∧
      Guarded n (front.getLastD p) (skipBlock stop 1 inner).2 := by
  obtain ⟨front, rfl, -⟩ := head.parts
  obtain ⟨skipped, hinner, hsettled, -⟩ := skipBlock_parts stop 1 inner
  refine ⟨t :: front ++ skipped, ?_, ?_⟩
  · rw [List.append_assoc, ← hinner, List.cons_append]
  · rw [getLastD_append]
    exact (hsettled n _).guarded

/-- What a statement without a block takes of the tokens. -/
theorem exists_broken_skipped (run : takePrelude depth ts = (head, left))
    (noBrace : ∀ u ∈ left.head?, u.kind ≠ .lbrace) (n : Nat) (t p : Token) :
    ∃ front, t :: ts = front ++ afterBroken n left ∧
      Guarded n (front.getLastD p) (afterBroken n left) := by
  obtain ⟨_, _, hhalts⟩ := takeRun_inside run
  obtain ⟨gone, hleft, hsettled, -⟩ :=
    afterBroken_parts (fun u hu => ⟨(hhalts u hu).2, noBrace u hu⟩) n
  refine ⟨t :: head ++ gone, ?_, ?_⟩
  · rw [List.append_assoc, ← hleft, takeRun_eq_append run, List.cons_append]
  · rw [getLastD_append]
    exact (hsettled _).guarded

/-- What is read of some tokens has its names there, in the order of the occurrences. -/
theorem Reads.consumes (h : Reads stop n ts nodes e rest errors) (hguard : Guarded n p ts) :
    Consumes p ts nodes rest := by
  induction h generalizing p with
  | finish | unclosed => exact ⟨[], rfl, namesRead_nil _ _, .inl rfl⟩
  | @close n t ts kind =>
    exact ⟨[t], rfl, namesRead_nil _ _, .inr (isFirm_concat (by rw [kind]; rfl) [] p)⟩
  | @stray t _ _ _ _ _ _ kind _ ih =>
    exact .after (namesRead_nil p [t]) (ih (.inr (.inl (isFirm_of_stray kind))))
  | @pass _ t _ _ _ _ _ kind _ ih =>
    exact .after (namesRead_nil p [t]) (ih (.inr (.inl (isFirm_of_passed kind))))
  | @comment _ t _ _ nodes _ _ kind _ ih =>
    have hnone : declarationsOf [.comment t.span] = [] := rfl
    exact .after (namesRead_of_none hnone p [t])
      (ih (.inr (.inl (isFirm_concat (by rw [kind]; rfl) [] p))))
  | declaration kind gap _ value _ ih =>
    obtain ⟨front, hts, hnames, hnext⟩ := exists_declaration_names hguard kind gap value
    rw [hts]
    exact .after hnames (ih hnext)
  | @statement n t ts left rest node nodes e first errors keyword rule _ ih =>
    obtain ⟨front, rfl, hsettled, -⟩ := rule.parts
    obtain ⟨hnone, hchildren⟩ := rule.no_declaration
    have hdeclarations : declarationsOf [node] = [] := by
      rw [declarationsOf_cons hnone, hchildren]
      rfl
    refine .after (namesRead_of_none hdeclarations p (t :: front)) (ih ?_)
    rw [List.getLastD_cons]
    exact (hsettled n).guarded
  | @block n t opener ts inner left rest make children nodes inside e first errors head _ _ _
      ihBody ih =>
    obtain ⟨front, rfl, hopener, -⟩ := head.parts
    obtain ⟨hnone, hchildren⟩ := head.no_declaration children ⟨opener.start, inside⟩
    have hinner : Settled (n + 1) ((t :: front).getLastD p) inner := by
      rw [List.getLastD_cons]
      exact .inr (.inl hopener)
    obtain ⟨read, rfl, hread, hlast⟩ := ihBody hinner.guarded
    have hnames := hread.wrap hnone hchildren
    rw [← List.append_assoc, ← List.cons_append, ← List.cons_append]
    refine .after hnames (ih ?_)
    rw [getLastD_append]
    rcases hlast with rfl | hlast
    · exact .inr (.inr (by simp))
    · exact .inr (.inl hlast)
  | @deepBlock n t opener ts inner rest make nodes e errors head _ _ ih =>
    obtain ⟨front, hts, hnext⟩ := head.exists_skipped stop p
    obtain ⟨hnone, hchildren⟩ := head.no_declaration []
      ⟨opener.start, (skipBlock stop 1 inner).1⟩
    have hdeclarations :
        declarationsOf [make [] ⟨opener.start, (skipBlock stop 1 inner).1⟩] = [] := by
      rw [declarationsOf_cons hnone, hchildren]
      rfl
    rw [hts]
    exact .after (namesRead_of_none hdeclarations p front) (ih hnext)
  | @broken n t ts head left _ _ _ _ _ _ _ run noBrace _ ih =>
    obtain ⟨front, hts, hnext⟩ := exists_broken_skipped run noBrace n t p
    rw [hts]
    exact .after (namesRead_nil p front) (ih hnext)

end CssWorkbench
