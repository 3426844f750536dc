import CssWorkbench.Proofs.Tree.Roles

/-!
# Related tokens are read in the same way

Each decision of the parser on some tokens is its decision on related ones, by one case for every
way to read. The declarations of the two trees are made of related tokens.
-/

namespace CssWorkbench

variable {R : Token → Token → Prop} {stop stop' n e : Nat} {t u opener : Token}
  {ts us left inner rest run : List Token} {node : Node} {nodes : List Node}
  {make : List Node → Span → Node} {errors : List SyntaxError}

/-- A declaration starts with related tokens or with neither. -/
theorem startsDeclaration_related (hR : RespectsRoles R) (htu : R t u) (h : List.Forall₂ R ts us) :
    StartsDeclaration u us ↔ StartsDeclaration t ts := by
  have hdrop := dropBlanks_related hR h
  unfold StartsDeclaration
  rw [hR.kind htu]
  generalize ts.dropWhile (·.is .whitespace) = vs at hdrop
  generalize us.dropWhile (·.is .whitespace) = ws at hdrop
  cases hdrop with
  | nil => simp
  | cons hcolon => simp [hR.kind hcolon]

/-- An at-rule without a block is read off related tokens, and leaves related ones. -/
theorem ReadsStatement.related (hR : RespectsRoles R) (stop' : Nat) (u : Token)
    (hts : List.Forall₂ R ts us) (h : ReadsStatement stop t ts node left errors) :
    ∃ node' left' errors', ReadsStatement stop' u us node' left' errors' ∧
      List.Forall₂ R left left' := by
  cases h with
  | ended run kind =>
    obtain ⟨prelude', left', hrun, -, hleft⟩ := exists_takeRun_related hR hts run
    obtain ⟨semicolon', rest', hsemi, hrest, rfl⟩ := List.forall₂_cons_left_iff.mp hleft
    exact ⟨_, _, _, .ended hrun ((hR.kind hsemi).trans kind), hrest⟩
  | broken run kind =>
    obtain ⟨prelude', left', hrun, -, hleft⟩ := exists_takeRun_related hR hts run
    refine ⟨_, _, _, .broken hrun fun v hv => ?_, hleft⟩
    obtain ⟨vs, rfl⟩ := List.head?_eq_some_iff.mp hv
    obtain ⟨v', vs', hv', -, rfl⟩ := List.forall₂_cons_right_iff.mp hleft
    exact (hR.kind hv').trans (kind v' rfl)

/-- The head of a rule is read off related tokens, and related ones are in its block. -/
theorem Heads.related (hR : RespectsRoles R) (htu : R t u) (hts : List.Forall₂ R ts us)
    (h : Heads n t ts opener inner make) :
    ∃ opener' inner' make', Heads n u us opener' inner' make' ∧ List.Forall₂ R inner inner' := by
  have hkind := hR.kind htu
  cases h with
  | atRule keyword run brace =>
    obtain ⟨prelude', left', hrun, -, hleft⟩ := exists_takeRun_related hR hts run
    obtain ⟨opener', inner', hopener, hinner, rfl⟩ := List.forall₂_cons_left_iff.mp hleft
    exact ⟨_, _, _, .atRule (hkind.trans keyword) hrun ((hR.kind hopener).trans brace), hinner⟩
  | bare brace => exact ⟨_, _, _, .bare (hkind.trans brace), hts⟩
  | ruleset leads notBrace notDeclared run brace =>
    obtain ⟨head', left', hrun, -, hleft⟩ := exists_takeRun_related hR hts run
    obtain ⟨opener', inner', hopener, hinner, rfl⟩ := List.forall₂_cons_left_iff.mp hleft
    refine ⟨_, _, _, .ruleset (hkind ▸ leads) (hkind ▸ notBrace) (fun hn hdecl => ?_)
      (hkind ▸ hrun) ((hR.kind hopener).trans brace), hinner⟩
    exact notDeclared hn ((startsDeclaration_related hR htu hts).mp hdecl)

/-- The declarations of a node that is none itself are related when those of its children are. -/
theorem related_wrap {node' : Node} {nodes' : List Node} (hnone : node.declaration? = none)
    (hnone' : node'.declaration? = none)
    (hbelow : List.Forall₂ (RelatedDeclarations R) (declarationsOf node.children)
      (declarationsOf node'.children))
    (h : List.Forall₂ (RelatedDeclarations R) (declarationsOf nodes) (declarationsOf nodes')) :
    List.Forall₂ (RelatedDeclarations R) (declarationsOf (node :: nodes))
      (declarationsOf (node' :: nodes')) := by
  rw [declarationsOf_cons hnone, declarationsOf_cons hnone']
  exact List.rel_append hbelow h

/-- Related tokens are read in the same way. -/
theorem Reads.related (hR : RespectsRoles R) (stop' : Nat)
    (h : Reads stop n ts nodes e rest errors) (hts : List.Forall₂ R ts us) :
    ∃ nodes' e' rest' errors', Reads stop' n us nodes' e' rest' errors' ∧
      List.Forall₂ R rest rest' ∧
        List.Forall₂ (RelatedDeclarations R) (declarationsOf nodes) (declarationsOf nodes') := by
  induction h generalizing us with
  | finish =>
    obtain rfl := List.forall₂_nil_left_iff.mp hts
    exact ⟨_, _, _, _, .finish, .nil, .nil⟩
  | unclosed =>
    obtain rfl := List.forall₂_nil_left_iff.mp hts
    exact ⟨_, _, _, _, .unclosed, .nil, .nil⟩
  | close kind =>
    obtain ⟨u, us, htu, hrest, rfl⟩ := List.forall₂_cons_left_iff.mp hts
    exact ⟨_, _, _, _, .close ((hR.kind htu).trans kind), hrest, .nil⟩
  | stray kind _ ih =>
    obtain ⟨u, us, htu, hrest, rfl⟩ := List.forall₂_cons_left_iff.mp hts
    obtain ⟨nodes', e', rest', errors', hreads, hleft⟩ := ih hrest
    exact ⟨_, _, _, _, .stray (hR.kind htu ▸ kind) hreads, hleft⟩
  | pass kind _ ih =>
    obtain ⟨u, us, htu, hrest, rfl⟩ := List.forall₂_cons_left_iff.mp hts
    obtain ⟨nodes', e', rest', errors', hreads, hleft⟩ := ih hrest
    exact ⟨_, _, _, _, .pass (hR.kind htu ▸ kind) hreads, hleft⟩
  | comment kind _ ih =>
    obtain ⟨u, us, htu, hrest, rfl⟩ := List.forall₂_cons_left_iff.mp hts
    obtain ⟨nodes', e', rest', errors', hreads, hleft, hdecls⟩ := ih hrest
    exact ⟨_, _, _, _, .comment ((hR.kind htu).trans kind) hreads, hleft,
      related_wrap rfl rfl .nil hdecls⟩
  | @declaration n t colon ts behindColon run left _ _ _ _ kind gap colonKind value _ ih =>
    obtain ⟨u, us, htu, hrest, rfl⟩ := List.forall₂_cons_left_iff.mp hts
    have hgap := dropBlanks_related hR hrest
    rw [gap] at hgap
    obtain ⟨colon', behind', hcolon, hbehind, gap'⟩ := List.forall₂_cons_left_iff.mp hgap
    obtain ⟨run', left', value', hrun, hleft⟩ :=
      exists_takeRun_related hR (dropBlanks_related hR hbehind) value
    obtain ⟨nodes', e', rest', errors', hreads, hleft', hdecls⟩ := ih (takeSemicolon_related hR hleft)
    refine ⟨_, _, _, _, .declaration ((hR.kind htu).trans kind) gap'
      ((hR.kind hcolon).trans colonKind) value' hreads, hleft', ?_⟩
    rw [declarationsOf_declaration, declarationsOf_declaration]
    refine .cons ⟨htu, ?_⟩ hdecls
    rw [declarationNode_tokens, declarationNode_tokens]
    exact valueTokens_related hR hrun
  | statement keyword rule _ ih =>
    obtain ⟨u, us, htu, hrest, rfl⟩ := List.forall₂_cons_left_iff.mp hts
    obtain ⟨node', left', first', hrule, hleft⟩ := rule.related hR stop' u hrest
    obtain ⟨nodes', e', rest', errors', hreads, hleft', hdecls⟩ := ih hleft
    obtain ⟨hnone, hchildren⟩ := rule.no_declaration
    obtain ⟨hnone', hchildren'⟩ := hrule.no_declaration
    refine ⟨_, _, _, _, .statement ((hR.kind htu).trans keyword) hrule hreads, hleft',
      related_wrap hnone hnone' ?_ hdecls⟩
    rw [hchildren, hchildren']
    exact .nil
  | @block n t opener ts inner left rest make children nodes inside e first errors head shallow _ _
      ihBody ih =>
    obtain ⟨u, us, htu, hrest, rfl⟩ := List.forall₂_cons_left_iff.mp hts
    obtain ⟨opener', inner', make', hhead, hinner⟩ := head.related hR htu hrest
    obtain ⟨children', inside', left', first', hbody, hleft, hbelow⟩ := ihBody hinner
    obtain ⟨nodes', e', rest', errors', hreads, hleft', hdecls⟩ := ih hleft
    obtain ⟨hnone, hchildren⟩ := head.no_declaration children ⟨opener.start, inside⟩
    obtain ⟨hnone', hchildren'⟩ := hhead.no_declaration children' ⟨opener'.start, inside'⟩
    refine ⟨_, _, _, _, .block hhead shallow hbody hreads, hleft',
      related_wrap hnone hnone' ?_ hdecls⟩
    rwa [hchildren, hchildren']
  | @deepBlock n t opener ts inner rest make nodes e errors head deep _ ih =>
    obtain ⟨u, us, htu, hrest, rfl⟩ := List.forall₂_cons_left_iff.mp hts
    obtain ⟨opener', inner', make', hhead, hinner⟩ := head.related hR htu hrest
    obtain ⟨nodes', e', rest', errors', hreads, hleft', hdecls⟩ :=
      ih (@skipBlock_related _ _ _ hR stop stop' 1 hinner)
    obtain ⟨hnone, hchildren⟩ := head.no_declaration [] ⟨opener.start, (skipBlock stop 1 inner).1⟩
    obtain ⟨hnone', hchildren'⟩ := hhead.no_declaration []
      ⟨opener'.start, (skipBlock stop' 1 inner').1⟩
    refine ⟨_, _, _, _, .deepBlock hhead deep hreads, hleft', related_wrap hnone hnone' ?_ hdecls⟩
    rw [hchildren, hchildren']
    exact .nil
  | broken leads notBrace notDeclared run noBrace _ ih =>
    obtain ⟨u, us, htu, hrest, rfl⟩ := List.forall₂_cons_left_iff.mp hts
    obtain ⟨head', left', hrun, -, hleft⟩ := exists_takeRun_related hR hrest run
    obtain ⟨nodes', e', rest', errors', hreads, hleft', hdecls⟩ := ih (afterBroken_related hR hleft)
    have hkind := hR.kind htu
    refine ⟨_, _, _, _, .broken (hkind ▸ leads) (hkind ▸ notBrace) (fun hn hdecl => ?_)
      (hkind ▸ hrun) (fun v hv => ?_) hreads, hleft', hdecls⟩
    · exact notDeclared hn ((startsDeclaration_related hR htu hrest).mp hdecl)
    · obtain ⟨vs, rfl⟩ := List.head?_eq_some_iff.mp hv
      obtain ⟨v', vs', hv', -, rfl⟩ := List.forall₂_cons_right_iff.mp hleft
      exact (hR.kind hv').trans_ne (noBrace v' rfl)

end CssWorkbench
