import CssWorkbench.Proofs.Tree.Declarations
import CssWorkbench.Proofs.Tree.Stretches
import CssWorkbench.Proofs.Tree.TreeGap

/-!
# Replacing a declaration

Wherever a declaration stands in the tree, the tokens can be cut in front of it. Other tokens may be
put behind the cut: if they are read as some nodes and then as what stands behind the declaration,
the whole is read as the tree with these nodes in its place, with the same errors and nothing else
changed.
-/

namespace CssWorkbench

variable {stop n m e : Nat} {p t opener : Token} {ts us left inner rest : List Token} {node : Node}
  {nodes made children : List Node} {make : List Node → Span → Node} {d : Declaration}
  {inside : Nat} {place : TreeGap} {first errors : List SyntaxError}

/-- A step of the parser: it takes a stretch off the front, makes nodes and errors of it and leaves
`left`. It does the same in front of what may stand where `left` did. -/
def Takes (stop n : Nat) (ts : List Token) (made : List Node) (first : List SyntaxError)
    (left : List Token) : Prop :=
  ∃ gone, ts = gone ++ left ∧ (∀ p, Settled n (gone.getLastD p) left) ∧
    ∀ after, MayReplace left after → ∀ nodes e rest errors, Reads stop n after nodes e rest errors →
      Reads stop n (gone ++ after) (made ++ nodes) e rest (first ++ errors)

/-! The steps. -/

/-- A stray token at the top is taken with its error. -/
theorem takes_stray {fault : SyntaxFault} (kind : Stray t.kind fault) :
    Takes stop 0 (t :: ts) [] [⟨fault, t.span⟩] ts :=
  ⟨[t], rfl, fun _ => .inl rfl, fun _ _ _ _ _ _ hreads => .stray kind hreads⟩

/-- A token that means nothing is taken. -/
theorem takes_pass (kind : Passed n t.kind) (hsolid : t.kind ≠ .whitespace) :
    Takes stop n (t :: ts) [] [] ts := by
  refine ⟨[t], rfl, fun p => settled_concat ?_ [] n p ts, fun _ _ _ _ _ _ hreads =>
    .pass kind hreads⟩
  rcases kind with hk | hk | hk | ⟨hk, -⟩
  · exact absurd hk hsolid
  all_goals rw [hk]; rfl

/-- A comment is taken as a node. -/
theorem takes_comment (kind : t.kind = .comment) :
    Takes stop n (t :: ts) [.comment t.span] [] ts :=
  ⟨[t], rfl, fun p => settled_concat (by rw [kind]; rfl) [] n p ts, fun _ _ _ _ _ _ hreads =>
    .comment kind hreads⟩

/-- A declaration is taken as a node. -/
theorem ReadsDeclaration.takes (h : ReadsDeclaration ts d left) :
    Takes stop (n + 1) ts [.declaration d] [] left := by
  obtain ⟨gone, hts, hsettled, hafter⟩ := h.parts
  exact ⟨gone, hts, hsettled (n + 1), fun after hreplace _ _ _ _ hreads =>
    (hafter after hreplace).reads hreads⟩

/-- An at-rule without a block is taken as a node. -/
theorem ReadsStatement.takes (keyword : t.kind = .atKeyword)
    (h : ReadsStatement stop t ts node left first) : Takes stop n (t :: ts) [node] first left := by
  obtain ⟨gone, hts, hsettled, hafter⟩ := h.parts
  refine ⟨t :: gone, congrArg (t :: ·) hts, fun p => ?_, fun after hreplace _ _ _ _ hreads => ?_⟩
  · rw [List.getLastD_cons]
    exact hsettled n
  · exact .statement keyword (hafter after hreplace) hreads

/-- A rule whose block lies too deep is taken with its error. -/
theorem Heads.takes_deep (head : Heads n t ts opener inner make) (deep : maxNesting ≤ n) :
    Takes stop n (t :: ts) [make [] ⟨opener.start, (skipBlock stop 1 inner).1⟩]
      [⟨.nestedTooDeeply, opener.span⟩] (skipBlock stop 1 inner).2 := by
  obtain ⟨gone, hts, -, hhead⟩ := head.parts
  obtain ⟨skipped, hinner, hsettled, hskip⟩ := skipBlock_parts stop 1 inner
  refine ⟨t :: (gone ++ skipped), ?_, fun p => ?_,
    fun after hreplace nodes e rest errors hreads => ?_⟩
  · rw [hts, List.cons_append, List.append_assoc, ← hinner]
  · rw [List.getLastD_cons, getLastD_append]
    exact hsettled n _
  · have hafter := hskip after hreplace
    have hbehind : Reads stop n (skipBlock stop 1 (skipped ++ after)).2 nodes e rest errors := by
      rwa [hafter]
    have hblock := Reads.deepBlock (hhead (skipped ++ after)) deep hbehind
    rw [hafter] at hblock
    rw [List.cons_append, List.append_assoc]
    exact hblock

/-- A prelude that no block follows is taken with its error. -/
theorem takes_broken {head : List Token} (leads : t.kind.leads = false)
    (notBrace : t.kind ≠ .lbrace) (notDeclared : 0 < n → ¬ StartsDeclaration t ts)
    (run : takePrelude (t.kind.inlineDepth 0) ts = (head, left))
    (noBrace : ∀ u ∈ left.head?, u.kind ≠ .lbrace) :
    Takes stop n (t :: ts) [] [⟨.expectedBlock, placeOf stop left⟩] (afterBroken n left) := by
  obtain ⟨_, _, hhalts⟩ := takeRun_inside run
  have hends : ∀ u ∈ left.head?, haltsPrelude u.kind = true ∧ u.kind ≠ .lbrace := fun u hu =>
    ⟨(hhalts u hu).2, noBrace u hu⟩
  obtain ⟨gone, hleft, hsettled, hafter⟩ := afterBroken_parts hends n
  refine ⟨t :: (head ++ gone), ?_, fun p => ?_, fun after hreplace _ _ _ _ hreads => ?_⟩
  · rw [List.cons_append, List.append_assoc, ← hleft, takeRun_eq_append run]
  · rw [List.getLastD_cons, getLastD_append]
    exact hsettled _
  · obtain ⟨hhead, hbroken⟩ := hafter after hreplace
    have hsolid : ∀ u ∈ left.head?, u.kind ≠ .whitespace := by
      intro u hu hblank
      have halts := (hends u hu).1
      rw [hblank] at halts
      cases halts
    rw [← placeOf_congr hhead, List.cons_append, List.append_assoc]
    refine .broken leads notBrace (fun hn hdeclared => notDeclared hn ?_)
      (takeRun_replaced run hhead) (by rwa [hhead]) (by rwa [hbroken])
    rw [takeRun_eq_append run]
    exact startsDeclaration_replaced hhead hsolid hdeclared

/-! What stands behind a block may be replaced. -/

/-- What is read up to `rest` is read in front of what may stand there. -/
def Framed (stop n : Nat) (ts : List Token) (nodes : List Node) (e : Nat) (rest : List Token)
    (errors : List SyntaxError) : Prop :=
  ∃ read, ts = read ++ rest ∧ (∀ m p, Settled m (read.getLastD p) rest) ∧
    ∀ after, MayReplace rest after → Reads stop n (read ++ after) nodes e after errors

/-- What may stand in the place of other tokens may do so behind a front. -/
theorem MayReplace.append (h : MayReplace ts us) (front : List Token) :
    MayReplace (front ++ ts) (front ++ us) := by
  cases front with
  | nil => exact h
  | cons t front => exact .inl rfl

/-- A step in front of a framed reading is framed with it. -/
theorem Takes.framed (h : Takes stop n ts made first left)
    (hbehind : Framed stop n left nodes e rest errors) :
    Framed stop n ts (made ++ nodes) e rest (first ++ errors) := by
  obtain ⟨gone, rfl, -, htakes⟩ := h
  obtain ⟨read, rfl, hsettled, hframe⟩ := hbehind
  refine ⟨gone ++ read, (List.append_assoc ..).symm, fun m p => ?_, fun after hreplace => ?_⟩
  · rw [getLastD_append]
    exact hsettled m _
  · rw [List.append_assoc]
    exact htakes _ (hreplace.append read) _ _ _ _ (hframe after hreplace)

/-- A rule is taken with its block when the reading of the block is framed. -/
theorem Heads.takes (head : Heads n t ts opener inner make) (shallow : n < maxNesting)
    (hbody : Framed stop (n + 1) inner children inside left first) :
    Takes stop n (t :: ts) [make children ⟨opener.start, inside⟩] first left := by
  obtain ⟨gone, hts, -, hhead⟩ := head.parts
  obtain ⟨read, hinner, hsettled, hframe⟩ := hbody
  refine ⟨t :: (gone ++ read), ?_, fun p => ?_, fun after hreplace _ _ _ _ hreads => ?_⟩
  · rw [hts, hinner, List.cons_append, List.append_assoc]
  · rw [List.getLastD_cons, getLastD_append]
    exact hsettled n _
  · rw [List.cons_append, List.append_assoc]
    exact .block (hhead _) shallow (hframe after hreplace) hreads

/-- Every reading is framed. -/
theorem Reads.framed (h : Reads stop n ts nodes e rest errors) :
    Framed stop n ts nodes e rest errors := by
  have hend : ∀ {n nodes e errors}, Reads stop n [] nodes e [] errors →
      Framed stop n [] nodes e [] errors := by
    refine fun hreads => ⟨[], rfl, fun m p => .inr (.inr (by simp)), fun after hreplace => ?_⟩
    rwa [MayReplace.eq_nil hreplace]
  induction h with
  | finish => exact hend .finish
  | unclosed => exact hend .unclosed
  | @close n t ts kind =>
    exact ⟨[t], rfl, fun m p => settled_concat (by rw [kind]; rfl) [] m p ts,
      fun after _ => .close kind⟩
  | stray kind _ ih => exact (takes_stray kind).framed ih
  | @pass n t ts rest nodes e errors kind _ ih =>
    obtain ⟨read, rfl, hsettled, hframe⟩ := ih
    refine ⟨t :: read, rfl, fun m p => ?_, fun after hreplace => .pass kind (hframe after hreplace)⟩
    rw [List.getLastD_cons]
    exact hsettled m t
  | comment kind _ ih => exact (takes_comment kind).framed ih
  | declaration kind gap colonKind value _ ih =>
    exact (ReadsDeclaration.intro kind gap colonKind value).takes.framed ih
  | statement keyword rule _ ih => exact (rule.takes keyword).framed ih
  | block head shallow _ _ ihBody ih => exact (head.takes shallow ihBody).framed ih
  | deepBlock head deep _ ih => exact (head.takes_deep deep).framed ih
  | broken leads notBrace notDeclared run noBrace _ ih =>
    exact (takes_broken leads notBrace notDeclared run noBrace).framed ih

/-! The cut in front of a declaration. -/

/-- The tokens `us` are read as `made` and then as what is read of `left`. -/
def ReadsAhead (stop n : Nat) (us : List Token) (made : List Node) (left : List Token) : Prop :=
  ∀ nodes e rest errors, Reads stop n left nodes e rest errors →
    Reads stop n us (made ++ nodes) e rest errors

/-- The tokens can be cut in front of the declaration at a place of the tree and the blanks there.
The token in front of the cut, which is `p` if there is none, settles that a statement starts. -/
def CutAt (stop n : Nat) (p : Token) (ts : List Token) (place : TreeGap) (d : Declaration)
    (e : Nat) (rest : List Token) (errors : List SyntaxError) : Prop :=
  ∃ front gap tokens left m, ts = front ++ (gap ++ tokens) ∧ (∀ u ∈ gap, u.kind = .whitespace) ∧
    (front.getLastD p).kind.settles = true ∧ ReadsDeclaration tokens d left ∧
    ∀ us made, ReadsAhead stop (m + 1) us made left →
      Reads stop n (front ++ us) (place.fill made) e rest errors

/-- The tokens in front of which a cut is made do not start with a `}`. -/
theorem ReadsDeclaration.mayReplace_cut (h : ReadsDeclaration ts d left) {front gap : List Token}
    (hgap : ∀ u ∈ gap, u.kind = .whitespace) (us : List Token) :
    MayReplace (front ++ (gap ++ ts)) (front ++ us) := by
  by_cases hne : front = []
  · subst hne
    cases h with
    | @intro t colon ts _ _ _ kind =>
      cases gap with
      | nil => exact .inr ⟨t, rfl, by rw [kind]; decide⟩
      | cons u gap => exact .inr ⟨u, rfl, by rw [hgap u List.mem_cons_self]; decide⟩
  · exact mayReplace_append hne _ us

/-- A cut behind a step is a cut of the whole. -/
theorem Takes.cutAt {place' : TreeGap} (h : Takes stop n ts made first left)
    (hplace : ∀ new, place'.fill new = made ++ place.fill new)
    (hbehind : ∀ p, Settled n p left → CutAt stop n p left place d e rest errors) :
    CutAt stop n p ts place' d e rest (first ++ errors) := by
  obtain ⟨gone, hts, hsettled, htakes⟩ := h
  obtain ⟨front, gap, tokens, left', m, rfl, hgap, hfront, hdeclares, hreads⟩ :=
    hbehind _ (hsettled p)
  refine ⟨gone ++ front, gap, tokens, left', m, ?_, hgap, ?_, hdeclares, fun us made hus => ?_⟩
  · rw [hts, List.append_assoc]
  · rwa [getLastD_append]
  · rw [hplace, List.append_assoc]
    exact htakes _ (hdeclares.mayReplace_cut hgap us) _ _ _ _ (hreads us made hus)

/-- The node of a block with other nodes in the block. -/
theorem Heads.withChildren_make (h : Heads n t ts opener inner make) (block : Span) :
    (make children block).withChildren made = make made block := by
  cases h <;> rfl

/-- A node that is no declaration differs from every declaration. -/
theorem Node.declaration_ne (h : node.declaration? = none) : .declaration d ≠ node := by
  rintro rfl
  cases h

/-- Blanks in front go with the gap in front of the cut, or in front of what stands there. -/
theorem CutAt.pass (h : CutAt stop n p ts place d e rest errors) (kind : t.kind = .whitespace) :
    CutAt stop n p (t :: ts) place d e rest errors := by
  obtain ⟨front, gap, tokens, left, m, rfl, hgap, hfront, hdeclares, hreads⟩ := h
  cases front with
  | nil =>
    exact ⟨[], t :: gap, tokens, left, m, rfl, List.forall_mem_cons.mpr ⟨kind, hgap⟩, hfront,
      hdeclares, hreads⟩
  | cons u front =>
    refine ⟨t :: u :: front, gap, tokens, left, m, rfl, hgap, ?_, hdeclares, fun us made hus => ?_⟩
    · rwa [List.getLastD_cons, List.getLastD_cons] at *
    · exact .pass (.inl kind) (hreads us made hus)

/-- The cut in the body of a block. -/
theorem CutAt.block {place' : TreeGap} {left : List Token} {nodes : List Node}
    (head : Heads n t ts opener inner make) (shallow : n < maxNesting)
    (hplace : ∀ new, place'.fill new = make (place.fill new) ⟨opener.start, inside⟩ :: nodes)
    (hbehind : Reads stop n left nodes e rest errors)
    (hbody : ∀ p, Settled (n + 1) p inner → CutAt stop (n + 1) p inner place d inside left first) :
    CutAt stop n p (t :: ts) place' d e rest (first ++ errors) := by
  obtain ⟨gone, rfl, hopener, hhead⟩ := head.parts
  obtain ⟨front, gap, tokens, left', m, rfl, hgap, hfront, hdeclares, hreads⟩ :=
    hbody _ (.inr (.inl hopener))
  refine ⟨t :: (gone ++ front), gap, tokens, left', m, ?_, hgap, ?_, hdeclares,
    fun us made hus => ?_⟩
  · rw [List.cons_append, List.append_assoc]
  · rwa [List.getLastD_cons, getLastD_append]
  · rw [hplace, List.cons_append, List.append_assoc]
    exact .block (hhead _) shallow (hreads us made hus) hbehind

/-- Wherever a declaration stands in the tree, the tokens can be cut in front of it. -/
theorem Reads.cutAt (h : Reads stop n ts nodes e rest errors) (hsettled : Settled n p ts)
    (hplace : place.fill [.declaration d] = nodes) : CutAt stop n p ts place d e rest errors := by
  induction h generalizing p place with
  | finish | unclosed | close =>
    exact absurd hplace (place.fill_ne_nil (List.cons_ne_nil (Node.declaration d) []))
  | stray kind _ ih => exact (takes_stray kind).cutAt (fun _ => rfl) fun _ hp => ih hp hplace
  | @pass n t ts rest nodes e errors kind _ ih =>
    by_cases hblank : t.kind = .whitespace
    · refine (ih ?_ hplace).pass hblank
      exact hsettled.imp_right (Or.imp_right fun hclose => absurd (hclose t rfl) (by simp [hblank]))
    · exact (takes_pass kind hblank).cutAt (fun _ => rfl) fun _ hp => ih hp hplace
  | comment kind _ ih =>
    obtain ⟨inner, rfl, hinner⟩ := TreeGap.exists_after hplace nofun rfl
    exact (takes_comment kind).cutAt (fun _ => rfl) fun _ hp => ih hp hinner
  | @declaration n t colon ts _ _ _ _ _ _ _ kind gap colonKind value hbehind ih =>
    have hdeclares := ReadsDeclaration.intro kind gap colonKind value
    obtain ⟨rfl, hnode⟩ | ⟨inner, rfl, hinner⟩ | ⟨inner, hinner, -⟩ :=
      TreeGap.fill_eq_cons hplace
    · cases hnode
      refine ⟨[], [], t :: ts, _, n, rfl, by simp, ?_, hdeclares, fun us made hus => ?_⟩
      · rcases hsettled with hn | hp | hclose
        · cases hn
        · exact hp
        · exact absurd (hclose t rfl) (by simp [kind])
      · exact hus _ _ _ _ hbehind
    · exact hdeclares.takes.cutAt (fun _ => rfl) fun _ hp => ih hp hinner
    · exact absurd hinner (inner.fill_ne_nil (List.cons_ne_nil (Node.declaration d) []))
  | statement keyword rule _ ih =>
    obtain ⟨hnone, hleaf⟩ := rule.no_declaration
    obtain ⟨inner, rfl, hinner⟩ :=
      TreeGap.exists_after hplace (Node.declaration_ne hnone) hleaf
    exact (rule.takes keyword).cutAt (fun _ => rfl) fun _ hp => ih hp hinner
  | @block n t opener ts inner left rest make children nodes inside e first errors head shallow body
      hbehind ihBody ih =>
    obtain ⟨hnone, hchildren⟩ := head.no_declaration children ⟨opener.start, inside⟩
    obtain ⟨-, hnode⟩ | ⟨behind, rfl, hinner⟩ | ⟨inner', hinner, hfill⟩ :=
      TreeGap.fill_eq_cons hplace
    · exact absurd hnode (Node.declaration_ne hnone)
    · exact (head.takes shallow body.framed).cutAt (fun _ => rfl) fun _ hp => ih hp hinner
    · refine .block head shallow (fun new => ?_) hbehind fun _ hp =>
        ihBody hp (hinner.trans hchildren)
      rw [hfill, head.withChildren_make]
  | deepBlock head deep _ ih =>
    obtain ⟨hnone, hleaf⟩ := head.no_declaration [] _
    obtain ⟨inner, rfl, hinner⟩ :=
      TreeGap.exists_after hplace (Node.declaration_ne hnone) hleaf
    exact (head.takes_deep deep).cutAt (fun _ => rfl) fun _ hp => ih hp hinner
  | broken leads notBrace notDeclared run noBrace _ ih =>
    exact (takes_broken leads notBrace notDeclared run noBrace).cutAt (fun _ => rfl)
      fun _ hp => ih hp hplace

/-! What is put behind the cut. -/

/-- A rule does not start with a blank. -/
theorem Heads.not_blank (h : Heads n t ts opener inner make) : t.kind ≠ .whitespace := by
  intro blank
  cases h with
  | atRule kind | bare kind | ruleset kind =>
    rw [blank] at kind
    cases kind

/-- Blanks in front of a statement are passed over. -/
theorem Reads.of_blank (h : Reads stop n (t :: ts) nodes e rest errors)
    (blank : t.kind = .whitespace) : Reads stop n ts nodes e rest errors := by
  cases h with
  | pass _ hbehind => exact hbehind
  | stray kind | close kind | comment kind | declaration kind | statement kind | broken kind =>
    rw [blank] at kind
    cases kind
  | block head | deepBlock head => exact absurd blank head.not_blank

/-- Blanks at the front mean nothing and may be dropped. -/
theorem Reads.dropBlanks (h : Reads stop n ts nodes e rest errors) :
    Reads stop n (ts.dropWhile (·.is .whitespace)) nodes e rest errors := by
  induction ts with
  | nil => exact h
  | cons t ts ih =>
    rw [List.dropWhile_cons]
    split
    · rename_i hblank
      exact ih (h.of_blank (by simpa [Token.is] using hblank))
    · exact h

/-- Blanks may be put at the front and mean nothing there. -/
theorem Reads.blanks {gap : List Token} (hgap : ∀ u ∈ gap, u.kind = .whitespace)
    (h : Reads stop n ts nodes e rest errors) : Reads stop n (gap ++ ts) nodes e rest errors := by
  induction gap with
  | nil => exact h
  | cons u gap ih =>
    obtain ⟨kind, hgap⟩ := List.forall_mem_cons.mp hgap
    exact .pass (.inl kind) (ih hgap)

/-- Blanks may take the place of a declaration and of the blanks behind it. -/
theorem readsAhead_blanks {gap : List Token} (hgap : ∀ u ∈ gap, u.kind = .whitespace) :
    ReadsAhead stop n (gap ++ left.dropWhile (·.is .whitespace)) [] left :=
  fun _ _ _ _ h => h.dropBlanks.blanks hgap

/-- A declaration in front of the same tokens may take the place of another one. -/
theorem ReadsDeclaration.readsAhead {gap : List Token} (h : ReadsDeclaration ts d left)
    (hgap : ∀ u ∈ gap, u.kind = .whitespace) :
    ReadsAhead stop (n + 1) (gap ++ ts) [.declaration d] left :=
  fun _ _ _ _ hbehind => (h.reads hbehind).blanks hgap

/-- With another name in the place of its own a declaration is another one in nothing else. -/
theorem ReadsDeclaration.rename {u : Token} (h : ReadsDeclaration (t :: ts) d left)
    (kind : u.kind = .ident) (hspan : u.span = t.span) :
    ReadsDeclaration (u :: ts) { d with property := u } left := by
  cases h with
  | @intro _ colon _ _ run left _ gap colonKind value =>
    have hrenamed := ReadsDeclaration.intro kind gap colonKind value
    rwa [declarationNode, Token.start, hspan] at hrenamed

end CssWorkbench
