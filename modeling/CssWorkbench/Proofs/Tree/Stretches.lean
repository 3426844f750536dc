import CssWorkbench.Proofs.Tree.ReadingProgress
import CssWorkbench.Proofs.Tree.ValueTokens

/-!
# What a step takes off the tokens

Each step of the parser takes a stretch off the front of the tokens. The last token of the stretch
settles that a statement may start behind it, unless a `}` comes next. What is left may be replaced:
the step is the same in front of any tokens that start like those that were left, and in front of
any others if these do not start with a `}`.
-/

namespace CssWorkbench

variable {halts : TokenKind → Bool} {count : Nat → TokenKind → Nat} {depth stop n e : Nat}
  {p t opener : Token} {ts us run left left' inner rest : List Token} {node : Node}
  {nodes made children : List Node} {make : List Node → Span → Node} {d : Declaration}
  {first errors : List SyntaxError}

/-- The kinds of a token behind which the parser looks for the next statement. -/
def TokenKind.settles : TokenKind → Bool
  | .lbrace | .rbrace | .semicolon | .comment | .cdo | .cdc => true
  | _ => false

/-- Whether a declaration could start here is settled by the token in front: none does outside
blocks or in front of a `}`. -/
def Settled (n : Nat) (p : Token) (ts : List Token) : Prop :=
  n = 0 ∨ p.kind.settles = true ∨ ∀ t ∈ ts.head?, t.kind = .rbrace

/-- Tokens that may stand where `left` stood: they start like it does, unless it goes on with
something other than a `}`. -/
def MayReplace (left left' : List Token) : Prop :=
  left'.head? = left.head? ∨ ∃ u ∈ left.head?, u.kind ≠ .rbrace

/-- The last token of two stretches is that of the second one, unless it is empty. -/
theorem getLastD_append (ts rest : List Token) (p : Token) :
    (ts ++ rest).getLastD p = rest.getLastD (ts.getLastD p) := by
  induction ts generalizing p with
  | nil => rfl
  | cons t ts ih => rw [List.cons_append, List.getLastD_cons, List.getLastD_cons, ih]

/-- A stretch that ends with a token that settles what comes next. -/
theorem settled_concat (h : t.kind.settles = true) (front : List Token) (n : Nat) (p : Token)
    (ts : List Token) : Settled n ((front ++ [t]).getLastD p) ts := by
  rw [getLastD_append]
  exact .inr (.inl h)

/-- Where nothing is left, nothing takes its place. -/
theorem MayReplace.eq_nil (h : MayReplace [] left') : left' = [] := by
  rcases h with hhead | ⟨u, hu, -⟩
  · exact List.head?_eq_none_iff.mp hhead
  · cases hu

/-- Where a `}` is left, it stays. -/
theorem MayReplace.head?_eq (h : MayReplace left left')
    (hclose : ∀ u ∈ left.head?, u.kind = .rbrace) : left'.head? = left.head? := by
  rcases h with hhead | ⟨u, hu, hkind⟩
  · exact hhead
  · exact absurd (hclose u hu) hkind

/-- What stands behind the same tokens may stand there. -/
theorem mayReplace_append {front : List Token} (hne : front ≠ []) (ts us : List Token) :
    MayReplace (front ++ ts) (front ++ us) := by
  obtain ⟨t, front, rfl⟩ := List.exists_cons_of_ne_nil hne
  exact .inl rfl

/-- Where the next token stands is seen from it. -/
theorem placeOf_congr (hhead : left'.head? = left.head?) (stop : Nat) :
    placeOf stop left' = placeOf stop left := by
  cases left with
  | nil => rw [List.head?_eq_none_iff.mp hhead]
  | cons u left =>
    obtain ⟨left', rfl⟩ := List.head?_eq_some_iff.mp hhead
    rfl

/-! The parts of a step. -/

/-- A run ends in front of any tokens that start like those that it left. -/
theorem takeRun_replaced (h : takeRun halts count depth ts = (run, left))
    (hhead : left'.head? = left.head?) :
    takeRun halts count depth (run ++ left') = (run, left') := by
  cases left with
  | nil =>
    obtain rfl : left' = [] := List.head?_eq_none_iff.mp hhead
    rwa [takeRun_eq_append h] at h
  | cons u left =>
    obtain ⟨left', rfl⟩ := List.head?_eq_some_iff.mp hhead
    obtain ⟨hinside, hhalts⟩ := takeRun_inside_zero h
    exact takeRun_of_inside hinside hhalts left'

/-- Whether a declaration starts is seen from the first token that is no blank. -/
theorem startsDeclaration_replaced {front : List Token} (hhead : left'.head? = left.head?)
    (hsolid : ∀ u ∈ left.head?, u.kind ≠ .whitespace)
    (h : StartsDeclaration t (front ++ left')) : StartsDeclaration t (front ++ left) := by
  obtain ⟨kind, colon, behind, hdrop, hcolon⟩ := h
  rw [List.dropWhile_append] at hdrop
  split at hdrop
  · rename_i hblank
    cases left with
    | nil =>
      obtain rfl : left' = [] := List.head?_eq_none_iff.mp hhead
      cases hdrop
    | cons u left =>
      obtain ⟨left', rfl⟩ := List.head?_eq_some_iff.mp hhead
      have hu : ¬ u.is .whitespace = true := by simpa [Token.is] using hsolid u rfl
      have hself : ∀ us, (u :: us).dropWhile (·.is .whitespace) = u :: us := fun us =>
        List.dropWhile_cons_of_neg hu
      rw [hself] at hdrop
      obtain ⟨rfl, -⟩ := List.cons.inj hdrop
      exact ⟨kind, u, left, by rw [List.dropWhile_append, if_pos hblank, hself], hcolon⟩
  · rename_i hsome
    rw [List.append_eq_cons_iff] at hdrop
    obtain ⟨hnil, -⟩ | ⟨front', hfront, -⟩ := hdrop
    · simp [hnil] at hsome
    · refine ⟨kind, colon, front' ++ left, ?_, hcolon⟩
      rw [List.dropWhile_append, if_neg hsome, hfront]
      rfl

/-- Behind a declaration its semicolon goes, or nothing is left or a `}` comes next. -/
theorem takeSemicolon_parts (h : ∀ u ∈ left.head?, haltsValue u.kind = true) :
    ∃ gone, left = gone ++ (takeSemicolon left).2 ∧
      (∀ n p, Settled n (gone.getLastD p) (takeSemicolon left).2) ∧
      ∀ after, MayReplace (takeSemicolon left).2 after → (gone ++ after).head? = left.head? ∧
        takeSemicolon (gone ++ after) = ((takeSemicolon left).1, after) := by
  cases left with
  | nil =>
    refine ⟨[], rfl, fun n p => .inr (.inr (by simp [takeSemicolon])), fun after hafter => ?_⟩
    obtain rfl := MayReplace.eq_nil hafter
    exact ⟨rfl, rfl⟩
  | cons u left =>
    rw [takeSemicolon]
    split
    · rename_i hk
      refine ⟨[u], rfl, fun n p => settled_concat (by rw [hk]; rfl) [] n p left,
        fun after _ => ⟨rfl, ?_⟩⟩
      rw [List.singleton_append, takeSemicolon, if_pos hk]
    · rename_i hk
      have hclose : u.kind = .rbrace := by
        have halts := h u rfl
        revert halts hk
        cases u.kind <;> simp [haltsValue]
      refine ⟨[], rfl, fun n p => .inr (.inr (by simpa using hclose)), fun after hafter => ?_⟩
      have hhead := hafter.head?_eq (by simpa using hclose)
      refine ⟨hhead, ?_⟩
      obtain ⟨after, rfl⟩ := List.head?_eq_some_iff.mp hhead
      rw [List.nil_append, takeSemicolon, if_neg hk]

/-- Behind a run that no block follows a `;` or outside blocks a `}` goes, or nothing is left or a
`}` comes next. -/
theorem afterBroken_parts (h : ∀ u ∈ left.head?, haltsPrelude u.kind = true ∧ u.kind ≠ .lbrace)
    (n : Nat) :
    ∃ gone, left = gone ++ afterBroken n left ∧
      (∀ p, Settled n (gone.getLastD p) (afterBroken n left)) ∧
      ∀ after, MayReplace (afterBroken n left) after → (gone ++ after).head? = left.head? ∧
        afterBroken n (gone ++ after) = after := by
  cases left with
  | nil =>
    refine ⟨[], rfl, fun p => .inr (.inr (by simp [afterBroken])), fun after hafter => ?_⟩
    obtain rfl := MayReplace.eq_nil hafter
    exact ⟨rfl, rfl⟩
  | cons u left =>
    obtain ⟨halts, hbrace⟩ := h u rfl
    rw [afterBroken]
    split
    · rename_i hwith
      refine ⟨[u], rfl, fun p => settled_concat ?_ [] n p left, fun after _ => ⟨rfl, ?_⟩⟩
      · revert halts hbrace
        cases u.kind <;> simp [haltsPrelude, TokenKind.settles]
      · rw [List.singleton_append, afterBroken, if_pos hwith]
    · rename_i hwithout
      have hclose : u.kind = .rbrace := by
        have hsemi : u.kind ≠ .semicolon := fun hk => hwithout (.inl hk)
        revert halts hbrace hsemi
        cases u.kind <;> simp [haltsPrelude]
      refine ⟨[], rfl, fun p => .inr (.inr (by simpa using hclose)), fun after hafter => ?_⟩
      have hhead := hafter.head?_eq (by simpa using hclose)
      refine ⟨hhead, ?_⟩
      obtain ⟨after, rfl⟩ := List.head?_eq_some_iff.mp hhead
      rw [List.nil_append, afterBroken, if_neg hwithout]

/-- A block that is skipped ends with a `}`, or everything is skipped. -/
theorem skipBlock_parts (stop depth : Nat) (ts : List Token) :
    ∃ gone, ts = gone ++ (skipBlock stop depth ts).2 ∧
      (∀ n p, Settled n (gone.getLastD p) (skipBlock stop depth ts).2) ∧
      ∀ after, MayReplace (skipBlock stop depth ts).2 after →
        skipBlock stop depth (gone ++ after) = ((skipBlock stop depth ts).1, after) := by
  induction ts generalizing depth with
  | nil =>
    refine ⟨[], rfl, fun n p => .inr (.inr (by simp [skipBlock])), fun after hafter => ?_⟩
    obtain rfl := MayReplace.eq_nil hafter
    rfl
  | cons t ts ih =>
    rw [skipBlock]
    split
    · rename_i hk
      obtain ⟨gone, hts, hsettled, hafter⟩ := ih (depth + 1)
      refine ⟨t :: gone, congrArg (t :: ·) hts, fun n p => ?_, fun after hreplace => ?_⟩
      · rw [List.getLastD_cons]
        exact hsettled n t
      · rw [List.cons_append, skipBlock, hk]
        exact hafter after hreplace
    · rename_i hk
      split
      · rename_i hdepth
        refine ⟨[t], rfl, fun n p => settled_concat (by rw [hk]; rfl) [] n p ts,
          fun after _ => ?_⟩
        rw [List.singleton_append, skipBlock, hk]
        simp only [if_pos hdepth]
      · rename_i hdepth
        obtain ⟨gone, hts, hsettled, hafter⟩ := ih (depth - 1)
        refine ⟨t :: gone, congrArg (t :: ·) hts, fun n p => ?_, fun after hreplace => ?_⟩
        · rw [List.getLastD_cons]
          exact hsettled n t
        · rw [List.cons_append, skipBlock, hk]
          simp only [if_neg hdepth]
          exact hafter after hreplace
    · rename_i hopen hclose
      obtain ⟨gone, hts, hsettled, hafter⟩ := ih depth
      refine ⟨t :: gone, congrArg (t :: ·) hts, fun n p => ?_, fun after hreplace => ?_⟩
      · rw [List.getLastD_cons]
        exact hsettled n t
      · rw [List.cons_append, skipBlock]
        split
        · exact absurd ‹_› hopen
        · exact absurd ‹_› hclose
        · exact hafter after hreplace

/-- An at-rule without a block ends with its semicolon or breaks off in front of a `}`. -/
theorem ReadsStatement.parts (h : ReadsStatement stop t ts node left errors) :
    ∃ gone, ts = gone ++ left ∧ (∀ n, Settled n (gone.getLastD t) left) ∧
      ∀ after, MayReplace left after → ReadsStatement stop t (gone ++ after) node after errors := by
  cases h with
  | @ended semicolon prelude _ run kind =>
    refine ⟨prelude ++ [semicolon], ?_, fun n => settled_concat (by rw [kind]; rfl) _ n t left,
      fun after _ => ?_⟩
    · rw [takeRun_eq_append run, List.append_assoc, List.singleton_append]
    · rw [List.append_assoc]
      exact .ended (takeRun_replaced run rfl) kind
  | @broken prelude _ run kind =>
    refine ⟨prelude, takeRun_eq_append run, fun n => .inr (.inr kind), fun after hafter => ?_⟩
    have hhead := hafter.head?_eq kind
    rw [← placeOf_congr hhead]
    exact .broken (takeRun_replaced run hhead) (by rwa [hhead])

/-- A head ends with the brace that opens its block. -/
theorem Heads.parts (h : Heads n t ts opener inner make) :
    ∃ gone, ts = gone ++ inner ∧ (gone.getLastD t).kind.settles = true ∧
      ∀ after, Heads n t (gone ++ after) opener after make := by
  have hopened : ∀ {head : List Token}, opener.kind = .lbrace → ts = head ++ opener :: inner →
      ts = head ++ [opener] ++ inner ∧ ((head ++ [opener]).getLastD t).kind.settles = true := by
    intro head brace hts
    refine ⟨by rw [hts, List.append_assoc, List.singleton_append], ?_⟩
    rw [getLastD_append, List.getLastD_cons, List.getLastD_nil, brace]
    rfl
  cases h with
  | @atRule _ _ prelude _ keyword run brace =>
    obtain ⟨hts, hsettles⟩ := hopened brace (takeRun_eq_append run)
    refine ⟨prelude ++ [opener], hts, hsettles, fun after => ?_⟩
    rw [List.append_assoc]
    exact .atRule keyword (takeRun_replaced run rfl) brace
  | bare brace =>
    exact ⟨[], rfl, by rw [List.getLastD_nil, brace]; rfl, fun after => .bare brace⟩
  | @ruleset _ _ head _ leads notBrace notDeclared run brace =>
    obtain ⟨hts, hsettles⟩ := hopened brace (takeRun_eq_append run)
    refine ⟨head ++ [opener], hts, hsettles, fun after => ?_⟩
    rw [List.append_assoc]
    refine .ruleset leads notBrace (fun hn hdeclared => notDeclared hn ?_)
      (takeRun_replaced run rfl) brace
    rw [takeRun_eq_append run]
    have hhead : (opener :: after).head? = (opener :: inner).head? := rfl
    exact startsDeclaration_replaced hhead (by simp [brace]) hdeclared

/-- The tokens `ts` start with the declaration, and behind it `left` is left. -/
inductive ReadsDeclaration : List Token → Declaration → List Token → Prop
  | intro {t colon : Token} {ts behindColon run left : List Token} (kind : t.kind = .ident)
      (gap : ts.dropWhile (·.is .whitespace) = colon :: behindColon)
      (colonKind : colon.kind = .colon)
      (value : takeValue (behindColon.dropWhile (·.is .whitespace)) = (run, left)) :
      ReadsDeclaration (t :: ts) (declarationNode t colon run (takeSemicolon left).1)
        (takeSemicolon left).2

/-- A declaration is read in front of what is read behind it. -/
theorem ReadsDeclaration.reads (h : ReadsDeclaration ts d left)
    (hbehind : Reads stop (n + 1) left nodes e rest errors) :
    Reads stop (n + 1) ts (.declaration d :: nodes) e rest errors := by
  cases h with
  | intro kind gap colonKind value => exact .declaration kind gap colonKind value hbehind

/-- A declaration starts with its name, and behind it stands a colon, blanks aside. -/
theorem ReadsDeclaration.name (h : ReadsDeclaration (t :: ts) d left) :
    d.property = t ∧ StartsDeclaration t ts := by
  cases h with
  | intro kind gap colonKind => exact ⟨rfl, kind, _, _, gap, colonKind⟩

/-- A declaration is read off a stretch of tokens, and so in front of what may stand in the place of
the others. -/
theorem ReadsDeclaration.parts (h : ReadsDeclaration ts d left) :
    ∃ gone, ts = gone ++ left ∧ (∀ n p, Settled n (gone.getLastD p) left) ∧
      ∀ after, MayReplace left after → ReadsDeclaration (gone ++ after) d after := by
  cases h with
  | @intro t colon ts behindColon run left kind gap colonKind value =>
    obtain ⟨blanks, hts, hblanks⟩ := exists_blanks_append gap
    obtain ⟨blanks', hbehind, hblanks'⟩ := exists_blanks_append (takeRun_eq_append value)
    obtain ⟨_, _, hhalts⟩ := takeRun_inside value
    obtain ⟨gone, hleft, hsettled, hafter⟩ := takeSemicolon_parts fun u hu => (hhalts u hu).2
    have hlist : ∀ left, t :: (blanks ++ colon :: (blanks' ++ run)) ++ left =
        t :: (blanks ++ colon :: (blanks' ++ (run ++ left))) := by simp
    refine ⟨t :: (blanks ++ colon :: (blanks' ++ run)) ++ gone, ?_, fun n p => ?_,
      fun after hreplace => ?_⟩
    · rw [List.append_assoc, ← hleft, hlist, hts, hbehind]
    · rw [getLastD_append]
      exact hsettled n _
    · obtain ⟨hhead, hsemi⟩ := hafter after hreplace
      have hfirst : ∀ u ∈ (run ++ (gone ++ after)).head?, u.kind ≠ .whitespace := by
        have horiginal := head?_dropBlanks behindColon
        rwa [takeRun_eq_append value, List.head?_append, ← hhead, ← List.head?_append] at horiginal
      have hvalue : takeValue ((blanks' ++ (run ++ (gone ++ after))).dropWhile (·.is .whitespace)) =
          (run, gone ++ after) := by
        rw [dropBlanks_append hblanks' hfirst]
        exact takeRun_replaced value hhead
      have hgap : (blanks ++ colon :: (blanks' ++ (run ++ (gone ++ after)))).dropWhile
          (·.is .whitespace) = colon :: (blanks' ++ (run ++ (gone ++ after))) :=
        dropBlanks_append hblanks (by simp [colonKind])
      have hdeclares := ReadsDeclaration.intro kind hgap colonKind hvalue
      rw [hsemi] at hdeclares
      rw [List.append_assoc, hlist]
      exact hdeclares

end CssWorkbench
