import CssWorkbench.Proofs.Layout.PrintedRun
import CssWorkbench.Proofs.Tree.Reading

/-!
# What a text is read as

A text writes some nodes if its tokens are read as nodes that say the same, whatever stands behind
it. Such texts can be put one behind the other, with any blanks between them, and between the
braces of a block.
-/

namespace CssWorkbench

variable {n : Nat} {ts us gap : List Token} {nodes made more : List Node}
  {text text' blanks ds : List Char} {make : List Node → Node}

/-- Whatever nodes are read behind the tokens, `nodes` are read in front of them. -/
def Conveys (n : Nat) (tokens : List Token) (nodes : List Node) : Prop :=
  ∀ {stop : Nat} {ts : List Token} {more : List Node} {e : Nat} {rest : List Token}
    {errors : List SyntaxError}, Reads stop n ts more e rest errors →
    Reads stop n (tokens ++ ts) (nodes ++ more) e rest errors

/-- No tokens convey no nodes. -/
theorem conveys_nil (n : Nat) : Conveys n [] [] := fun h => h

/-- Tokens in a row convey the nodes of both parts. -/
theorem Conveys.append (h : Conveys n ts nodes) (h' : Conveys n us more) :
    Conveys n (ts ++ us) (nodes ++ more) := by
  intro stop vs others e rest errors hreads
  rw [List.append_assoc, List.append_assoc]
  exact h (h' hreads)

/-- Blanks are read as nothing. -/
theorem conveys_blanks (n : Nat) (hgap : ∀ t ∈ gap, t.kind = .whitespace) : Conveys n gap [] := by
  induction gap with
  | nil => exact conveys_nil n
  | cons t gap ih =>
    intro stop ts more e rest errors hreads
    exact .pass (.inl (hgap t List.mem_cons_self))
      (ih (fun u hu => hgap u (List.mem_cons_of_mem _ hu)) hreads)

/-- Behind any blanks the text is read as nodes that say what `nodes` say; blanks at its end may go
with what follows. -/
def Writes (n : Nat) (text : List Char) (nodes : List Node) : Prop :=
  ∀ blanks, (∀ c ∈ blanks, Text.isAsciiBlank c = true) → ∀ ds offset,
    ∃ tokens offset' pending made,
      tokensFrom offset (blanks ++ (text ++ ds)) = tokens ++ tokensFrom offset' (pending ++ ds) ∧
      (∀ c ∈ pending, Text.isAsciiBlank c = true) ∧ Conveys n tokens made ∧
      bareNodes made = bareNodes nodes

/-- No text writes no nodes. -/
theorem writes_nil (n : Nat) : Writes n [] [] := fun blanks hblanks _ offset =>
  ⟨[], offset, blanks, [], rfl, hblanks, conveys_nil n, rfl⟩

/-- Texts in a row write the nodes of both parts. -/
theorem Writes.append (h : Writes n text nodes) (h' : Writes n text' more) :
    Writes n (text ++ text') (nodes ++ more) := by
  intro blanks hblanks ds offset
  obtain ⟨tokens, middle, pending, made, hscan, hpending, hconveys, hsame⟩ :=
    h blanks hblanks (text' ++ ds) offset
  obtain ⟨tokens', offset', pending', made', hscan', hpending', hconveys', hsame'⟩ :=
    h' pending hpending ds middle
  refine ⟨tokens ++ tokens', offset', pending', made ++ made', ?_, hpending',
    hconveys.append hconveys', ?_⟩
  · rw [List.append_assoc, hscan, hscan', List.append_assoc]
  · rw [bareNodes_append, bareNodes_append, hsame, hsame']

/-- Blanks write no nodes. -/
theorem writes_blanks (n : Nat) (hblanks : ∀ c ∈ blanks, Text.isAsciiBlank c = true) :
    Writes n blanks [] := by
  intro front hfront ds offset
  refine ⟨[], offset, front ++ blanks, [], ?_, fun c hc => ?_, conveys_nil n, rfl⟩
  · rw [List.append_assoc, List.nil_append]
  · exact (List.mem_append.mp hc).elim (hfront c) (hblanks c)

/-- Blanks may stand in front of a text. -/
theorem Writes.indented (h : Writes n text nodes)
    (hblanks : ∀ c ∈ blanks, Text.isAsciiBlank c = true) : Writes n (blanks ++ text) nodes :=
  (writes_blanks n hblanks).append h

/-- Blanks may stand behind a text. -/
theorem Writes.trailed (h : Writes n text nodes)
    (hblanks : ∀ c ∈ blanks, Text.isAsciiBlank c = true) : Writes n (text ++ blanks) nodes := by
  have happend := h.append (writes_blanks n hblanks)
  rwa [List.append_nil] at happend

/-- The text opens a block, and the node that is read of it says what `make` makes of its
children. -/
def Opens (n : Nat) (text : List Char) (make : List Node → Node) : Prop :=
  ∀ blanks, (∀ c ∈ blanks, Text.isAsciiBlank c = true) → ∀ ds offset,
    ∃ gap t front opener offset' node,
      tokensFrom offset (blanks ++ (text ++ ds)) = gap ++ t :: (front ++ tokensFrom offset' ds) ∧
      (∀ u ∈ gap, u.kind = .whitespace) ∧
      (∀ inner, Heads n t (front ++ inner) opener inner node) ∧
      ∀ children children' block, bareNodes children = bareNodes children' →
        (node children block).bare = (make children').bare

/-- Blanks may stand in front of what opens a block. -/
theorem Opens.indented (h : Opens n text make)
    (hblanks : ∀ c ∈ blanks, Text.isAsciiBlank c = true) : Opens n (blanks ++ text) make := by
  intro front hfront ds offset
  have hwhole := h (front ++ blanks) (fun c hc =>
    (List.mem_append.mp hc).elim (hfront c) (hblanks c)) ds offset
  rwa [List.append_assoc, ← List.append_assoc blanks] at hwhole

/-- A space and a brace that opens a block. -/
theorem tokensFrom_brace (ds : List Char) (offset : Nat) :
    ∃ space opener offset', tokensFrom offset (' ' :: '{' :: ds) =
        space :: opener :: tokensFrom offset' ds ∧ space.kind = .whitespace ∧
      opener.kind = .lbrace := by
  obtain ⟨space, middle, hscanSpace, hspace, -⟩ :=
    @tokensFrom_space ('{' :: ds) [' '] (by simp) isAsciiBlank_of_mem_space rfl offset
  obtain ⟨opener, offset', hscanOpener, hopener⟩ :=
    @tokensFrom_inert '{' (by decide) (by decide) ds middle
  refine ⟨space, opener, offset', ?_, hspace, hopener⟩
  rw [← hscanOpener, ← hscanSpace]
  rfl

/-- What opens a block, what stands in the block and a brace write the node with its children. -/
theorem Opens.writes (h : Opens n text make) (shallow : n < maxNesting)
    (hinner : Writes (n + 1) text' nodes) : Writes n (text ++ text' ++ ['}']) [make nodes] := by
  intro blanks hblanks ds offset
  obtain ⟨gap, t, front, opener, o₁, node, hscan, hgap, hheads, hnode⟩ :=
    h blanks hblanks (text' ++ '}' :: ds) offset
  obtain ⟨body, o₂, pending, made, hscanBody, hpending, hconveys, hsame⟩ :=
    hinner [] (by simp) ('}' :: ds) o₁
  obtain ⟨behind, o₃, hscanBehind, hbehind, -⟩ :=
    @tokensFrom_blanks ('}' :: ds) pending hpending rfl o₂
  obtain ⟨close, o₄, hscanClose, hclose⟩ := tokensFrom_inert (c := '}') (by decide) (by decide) ds o₃
  refine ⟨gap ++ t :: (front ++ (body ++ (behind ++ [close]))), o₄, [],
    [node made ⟨opener.start, close.stop⟩], ?_, by simp, ?_, ?_⟩
  · have htext : blanks ++ (text ++ text' ++ ['}'] ++ ds) =
        blanks ++ (text ++ (text' ++ '}' :: ds)) := by simp
    rw [List.nil_append] at hscanBody
    rw [htext, hscan, hscanBody, hscanBehind, hscanClose]
    simp
  · intro stop ts more e rest errors hreads
    have hend : Reads stop (n + 1) (close :: ts) [] close.stop ts [] := .close hclose
    have hbody : Reads stop (n + 1) (body ++ (behind ++ [close]) ++ ts) made close.stop ts [] := by
      have hread := hconveys (conveys_blanks _ hbehind hend)
      simpa using hread
    have hblock := Reads.block (hheads _) shallow hbody hreads
    have hwhole := conveys_blanks _ hgap hblock
    simpa using hwhole
  · rw [bareNodes, bareNodes, hnode made nodes _ hsame]
    rfl

end CssWorkbench
