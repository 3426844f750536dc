import Mathlib
import CssWorkbench.Proofs.Text.Positions
import CssWorkbench.Text.Edit

/-!
# The order of edits

Edits whose spans do not overlap may be given in any order. They are sorted and put in from left to
right, while the source is copied. Made one at a time, the last span first, each of them finds its
span where it was given, as the edits behind it change nothing in front of it. Both make the same
text.
-/

namespace CssWorkbench

open Text

variable {source : String} {edits edits' : List TextEdit} {e f : TextEdit}
  {front before middle after as bs cs ds : List Char}

/-! ## One edit -/

/-- Fronts of a text that are equally long are the same. -/
theorem eq_of_byteLength_eq (h : as ++ bs = cs ++ ds) (hlength : byteLength as = byteLength cs) :
    as = cs := by
  have hback := before_byteLength_append as bs
  rw [h, hlength, before_byteLength_append] at hback
  exact hback.symm

/-- An edit of the middle part. -/
theorem apply_edit_of_parts {source : String} {before middle after : List Char}
    (h : source.toList = before ++ (middle ++ after)) (newText : String) :
    TextEdit.apply source ⟨⟨byteLength before, byteLength (before ++ middle)⟩, newText⟩ =
      String.ofList (before ++ newText.toList ++ after) := by
  have hfront := Span.chars_append [] before (middle ++ after)
  have hback := Span.chars_append (before ++ middle) after []
  rw [List.nil_append, byteLength_nil, Nat.zero_add] at hfront
  rw [List.append_nil, List.append_assoc, ← byteLength_append, List.append_assoc] at hback
  rw [TextEdit.apply, Text.size, h, hfront, hback]

namespace TextEdit

/-- The span of the edit goes from one place between characters of the source to another. -/
structure Fits (source : String) (e : TextEdit) : Prop where
  start : (String.Pos.Raw.mk e.span.start).IsValid source
  stop : (String.Pos.Raw.mk e.span.stop).IsValid source
  inOrder : e.span.start ≤ e.span.stop

/-- Behind a front of the source that it does not touch, an edit has some text in front of its span
and some behind. -/
theorem Fits.exists_parts (h : e.Fits source) (hsource : source.toList = front ++ after)
    (hle : byteLength front ≤ e.span.start) :
    ∃ middle part behind, source.toList = front ++ middle ++ (part ++ behind) ∧
      e.span.start = byteLength (front ++ middle) ∧
      e.span.stop = byteLength (front ++ middle ++ part) := by
  have hfront := isValid_of_toList_eq hsource
  obtain ⟨before, part, behind, hparts, hstart, hstop⟩ :=
    CssWorkbench.exists_parts h.start h.stop h.inOrder
  obtain ⟨_, middle, _, hmiddle, hbefore, hstart'⟩ := CssWorkbench.exists_parts hfront h.start hle
  obtain rfl := eq_of_byteLength_eq (hsource.symm.trans hmiddle) hbefore
  rw [← List.append_assoc] at hmiddle
  obtain rfl := eq_of_byteLength_eq (hparts.symm.trans hmiddle) (hstart.symm.trans hstart')
  exact ⟨middle, part, behind, hparts, hstart, hstop⟩

/-! ## Edits in order -/

/-- The span of the first edit ends before that of the second starts, or where it starts. -/
def Precedes (e f : TextEdit) : Prop := e.span.stop ≤ f.span.start

/-- The spans of the edits do not overlap. They may touch; but a place inside a span, behind its
start and in front of its end, overlaps it. -/
def Apart (e f : TextEdit) : Prop := e.Precedes f ∨ f.Precedes e

/-- The source with the edits made one at a time, the last of the list first. -/
def applyEach (source : String) (edits : List TextEdit) : String :=
  edits.foldr (fun e text => e.apply text) source

/-- Edits that follow one another behind a place leave the text in front of the place, and what they
make of the rest is what is copied from there on with the edits put in. -/
theorem toList_applyEach (hsource : source.toList = front ++ after)
    (hfits : ∀ e ∈ edits, e.Fits source) (hfrom : ∀ e ∈ edits, byteLength front ≤ e.span.start)
    (hordered : edits.Pairwise Precedes) :
    (applyEach source edits).toList = front ++ splice source.toList (byteLength front) edits := by
  induction edits generalizing front after with
  | nil =>
    have hrest := Span.chars_append front after []
    rw [List.append_nil, ← byteLength_append, ← hsource] at hrest
    rw [splice, hrest]
    exact hsource
  | cons e edits ih =>
    rw [List.forall_mem_cons] at hfits hfrom
    rw [List.pairwise_cons] at hordered
    obtain ⟨middle, part, behind, hparts, hstart, hstop⟩ := hfits.1.exists_parts hsource hfrom.1
    have hcopied := Span.chars_append front middle (part ++ behind)
    rw [← byteLength_append, ← hparts] at hcopied
    rw [← List.append_assoc] at hparts
    have hrest := ih hparts hfits.2 (fun f hf => hstop ▸ hordered.1 f hf) hordered.2
    rw [List.append_assoc] at hrest
    obtain ⟨⟨start, stop⟩, newText⟩ := e
    obtain rfl : start = _ := hstart
    obtain rfl : stop = _ := hstop
    have happly := apply_edit_of_parts hrest newText
    calc (applyEach source (⟨⟨_, _⟩, newText⟩ :: edits)).toList
      _ = front ++ middle ++ newText.toList ++
          splice source.toList (byteLength (front ++ middle ++ part)) edits := by
        rw [applyEach, List.foldr_cons]
        exact (congrArg String.toList happly).trans String.toList_ofList
      _ = front ++ splice source.toList (byteLength front) (⟨⟨_, _⟩, newText⟩ :: edits) := by
        rw [splice, if_neg (Nat.not_lt_of_le hfrom.1), hcopied]
        simp only [List.append_assoc]

/-- An edit still fits when those behind it are made. -/
theorem Fits.applyEach (h : e.Fits source) (hfits : ∀ f ∈ edits, f.Fits source)
    (hbehind : ∀ f ∈ edits, e.Precedes f) (hordered : edits.Pairwise Precedes) :
    e.Fits (applyEach source edits) := by
  obtain ⟨before, part, behind, hparts, hstart, hstop⟩ :=
    CssWorkbench.exists_parts h.start h.stop h.inOrder
  rw [← List.append_assoc] at hparts
  have happlied := toList_applyEach hparts hfits (fun f hf => hstop ▸ hbehind f hf) hordered
  refine ⟨?_, ?_, h.inOrder⟩
  · rw [List.append_assoc] at happlied
    rw [hstart]
    exact isValid_of_toList_eq happlied
  · rw [hstop]
    exact isValid_of_toList_eq happlied

/-! ## Edits in any order -/

/-- Of two edits that precede one another the spans are the same place. -/
theorem Precedes.span_eq (h : e.Precedes f) (h' : f.Precedes e) (he : e.Fits source)
    (hf : f.Fits source) : e.span = f.span := by
  obtain ⟨⟨start, stop⟩, _⟩ := e
  obtain ⟨⟨start', stop'⟩, _⟩ := f
  have hle : stop ≤ start' := h
  have hle' : stop' ≤ start := h'
  have hspan : start ≤ stop := he.inOrder
  have hspan' : start' ≤ stop' := hf.inOrder
  show Span.mk start stop = Span.mk start' stop'
  rw [Span.mk.injEq]
  omega

/-- Of two edits that do not overlap the one that is sorted to the front precedes the other. -/
theorem precedes_of_le (he : e.Fits source) (hf : f.Fits source) (hle : e.le f = true)
    (hapart : e.Apart f) : e.Precedes f := by
  rcases hapart with hbefore | hbehind
  · exact hbefore
  · have hspan := he.inOrder
    have hspan' := hf.inOrder
    unfold Precedes at hbehind ⊢
    simp only [le, Bool.or_eq_true, Bool.and_eq_true, decide_eq_true_eq] at hle
    omega

/-- Edits are apart in either order. -/
theorem Apart.symm (h : e.Apart f) : f.Apart e := Or.symm h

/-- The edits stand in the order of their spans when they are sorted. -/
theorem pairwise_mergeSort (hfits : ∀ e ∈ edits, e.Fits source) (hapart : edits.Pairwise Apart) :
    (edits.mergeSort le).Pairwise Precedes := by
  have hperm := List.mergeSort_perm edits le
  have hsorted : (edits.mergeSort le).Pairwise fun e f => e.le f = true := by
    apply List.pairwise_mergeSort
    · intro a b c hab hbc
      simp only [le, Bool.or_eq_true, Bool.and_eq_true, decide_eq_true_eq] at hab hbc ⊢
      omega
    · intro a b
      simp only [le, Bool.or_eq_true, Bool.and_eq_true, decide_eq_true_eq]
      omega
  have hapart' := (hperm.pairwise_iff Apart.symm).mpr hapart
  apply (hsorted.and hapart').imp_of_mem
  intro e f he hf h
  exact precedes_of_le (hfits e (hperm.mem_iff.mp he)) (hfits f (hperm.mem_iff.mp hf)) h.1 h.2

/-- There is one order of edits with different spans in which each precedes those behind it. -/
theorem eq_of_pairwise (hfits : ∀ e ∈ edits, e.Fits source)
    (hdiffer : (edits.map TextEdit.span).Nodup) (hperm : edits'.Perm edits)
    (h : edits.Pairwise Precedes) (h' : edits'.Pairwise Precedes) : edits' = edits := by
  apply List.Perm.eq_of_pairwise _ h' h hperm
  intro e f he hf hbefore hbehind
  have hmem := hperm.mem_iff.mp he
  have hspan := hbefore.span_eq hbehind (hfits e hmem) (hfits f hf)
  exact List.inj_on_of_nodup_map hdiffer hmem hf hspan

end TextEdit

open TextEdit in
/-- Edits that lie in the source and have different spans that do not overlap may be given in any
order: they make the same text. There is one order in which each precedes those behind it, and the
text is what comes of making the edits one at a time in that order, the last one first; each still
fits when its turn comes. -/
theorem applyEdits_eq_applyEach (hfits : ∀ e ∈ edits, e.Fits source)
    (hdiffer : edits.Pairwise fun e f => e.span ≠ f.span) (hapart : edits.Pairwise Apart) :
    (∀ edits', edits'.Perm edits → applyEdits source edits' = applyEdits source edits) ∧
    ∃ ordered, ordered.Perm edits ∧ ordered.Pairwise Precedes ∧
      (∀ other, other.Perm edits → other.Pairwise Precedes → other = ordered) ∧
      applyEdits source edits = applyEach source ordered ∧
      ∀ earlier e later, ordered = earlier ++ e :: later → e.Fits (applyEach source later) := by
  have hperm := List.mergeSort_perm edits le
  have hnodup : (edits.map TextEdit.span).Nodup := List.pairwise_map.mpr hdiffer
  have hordered := TextEdit.pairwise_mergeSort hfits hapart
  have hall : ∀ e ∈ edits.mergeSort le, e.Fits source := fun e he => hfits e (hperm.mem_iff.mp he)
  have hunique : ∀ other, other.Perm edits → other.Pairwise Precedes →
      other = edits.mergeSort le := by
    intro other hother horder
    have hdiffer' := (hperm.map TextEdit.span).nodup_iff.mpr hnodup
    exact eq_of_pairwise hall hdiffer' (hother.trans hperm.symm) hordered horder
  refine ⟨fun edits' hedits' => ?_, _, hperm, hordered, hunique, ?_, ?_⟩
  · have hfits' : ∀ e ∈ edits', e.Fits source := fun e he => hfits e (hedits'.mem_iff.mp he)
    have hapart' := (hedits'.pairwise_iff Apart.symm).mpr hapart
    have hsame := hunique _ ((List.mergeSort_perm edits' le).trans hedits')
      (TextEdit.pairwise_mergeSort hfits' hapart')
    rw [applyEdits, hsame, applyEdits]
  · have happlied := @toList_applyEach source _ [] source.toList rfl hall
      (fun _ _ => Nat.zero_le _) hordered
    rw [applyEdits, ← String.ofList_toList (s := applyEach source _), happlied]
    rfl
  · intro earlier e later hsplit
    rw [hsplit] at hordered hall
    obtain ⟨-, hlater, -⟩ := List.pairwise_append.mp hordered
    rw [List.pairwise_cons] at hlater
    rw [List.forall_mem_append, List.forall_mem_cons] at hall
    exact hall.2.1.applyEach hall.2.2 hlater.1 hlater.2

/-- A part that is taken out and an insertion at each of its ends, given from the last to the
first. -/
theorem applyEdits_eq_applyEach_of_touching :
    let edits : List TextEdit := [⟨⟨3, 3⟩, "z"⟩, ⟨⟨1, 3⟩, ""⟩, ⟨⟨1, 1⟩, "y"⟩]
    (∀ e ∈ edits, e.Fits "aéb") ∧ (edits.Pairwise fun e f => e.span ≠ f.span) ∧
      edits.Pairwise TextEdit.Apart ∧ applyEdits "aéb" edits = "ayzb" ∧
      applyEdits "aéb" edits.reverse = applyEdits "aéb" edits ∧
      applyEdits "aéb" edits = TextEdit.applyEach "aéb" edits.reverse := by
  intro edits
  have hplace (i : Nat) : (String.Pos.Raw.mk (byteLength ("aéb".toList.take i))).IsValid "aéb" :=
    isValid_of_toList_eq (List.take_append_drop i _).symm
  have hfits : ∀ e ∈ edits, e.Fits "aéb" := by
    simp only [edits, List.forall_mem_cons]
    exact ⟨⟨hplace 2, hplace 2, by decide⟩, ⟨hplace 1, hplace 2, by decide⟩,
      ⟨hplace 1, hplace 1, by decide⟩, List.forall_mem_nil _⟩
  have hdiffer : edits.Pairwise fun e f => e.span ≠ f.span := by decide
  have hapart : edits.Pairwise TextEdit.Apart := by
    simp [edits, TextEdit.Apart, TextEdit.Precedes]
  have hordered : edits.reverse.Pairwise TextEdit.Precedes := by
    simp [edits, TextEdit.Precedes]
  have hperm := List.reverse_perm edits
  obtain ⟨hany, ordered, -, -, hunique, heach, -⟩ := applyEdits_eq_applyEach hfits hdiffer hapart
  rw [← hunique _ hperm hordered] at heach
  exact ⟨hfits, hdiffer, hapart, by cbv, hany _ hperm, heach⟩

end CssWorkbench
