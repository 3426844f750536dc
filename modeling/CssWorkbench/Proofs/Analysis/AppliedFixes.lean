import CssWorkbench.Proofs.Analysis.OfferedFixes
import CssWorkbench.Proofs.Text.Bytes
import CssWorkbench.Proofs.Tree.SourceCut

/-!
# What a fix changes

A fix that is applied alone changes the declaration that it is offered for, and nothing else. The
span that is taken out with a repeated declaration holds only blanks besides the declaration, so that
the tokens around it stay apart; a name that is suggested for another one is a word, and what stands
behind the other name does not go on with it.
-/

namespace CssWorkbench

variable {source : String} {front part behind blanks kept indent : List Char} {name : String}
  {place : TreeGap} {d : Declaration}

/-- The text of a source up to a place. -/
theorem chars_upTo (h : source.toList = front ++ behind) :
    (Span.mk 0 (Text.byteLength front)).chars source.toList = front := by
  have hchars := Span.chars_append [] front behind
  rwa [Text.byteLength_nil, Nat.zero_add, List.nil_append, ← h] at hchars

/-- The text of a source from a place on. -/
theorem chars_from (h : source.toList = front ++ behind) :
    (Span.mk (Text.byteLength front) (Text.size source)).chars source.toList = behind := by
  have hchars := Span.chars_append front behind []
  rwa [List.append_nil, ← Text.byteLength_append, ← h] at hchars

/-! ## What is taken out with a declaration -/

/-- A character of an indent is a blank of one byte. -/
theorem isAsciiBlank_of_isIndent {c : Char} (h : isIndent c = true) :
    Text.isAsciiBlank c = true ∧ c.utf8Size = 1 := by
  have hc : c = ' ' ∨ c = '\t' := by simpa [isIndent] using h
  rcases hc with rfl | rfl <;> exact ⟨rfl, rfl⟩

/-- Characters that indent a line take up one byte each. -/
theorem byteLength_of_isIndent {cs : List Char} (h : ∀ c ∈ cs, isIndent c = true) :
    Text.byteLength cs = cs.length := by
  induction cs with
  | nil => rfl
  | cons c cs ih =>
    obtain ⟨hc, hcs⟩ := List.forall_mem_cons.mp h
    rw [Text.byteLength_cons, (isAsciiBlank_of_isIndent hc).2, ih hcs, List.length_cons,
      Nat.add_comm]

/-- A line break at the front is blanks that can be taken off. -/
theorem exists_lineBreak (cs : List Char) : ∃ broken left, cs = broken ++ left ∧
    (∀ c ∈ broken, Text.isAsciiBlank c = true) ∧ lineBreakLength cs = Text.byteLength broken := by
  unfold lineBreakLength
  split
  · exact ⟨['\n'], _, rfl, isAsciiBlank_of_mem_newline, rfl⟩
  · exact ⟨['\r', '\n'], _, rfl, by simp [Text.isAsciiBlank], rfl⟩
  · exact ⟨[], cs, rfl, by simp, rfl⟩

/-- What indents the end of a text can be taken off it. -/
theorem exists_indent (cs : List Char) : ∃ kept indent, cs = kept ++ indent ∧
    (∀ c ∈ indent, Text.isAsciiBlank c = true) ∧
    Text.byteLength cs - (cs.reverse.takeWhile isIndent).length = Text.byteLength kept := by
  have hsplit := congrArg List.reverse (@List.takeWhile_append_dropWhile _ isIndent cs.reverse)
  have hindent := List.all_eq_true.mp (@List.all_takeWhile _ isIndent cs.reverse)
  rw [List.reverse_append, List.reverse_reverse] at hsplit
  generalize cs.reverse.takeWhile isIndent = taken at hsplit hindent ⊢
  generalize (cs.reverse.dropWhile isIndent).reverse = kept at hsplit
  have hlength := @byteLength_of_isIndent taken.reverse (by simpa using hindent)
  refine ⟨kept, taken.reverse, hsplit.symm, fun c hc => ?_, ?_⟩
  · exact (isAsciiBlank_of_isIndent (hindent c (List.mem_reverse.mp hc))).1
  · rw [← hsplit, Text.byteLength_append, hlength, List.length_reverse, Nat.add_sub_cancel]

/-- Besides a stretch of the source only blanks are taken out with it. -/
theorem exists_removed (h : source.toList = front ++ (part ++ behind)) :
    ∃ kept indent eaten left, front = kept ++ indent ∧ behind = eaten ++ left ∧
      (∀ c ∈ indent, Text.isAsciiBlank c = true) ∧ (∀ c ∈ eaten, Text.isAsciiBlank c = true) ∧
      removalSpan source ⟨Text.byteLength front, Text.byteLength (front ++ part)⟩ =
        ⟨Text.byteLength kept, Text.byteLength (front ++ part ++ eaten)⟩ := by
  have hfront := chars_upTo h
  rw [← List.append_assoc] at h
  have hbehind := chars_from h
  have hgap := List.all_eq_true.mp (@List.all_takeWhile _ isIndent behind)
  have hblank : ∀ c ∈ behind.takeWhile isIndent, Text.isAsciiBlank c = true := fun c hc =>
    (isAsciiBlank_of_isIndent (hgap c hc)).1
  have hlength := byteLength_of_isIndent hgap
  have hsplit := (@List.takeWhile_append_dropWhile _ isIndent behind).symm
  simp only [removalSpan, hfront, hbehind]
  generalize (front.reverse.dropWhile isIndent).head?.all (fun c => decide (c = '\n')) = alone
  cases alone with
  | false =>
    refine ⟨front, [], _, _, (List.append_nil _).symm, hsplit, by simp, hblank, ?_⟩
    rw [Text.byteLength_append _ (behind.takeWhile isIndent), hlength]
    rfl
  | true =>
    obtain ⟨kept, indent, hkept, hindent, hstart⟩ := exists_indent front
    obtain ⟨broken, left, hbreak, hbroken, hbreakLength⟩ :=
      exists_lineBreak (behind.dropWhile isIndent)
    refine ⟨kept, indent, behind.takeWhile isIndent ++ broken, left, hkept, ?_, hindent,
      List.forall_mem_append.mpr ⟨hblank, hbroken⟩, ?_⟩
    · rw [List.append_assoc, ← hbreak, ← hsplit]
    · rw [Text.byteLength_append _ (_ ++ broken), Text.byteLength_append _ broken, hlength,
        ← hbreakLength, ← Nat.add_assoc]
      simp only [if_true, hstart]

/-- The blanks that are taken out in front of a declaration stand behind the token in front of it. -/
theorem CutAround.indented {source : String} (h : CutAround source place d front blanks part behind)
    (hsplit : front ++ blanks = kept ++ indent)
    (hindent : ∀ c ∈ indent, Text.isAsciiBlank c = true) :
    ∃ gap, kept = front ++ gap ∧ ∀ c ∈ gap, Text.isAsciiBlank c = true := by
  obtain ⟨ts, _, _, hfront, -⟩ := h.reads
  obtain ⟨gap, rfl, rfl⟩ | ⟨taken, htaken, rfl⟩ := List.append_eq_append_iff.mp hsplit
  · exact ⟨gap, rfl, (List.forall_mem_append.mp h.blank).1⟩
  · obtain rfl | ⟨taken, c, rfl⟩ := List.eq_nil_or_concat taken
    · exact ⟨[], by rw [htaken]; simp, by simp⟩
    · -- The token in front would end with a blank.
      have hlast := hfront.solid c (by simp [htaken])
      rw [hindent c (by simp)] at hlast
      cases hlast

/-! ## What is suggested for a name -/

/-- The names of the known properties are words in lower case. -/
theorem isWord_of_mem_properties {p : Knowledge.Property} (hp : p ∈ Knowledge.properties) :
    IsWord p.name.toList ∧ Text.lower p.name = p.name := by
  have htable : Knowledge.properties.all (fun p =>
      let bytes := p.name.toByteArray.data.toList
      let chars := bytes.map fun b => Char.ofNat b.toNat
      bytes.all (fun b => b.toNat < 0x80) && startsIdent chars &&
        chars.all fun c => isNameChar c && c.toLower = c) = true := by decide +kernel
  have hself := List.all_eq_true.mp htable _ hp
  simp only [Text.toList_toByteArray, Bool.and_eq_true] at hself
  obtain ⟨⟨hascii, hident⟩, hall⟩ := hself
  have hlow : ∀ b ∈ Text.bytes p.name.toList, b.toNat < 0x80 := fun b hb =>
    of_decide_eq_true (List.all_eq_true.mp hascii b hb)
  rw [← Text.eq_map_of_forall_lt hlow] at hident hall
  simp only [List.all_eq_true, Bool.and_eq_true, decide_eq_true_eq] at hall
  refine ⟨⟨hident, List.all_eq_true.mpr fun c hc => (hall c hc).1⟩, ?_⟩
  have hlower : p.name.toList.map Char.toLower = p.name.toList :=
    (List.map_congr_left fun c hc => (hall c hc).2).trans (List.map_id _)
  rw [Text.lower, hlower, String.ofList_toList]

/-- What is suggested for a name is the name of a known property, and a word. -/
theorem known_of_mem_suggestProperties {misspelled : String}
    (h : name ∈ suggestProperties misspelled) :
    Knowledge.knowsProperty name = true ∧ IsWord name.toList := by
  rw [suggestProperties] at h
  obtain ⟨scored, hscored, rfl⟩ := List.mem_map.mp h
  have hnear := (List.mergeSort_perm _ _).mem_iff.mp (List.mem_of_mem_take hscored)
  obtain ⟨p, hp, rfl⟩ := List.mem_map.mp (List.mem_of_mem_filter hnear)
  have hknown := List.mem_of_mem_filter hp
  obtain ⟨hword, hlower⟩ := isWord_of_mem_properties hknown
  refine ⟨?_, hword⟩
  rw [Knowledge.knowsProperty, List.any_eq_true]
  exact ⟨p, hknown, by simp [hlower]⟩

/-! ## The edited source -/

/-- An edit that is made alone puts its text in the place of its span. -/
theorem toList_applyEdits_singleton {before : List Char}
    (h : source.toList = before ++ (part ++ behind)) (new : String) :
    (applyEdits source [⟨⟨Text.byteLength before, Text.byteLength (before ++ part)⟩, new⟩]).toList =
      before ++ (new.toList ++ behind) := by
  have hfront := chars_upTo h
  rw [← List.append_assoc] at h
  have hbehind : (Span.mk (Text.byteLength (before ++ part)) (Text.byteLength source.toList)).chars
      source.toList = behind := chars_from h
  rw [applyEdits, List.mergeSort_singleton, TextEdit.splice, if_neg (Nat.not_lt_zero _),
    TextEdit.splice, hfront, hbehind, String.toList_ofList, List.append_assoc]

/-- What stands in the place of a declaration when a fix for it is applied. -/
def Fix.replacement (d : Declaration) : Fix → List Node
  | .respell _ name => [.declaration { d with property := { d.property with value := name } }]
  | .remove .. => []

/-- What the title of a fix says of the declaration, which stands behind other nodes in its ruleset:
a name that may be meant is known and the name that is written is not, and what is taken out is set in
front of it already. -/
def Fix.HoldsOf (front : List Node) (d : Declaration) : Fix → Prop
  | .respell _ name =>
    Knowledge.knowsProperty d.name = false ∧ Knowledge.knowsProperty name = true
  | .remove _ name =>
    name = d.name ∧ ∃ e ∈ declarationsIn front, Text.sameIgnoringCase e.name d.name = true

/-- The fix that takes a declaration out makes no other change. -/
theorem CutAround.apply_remove (h : CutAround source place d front blanks part behind) :
    let after := applyEdits source [⟨removalSpan source d.span, ""⟩]
    unplaced (parse after).1.children = unplaced (place.fill []) ∧
      (parse after).2.map SyntaxError.fault = (parse source).2.map SyntaxError.fault := by
  have htext := h.text
  rw [← List.append_assoc] at htext
  obtain ⟨kept, indent, eaten, left, hsplit, rfl, hindent, heaten, hspan⟩ := exists_removed htext
  obtain ⟨gap, rfl, hgap⟩ := h.indented hsplit hindent
  rw [← h.span, hsplit, List.append_assoc, List.append_assoc _ indent] at hspan
  have hwhole : source.toList = front ++ gap ++ (indent ++ (part ++ eaten) ++ left) := by
    rw [htext, hsplit]
    simp
  refine h.remove heaten hgap ?_
  rw [hspan, toList_applyEdits_singleton hwhole, String.toList_empty, List.nil_append,
    List.append_assoc]

/-- The fix that gives a declaration another name makes no other change. -/
theorem CutAround.apply_respell (h : CutAround source place d front blanks part behind)
    (hword : IsWord name.toList) :
    let after := applyEdits source [⟨d.property.span, name⟩]
    unplaced (parse after).1.children = unplaced (place.fill
        [.declaration { d with property := { d.property with value := name } }]) ∧
      (parse after).2.map SyntaxError.fault = (parse source).2.map SyntaxError.fault := by
  obtain ⟨written, more, hsplit, hspan, hrename⟩ := h.rename hword
  have htext := h.text
  rw [hsplit, ← List.append_assoc] at htext
  rw [String.ofList_toList] at hrename
  refine hrename _ ?_
  rw [hspan, toList_applyEdits_singleton htext, List.append_assoc]

/-- Faults that are the same have the same wording. -/
theorem map_message_of_fault {new old : List SyntaxError}
    (h : new.map SyntaxError.fault = old.map SyntaxError.fault) :
    new.map SyntaxError.message = old.map SyntaxError.message := by
  have hmapped := congrArg (List.map SyntaxFault.message) h
  rwa [List.map_map, List.map_map] at hmapped

/-- A fix at an offset changes one declaration. It is the declaration of that offset, which stands
between other nodes in the block of a ruleset, and the fix does to it what its title says; the new
source is read as the old tree with this one change, places aside, and with the same errors. -/
structure Fix.ChangesOnly (fix : Fix) (source : String) (offset : Nat) (place : TreeGap)
    (rule : Ruleset) (front : List Node) (d : Declaration) (behind : List Node) : Prop where
  tree : (parse source).1.children = place.fill [.ruleset rule (front ++ .declaration d :: behind)]
  found : declarationAmong offset (parse source).1.children =
    some (declarationsIn (front ++ .declaration d :: behind), d)
  title : fix.HoldsOf front d
  changed : unplaced (parse (applyEdits source [fix.edit])).1.children =
    unplaced (place.fill [.ruleset rule (front ++ (fix.replacement d ++ behind))])
  errors : (parse (applyEdits source [fix.edit])).2.map SyntaxError.message =
    (parse source).2.map SyntaxError.message

/-- A fix that is applied alone changes the declaration that it is offered for as its title says, and
nothing else in the tree. -/
theorem fix_changes_only_declaration (source : String) (offset : Nat) (fix : Fix)
    (h : fix ∈ (parse source).1.fixesAt source offset) :
    ∃ place rule front d behind, fix.ChangesOnly source offset place rule front d behind := by
  cases hfound : declarationAmong offset (parse source).1.children with
  | none =>
    rw [Stylesheet.fixesAt, hfound] at h
    cases h
  | some found =>
    obtain ⟨siblings, d⟩ := found
    obtain ⟨rule, children, hbelow, rfl, hmem, -⟩ := declarationAmong_sound _ hfound
    obtain ⟨front, behind, rfl⟩ := List.append_of_mem (mem_declarationsIn_iff.mp hmem)
    have hdeclarations : declarationsIn (front ++ .declaration d :: behind) =
        declarationsIn front ++ d :: declarationsIn behind := by
      rw [declarationsIn, List.filterMap_append]
      rfl
    rw [fixesAt_of_found (parse_placed source) hbelow hdeclarations hfound] at h
    obtain ⟨place, hplace⟩ := hbelow.exists_gap
    have hinner := place.fill_within rule front behind
    obtain ⟨head, blanks, part, tail, hcut⟩ :=
      exists_cutAround ((hinner [.declaration d]).trans hplace)
    refine ⟨place, rule, front, d, behind, ?_⟩
    obtain ⟨-, ⟨⟨name, hname, rfl⟩, hunknown⟩ | ⟨rfl, hrepeats⟩⟩ := mem_fixes_iff.mp h
    · obtain ⟨hknown, hword⟩ := known_of_mem_suggestProperties hname
      obtain ⟨hnodes, hfaults⟩ := hcut.apply_respell hword
      rw [hinner] at hnodes
      exact ⟨hplace.symm, hfound, ⟨hunknown, hknown⟩, hnodes, map_message_of_fault hfaults⟩
    · obtain ⟨hnodes, hfaults⟩ := hcut.apply_remove
      rw [hinner] at hnodes
      exact ⟨hplace.symm, hfound, ⟨rfl, List.any_eq_true.mp hrepeats⟩, hnodes,
        map_message_of_fault hfaults⟩

/-- A property that is misspelled, and set again on a line of its own. -/
theorem fix_changes_only_declaration_of_both :
    (parse "a\x7bcolr:red;\n\tcolr:blue;\n\x7d").1.fixesAt
        "a\x7bcolr:red;\n\tcolr:blue;\n\x7d" 14 =
      [.respell ⟨13, 17⟩ "color", .remove ⟨12, 24⟩ "colr"] ∧
    (∃ place rule front d behind, (Fix.respell ⟨13, 17⟩ "color").ChangesOnly
        "a\x7bcolr:red;\n\tcolr:blue;\n\x7d" 14 place rule front d behind) ∧
    ∃ place rule front d behind, (Fix.remove ⟨12, 24⟩ "colr").ChangesOnly
        "a\x7bcolr:red;\n\tcolr:blue;\n\x7d" 14 place rule front d behind := by
  have hfixes : (parse "a\x7bcolr:red;\n\tcolr:blue;\n\x7d").1.fixesAt
        "a\x7bcolr:red;\n\tcolr:blue;\n\x7d" 14 =
      [.respell ⟨13, 17⟩ "color", .remove ⟨12, 24⟩ "colr"] := by decide +kernel
  refine ⟨hfixes, fix_changes_only_declaration _ 14 _ ?_, fix_changes_only_declaration _ 14 _ ?_⟩
  · rw [hfixes]
    exact List.mem_cons_self
  · rw [hfixes]
    exact List.mem_cons_of_mem _ List.mem_cons_self

end CssWorkbench
