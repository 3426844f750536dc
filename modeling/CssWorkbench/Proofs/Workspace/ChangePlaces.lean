import CssWorkbench.Proofs.Text.EditOrder
import CssWorkbench.Workspace.Change

/-!
# Places that go out and come back

A range that is sent to the editor counts lines at line feeds alone. A range that comes back is
looked up in a buffer whose lines end at other characters as well, and in front of a carriage
return. Both agree on a place if no line in front of it ends in another way than the line feed does
that closes it, a carriage return apart; the last character may be one that only the buffer takes
for the end of a line. At any other place the buffer finds a place further in front.
-/

namespace CssWorkbench

open Text

variable {c : Char} {cs before after : List Char} {line column : Nat}

/-- Whether the end of a text is found again: its lines end in a line feed, with or without a
carriage return in front. Only at the very end may there be another character that ends a line. -/
def countsLinesAlike : List Char → Bool
  | [] => true
  | '\r' :: '\n' :: cs => countsLinesAlike cs
  | c :: cs =>
    if c = '\n' then countsLinesAlike cs
    else if endsLine c then c ≠ '\r' && cs.isEmpty
    else countsLinesAlike cs

/-! ## What the buffer passes -/

/-- A character that ends no line is neither a line feed nor a carriage return. -/
theorem ne_of_not_endsLine (h : endsLine c = false) : c ≠ '\n' ∧ c ≠ '\r' := by
  simp only [endsLine, Bool.or_eq_false_iff, decide_eq_false_iff_not] at h
  exact ⟨h.1.1.1.1.1.1, h.1.1.1.2⟩

/-- A line ends with a character that ends lines, unless that is a carriage return in front of a
line feed. -/
theorem charsTo_ending (hc : endsLine c = true) (hcrlf : c = '\r' → cs.head? ≠ some '\n') :
    charsTo column (line + 1) (c :: cs) = 1 + charsTo column line cs := by
  rw [charsTo, if_pos hc]
  rintro ds rfl rfl
  exact hcrlf rfl rfl

/-- A character that ends no line is passed on the way to a later line. -/
theorem charsTo_other (hc : endsLine c = false) :
    charsTo column (line + 1) (c :: cs) = 1 + charsTo column (line + 1) cs := by
  rw [charsTo, hc, if_neg Bool.false_ne_true]
  rintro ds rfl -
  cases hc

/-- In a line with a line feed the buffer goes no further than to the line feed. -/
theorem charsToColumn_lt (h : '\n' ∈ before) :
    charsToColumn column (before ++ after) < before.length := by
  induction before generalizing column with
  | nil => cases h
  | cons c cs ih =>
    rw [List.cons_append, charsToColumn, List.length_cons]
    split
    · exact Nat.succ_pos _
    · next hstop =>
      have hc : '\n' ≠ c := fun heq => by simp [← heq] at hstop
      have hmem : '\n' ∈ cs := (List.mem_cons.mp h).resolve_left hc
      split
      · have hpos := List.length_pos_of_mem hmem
        omega
      · rw [Nat.add_comm]
        exact Nat.succ_lt_succ (ih hmem)

/-- A line that a line feed closes ends in front of that line feed at the latest. -/
theorem charsTo_lt (h : line < before.count '\n') :
    charsTo column line (before ++ after) < before.length := by
  induction before generalizing line with
  | nil => cases h
  | cons c cs ih =>
    cases line with
    | zero => exact charsToColumn_lt (List.count_pos_iff.mp h)
    | succ line =>
      rw [List.cons_append, List.length_cons]
      by_cases hcrlf : c = '\r' ∧ (cs ++ after).head? = some '\n'
      · obtain ⟨rfl, hhead⟩ := hcrlf
        rw [List.count_cons_of_ne (by decide)] at h
        cases cs with
        | nil => cases h
        | cons d cs =>
          obtain rfl : d = '\n' := Option.some.inj hhead
          have hlt := ih h
          rw [List.cons_append, charsTo_ending rfl (by simp)] at hlt
          rw [List.cons_append, charsTo, List.length_cons] at *
          omega
      · by_cases hc : endsLine c = true
        · rw [charsTo_ending hc fun hr hhead => hcrlf ⟨hr, hhead⟩]
          have hle : line < cs.count '\n' := by
            rw [List.count_cons] at h
            split at h <;> omega
          have hlt := ih hle
          omega
        · rw [Bool.not_eq_true] at hc
          rw [charsTo_other hc]
          rw [List.count_cons_of_ne (ne_of_not_endsLine hc).1] at h
          have hlt := ih h
          omega

/-! ## The end of a text, looked up in the buffer -/

/-- The place that the buffer finds for the end of a text with something behind it. -/
def foundEnd (before after : List Char) : Nat :=
  TextChange.place (before ++ after) (endPosition .origin before)

/-- Nothing is passed where no text is left. -/
theorem foundEnd_nil (after : List Char) : foundEnd [] after = 0 := by
  cases after with
  | nil => rfl
  | cons c after =>
    have hstop : (c = '\n' || c = '\r' || 0 < units c) = true := by simp [units_pos]
    exact if_pos hstop

/-- A line feed is passed as one character. -/
theorem foundEnd_newline (cs after : List Char) :
    foundEnd ('\n' :: cs) after = 1 + foundEnd cs after := by
  rw [foundEnd, endPosition_newline]
  exact charsTo_ending rfl (by simp)

/-- A carriage return with its line feed is passed as two characters. -/
theorem foundEnd_crlf (cs after : List Char) :
    foundEnd ('\r' :: '\n' :: cs) after = 2 + foundEnd cs after := by
  rw [foundEnd, endPosition_other (by decide), endPosition_newline, if_neg (Nat.succ_ne_zero _)]
  rfl

/-- A character that ends no line is passed as one character. -/
theorem foundEnd_other (hc : endsLine c = false) (cs after : List Char) :
    foundEnd (c :: cs) after = 1 + foundEnd cs after := by
  obtain ⟨hfeed, hreturn⟩ := ne_of_not_endsLine hc
  rw [foundEnd, endPosition_other hfeed, foundEnd]
  generalize endPosition .origin cs = q
  obtain ⟨line, column⟩ := q
  cases line with
  | zero =>
    have hpass : ¬ (c = '\n' || c = '\r' || units c + column < units c) = true := by
      simp [hfeed, hreturn]
    simp only [TextChange.place, if_true, charsTo, List.cons_append]
    rw [charsToColumn, if_neg hpass, hc, if_neg Bool.false_ne_true, Nat.add_sub_cancel_left]
  | succ line =>
    simp only [TextChange.place, if_neg (Nat.succ_ne_zero _)]
    exact charsTo_other hc

/-- A line that only the buffer ends: it finds the end of the text if nothing stands behind, and a
place further in front otherwise. In front of a carriage return it stops. -/
theorem foundEnd_ending (hends : endsLine c = true) (hc : c ≠ '\n')
    (hcrlf : c = '\r' → cs.head? ≠ some '\n') :
    foundEnd (c :: cs) after ≤ (c :: cs).length ∧
      (foundEnd (c :: cs) after = (c :: cs).length ↔ c ≠ '\r' ∧ cs = []) := by
  have hcount := line_endPosition cs
  rw [foundEnd, endPosition_other hc, List.length_cons, ← List.length_eq_zero_iff]
  generalize endPosition .origin cs = q at hcount
  obtain ⟨line, column⟩ := q
  cases line with
  | zero =>
    simp only [TextChange.place, if_true, charsTo, List.cons_append]
    rw [charsToColumn]
    by_cases hreturn : c = '\r'
    · simp [hreturn]
    · have hpass : ¬ (c = '\n' || c = '\r' || units c + column < units c) = true := by
        simp [hc, hreturn]
      rw [if_neg hpass, if_pos hends]
      simp only [hreturn, ne_eq, not_false_eq_true, true_and]
      omega
  | succ line =>
    have hlt : charsTo column line (cs ++ after) < cs.length := by
      refine charsTo_lt ?_
      simp only at hcount
      omega
    have hne : cs ≠ [] := fun hnil => by simp [hnil] at hlt
    have hhead : c = '\r' → (cs ++ after).head? ≠ some '\n' := by
      rwa [List.head?_append_of_ne_nil _ hne]
    simp only [TextChange.place, if_neg (Nat.succ_ne_zero _), List.cons_append]
    rw [charsTo_ending hends hhead]
    omega

/-- The buffer finds the end of a text in a longer one if both count its lines alike, and a place
further in front if they do not. -/
theorem foundEnd_eq_iff (before after : List Char) :
    foundEnd before after ≤ before.length ∧
      (foundEnd before after = before.length ↔ countsLinesAlike before = true) := by
  fun_induction countsLinesAlike before with
  | case1 => simp [foundEnd_nil]
  | case2 cs ih =>
    rw [foundEnd_crlf, ← ih.2, List.length_cons, List.length_cons]
    omega
  | case3 cs hcrlf ih =>
    rw [foundEnd_newline, ← ih.2, List.length_cons]
    omega
  | case4 c cs hcrlf hc hends =>
    have hhead : c = '\r' → cs.head? ≠ some '\n' := fun hr hhead => by
      obtain ⟨ds, rfl⟩ := List.head?_eq_some_iff.mp hhead
      exact hcrlf ds hr rfl
    simpa using foundEnd_ending hends hc hhead
  | case5 c cs hcrlf hc hends ih =>
    rw [foundEnd_other (Bool.eq_false_iff.mpr hends), ← ih.2, List.length_cons]
    omega

/-! ## A change for the range of a span -/

/-- A change for the range of the middle part. -/
theorem apply_change_of_parts {source : String} {before middle after : List Char}
    (h : source.toList = before ++ (middle ++ after)) (newText : String) :
    TextChange.apply source
        ⟨some ((Span.mk (byteLength before) (byteLength (before ++ middle))).range source),
          newText⟩ =
      String.ofList (source.toList.take (min (foundEnd before (middle ++ after))
          (foundEnd (before ++ middle) after)) ++ newText.toList ++
        source.toList.drop (max (foundEnd before (middle ++ after))
          (foundEnd (before ++ middle) after))) := by
  have hfront := before_byteLength_append before (middle ++ after)
  have hback := before_byteLength_append (before ++ middle) after
  rw [List.append_assoc] at hback
  simp only [TextChange.apply, Span.range, positionAt, h, hfront, hback, foundEnd,
    List.append_assoc]

/-- A part of a text that is replaced by every text alike is found where it stands: its end is not
further in front, and what follows it is as long. -/
theorem eq_of_replaced {cs before after : List Char} {i j : Nat} (hi : i ≤ before.length)
    (hlength : before.length ≤ cs.length)
    (h : ∀ c : Char, cs.take i ++ [c] ++ cs.drop j = before ++ [c] ++ after) :
    i = before.length ∧ cs.drop j = after := by
  have hat (c : Char) : (before ++ [c] ++ after)[i]? = some c := by
    rw [← h c, List.append_assoc, List.getElem?_append_right (List.length_take_le i cs)]
    simp [Nat.min_eq_left (Nat.le_trans hi hlength)]
  have heq : i = before.length := by
    by_contra hne
    have hlt : i < before.length := by omega
    have hx := hat 'x'
    have hy := hat 'y'
    rw [List.append_assoc, List.getElem?_append_left hlt] at hx hy
    cases hx.symm.trans hy
  have hwhole := h 'x'
  rw [List.append_assoc, List.append_assoc] at hwhole
  obtain ⟨-, hbehind⟩ := List.append_inj hwhole (by simp; omega)
  exact ⟨heq, (List.cons.inj hbehind).2⟩

/-- A change for the range of a span puts any new text in the place of what the span covers exactly
if both counts of the lines agree on the text in front of the span and on that in front of its
end. -/
theorem ranged_change_agrees_iff {source : String} {start stop : Nat}
    (hstart : (String.Pos.Raw.mk start).IsValid source)
    (hstop : (String.Pos.Raw.mk stop).IsValid source) (hle : start ≤ stop) :
    (∀ newText, TextChange.apply source ⟨some ((Span.mk start stop).range source), newText⟩ =
      TextEdit.apply source ⟨⟨start, stop⟩, newText⟩) ↔
      countsLinesAlike (Text.before start source.toList) = true ∧
        countsLinesAlike (Text.before stop source.toList) = true := by
  obtain ⟨before, middle, after, h, rfl, rfl⟩ := exists_parts hstart hstop hle
  have hfront := before_byteLength_append before (middle ++ after)
  have hback := before_byteLength_append (before ++ middle) after
  rw [List.append_assoc] at hback
  obtain ⟨hfirst, hfirstIff⟩ := foundEnd_eq_iff before (middle ++ after)
  obtain ⟨hlast, hlastIff⟩ := foundEnd_eq_iff (before ++ middle) after
  simp only [apply_change_of_parts h, apply_edit_of_parts h, String.ofList_inj]
  rw [h, hfront, hback, ← hfirstIff, ← hlastIff]
  generalize foundEnd before (middle ++ after) = i at hfirst
  generalize foundEnd (before ++ middle) after = j at hlast
  rw [List.length_append] at hlast ⊢
  constructor
  · intro hall
    have hone (c : Char) := hall (String.ofList [c])
    simp only [String.toList_ofList] at hone
    obtain ⟨hi, hdrop⟩ := eq_of_replaced (by omega) (by simp) hone
    have hlength := congrArg List.length hdrop
    simp only [List.length_drop, List.length_append] at hlength
    omega
  · rintro ⟨rfl, rfl⟩ newText
    rw [Nat.min_eq_left (Nat.le_add_right ..), Nat.max_eq_right (Nat.le_add_right ..),
      List.take_left, ← List.append_assoc before, ← List.length_append, List.drop_left]

/-- A character of two units behind a line that ends in a carriage return and a line feed. -/
theorem ranged_change_agrees_of_crlf :
    (String.Pos.Raw.mk 4).IsValid "é\r\n😀b" ∧ (String.Pos.Raw.mk 8).IsValid "é\r\n😀b" ∧ 4 ≤ 8 ∧
      ∀ newText, TextChange.apply "é\r\n😀b" ⟨some ((Span.mk 4 8).range "é\r\n😀b"), newText⟩ =
        TextEdit.apply "é\r\n😀b" ⟨⟨4, 8⟩, newText⟩ := by
  have hstart : (String.Pos.Raw.mk 4).IsValid "é\r\n😀b" :=
    @isValid_of_toList_eq "é\r\n😀b" ['é', '\r', '\n'] ['😀', 'b'] (by decide)
  have hstop : (String.Pos.Raw.mk 8).IsValid "é\r\n😀b" :=
    @isValid_of_toList_eq "é\r\n😀b" ['é', '\r', '\n', '😀'] ['b'] (by decide)
  have hle : 4 ≤ 8 := by decide
  exact ⟨hstart, hstop, hle,
    (ranged_change_agrees_iff hstart hstop hle).mpr ⟨by decide, by decide⟩⟩

/-- Behind a carriage return that no line feed follows a change goes in front of it. -/
theorem ranged_change_misplaced_of_return :
    ¬ ∀ (source : String) (start stop : Nat) (newText : String),
      (String.Pos.Raw.mk start).IsValid source → (String.Pos.Raw.mk stop).IsValid source →
      start ≤ stop → TextChange.apply source ⟨some ((Span.mk start stop).range source), newText⟩ =
        TextEdit.apply source ⟨⟨start, stop⟩, newText⟩ := by
  intro hagrees
  have h := hagrees "a\rb" 2 3 "x" (@isValid_of_toList_eq "a\rb" ['a', '\r'] ['b'] (by decide))
    (@isValid_of_toList_eq "a\rb" ['a', '\r', 'b'] [] (by decide)) (by decide)
  have hchange : TextChange.apply "a\rb" ⟨some ((Span.mk 2 3).range "a\rb"), "x"⟩ = "ax\rb" := by
    decide +kernel
  have hedit : TextEdit.apply "a\rb" ⟨⟨2, 3⟩, "x"⟩ = "a\rx" := by decide +kernel
  rw [hchange, hedit] at h
  revert h
  decide

end CssWorkbench
