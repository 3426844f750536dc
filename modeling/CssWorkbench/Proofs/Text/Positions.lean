import Mathlib.Order.Bounds.Basic
import CssWorkbench.Proofs.Token.Coverage
import CssWorkbench.Text.Position

/-!
# From offsets to positions and back

The position of a place is the end of the text in front of it, counted in lines and in UTF-16 units.
Looked up again it is the same place, whatever stands behind: between characters nothing is lost,
and an offset inside a character comes back as the place in front of that character. Further on in
a text positions are greater.
-/

namespace CssWorkbench

open Text

variable {c : Char} {cs front before after : List Char} {p q r : Position} {offset : Nat}

/-! ## The position of the end -/

/-- From any place a text leads on as from the origin, only that its first line starts there. -/
theorem endPosition_eq (p : Position) (cs : List Char) :
    endPosition p cs = ⟨p.line + (endPosition .origin cs).line,
      if (endPosition .origin cs).line = 0 then p.character + (endPosition .origin cs).character
      else (endPosition .origin cs).character⟩ := by
  induction cs generalizing p with
  | nil => rfl
  | cons c cs ih =>
    have hstep (q : Position) : endPosition q (c :: cs) = endPosition (q.advance c) cs := rfl
    rw [hstep, hstep, ih (p.advance c), ih (Position.origin.advance c)]
    generalize endPosition .origin cs = q
    by_cases hc : c = '\n'
    · simp [Position.advance, Position.origin, hc, Nat.add_assoc]
    · by_cases hline : q.line = 0 <;>
        simp [Position.advance, Position.origin, hc, hline, Nat.add_assoc]

/-- A line feed in front is one line more. -/
theorem endPosition_newline (cs : List Char) : endPosition .origin ('\n' :: cs) =
    ⟨(endPosition .origin cs).line + 1, (endPosition .origin cs).character⟩ := by
  refine (endPosition_eq (Position.origin.advance '\n') cs).trans ?_
  generalize endPosition .origin cs = q
  simp [Position.advance, Position.origin, Nat.add_comm]

/-- Any other character in front moves the first line by its units. -/
theorem endPosition_other (hc : c ≠ '\n') (cs : List Char) : endPosition .origin (c :: cs) =
    ⟨(endPosition .origin cs).line,
      if (endPosition .origin cs).line = 0 then units c + (endPosition .origin cs).character
      else (endPosition .origin cs).character⟩ := by
  refine (endPosition_eq (Position.origin.advance c) cs).trans ?_
  generalize endPosition .origin cs = q
  simp [Position.advance, Position.origin, hc]

/-- The line behind a text is the number of its line feeds. -/
theorem line_endPosition (cs : List Char) : (endPosition .origin cs).line = cs.count '\n' := by
  induction cs with
  | nil => rfl
  | cons c cs ih =>
    by_cases hc : c = '\n'
    · subst hc
      rw [endPosition_newline, ih, List.count_cons_self]
    · rw [endPosition_other hc, ih, List.count_cons_of_ne hc]

/-- What stands in front of the end of a front is the front. -/
theorem before_byteLength_append (before after : List Char) :
    Text.before (byteLength before) (before ++ after) = before := by
  induction before with
  | nil =>
    cases after with
    | nil => rfl
    | cons c after => exact if_neg (Nat.not_le_of_lt c.utf8Size_pos)
  | cons c cs ih =>
    rw [List.cons_append, Text.before, byteLength_cons, if_pos (Nat.le_add_right ..),
      Nat.add_sub_cancel_left, ih]

/-- A place between characters has some of the first characters in front of it. -/
theorem exists_take_of_isValid {source : String} {offset : Nat}
    (h : (String.Pos.Raw.mk offset).IsValid source) :
    ∃ i, offset = byteLength (source.toList.take i) := by
  obtain ⟨i, hi⟩ := String.Pos.Raw.isValid_iff_exists_take_toList.mp h
  rw [utf8ByteSize_ofList] at hi
  exact ⟨i, hi⟩

/-- Of two fronts of a text the one with fewer bytes is the front of the other. -/
theorem exists_append_of_byteLength_le {as bs cs ds : List Char} (h : as ++ bs = cs ++ ds)
    (hle : byteLength as ≤ byteLength cs) : ∃ middle, cs = as ++ middle ∧ bs = middle ++ ds := by
  rcases List.append_eq_append_iff.mp h with hmiddle | ⟨middle, hfront, hback⟩
  · exact hmiddle
  · have hsize := congrArg byteLength hfront
    rw [byteLength_append] at hsize
    have hnil : middle = [] := byteLength_eq_zero_iff.mp (by omega)
    rw [hnil, List.append_nil] at hfront
    exact ⟨[], by rw [hfront, List.append_nil], by rw [hback, hnil]; rfl⟩

/-- Two places between characters cut a text into three parts. -/
theorem exists_parts {source : String} {start stop : Nat}
    (hstart : (String.Pos.Raw.mk start).IsValid source)
    (hstop : (String.Pos.Raw.mk stop).IsValid source) (hle : start ≤ stop) :
    ∃ before middle after, source.toList = before ++ (middle ++ after) ∧
      start = byteLength before ∧ stop = byteLength (before ++ middle) := by
  obtain ⟨i, rfl⟩ := exists_take_of_isValid hstart
  obtain ⟨j, rfl⟩ := exists_take_of_isValid hstop
  have hcut := (List.take_append_drop i source.toList).trans
    (List.take_append_drop j source.toList).symm
  obtain ⟨middle, hfront, hback⟩ := exists_append_of_byteLength_le hcut hle
  refine ⟨source.toList.take i, middle, source.toList.drop j, ?_, rfl, hfront ▸ rfl⟩
  rw [← hback, List.take_append_drop]

/-! ## Looking a position up again -/

/-- In its first line a position is looked up by its column alone. -/
theorem offsetInLines_zero (column : Nat) (cs : List Char) :
    offsetInLines 0 column cs = offsetInLine column cs := by
  cases cs <;> rfl

/-- The first column is at the start of its line. -/
theorem offsetInLine_zero (cs : List Char) : offsetInLine 0 cs = 0 := by
  cases cs <;> rfl

/-- The end of a text is found again in a longer one. -/
theorem offsetInLines_endPosition (before after : List Char) :
    offsetInLines (endPosition .origin before).line (endPosition .origin before).character
      (before ++ after) = byteLength before := by
  induction before with
  | nil => exact (offsetInLines_zero 0 after).trans (offsetInLine_zero after)
  | cons c cs ih =>
    by_cases hc : c = '\n'
    · subst hc
      rw [endPosition_newline, List.cons_append, offsetInLines, if_pos rfl, ih, byteLength_cons]
    · rw [endPosition_other hc]
      generalize endPosition .origin cs = q at ih
      obtain ⟨line, column⟩ := q
      cases line with
      | zero =>
        have hpass : ¬ (units c + column = 0 || c = '\n') = true := by
          have hpos := units_pos c
          simp only [Bool.or_eq_true, decide_eq_true_eq, hc, or_false]
          omega
        rw [offsetInLines_zero] at ih
        rw [if_pos rfl, offsetInLines_zero, List.cons_append, offsetInLine, if_neg hpass,
          Nat.add_sub_cancel_left, ih, byteLength_cons]
      | succ line =>
        rw [if_neg (Nat.succ_ne_zero line), List.cons_append, offsetInLines, if_neg hc, ih,
          byteLength_cons]

/-- What stands in front of an offset is the front of the text. -/
theorem exists_append_before (offset : Nat) (cs : List Char) :
    ∃ after, cs = Text.before offset cs ++ after := by
  induction cs generalizing offset with
  | nil => exact ⟨[], rfl⟩
  | cons c cs ih =>
    rw [Text.before]
    split
    · obtain ⟨after, hafter⟩ := ih (offset - c.utf8Size)
      exact ⟨after, congrArg (c :: ·) hafter⟩
    · exact ⟨c :: cs, rfl⟩

/-- No longer front of the text ends at or before the offset. -/
theorem byteLength_le_before (hle : byteLength front ≤ offset) :
    byteLength front ≤ byteLength (Text.before offset (front ++ after)) := by
  induction front generalizing offset with
  | nil => exact Nat.zero_le _
  | cons c front ih =>
    rw [byteLength_cons] at hle ⊢
    rw [List.cons_append, Text.before, if_pos (by omega), byteLength_cons]
    have hrest := @ih (offset - c.utf8Size) (by omega)
    omega

/-- What stands in front of an offset does not reach behind it. -/
theorem byteLength_before_le (offset : Nat) (cs : List Char) :
    byteLength (Text.before offset cs) ≤ offset := by
  induction cs generalizing offset with
  | nil => exact Nat.zero_le _
  | cons c cs ih =>
    rw [Text.before]
    split
    · have hrest := ih (offset - c.utf8Size)
      rw [byteLength_cons]
      omega
    · exact Nat.zero_le _

/-- The position of an offset is looked up as the end of what stands in front of the offset. -/
theorem offsetAt_positionAt (source : String) (offset : Nat) :
    offsetAt source (positionAt source offset) =
      byteLength (Text.before offset source.toList) := by
  obtain ⟨after, hsource⟩ := exists_append_before offset source.toList
  rw [offsetAt, positionAt]
  generalize Text.before offset source.toList = front at hsource ⊢
  rw [hsource]
  exact offsetInLines_endPosition front after

/-- That end is the last place between characters at or in front of the offset. -/
theorem isGreatest_byteLength_before (source : String) (offset : Nat) :
    IsGreatest {place | (String.Pos.Raw.mk place).IsValid source ∧ place ≤ min offset (size source)}
      (byteLength (Text.before offset source.toList)) := by
  obtain ⟨after, hsource⟩ := exists_append_before offset source.toList
  have hsize := congrArg byteLength hsource
  rw [byteLength_append] at hsize
  constructor
  · have hoffset := byteLength_before_le offset source.toList
    exact ⟨isValid_of_toList_eq hsource, Nat.le_min.mpr ⟨hoffset, by rw [size]; omega⟩⟩
  · rintro place ⟨hvalid, hle⟩
    obtain ⟨i, rfl⟩ := exists_take_of_isValid hvalid
    have hfront := @byteLength_le_before (source.toList.take i) (source.toList.drop i) offset
      (Nat.le_trans hle (Nat.min_le_left ..))
    rwa [List.take_append_drop] at hfront

/-! ## Positions within a text -/

/-- A character has no more units than bytes. -/
theorem units_le_utf8Size (c : Char) : units c ≤ c.utf8Size := by
  unfold units
  split
  · exact c.utf8Size_pos
  · next hwide =>
    have hvalue : ¬ c.val ≤ 0x7F := fun h => by
      have hle : c.val.toNat ≤ 0x7F := UInt32.le_iff_toNat_le.mp h
      have hnat : c.val.toNat = c.toNat := rfl
      omega
    simp only [Char.utf8Size]
    split
    · next h => exact absurd h hvalue
    · split
      · decide
      · split <;> decide

/-- Every line and every unit of a column takes a byte of the text in front. -/
theorem endPosition_le (p : Position) (cs : List Char) :
    (endPosition p cs).line + (endPosition p cs).character ≤
      p.line + p.character + byteLength cs := by
  induction cs generalizing p with
  | nil => exact Nat.le_refl _
  | cons c cs ih =>
    have hrest := ih (p.advance c)
    have hstep : (p.advance c).line + (p.advance c).character ≤
        p.line + p.character + c.utf8Size := by
      have hunits := units_le_utf8Size c
      have hsize := c.utf8Size_pos
      unfold Position.advance
      split <;> simp only <;> omega
    rw [byteLength_cons]
    exact Nat.le_trans hrest (by omega)

/-- A line and a column in a text of less than 4 GiB fit 32 bits each: together they are at most as
many as the text has bytes. -/
theorem line_add_character_positionAt_le (source : String) (offset : Nat) :
    (positionAt source offset).line + (positionAt source offset).character ≤ size source := by
  obtain ⟨after, hsource⟩ := exists_append_before offset source.toList
  have hsize := congrArg byteLength hsource
  rw [byteLength_append] at hsize
  have hplace := endPosition_le .origin (Text.before offset source.toList)
  rw [positionAt, size]
  exact Nat.le_trans hplace (by simp only [Position.origin]; omega)

/-! ## Positions in order -/

/-- Positions are in a row. -/
theorem Position.lt_trans (h : p < q) (h' : q < r) : p < r := by
  have hpq : p.line < q.line ∨ (p.line = q.line ∧ p.character < q.character) := h
  have hqr : q.line < r.line ∨ (q.line = r.line ∧ q.character < r.character) := h'
  show p.line < r.line ∨ (p.line = r.line ∧ p.character < r.character)
  omega

/-- Every text that is not empty moves a position forward. -/
theorem lt_endPosition (hne : cs ≠ []) (p : Position) : p < endPosition p cs := by
  induction cs generalizing p with
  | nil => exact absurd rfl hne
  | cons c cs ih =>
    have hstep := p.lt_advance c
    cases cs with
    | nil => exact hstep
    | cons d cs => exact Position.lt_trans hstep (ih (List.cons_ne_nil d cs) (p.advance c))

/-- Of two places between characters the one further on has the greater position. -/
theorem positionAt_lt {source : String} {start stop : Nat}
    (hstart : (String.Pos.Raw.mk start).IsValid source)
    (hstop : (String.Pos.Raw.mk stop).IsValid source) (hlt : start < stop) :
    positionAt source start < positionAt source stop := by
  obtain ⟨before, middle, after, h, rfl, rfl⟩ := exists_parts hstart hstop (Nat.le_of_lt hlt)
  have hne : middle ≠ [] := by
    rintro rfl
    rw [List.append_nil] at hlt
    exact Nat.lt_irrefl _ hlt
  have hback := before_byteLength_append (before ++ middle) after
  rw [List.append_assoc] at hback
  rw [positionAt, positionAt, h, before_byteLength_append, hback, endPosition, endPosition,
    List.foldl_append]
  exact lt_endPosition hne _

/-- Offsets go out as positions and come back: a place between characters as itself, and any other
offset as the last such place in front of it or of the end. Positions are in the order of the
places. -/
theorem positions_round_trip (source : String) :
    (∀ offset, (String.Pos.Raw.mk offset).IsValid source →
      offsetAt source (positionAt source offset) = offset) ∧
    (∀ offset, IsGreatest
      {place | (String.Pos.Raw.mk place).IsValid source ∧ place ≤ min offset (size source)}
      (offsetAt source (positionAt source offset))) ∧
    ∀ start stop, (String.Pos.Raw.mk start).IsValid source →
      (String.Pos.Raw.mk stop).IsValid source → start < stop →
      positionAt source start < positionAt source stop := by
  refine ⟨fun offset hvalid => ?_, fun offset => ?_, fun _ _ => positionAt_lt⟩
  · obtain ⟨i, rfl⟩ := exists_take_of_isValid hvalid
    have hfront := before_byteLength_append (source.toList.take i) (source.toList.drop i)
    rw [List.take_append_drop] at hfront
    rw [offsetAt_positionAt, hfront]
  · rw [offsetAt_positionAt]
    exact isGreatest_byteLength_before source offset

/-- A character of two units on the second line: behind it, inside it and in front of it. -/
theorem positions_round_trip_of_wide :
    (String.Pos.Raw.mk 4).IsValid "é\r\n😀b" ∧ (String.Pos.Raw.mk 8).IsValid "é\r\n😀b" ∧
      positionAt "é\r\n😀b" 8 = ⟨1, 2⟩ ∧ offsetAt "é\r\n😀b" (positionAt "é\r\n😀b" 8) = 8 ∧
      IsGreatest {place | (String.Pos.Raw.mk place).IsValid "é\r\n😀b" ∧
        place ≤ min 6 (size "é\r\n😀b")} (offsetAt "é\r\n😀b" (positionAt "é\r\n😀b" 6)) ∧
      offsetAt "é\r\n😀b" (positionAt "é\r\n😀b" 6) = 4 ∧
      positionAt "é\r\n😀b" 4 < positionAt "é\r\n😀b" 8 := by
  obtain ⟨hback, hgreatest, hmono⟩ := positions_round_trip "é\r\n😀b"
  have hfront : (String.Pos.Raw.mk 4).IsValid "é\r\n😀b" :=
    @isValid_of_toList_eq "é\r\n😀b" ['é', '\r', '\n'] ['😀', 'b'] (by decide)
  have hbehind : (String.Pos.Raw.mk 8).IsValid "é\r\n😀b" :=
    @isValid_of_toList_eq "é\r\n😀b" ['é', '\r', '\n', '😀'] ['b'] (by decide)
  exact ⟨hfront, hbehind, by decide +kernel, hback 8 hbehind, hgreatest 6, by decide +kernel,
    hmono 4 8 hfront hbehind (by decide)⟩

end CssWorkbench
