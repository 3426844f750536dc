import CssWorkbench.Text.Span

/-!
# Lines and columns

Editors name a place by line and column. Lines are counted from zero and end at a line feed;
columns count UTF-16 units from the start of the line. `positionAt` and `offsetAt` go back and
forth between such a position and a byte offset; both move a place that does not exist to the
nearest one before it.
-/

namespace CssWorkbench

/-- A line and a column, both from zero. They have no bound of their own, but each takes a byte of the
text, so that both fit 32 bits wherever a text has fewer than 2³² bytes. -/
structure Position where
  line : Nat
  character : Nat
deriving DecidableEq, Repr, Inhabited

/-- A stretch of text between two positions. -/
structure Range where
  start : Position
  stop : Position
deriving DecidableEq, Repr, Inhabited

namespace Text

/-- The number of UTF-16 units of a character. -/
def units (c : Char) : Nat :=
  if c.toNat < 0x10000 then 1 else 2

/-- Every character takes a unit. -/
theorem units_pos (c : Char) : 0 < units c := by
  unfold units; split <;> decide

end Text

namespace Position

/-- The first place of a text. -/
def origin : Position := ⟨0, 0⟩

/-- The position behind a character that stands at `p`. -/
def advance (p : Position) (c : Char) : Position :=
  if c = '\n' then ⟨p.line + 1, 0⟩ else ⟨p.line, p.character + Text.units c⟩

/-- Positions are ordered by line, then by column. -/
protected def lt (p q : Position) : Prop :=
  p.line < q.line ∨ (p.line = q.line ∧ p.character < q.character)

instance : LT Position := ⟨Position.lt⟩

instance (p q : Position) : Decidable (p < q) :=
  inferInstanceAs (Decidable (_ ∨ _))

/-- A position is shown with line and column counted from one. -/
protected def toString (p : Position) : String :=
  toString (p.line + 1) ++ ":" ++ toString (p.character + 1)

/-- Every character moves the position forward. -/
theorem lt_advance (p : Position) (c : Char) : p < p.advance c := by
  show Position.lt p (p.advance c)
  unfold advance
  split
  · exact .inl (Nat.lt_succ_self _)
  · exact .inr ⟨rfl, Nat.lt_add_of_pos_right (Text.units_pos c)⟩

end Position

namespace Range

/-- A range on one line is shown as `line:column-column`, any other as two positions. -/
protected def toString (r : Range) : String :=
  if r.start.line = r.stop.line then
    r.start.toString ++ "-" ++ toString (r.stop.character + 1)
  else
    r.start.toString ++ "-" ++ r.stop.toString

end Range

namespace Text

/-- The position behind a text that starts at `p`. -/
def endPosition (p : Position) (cs : List Char) : Position :=
  cs.foldl Position.advance p

/-- The offset in its line of the column `column`, at most that of the end of the line. -/
def offsetInLine : Nat → List Char → Nat
  | _, [] => 0
  | column, c :: cs =>
    if column = 0 || c = '\n' then 0 else c.utf8Size + offsetInLine (column - units c) cs

/-- The offset of a column in the line `line`, at most that of the end of the text. -/
def offsetInLines (line column : Nat) : List Char → Nat
  | [] => 0
  | c :: cs =>
    match line with
    | 0 => offsetInLine column (c :: cs)
    | below + 1 => c.utf8Size + offsetInLines (if c = '\n' then below else line) column cs

end Text

/-- The position of a byte offset. An offset past the end counts as the end, one inside a
character as the start of that character. -/
def positionAt (source : String) (offset : Nat) : Position :=
  Text.endPosition Position.origin (Text.before offset source.toList)

/-- The byte offset of a position. A column past the end of its line counts as the end of the
line, a line past the last as the end of the text. -/
def offsetAt (source : String) (p : Position) : Nat :=
  Text.offsetInLines p.line p.character source.toList

/-- The positions of the two ends of a span. -/
def Span.range (s : Span) (source : String) : Range :=
  ⟨positionAt source s.start, positionAt source s.stop⟩

end CssWorkbench
