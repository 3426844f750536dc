import CssWorkbench.Text.Position

/-!
# Changes to an open text

An editor sends its changes as new texts for ranges of positions. Here lines end as the editor's
own buffer has them, at more characters than a line feed, and a column past the end of a line
counts as the end of the line, in front of its line feed or carriage return. A place in the text is
the number of characters in front of it.
-/

namespace CssWorkbench

/-- A new text for a range, or for all if there is no range. -/
structure TextChange where
  range : Option Range
  newText : String
deriving DecidableEq, Repr, Inhabited

namespace Text

/-- The characters that end a line of a buffer: line feed, vertical tab, form feed, carriage return,
next line, line separator and paragraph separator. A carriage return and the line feed behind it
end one line. -/
def endsLine (c : Char) : Bool :=
  c = '\n' || c = '\x0b' || c = '\x0c' || c = '\r' || c = '\u0085' || c = '\u2028' || c = '\u2029'

/-- The number of characters in front of a column of the line in front. -/
def charsToColumn (column : Nat) : List Char → Nat
  | [] => 0
  | c :: cs =>
    if c = '\n' || c = '\r' || column < units c then 0
    else if endsLine c then 1
    else 1 + charsToColumn (column - units c) cs

/-- The number of characters in front of a column of a line. A line past the last one counts as the
end of the text. -/
def charsTo (column : Nat) : (line : Nat) → List Char → Nat
  | 0, cs => charsToColumn column cs
  | _ + 1, [] => 0
  | line + 1, '\r' :: '\n' :: cs => 2 + charsTo column line cs
  | line + 1, c :: cs => 1 + charsTo column (if endsLine c then line else line + 1) cs

end Text

namespace TextChange

/-- The place of a position in a text. -/
def place (cs : List Char) (p : Position) : Nat :=
  Text.charsTo p.character p.line cs

/-- The text after a change. The ends of a range may be given in either order. -/
def apply (text : String) (change : TextChange) : String :=
  match change.range with
  | none => change.newText
  | some range =>
    let cs := text.toList
    let a := place cs range.start
    let b := place cs range.stop
    String.ofList (cs.take (min a b) ++ change.newText.toList ++ cs.drop (max a b))

end TextChange

end CssWorkbench
