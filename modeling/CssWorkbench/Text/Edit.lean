import CssWorkbench.Text.Span

/-!
# Edits

An edit puts a new text in the place of a span. A list of edits to one source is applied from
left to right; an edit that starts inside the span of an earlier one is left out.
-/

namespace CssWorkbench

/-- The replacement of a span by a new text. -/
structure TextEdit where
  span : Span
  newText : String
deriving DecidableEq, Repr, Inhabited

namespace TextEdit

/-- Edits are applied in the order of their spans: by start, then by end. -/
def le (e f : TextEdit) : Bool :=
  e.span.start < f.span.start || (e.span.start = f.span.start && e.span.stop ≤ f.span.stop)

/-- Copy the source from `pos` on, with the edits put in. -/
def splice (cs : List Char) (pos : Nat) : List TextEdit → List Char
  | [] => (Span.mk pos (Text.byteLength cs)).chars cs
  | e :: es =>
    if e.span.start < pos then splice cs pos es
    else (Span.mk pos e.span.start).chars cs ++ e.newText.toList ++ splice cs e.span.stop es

/-- The source with one edit made: what stands before its span, the new text, what stands
behind. -/
def apply (source : String) (e : TextEdit) : String :=
  String.ofList ((Span.mk 0 e.span.start).chars source.toList ++ e.newText.toList ++
    (Span.mk e.span.stop (Text.size source)).chars source.toList)

end TextEdit

/-- The source after all edits. -/
def applyEdits (source : String) (edits : List TextEdit) : String :=
  String.ofList (TextEdit.splice source.toList 0 (edits.mergeSort TextEdit.le))

end CssWorkbench
