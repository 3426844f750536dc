import CssWorkbench.Text.Blank

/-!
# Byte offsets and spans

Every place in a source is a byte offset into its UTF-8 encoding, and every stretch a half-open
span of offsets. A source is read here as its list of characters, or as the bytes of these;
`takeBytes` and `dropBytes` cut the list at an offset, and refuse an offset that falls inside a
character.
-/

namespace CssWorkbench

namespace Text

/-- The length of a text in UTF-8 bytes. -/
def byteLength : List Char → Nat
  | [] => 0
  | c :: cs => c.utf8Size + byteLength cs

/-- Without characters there are no bytes. -/
@[simp] theorem byteLength_nil : byteLength [] = 0 := rfl

/-- The bytes of the first character come before those of the others. -/
@[simp] theorem byteLength_cons (c : Char) (cs : List Char) :
    byteLength (c :: cs) = c.utf8Size + byteLength cs := rfl

/-- The bytes of two texts in a row are those of both. -/
@[simp] theorem byteLength_append (cs ds : List Char) :
    byteLength (cs ++ ds) = byteLength cs + byteLength ds := by
  induction cs with
  | nil => simp
  | cons c cs ih => simp [ih, Nat.add_assoc]

/-- Only the empty text has no bytes. -/
theorem byteLength_eq_zero_iff {cs : List Char} : byteLength cs = 0 ↔ cs = [] := by
  cases cs with
  | nil => simp
  | cons c cs => simp [Nat.pos_iff_ne_zero.mp c.utf8Size_pos]

/-- The UTF-8 bytes of a text. -/
def bytes (cs : List Char) : List UInt8 :=
  cs.flatMap String.utf8EncodeChar

/-- The bytes of two texts are those of the text that they make up. -/
@[simp] theorem bytes_append (cs ds : List Char) : bytes (cs ++ ds) = bytes cs ++ bytes ds :=
  List.flatMap_append

/-- The bytes of a character come in front of those of what follows. -/
theorem bytes_cons (c : Char) (cs : List Char) :
    bytes (c :: cs) = String.utf8EncodeChar c ++ bytes cs := rfl

/-- There are as many bytes as the text is long. -/
@[simp] theorem length_bytes (cs : List Char) : (bytes cs).length = byteLength cs := by
  induction cs with
  | nil => rfl
  | cons c cs ih =>
    rw [bytes_cons, List.length_append, String.length_utf8EncodeChar, ih, byteLength_cons]

/-- The length of a source in bytes, which is the offset of its end. -/
def size (source : String) : Nat :=
  byteLength source.toList

/-- What follows the first `n` bytes, if a character ends there. -/
def dropBytes : Nat → List Char → Option (List Char)
  | 0, cs => some cs
  | _ + 1, [] => none
  | n + 1, c :: cs => if c.utf8Size ≤ n + 1 then dropBytes (n + 1 - c.utf8Size) cs else none

/-- The first `n` bytes, if a character ends there. -/
def takeBytes : Nat → List Char → Option (List Char)
  | 0, _ => some []
  | _ + 1, [] => none
  | n + 1, c :: cs =>
    if c.utf8Size ≤ n + 1 then (takeBytes (n + 1 - c.utf8Size) cs).map (c :: ·) else none

/-- The characters between two offsets, if both stand between characters and in order. -/
def slice? (start stop : Nat) (cs : List Char) : Option (List Char) :=
  if start ≤ stop then (dropBytes start cs).bind (takeBytes (stop - start)) else none

/-- The largest offset up to `offset` at which a character of `cs` starts or the text ends. -/
def floorBoundary (offset : Nat) : List Char → Nat
  | [] => 0
  | c :: cs => if c.utf8Size ≤ offset then c.utf8Size + floorBoundary (offset - c.utf8Size) cs else 0

/-- The characters that end at or before `offset`. -/
def before (offset : Nat) : List Char → List Char
  | [] => []
  | c :: cs => if c.utf8Size ≤ offset then c :: before (offset - c.utf8Size) cs else []

/-- Behind the bytes of a front is what stands behind the front. -/
theorem dropBytes_byteLength_append (cs ds : List Char) :
    dropBytes (byteLength cs) (cs ++ ds) = some ds := by
  induction cs with
  | nil => simp [dropBytes]
  | cons c cs ih =>
    have pos := c.utf8Size_pos
    obtain ⟨n, hn⟩ : ∃ n, c.utf8Size + byteLength cs = n + 1 :=
      ⟨c.utf8Size + byteLength cs - 1, by omega⟩
    rw [byteLength_cons, hn, List.cons_append, dropBytes, if_pos (by omega), ← hn,
      Nat.add_sub_cancel_left, ih]

/-- The bytes of a front are those of the front. -/
theorem takeBytes_byteLength_append (cs ds : List Char) :
    takeBytes (byteLength cs) (cs ++ ds) = some cs := by
  induction cs with
  | nil => simp [takeBytes]
  | cons c cs ih =>
    have pos := c.utf8Size_pos
    obtain ⟨n, hn⟩ : ∃ n, c.utf8Size + byteLength cs = n + 1 :=
      ⟨c.utf8Size + byteLength cs - 1, by omega⟩
    rw [byteLength_cons, hn, List.cons_append, takeBytes, if_pos (by omega), ← hn,
      Nat.add_sub_cancel_left, ih, Option.map_some]

end Text

/-- A half-open stretch `[start, stop)` of byte offsets. -/
structure Span where
  start : Nat
  stop : Nat
deriving DecidableEq, Repr, Inhabited

namespace Span

/-- The empty span at an offset. -/
def single (offset : Nat) : Span := ⟨offset, offset⟩

/-- The number of bytes in the span; a span written backwards has none. -/
def length (s : Span) : Nat := s.stop - s.start

/-- Whether the span holds no byte. -/
def isEmpty (s : Span) : Bool := s.stop ≤ s.start

/-- Whether a cursor at `offset` touches the span. The end counts, so that a cursor right behind
a word is still on it. -/
def contains (s : Span) (offset : Nat) : Bool := s.start ≤ offset && offset ≤ s.stop

/-- Whether `t` lies inside `s`. -/
def covers (s t : Span) : Bool := s.start ≤ t.start && t.stop ≤ s.stop

/-- The smallest span around two spans. -/
def union (s t : Span) : Span := ⟨min s.start t.start, max s.stop t.stop⟩

/-- The source text of a span. The ends are moved into the source first; a span that then cuts a
character has no text. -/
def chars (s : Span) (cs : List Char) : List Char :=
  let stop := min s.stop (Text.byteLength cs)
  (Text.slice? (min s.start stop) stop cs).getD []

/-- The source text of a span, as a string. -/
def text (s : Span) (source : String) : String :=
  String.ofList (s.chars source.toList)

/-- A span is written `start..stop`. -/
protected def toString (s : Span) : String :=
  toString s.start ++ ".." ++ toString s.stop

/-- A span contains the offsets from its start to its stop, both of them included. -/
theorem contains_iff {s : Span} {offset : Nat} :
    s.contains offset = true ↔ s.start ≤ offset ∧ offset ≤ s.stop := by
  simp [contains]

/-- A span covers those that start no sooner and stop no later. -/
theorem covers_iff {s t : Span} :
    s.covers t = true ↔ s.start ≤ t.start ∧ t.stop ≤ s.stop := by
  simp [covers]

/-- The span between two parts of a text holds exactly what stands between them. -/
theorem chars_append (as bs cs : List Char) :
    (Span.mk (Text.byteLength as) (Text.byteLength as + Text.byteLength bs)).chars
      (as ++ bs ++ cs) = bs := by
  have hstop : min (Text.byteLength as + Text.byteLength bs) (Text.byteLength (as ++ bs ++ cs)) =
      Text.byteLength as + Text.byteLength bs := by simp
  simp only [chars, hstop, Nat.min_eq_left (Nat.le_add_right ..), Text.slice?,
    if_pos (Nat.le_add_right ..), Nat.add_sub_cancel_left]
  rw [List.append_assoc, Text.dropBytes_byteLength_append, Option.bind_some,
    Text.takeBytes_byteLength_append, Option.getD_some]

end Span

end CssWorkbench
