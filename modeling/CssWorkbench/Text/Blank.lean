/-!
# Blanks and letter case

Two notions of blank character are in use. A stylesheet knows five blanks, all of them ASCII;
names, links and comments that a user typed are trimmed of every character with the property
`White_Space`. Letter case is folded for ASCII letters alone, as selectors, at-rules and
keywords ask for.
-/

namespace CssWorkbench.Text

/-- The five blanks of a stylesheet: space, tab, line feed, form feed and carriage return. -/
def isAsciiBlank (c : Char) : Bool :=
  c = ' ' || c = '\t' || c = '\n' || c = '\x0c' || c = '\r'

/-- The characters with the property `White_Space`. -/
def isBlank (c : Char) : Bool :=
  let n := c.toNat
  (0x09 ≤ n && n ≤ 0x0d) || n = 0x20 || n = 0x85 || n = 0xa0 || n = 0x1680 ||
    (0x2000 ≤ n && n ≤ 0x200a) || n = 0x2028 || n = 0x2029 || n = 0x202f || n = 0x205f ||
    n = 0x3000

/-- Every blank of a stylesheet has the property `White_Space`. -/
theorem isBlank_of_isAsciiBlank {c : Char} (h : isAsciiBlank c = true) : isBlank c = true := by
  simp only [isAsciiBlank, Bool.or_eq_true, decide_eq_true_eq] at h
  rcases h with (((rfl | rfl) | rfl) | rfl) | rfl <;> decide

/-- Drop the characters that satisfy `p` from the end. -/
def dropEndWhile (p : Char → Bool) (cs : List Char) : List Char :=
  (cs.reverse.dropWhile p).reverse

/-- Drop leading blanks. -/
def trimStart (cs : List Char) : List Char :=
  cs.dropWhile isBlank

/-- Drop leading and trailing blanks. -/
def trim (cs : List Char) : List Char :=
  dropEndWhile isBlank (trimStart cs)

/-- Drop leading and trailing blanks of a string. -/
def trimString (s : String) : String :=
  String.ofList (trim s.toList)

/-- Lower the ASCII letters of a string. -/
def lower (s : String) : String :=
  String.ofList (s.toList.map Char.toLower)

/-- Equality of two texts up to the case of ASCII letters. -/
def sameIgnoringCase (s t : String) : Bool :=
  s.toList.map Char.toLower = t.toList.map Char.toLower

/-- Whether `p` opens `cs`, up to the case of ASCII letters. -/
def startsIgnoringCase (p cs : List Char) : Bool :=
  (p.map Char.toLower).isPrefixOf (cs.map Char.toLower)

/-- Whether `p` closes `cs`. -/
def endsWith (p cs : List Char) : Bool :=
  p.reverse.isPrefixOf cs.reverse

/-- Two texts are the same in any letter case if they are the same in small letters. -/
theorem sameIgnoringCase_iff {s t : String} :
    sameIgnoringCase s t = true ↔ lower s = lower t := by
  simp [sameIgnoringCase, lower, String.ofList_inj]

end CssWorkbench.Text
