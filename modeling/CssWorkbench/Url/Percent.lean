import CssWorkbench.Text.Parts
import CssWorkbench.Text.Span
import CssWorkbench.Token.Stretch

/-!
# Percent signs in addresses

A character that may not stand in some part of an address is written as its bytes, each a percent
sign with two hex digits. Which characters those are depends on the part.
-/

namespace CssWorkbench.Url

/-- A byte as a percent sign with two hex digits. -/
def percentByte (b : UInt8) : List Char :=
  let digit (n : Nat) : Char := (Nat.digitChar n).toUpper
  ['%', digit (b.toNat / 16), digit (b.toNat % 16)]

/-- The bytes of a character as percent signs with hex digits. -/
def percentChar (c : Char) : List Char :=
  (String.singleton c).toUTF8.toList.flatMap percentByte

/-- Characters that are written out nowhere: controls and all outside ASCII. -/
def isHidden (c : Char) : Bool := c.toNat < 0x20 || 0x7f ≤ c.toNat

/-- Characters that are not written out in a fragment. -/
def hidesInFragment (c : Char) : Bool :=
  isHidden c || " \"<>`".toList.contains c

/-- Characters that are not written out in a query. That of a special scheme has one more. -/
def hidesInQuery (special : Bool) (c : Char) : Bool :=
  isHidden c || " \"#<>".toList.contains c || (special && c = '\'')

/-- Characters that are not written out in a path. -/
def hidesInPath (c : Char) : Bool :=
  hidesInFragment c || "#?\x7b\x7d".toList.contains c

/-- Characters that are not written out in the name of a user. -/
def hidesInUser (c : Char) : Bool :=
  hidesInPath c || "/:;=@[\\]^|".toList.contains c

/-- Characters that are not written out in the name of a file. -/
def hidesInFileName (c : Char) : Bool :=
  hidesInPath c || c = '/' || c = '%' || c = '\\'

/-- A text with the characters that satisfy `p` as percent signs with hex digits. -/
def percentEncode (p : Char → Bool) (cs : List Char) : String :=
  String.ofList (cs.flatMap fun c => if p c then percentChar c else [c])

/-- The bytes of a text, with percent signs and hex digits undone. -/
def percentDecode : List Char → List UInt8
  | [] => []
  | '%' :: a :: b :: cs =>
    if isHexDigit a && isHexDigit b then
      UInt8.ofNat (16 * hexValue a + hexValue b) :: percentDecode cs
    else '%'.toNat.toUInt8 :: percentDecode (a :: b :: cs)
  | c :: cs => (String.singleton c).toUTF8.toList ++ percentDecode cs

end CssWorkbench.Url
