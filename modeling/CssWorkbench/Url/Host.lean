import CssWorkbench.Url.Domain

/-!
# Hosts

A host is a name, an address of four bytes, or an address of eight pieces in brackets. Hosts of the
special schemes are looked up on the network: their names are domains, and a name that ends in a
number has to be an address of four bytes. Hosts of other schemes are taken as they stand.
-/

namespace CssWorkbench.Url

/-- A host. An empty name is no host at all. -/
inductive Host
  | name (text : String)
  | bytes (address : Nat)
  | pieces (address : List Nat)
deriving DecidableEq, Repr, Inhabited

namespace Host

/-- No host. -/
def none : Host := .name ""

/-! ## Addresses of four bytes -/

/-- The number that digits of a base spell; no digits spell zero. -/
def digitsOf? (base : Nat) (isDigit : Char → Bool) (cs : List Char) : Option Nat :=
  if cs.all isDigit then some (cs.foldl (fun n c => base * n + hexValue c) 0) else .none

/-- A part of an address of four bytes: a number to base sixteen behind `0x`, to base eight behind
`0`, else to base ten. -/
def partOfBytes? : List Char → Option Nat
  | [] => .none
  | ['0'] => some 0
  | '0' :: 'x' :: cs => digitsOf? 16 isHexDigit cs
  | '0' :: 'X' :: cs => digitsOf? 16 isHexDigit cs
  | '0' :: cs => digitsOf? 8 (fun c => c.isDigit && c < '8') cs
  | cs => digitsOf? 10 Char.isDigit cs

/-- The parts of a name, without an empty one at the end. -/
def partsOfName (cs : List Char) : List (List Char) :=
  let parts := Text.splitAtEach (· = '.') cs
  if parts.getLast? = some [] then parts.dropLast else parts

/-- Whether the last part of a name is a number, so that the name has to be an address. -/
def endsInNumber (cs : List Char) : Bool :=
  match (partsOfName cs).getLast? with
  | some part => (!part.isEmpty && part.all Char.isDigit) || (partOfBytes? part).isSome
  | .none => false

/-- The address of four bytes that a name spells. The last part fills the bytes that the parts
before it leave. -/
def bytes? (cs : List Char) : Option Host :=
  ((partsOfName cs).mapM partOfBytes?).bind fun numbers =>
    match numbers.reverse with
    | last :: front =>
      if front.length ≤ 3 && front.all (· ≤ 255) && last < Nat.pow 256 (4 - front.length) then
        some (.bytes (front.reverse.foldl (fun n b => 256 * n + b) 0 *
          Nat.pow 256 (4 - front.length) + last))
      else .none
    | [] => .none

/-- An address of four bytes as it is written. -/
def bytesText (address : Nat) : String :=
  let byte (k : Nat) : String := toString (address / Nat.pow 256 k % 256)
  byte 3 ++ "." ++ byte 2 ++ "." ++ byte 1 ++ "." ++ byte 0

/-! ## Addresses of eight pieces -/

/-- A piece: one to four digits to base sixteen. -/
def piece? (cs : List Char) : Option Nat :=
  if cs.isEmpty || 4 < cs.length then .none else digitsOf? 16 isHexDigit cs

/-- A byte inside an address of pieces, without needless zeros. -/
def plainByte? (cs : List Char) : Option Nat :=
  match cs with
  | [] => .none
  | '0' :: _ :: _ => .none
  | _ => (digitsOf? 10 Char.isDigit cs).filter (· ≤ 255)

/-- The last part of an address of pieces, which may be four bytes in the place of two pieces. -/
def lastPieces? (cs : List Char) : Option (List Nat) :=
  if cs.contains '.' then
    match (Text.splitAtEach (· = '.') cs).mapM plainByte? with
    | some [a, b, c, d] => some [256 * a + b, 256 * c + d]
    | _ => .none
  else (piece? cs).map fun piece => [piece]

/-- The pieces between colons, the last of which may be four bytes if `last` says so. -/
def piecesOf? (last : Bool) : List (List Char) → Option (List Nat)
  | [] => some []
  | [part] => if last then lastPieces? part else (piece? part).map fun piece => [piece]
  | part :: parts => do
    let first ← piece? part
    let rest ← piecesOf? last parts
    some (first :: rest)

/-- The pieces of a text that may be empty. -/
def run? (last : Bool) (cs : List Char) : Option (List Nat) :=
  if cs.isEmpty then some [] else piecesOf? last (Text.splitAtEach (· = ':') cs)

/-- What stands before the first two colons, and what behind them if there are some. -/
def splitAtGap : List Char → List Char × Option (List Char)
  | [] => ([], .none)
  | c :: cs =>
    match c, cs with
    | ':', ':' :: behind => ([], some behind)
    | _, _ =>
      let (before, behind) := splitAtGap cs
      (c :: before, behind)

/-- The address of eight pieces that a text spells. Two colons stand for as many zeros as are
missing, at least one. -/
def pieces? (cs : List Char) : Option Host :=
  match splitAtGap cs with
  | (cs, .none) => (run? true cs).bind fun address =>
      if address.length = 8 then some (.pieces address) else .none
  | (front, some back) => do
    let front ← run? false front
    let back ← run? true back
    if front.length + back.length ≤ 7 then
      some (.pieces (front ++ List.replicate (8 - front.length - back.length) 0 ++ back))
    else .none

/-- The longest run of zeros, the first of those of equal length: where it starts and its length.
`place` is the place of the first piece, and `run` the number of zeros right before it. -/
def longestGap (place run : Nat) : List Nat → Nat × Nat
  | [] => (place - run, run)
  | piece :: rest =>
    if piece = 0 then longestGap (place + 1) (run + 1) rest
    else
      let later := longestGap (place + 1) 0 rest
      if later.2 ≤ run then (place - run, run) else later

/-- Pieces with colons between them. -/
def joinPieces (address : List Nat) : String :=
  ":".intercalate (address.map fun piece => String.ofList (Nat.toDigits 16 piece))

/-- An address of eight pieces as it is written. The longest run of two or more zeros is left out
between two colons. -/
def piecesText (address : List Nat) : String :=
  let (start, length) := longestGap 0 0 address
  if length < 2 then joinPieces address
  else joinPieces (address.take start) ++ "::" ++ joinPieces (address.drop (start + length))

/-! ## Any host -/

/-- A host as it is written. -/
protected def toString : Host → String
  | name text => text
  | bytes address => bytesText address
  | pieces address => "[" ++ piecesText address ++ "]"

/-- The address in brackets that a text spells. -/
def bracketed? (cs : List Char) : Option Host :=
  if cs.getLast? = some ']' then pieces? (cs.drop 1).dropLast else .none

/-- The host of a special scheme that a text spells. -/
def ofDomain? (cs : List Char) : Option Host :=
  if cs.head? = some '[' then bracketed? cs
  else do
    let text ← String.fromUTF8? ⟨(percentDecode cs).toArray⟩
    let domain ← domain? text.toList
    if domain.isEmpty then .none
    else if endsInNumber domain then bytes? domain
    else some (.name (String.ofList domain))

/-- Characters that a host of another scheme may not have. -/
def isRefusedPlain (c : Char) : Bool :=
  "\x00\t\n\r #/:<>?@[\\]^|".toList.contains c

/-- The host of another scheme that a text spells. -/
def ofPlain? (cs : List Char) : Option Host :=
  if cs.head? = some '[' then bracketed? cs
  else if cs.any isRefusedPlain then .none
  else some (.name (percentEncode isHidden cs))

end Host

end CssWorkbench.Url
