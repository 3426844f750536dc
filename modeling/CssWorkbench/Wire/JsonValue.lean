import CssWorkbench.Decimal.Shortest

/-!
# JSON

The values that are exchanged with an editor and written for other programs. Whole numbers and
other numbers are told apart; the members of an object keep their order.
-/

namespace CssWorkbench

/-- A JSON value. -/
inductive JsonValue
  | null
  | bool (value : Bool)
  | whole (value : Int)
  | float (value : Float)
  | text (value : String)
  | list (items : List JsonValue)
  | object (members : List (String × JsonValue))
deriving Inhabited

namespace JsonValue

/-! ## Building -/

/-- A natural number. -/
def natural (n : Nat) : JsonValue := .whole n

/-- An object without the members that are missing. -/
def record (members : List (String × Option JsonValue)) : JsonValue :=
  .object (members.filterMap fun m => m.2.map fun value => (m.1, value))

/-- A list of texts. -/
def texts (items : List String) : JsonValue := .list (items.map .text)

/-- A list, or nothing in the place of an empty one. -/
def someList (items : List JsonValue) : JsonValue :=
  if items.isEmpty then .null else .list items

/-! ## Reading -/

/-- A member of an object; what is missing is null. -/
def member (v : JsonValue) (name : String) : JsonValue :=
  match v with
  | object members => (members.lookup name).getD null
  | _ => null

/-- The text of a value that is one. -/
def text? : JsonValue → Option String
  | text value => some value
  | _ => none

/-- The truth value of a value that is one. -/
def bool? : JsonValue → Option Bool
  | bool value => some value
  | _ => none

/-- The whole number from `-2 ^ bits` on and below `2 ^ bits` of a value that is one. -/
def whole? (bits : Nat) : JsonValue → Option Int
  | whole value =>
    if -(Nat.pow 2 bits : Int) ≤ value && value < (Nat.pow 2 bits : Int) then some value else none
  | _ => none

/-- The natural number below `2 ^ bits` of a value that is one. -/
def natural? (bits : Nat) : JsonValue → Option Nat
  | whole value => if 0 ≤ value && value.toNat < Nat.pow 2 bits then some value.toNat else none
  | _ => none

/-- The number of a value that is one. -/
def number? : JsonValue → Option Float
  | whole value => some (Float.ofInt value)
  | float value => some value
  | _ => none

/-- The items of a value that is a list. -/
def list? : JsonValue → Option (List JsonValue)
  | list items => some items
  | _ => none

/-- Whether a value is null. -/
def isNull : JsonValue → Bool
  | null => true
  | _ => false

/-! ## Writing -/

/-- A character inside a quoted text. -/
def quoteChar (c : Char) : List Char :=
  if c = '"' then ['\\', '"']
  else if c = '\\' then ['\\', '\\']
  else if c = '\n' then ['\\', 'n']
  else if c = '\r' then ['\\', 'r']
  else if c = '\t' then ['\\', 't']
  else if c = '\x08' then ['\\', 'b']
  else if c = '\x0c' then ['\\', 'f']
  else if c.toNat < 0x20 then
    ['\\', 'u', '0', '0', Nat.digitChar (c.toNat / 16), Nat.digitChar (c.toNat % 16)]
  else [c]

/-- A text in quotes. -/
def quote (s : String) : String :=
  String.ofList ('"' :: s.toList.flatMap quoteChar ++ ['"'])

/-- The start of a line at a depth, with two spaces for each level. -/
def lineStart (depth : Nat) : String :=
  String.ofList ('\n' :: List.replicate (2 * depth) ' ')

mutual

/-- A value at a depth, every item and member on a line of its own. -/
def prettyAt (depth : Nat) : JsonValue → String
  | null => "null"
  | bool value => if value then "true" else "false"
  | whole value => toString value
  | float value => Decimal.jsonFloat value
  | text value => quote value
  | list [] => "[]"
  | list (item :: items) =>
    "[" ++ lineStart (depth + 1) ++ prettyAt (depth + 1) item ++ prettyItems (depth + 1) items ++
      lineStart depth ++ "]"
  | object [] => "\x7b\x7d"
  | object ((name, value) :: members) =>
    "\x7b" ++ lineStart (depth + 1) ++ quote name ++ ": " ++ prettyAt (depth + 1) value ++
      prettyMembers (depth + 1) members ++ lineStart depth ++ "\x7d"

/-- The items of a list behind its first. -/
def prettyItems (depth : Nat) : List JsonValue → String
  | [] => ""
  | item :: items =>
    "," ++ lineStart depth ++ prettyAt depth item ++ prettyItems depth items

/-- The members of an object behind its first. -/
def prettyMembers (depth : Nat) : List (String × JsonValue) → String
  | [] => ""
  | (name, value) :: members =>
    "," ++ lineStart depth ++ quote name ++ ": " ++ prettyAt depth value ++
      prettyMembers depth members

end

/-- A value over several lines. -/
def pretty (v : JsonValue) : String := prettyAt 0 v

end JsonValue

end CssWorkbench
