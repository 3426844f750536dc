import CssWorkbench.Layout.Format
import CssWorkbench.Wire.JsonValue

/-!
# Settings

What a user can set in the editor. The section of the configuration is read as a whole: a value of
the wrong kind anywhere in it makes it invalid, and an invalid section changes nothing. Values that
are missing or zero stand for the default, and members that are not known are passed over.
-/

namespace CssWorkbench

/-- The settings of a session. -/
structure Settings where
  showDeprecated : Bool := false
  lint : Bool := true
  formatMode : FormatMode := .expanded
  printWidth : Nat := 80
deriving DecidableEq, Repr, Inhabited

namespace Settings

/-- The members of a section by their names. A section may also be a list of its values, in the order
of their names. -/
def membersOf? (names : List String) : JsonValue → Option (List (String × JsonValue))
  | .object members => some members
  | .list values => if values.length ≤ names.length then some (names.zip values) else none
  | _ => none

/-- A section inside another one; a missing section has no members. -/
def section? (members : List (String × JsonValue)) (name : String) (names : List String) :
    Option (List (String × JsonValue)) :=
  match members.lookup name with
  | some value => membersOf? names value
  | none => some []

/-- A value that may be missing or null: `none` if it is there and cannot be read. -/
def optional? {α : Type} (members : List (String × JsonValue)) (name : String) (default : α)
    (read? : JsonValue → Option α) : Option α :=
  match members.lookup name with
  | none | some .null => some default
  | some value => read? value

/-- A size, of which zero stands for the default. -/
def size? (default : Nat) (value : JsonValue) : Option Nat :=
  (value.natural? 64).map fun n => if n = 0 then default else n

/-- A mode is spelled by its name, or by an object whose one member has that name and no value. -/
def mode? : JsonValue → Option FormatMode
  | .text name => FormatMode.ofName? name
  | .object [(name, .null)] => FormatMode.ofName? name
  | _ => none

/-- The settings that a section of the configuration spells. -/
def ofSection? (value : JsonValue) : Option Settings := do
  let members ← membersOf? ["completion", "format", "lint", "performance"] value
  let completion ← section? members "completion" ["showDeprecated"]
  let format ← section? members "format" ["mode", "printWidth"]
  let lint ← section? members "lint" ["enabled"]
  let performance ← section? members "performance" ["maxConcurrent"]
  let showDeprecated ← optional? completion "showDeprecated" false JsonValue.bool?
  let mode ← optional? format "mode" .expanded mode?
  let printWidth ← optional? format "printWidth" 80 (size? 80)
  let enabled ← optional? lint "enabled" true JsonValue.bool?
  let _ ← optional? performance "maxConcurrent" 2 (size? 2)
  some ⟨showDeprecated, enabled, mode, printWidth⟩

end Settings

end CssWorkbench
