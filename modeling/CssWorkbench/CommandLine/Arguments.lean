import CssWorkbench.Layout.Format

/-!
# Arguments

The program has three commands. Options start with two dashes; one that takes a value is followed
by it, either as the next argument or behind an equals sign. Behind `--` everything is a file. An
option may be given once.
-/

namespace CssWorkbench.CommandLine

/-- What to do with a formatted stylesheet: print it, write it back, or tell whether it is any
different. -/
inductive FormatAction
  | print | write | check
deriving DecidableEq, Repr, Inhabited

/-- What the program is asked to do. -/
inductive Command
  | check (denyWarnings : Bool) (files : List String)
  | format (options : FormatOptions) (action : FormatAction) (file : String)
  | colors (json : Bool) (file : String)
deriving DecidableEq, Repr, Inhabited

/-- The files that a command reads. -/
def Command.files : Command → List String
  | .check _ files => files
  | .format _ _ file => [file]
  | .colors _ file => [file]

/-- The arguments of a command: its options with their values, if they take one, and its files. -/
structure Arguments where
  options : List (String × String)
  files : List String
deriving DecidableEq, Repr, Inhabited

namespace Arguments

/-- Whether an option was given. -/
def has (a : Arguments) (name : String) : Bool :=
  a.options.any fun o => o.1 = name

/-- The value of an option. -/
def value? (a : Arguments) (name : String) : Option String :=
  a.options.lookup name

end Arguments

/-- The options that a command knows: those without a value and those with one. -/
structure OptionNames where
  flags : List String
  valued : List String
deriving DecidableEq, Repr, Inhabited

/-- An option with the value behind its equals sign, if it has one. -/
def splitOption (option : List Char) : String × Option String :=
  let name := option.takeWhile (· ≠ '=')
  match option.drop name.length with
  | _ :: value => (String.ofList name, some (String.ofList value))
  | [] => (String.ofList name, none)

/-- Put an option in front of the others. -/
def Arguments.addOption (a : Arguments) (name value : String) : Arguments :=
  { a with options := (name, value) :: a.options }

/-- Put a file in front of the others. -/
def Arguments.addFile (a : Arguments) (file : String) : Arguments :=
  { a with files := file :: a.files }

/-- Whether an argument looks like an option: it starts with a dash. A single dash is a text like
any other. -/
def looksLikeOption (argument : String) : Bool :=
  argument.toList.head? = some '-' && argument ≠ "-"

/-- Sort the arguments behind a command into options and files, where the option `awaiting` still
lacks its value. -/
def sortArguments (names : OptionNames) (awaiting : Option String) :
    List String → Option Arguments
  | [] => if awaiting.isSome then none else some ⟨[], []⟩
  | argument :: rest =>
    match awaiting, argument.toList with
    | some name, _ =>
      if looksLikeOption argument then none
      else (sortArguments names none rest).map (·.addOption name argument)
    | none, ['-', '-'] => some ⟨[], rest⟩
    | none, '-' :: '-' :: option =>
      match splitOption option with
      | (name, some value) =>
        if names.valued.contains name then
          (sortArguments names none rest).map (·.addOption name value)
        else none
      | (name, none) =>
        if names.flags.contains name then
          (sortArguments names none rest).map (·.addOption name "")
        else if names.valued.contains name then sortArguments names (some name) rest
        else none
    | none, _ =>
      if looksLikeOption argument then none
      else (sortArguments names none rest).map (·.addFile argument)

/-- The number that decimal digits with an optional plus in front spell, if it is below
`2 ^ bits`. -/
def number? (bits : Nat) (text : String) : Option Nat :=
  let digits :=
    match text.toList with
    | '+' :: digits => digits
    | digits => digits
  if digits.isEmpty || !digits.all Char.isDigit then none
  else
    let n := digits.foldl (fun n c => 10 * n + (c.toNat - '0'.toNat)) 0
    if n < Nat.pow 2 bits then some n else none

/-- The options of `check`. -/
def checkOptions : OptionNames := ⟨["deny-warnings"], []⟩

/-- The options of `format`. -/
def formatOptions : OptionNames :=
  ⟨["use-tabs", "write", "check"], ["mode", "tab-size", "print-width"]⟩

/-- The options of `colors`. -/
def colorsOptions : OptionNames := ⟨["json"], []⟩

/-- An option that may be missing, read by `read?`; `none` if it is there and cannot be read. -/
def optionOr {α : Type} (a : Arguments) (name : String) (default : α)
    (read? : String → Option α) : Option α :=
  match a.value? name with
  | some value => read? value
  | none => some default

/-- A level of indentation: one to eight columns. -/
def tabSize? (text : String) : Option Nat :=
  (number? 63 text).filter fun n => 1 ≤ n && n ≤ 8

/-- The command `format` with its options. A stylesheet cannot be written and checked at once. -/
def formatCommand? (a : Arguments) (file : String) : Option Command :=
  match optionOr a "mode" .expanded FormatMode.ofAnyCase?, optionOr a "tab-size" 2 tabSize?,
      optionOr a "print-width" 80 (number? 64) with
  | some mode, some tabSize, some printWidth =>
    if a.has "write" && a.has "check" then none
    else
      let action : FormatAction :=
        if a.has "write" then .write else if a.has "check" then .check else .print
      some (.format ⟨tabSize, !a.has "use-tabs", mode, printWidth⟩ action file)
  | _, _, _ => none

/-- Sorted arguments in which no option is repeated and no file lacks a name. -/
def soundArguments? (names : OptionNames) (arguments : List String) : Option Arguments :=
  (sortArguments names none arguments).filter fun a =>
    (a.options.map Prod.fst).Nodup && !a.files.contains ""

/-- The command that some arguments spell; `none` if they spell none. -/
def Command.ofArguments? : List String → Option Command
  | "check" :: rest =>
    match soundArguments? checkOptions rest with
    | some a => if a.files.isEmpty then none else some (.check (a.has "deny-warnings") a.files)
    | none => none
  | "format" :: rest =>
    match soundArguments? formatOptions rest with
    | some a =>
      match a.files with
      | [file] => formatCommand? a file
      | _ => none
    | none => none
  | "colors" :: rest =>
    match soundArguments? colorsOptions rest with
    | some a =>
      match a.files with
      | [file] => some (.colors (a.has "json") file)
      | _ => none
    | none => none
  | _ => none

end CssWorkbench.CommandLine
