import CssWorkbench.Layout.Text

/-!
# Formatting

`format` writes a tree anew: every node on a line of its own, blocks indented, at most one blank
line between two nodes and only where the source has one. Blocks that hold nothing but
declarations may be written on a single line; the mode decides which.
-/

namespace CssWorkbench

/-- Which blocks of declarations are written on one line: none, those that fit the width, or those
that the source has on one line. Two modes share the last rule. -/
inductive FormatMode
  | expanded | compact | preserve | detect
deriving DecidableEq, Repr, Inhabited

namespace FormatMode

/-- All modes. -/
def all : List FormatMode := [expanded, compact, preserve, detect]

/-- The name of a mode. -/
def name : FormatMode → String
  | expanded => "expanded"
  | compact => "compact"
  | preserve => "preserve"
  | detect => "detect"

/-- The mode of a name. -/
def ofName? (name : String) : Option FormatMode :=
  all.find? fun mode => mode.name = name

/-- The mode of a name in any letter case. -/
def ofAnyCase? (name : String) : Option FormatMode :=
  ofName? (Text.lower name)

/-- What is said of a name that no mode has; the name is shown in lower case. -/
def unknownMessage (name : String) : String :=
  "unknown format mode '" ++ Text.lower name ++ "'"

end FormatMode

/-- How to write a stylesheet. -/
structure FormatOptions where
  tabSize : Nat := 2
  insertSpaces : Bool := true
  mode : FormatMode := .expanded
  printWidth : Nat := 80
deriving DecidableEq, Repr, Inhabited

namespace FormatOptions

/-- The blanks in front of a line at a depth. A level is a tab, or one to eight spaces. -/
def indent (options : FormatOptions) (depth : Nat) : String :=
  if options.insertSpaces then
    String.ofList (List.replicate (depth * max 1 (min options.tabSize 8)) ' ')
  else String.ofList (List.replicate depth '\t')

end FormatOptions

/-- The width of a line; a tab is four columns wide. -/
def displayWidth (text : String) : Nat :=
  text.toList.foldl (fun width c => width + if c = '\t' then 4 else 1) 0

/-- Whether two line feeds or more stand between two offsets of the source. -/
def blankLineBetween (source : String) (stop start : Nat) : Bool :=
  match Text.slice? stop start source.toList with
  | some gap => 2 ≤ gap.count '\n'
  | none => false

/-- Whether the source writes a span on one line. -/
def onOneLine (source : String) (span : Span) : Bool :=
  !(span.chars source.toList).contains '\n'

/-- The block of some nodes on one line, if they are all declarations and the mode allows it. -/
def singleLine? (options : FormatOptions) (source head : String) (children : List Node)
    (span : Span) (depth : Nat) : Option String :=
  let declarations := declarationsIn children
  let indent := options.indent depth
  let body := "; ".intercalate (declarations.map (Declaration.text source))
  let line := indent ++ head ++ " \x7b " ++ body ++ "; \x7d"
  let allowed :=
    match options.mode with
    | .expanded => false
    | .compact =>
      displayWidth line ≤ options.printWidth &&
        displayWidth indent + displayWidth head ≤ options.printWidth
    | .preserve | .detect => onOneLine source span
  if declarations.length = children.length && allowed then some (line ++ "\n") else none

mutual

/-- A node at a depth. -/
def Node.layout (options : FormatOptions) (source : String) (depth : Nat) : Node → String
  | .ruleset rule children =>
    let indent := options.indent depth
    let selectors := rule.selectors.selectors.map (Selector.text source)
    let head := ", ".intercalate selectors
    if children.isEmpty then indent ++ head ++ " \x7b\x7d\n"
    else
      match singleLine? options source head children rule.span depth with
      | some line => line
      | none =>
        ",\n".intercalate (selectors.map (indent ++ ·)) ++ " \x7b\n" ++
          layoutNodes options source (depth + 1) none children ++ indent ++ "\x7d\n"
  | .atRule rule children =>
    let indent := options.indent depth
    let head := rule.head source
    if rule.block.isNone then indent ++ head ++ ";\n"
    else if children.isEmpty then indent ++ head ++ " \x7b\x7d\n"
    else
      match singleLine? options source head children rule.span depth with
      | some line => line
      | none =>
        indent ++ head ++ " \x7b\n" ++ layoutNodes options source (depth + 1) none children ++
          indent ++ "\x7d\n"
  | .declaration d => options.indent depth ++ d.text source ++ ";\n"
  | .comment span => options.indent depth ++ span.text source ++ "\n"

/-- Nodes at a depth, behind a node that ended at `last`, if any. -/
def layoutNodes (options : FormatOptions) (source : String) (depth : Nat) (last : Option Nat) :
    List Node → String
  | [] => ""
  | n :: ns =>
    let blank := last.any fun stop => blankLineBetween source stop n.span.start
    (if blank then "\n" else "") ++ n.layout options source depth ++
      layoutNodes options source depth (some n.span.stop) ns

end

/-- A stylesheet read from `source`, written anew. An empty one is a single line feed. -/
def Stylesheet.format (sheet : Stylesheet) (source : String) (options : FormatOptions) : String :=
  let text := layoutNodes options source 0 none sheet.children
  if text.toList.getLast? = some '\n' then text else text ++ "\n"

end CssWorkbench
