import CssWorkbench.Analysis.Diagnostic
import CssWorkbench.Color.Palette
import CssWorkbench.CommandLine.Arguments
import CssWorkbench.Custom.Values
import CssWorkbench.Dictionary
import CssWorkbench.Tree.Parser
import CssWorkbench.Wire.JsonValue
import CssWorkbench.Workspace.FilePath

/-!
# Running a command

A command reads its files, and answers with what it prints, with the files it changed and with the
way it ended. What was printed before a file turned out to be unreadable stays printed.
-/

namespace CssWorkbench.CommandLine

/-- The files that a command can see, by name: texts, and `none` for files that are no UTF-8
text. -/
abbrev Files := Dictionary String (Option String)

/-- How a command ended. -/
inductive Ending
  | clean
  | findings
  | usage
  | unreadable (file : String)
deriving DecidableEq, Repr, Inhabited

namespace Ending

/-- The exit status of the program. -/
def status : Ending → Nat
  | clean => 0
  | findings => 1
  | usage => 2
  | unreadable _ => 2

/-- The wording of an error that was met while a command ran. -/
def error? : Ending → Option String
  | unreadable file => some ("Failed to read file '" ++ file ++ "'")
  | _ => none

end Ending

/-- What a command did: how it ended, what it wrote to its two outputs, and the files behind it. -/
structure Result where
  ending : Ending
  output : String
  report : String
  files : Files
deriving DecidableEq, Repr, Inhabited

/-- The name under which a file is kept: points and repeated slashes in a path make no difference,
unless they stand at its end, where only a folder may have them. -/
def plainName (file : String) : String :=
  let path := FilePath.ofString file
  (if path.absolute then "/" else "") ++ "/".intercalate path.names ++
    if path.folderOnly then "/" else ""

/-- The text of a file. -/
def readFile? (files : Files) (file : String) : Option String :=
  (files.get? (plainName file)).bind id

/-! ## Checking -/

/-- A diagnostic on a line of its own, with its file and its place counted from one. -/
def diagnosticLine (file source : String) (d : Diagnostic) : String :=
  let place := d.range source
  file ++ ":" ++ place.start.toString ++ ": " ++ d.severity.label ++ ": " ++ d.message ++ "\n"

/-- The order of a report: by place, and the graver first. -/
def reportOrder (d e : Diagnostic) : Bool :=
  d.span.start < e.span.start ||
    (d.span.start = e.span.start && d.severity.rank ≤ e.severity.rank)

/-- The findings so far, and what was printed of them. -/
structure CheckTally where
  output : String
  errors : Nat
  others : Nat
deriving DecidableEq, Repr, Inhabited

namespace CheckTally

/-- Add the findings on a file. -/
def add (tally : CheckTally) (file source : String) : CheckTally :=
  let (sheet, errors) := parse source
  let found := sheet.diagnostics errors
  let grave := found.countP fun d => d.severity = .error
  ⟨tally.output ++ String.join ((found.mergeSort reportOrder).map (diagnosticLine file source)),
    tally.errors + grave, tally.others + (found.length - grave)⟩

/-- The line at the end of a report, if there is anything to report. -/
def report (tally : CheckTally) (files : Nat) : String :=
  if tally.errors + tally.others = 0 then ""
  else toString tally.errors ++ " error(s), " ++ toString tally.others ++ " other finding(s) in " ++
    toString files ++ " file(s)\n"

/-- Whether the findings fail a check. -/
def fails (tally : CheckTally) (denyWarnings : Bool) : Bool :=
  0 < tally.errors || (denyWarnings && 0 < tally.others)

end CheckTally

/-- Check some files; the second part names the file that could not be read, if there is one. -/
def checkFiles (files : Files) (tally : CheckTally) : List String → CheckTally × Option String
  | [] => (tally, none)
  | file :: rest =>
    match readFile? files file with
    | some source => checkFiles files (tally.add file source) rest
    | none => (tally, some file)

/-! ## Colors -/

/-- The colors of a source, the references in it followed. -/
def sourceColors (source : String) : List ColorMatch :=
  let sheet := (parse source).1
  sheet.colors (some (sheet.customValues source).get?)

/-- A color on a line of its own: its place, its text and its spellings. -/
def colorLine (source : String) (m : ColorMatch) : String :=
  (m.span.range source).start.toString ++ "\t" ++ m.span.text source ++
    String.join (m.color.spellings.map ("\t" ++ ·)) ++ "\n"

/-- A position as JSON. -/
def positionJson (p : Position) : JsonValue :=
  .object [("line", .natural p.line), ("character", .natural p.character)]

/-- A color as JSON. -/
def colorJson (source : String) (m : ColorMatch) : JsonValue :=
  let range := m.span.range source
  .object [
    ("span", .object [("start", .natural m.span.start), ("end", .natural m.span.stop)]),
    ("range", .object [("start", positionJson range.start), ("end", positionJson range.stop)]),
    ("color", .object [("red", .float m.color.red), ("green", .float m.color.green),
      ("blue", .float m.color.blue), ("alpha", .float m.color.alpha)]),
    ("presentations", .texts m.color.spellings)]

/-- The listing of the colors of a source. -/
def colorListing (json : Bool) (source : String) : String :=
  let found := sourceColors source
  if json then (JsonValue.list (found.map (colorJson source))).pretty ++ "\n"
  else String.join (found.map (colorLine source))

/-! ## Commands -/

/-- Format a file that was read. -/
def formatFile (files : Files) (options : FormatOptions) (action : FormatAction)
    (file source : String) : Result :=
  let formatted := (parse source).1.format source options
  match action with
  | .print => ⟨.clean, formatted, "", files⟩
  | .write => ⟨.clean, "", "", files.put (plainName file) (some formatted)⟩
  | .check =>
    if formatted = source then ⟨.clean, "", "", files⟩
    else ⟨.findings, file ++ ": not formatted\n", "", files⟩

/-- Run a command. -/
def Command.run (files : Files) : Command → Result
  | .check denyWarnings names =>
    match checkFiles files ⟨"", 0, 0⟩ names with
    | (tally, some file) => ⟨.unreadable file, tally.output, "", files⟩
    | (tally, none) =>
      ⟨if tally.fails denyWarnings then .findings else .clean, tally.output,
        tally.report names.length, files⟩
  | .format options action file =>
    match readFile? files file with
    | some source => formatFile files options action file source
    | none => ⟨.unreadable file, "", "", files⟩
  | .colors json file =>
    match readFile? files file with
    | some source => ⟨.clean, colorListing json source, "", files⟩
    | none => ⟨.unreadable file, "", "", files⟩

/-- Run the command that some arguments spell. -/
def run (files : Files) (arguments : List String) : Result :=
  match Command.ofArguments? arguments with
  | some command => command.run files
  | none => ⟨.usage, "", "", files⟩

end CssWorkbench.CommandLine
