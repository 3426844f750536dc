import CssWorkbench.CommandLine.Run

/-!
# The program

Reads the files that a command names, runs the command, prints what it has to say, and writes back
the files that it changed.
-/

open CssWorkbench CssWorkbench.CommandLine

/-- The files of some names, as far as they can be read. -/
def loadFiles (names : List String) : IO Files :=
  names.foldlM (fun (files : Files) (name : String) => do
    try
      let bytes ← IO.FS.readBinFile name
      return files.put (plainName name) (String.fromUTF8? bytes)
    catch _ => return files) []

/-- Write back the files that are not as they were. -/
def saveFiles (before after : Files) : IO Unit :=
  after.forM fun (name, contents) =>
    match contents with
    | some text => if before.get? name = some contents then return else IO.FS.writeFile name text
    | none => return

/-- The commands of the program. -/
def usage : String :=
  "usage: check [--deny-warnings] FILE...\n" ++
    "       format [--mode MODE] [--tab-size N] [--use-tabs] [--print-width N]" ++
    " [--write | --check] FILE\n" ++
    "       colors [--json] FILE\n"

/-- Run the command that the arguments spell. -/
def main (arguments : List String) : IO UInt32 := do
  let files ← loadFiles ((Command.ofArguments? arguments).elim [] Command.files)
  let result := run files arguments
  IO.print result.output
  IO.eprint result.report
  if result.ending = .usage then IO.eprint usage
  if let some message := result.ending.error? then IO.eprintln ("Error: " ++ message)
  saveFiles files result.files
  return result.ending.status.toUInt32
