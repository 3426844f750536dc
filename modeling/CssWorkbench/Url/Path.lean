import CssWorkbench.Url.Basic

/-!
# Paths of addresses

A path is read step by step behind the steps of a folder. The step `.` stays and `..` goes back;
neither is kept, also when it is written with percent signs. A drive, a letter with a colon, is
never gone back over.
-/

namespace CssWorkbench.Url

/-- Whether a character parts the steps of a path. -/
def partsSteps (special : Bool) (c : Char) : Bool :=
  c = '/' || (special && c = '\\')

/-- A step that stays. -/
def isHere (step : String) : Bool :=
  [".", "%2e"].contains (Text.lower step)

/-- A step that goes back. -/
def isBack (step : String) : Bool :=
  ["..", ".%2e", "%2e.", "%2e%2e"].contains (Text.lower step)

/-- Whether a text names a drive: a letter with a colon, or with a bar in its place. -/
def namesDrive : List Char → Bool
  | [letter, mark] => letter.isAlpha && (mark = ':' || mark = '|')
  | _ => false

/-- A drive with its colon. -/
def drive (step : String) : String :=
  String.ofList (step.toList.take 1) ++ ":"

/-- Whether a step is a drive with its colon. -/
def isDrive (step : String) : Bool :=
  namesDrive step.toList && step = drive step

/-- Go back one step; `walked` holds the steps behind, newest first. -/
def goBack (walked : List String) : List String :=
  if walked.head?.any fun step => namesDrive step.toList then walked else walked.drop 1

/-- Go on one step. The first step of a path to a file may be a drive. -/
def goOn (file : Bool) (walked : List String) (step : String) : List String :=
  if isBack step then goBack walked
  else if isHere step then walked
  else if file && walked.isEmpty && namesDrive step.toList then drive step :: walked
  else step :: walked

/-- Walk along some steps. A path whose last step stays or goes back ends in a folder. -/
def walkSteps (file : Bool) (walked : List String) : List String → List String
  | [] => walked.reverse
  | [step] =>
    let ending := if isBack step || isHere step then [""] else []
    (goOn file walked step).reverse ++ ending
  | step :: steps => walkSteps file (goOn file walked step) steps

/-- The steps that a text spells behind those of a folder. -/
def readSteps (scheme : String) (folder : List String) (cs : List Char) : List String :=
  let steps :=
    (Text.splitAtEach (partsSteps (isSpecial scheme)) cs).map (percentEncode hidesInPath)
  walkSteps (scheme = "file") folder.reverse steps

/-- Some steps as they are kept: a path to a file does not start with empty ones. -/
def keptSteps (scheme : String) (steps : List String) : List String :=
  if scheme = "file" then
    match steps.dropWhile (· = "") with
    | [] => [""]
    | steps => steps
  else steps

/-- The path that a text spells behind the steps of a folder. -/
def readPath (scheme : String) (folder : List String) (cs : List Char) : Path :=
  .steps (keptSteps scheme (readSteps scheme folder cs))

/-- The steps behind an authority. With a special scheme there is at least one. -/
def rootSteps (scheme : String) : List Char → List String
  | [] => if isSpecial scheme then [""] else []
  | c :: cs => readSteps scheme [] (if partsSteps (isSpecial scheme) c then cs else c :: cs)

/-- The steps of a path. -/
def Path.toSteps : Path → List String
  | .steps list => list
  | .plain _ => []

/-- The steps of the folder that a path is in. A drive is its own folder. -/
def Path.folder (scheme : String) (path : Path) : List String :=
  if scheme = "file" && path.toSteps.getLast?.any isDrive then path.toSteps
  else path.toSteps.dropLast

end CssWorkbench.Url
