import CssWorkbench.Tree.Parser
import CssWorkbench.Workspace.Change

/-!
# Open documents

A document that is open in the editor: its text, the version that the editor gave it, and the tree
of its text if that was computed already. A tree is computed apart from the document: a snapshot
is taken first, and the tree is stored later, if the document still looks like the snapshot.
-/

namespace CssWorkbench

/-- A text with its tree and the errors met while reading it. -/
structure ParsedText where
  text : String
  sheet : Stylesheet
  errors : List SyntaxError
deriving Repr, Inhabited

/-- Read a text. -/
def ParsedText.ofText (text : String) : ParsedText :=
  let (sheet, errors) := parse text
  ⟨text, sheet, errors⟩

/-- What is read off a text keeps the text. -/
@[simp] theorem ParsedText.text_ofText (text : String) : (ParsedText.ofText text).text = text := rfl

/-- An open document. `settled` is the text after the last change, which a new document has only if
it was opened with a text; `edits` counts the changes that made the text another one, and fits 64 bits
for as long as there were fewer than 2⁶⁴ of them. -/
structure Document where
  content : String
  version : Int
  parsed : Option ParsedText
  edits : Nat
  settled : Option String
deriving Repr, Inhabited

/-- What a document looked like when the reading of its text began. -/
structure Snapshot where
  content : String
  version : Int
  edits : Nat
deriving DecidableEq, Repr, Inhabited

namespace Document

/-- A document that was never opened. -/
def blank : Document := ⟨"", 0, none, 0, none⟩

/-- A document opened with a text. -/
def opened (text : String) (version : Int) : Document :=
  ⟨text, version, none, 0, some text⟩

/-- Make some changes and move to a version. If they leave the text as it was settled last, its tree
stays good. -/
def change (d : Document) (version : Int) (changes : List TextChange) : Document :=
  let content := changes.foldl TextChange.apply d.content
  if d.settled = some content then { d with content := content, version := version }
  else ⟨content, version, none, d.edits + 1, some content⟩

/-- Whether some changes make the text another one. -/
def isChangedBy (d : Document) (changes : List TextChange) : Bool :=
  d.settled ≠ some (changes.foldl TextChange.apply d.content)

/-- What the document looks like. -/
def snapshot (d : Document) : Snapshot := ⟨d.content, d.version, d.edits⟩

/-- Whether a document still looks like a snapshot, by version and number of edits. -/
def matchesSnapshot (d : Document) (s : Snapshot) : Bool :=
  d.version = s.version && d.edits = s.edits

/-- Store a tree that was read off a snapshot, if the document still looks like that. -/
def store (d : Document) (s : Snapshot) (parsed : ParsedText) : Document :=
  if d.matchesSnapshot s then { d with parsed := some parsed } else d

/-- The text with its tree: the stored one, or else one read now. -/
def current (d : Document) : ParsedText :=
  d.parsed.getD (.ofText d.content)

end Document

end CssWorkbench
