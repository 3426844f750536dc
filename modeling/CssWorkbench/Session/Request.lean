import CssWorkbench.Outline.Selection
import CssWorkbench.Session.Encoding

/-!
# Requests

What an editor asks about an open document, and the answers. A document that is not open has no
answer, except that it has no colors; an answer without items is left out, except among colors and
edits.
-/

namespace CssWorkbench

/-- What an editor asks. -/
inductive Request (U : Type)
  | completion (uri : U) (place : Position)
  | hover (uri : U) (place : Position)
  | documentColor (uri : U)
  | colorPresentation (color : Color) (range : Range)
  | codeAction (uri : U) (range : Range) (diagnostics : List JsonValue)
  | definition (uri : U) (place : Position)
  | references (uri : U) (place : Position)
  | documentHighlight (uri : U) (place : Position)
  | prepareRename (uri : U) (place : Position)
  | rename (uri : U) (place : Position) (newName : String)
  | documentSymbol (uri : U)
  | foldingRange (uri : U)
  | selectionRange (uri : U) (places : List Position)
  | documentLink (uri : U)
  | formatting (uri : U) (tabSize : Nat) (insertSpaces : Bool)
deriving Inhabited

namespace Request

open JsonValue Encoding

variable {U : Type} [Addressing U]

/-- The document that a request is about, if it is about one. -/
def uri? : Request U → Option U
  | completion uri _ => some uri
  | hover uri _ => some uri
  | documentColor uri => some uri
  | colorPresentation .. => none
  | codeAction uri .. => some uri
  | definition uri _ => some uri
  | references uri _ => some uri
  | documentHighlight uri _ => some uri
  | prepareRename uri _ => some uri
  | rename uri .. => some uri
  | documentSymbol uri => some uri
  | foldingRange uri => some uri
  | selectionRange uri _ => some uri
  | documentLink uri => some uri
  | formatting uri .. => some uri

/-- The answer when the document is not open. -/
def answerWithout : Request U → JsonValue
  | colorPresentation color range => .list (color.spellings.map (presentation range))
  | documentColor _ => .list []
  | _ => .null

/-- The edit that formats a text, if it is not formatted already. -/
def formatEdits (settings : Settings) (tabSize : Nat) (insertSpaces : Bool) (p : ParsedText) :
    List TextEdit :=
  let formatted :=
    p.sheet.format p.text ⟨tabSize, insertSpaces, settings.formatMode, settings.printWidth⟩
  if formatted = p.text then [] else [⟨⟨0, Text.size p.text⟩, formatted⟩]

/-- The answer for an open document. References are followed in the document first, then in the
index. -/
def answerWith (settings : Settings) (index : PropertyIndex U) (p : ParsedText) :
    Request U → JsonValue
  | completion _ place =>
    let items := p.sheet.completionsAt p.text (offsetAt p.text place) settings.showDeprecated
    someList (completions p.text 0 items)
  | hover _ place =>
    ((p.sheet.hoverAt? p.text (offsetAt p.text place) (some index.resolve)).map
      (Encoding.hover p.text)).getD .null
  | documentColor _ =>
    let resolve := chained (p.sheet.customValues p.text).get? (some index.resolve)
    .list ((p.sheet.colors (some resolve)).map (color p.text))
  | colorPresentation color range => .list (color.spellings.map (presentation range))
  | codeAction uri range diagnostics =>
    let offset := offsetAt p.text range.start
    someList ((p.sheet.fixesAt p.text offset).map (fix uri p.text diagnostics) ++
      (p.sheet.respellingsAt p.text offset).map (respelling uri p.text))
  | definition uri place =>
    someList ((p.sheet.definitionsAt (offsetAt p.text place)).map (location uri p.text))
  | references uri place =>
    someList ((p.sheet.referencesAt (offsetAt p.text place)).map (location uri p.text))
  | documentHighlight _ place =>
    someList ((p.sheet.highlightsAt (offsetAt p.text place)).map (highlight p.text))
  | prepareRename _ place =>
    match p.sheet.occurrenceAt? (offsetAt p.text place) with
    | some o => .object [("range", spanRange p.text o.nameSpan), ("placeholder", .text o.name)]
    | none => .null
  | rename uri place newName =>
    ((p.sheet.rename? (offsetAt p.text place) newName).map (workspaceEdit uri p.text)).getD .null
  | documentSymbol _ => someList (symbols p.text (p.sheet.symbols p.text))
  | foldingRange _ => someList ((p.sheet.foldings p.text).map folding)
  | selectionRange _ places =>
    let offsets := places.map (offsetAt p.text)
    someList ((p.sheet.selectionChains p.text offsets).chains.map (selection p.text))
  | documentLink uri => someList ((p.sheet.links p.text).filterMap (link? uri p.text))
  | formatting _ tabSize insertSpaces =>
    .list ((formatEdits settings tabSize insertSpaces p).map (edit p.text))

end Request

/-- The answer to a request, and the session behind it. -/
def Session.answer {U : Type} [DecidableEq U] [Addressing U] (s : Session U) (r : Request U) :
    JsonValue × Session U :=
  match r.uri?.bind s.current? with
  | some (parsed, s) => (r.answerWith s.settings s.index parsed, s)
  | none => (r.answerWithout, s)

end CssWorkbench
