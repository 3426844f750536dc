import CssWorkbench.Analysis.Completion
import CssWorkbench.Analysis.Fix
import CssWorkbench.Analysis.Hover
import CssWorkbench.Color.Palette
import CssWorkbench.Decimal.Fixed
import CssWorkbench.Outline.Folding
import CssWorkbench.Outline.Link
import CssWorkbench.Outline.Symbol
import CssWorkbench.Session.State

/-!
# What an editor is sent

The results of the analyses in the shapes of the language server protocol, and the messages that a
session sends of its own accord. Members without a value are left out.
-/

namespace CssWorkbench.Encoding

open JsonValue

variable {U : Type} [Addressing U]

/-- A position. -/
def position (p : Position) : JsonValue :=
  .object [("line", natural p.line), ("character", natural p.character)]

/-- A range. -/
def range (r : Range) : JsonValue :=
  .object [("start", position r.start), ("end", position r.stop)]

/-- The range of a span. -/
def spanRange (source : String) (s : Span) : JsonValue := range (s.range source)

/-- A new text for a range. -/
def rangeEdit (r : Range) (newText : String) : JsonValue :=
  .object [("range", range r), ("newText", .text newText)]

/-- An edit of a source. -/
def edit (source : String) (e : TextEdit) : JsonValue := rangeEdit (e.span.range source) e.newText

/-- Edits of the source at an address. -/
def workspaceEdit (uri : U) (source : String) (edits : List TextEdit) : JsonValue :=
  .object [("changes", .object [(Addressing.written uri, .list (edits.map (edit source)))])]

/-- A diagnostic. An empty ruleset is tagged as not needed. -/
def diagnostic (source : String) (d : Diagnostic) : JsonValue :=
  record [
    ("range", range (d.range source)),
    ("severity", natural d.severity.rank),
    ("code", JsonValue.text d.code.name),
    ("source", JsonValue.text "css"),
    ("message", JsonValue.text d.message),
    ("tags", if d.code = .emptyRuleset then some (.list [natural 1]) else none)]

/-- The number of a kind of completion. -/
def completionKind : CompletionKind → Nat
  | .property => 10
  | .keyword => 12
  | .function => 3
  | .color => 16
  | .variable => 6
  | .atRule => 14
  | .pseudoClass => 3
  | .pseudoElement => 3
  | .element => 14

/-- A completion in its place among the others. -/
def completion (source : String) (place : Nat) (c : CompletionItem) : JsonValue :=
  record [
    ("label", JsonValue.text c.label),
    ("kind", natural (completionKind c.kind)),
    ("detail", c.detail.map .text),
    ("documentation",
      if c.deprecated then some (.text "Deprecated: this entry is obsolete") else none),
    ("tags", if c.deprecated then some (.list [natural 1]) else none),
    ("sortText", JsonValue.text (Decimal.padded 5 place)),
    ("textEdit", edit source ⟨c.replace, c.insertText⟩)]

/-- Completions from a place on. -/
def completions (source : String) (place : Nat) : List CompletionItem → List JsonValue
  | [] => []
  | c :: cs => completion source place c :: completions source (place + 1) cs

/-- A hover. -/
def hover (source : String) (h : Hover) : JsonValue :=
  .object [
    ("contents", .object [("kind", .text "markdown"), ("value", .text h.contents)]),
    ("range", spanRange source h.span)]

/-- A channel of a color, in single precision. -/
def channel (x : Float) : JsonValue := .float x.toFloat32.toFloat

/-- A color in a source. -/
def color (source : String) (m : ColorMatch) : JsonValue :=
  .object [
    ("range", spanRange source m.span),
    ("color", .object [("red", channel m.color.red), ("green", channel m.color.green),
      ("blue", channel m.color.blue), ("alpha", channel m.color.alpha)])]

/-- A spelling of a color, offered in the place of a range. -/
def presentation (r : Range) (label : String) : JsonValue :=
  .object [("label", .text label), ("textEdit", rangeEdit r label)]

/-- A quick fix, with those of the editor's own diagnostics that it resolves. -/
def fix (uri : U) (source : String) (given : List JsonValue) (f : Fix) : JsonValue :=
  let resolved := given.filter fun d => (d.member "code").text? = some f.code.name
  record [
    ("title", JsonValue.text f.title),
    ("kind", JsonValue.text "quickfix"),
    ("diagnostics", if resolved.isEmpty then none else some (.list resolved)),
    ("edit", workspaceEdit uri source [f.edit]),
    ("isPreferred", JsonValue.bool false)]

/-- The offer to spell a color differently. -/
def respelling (uri : U) (source : String) (r : Respelling) : JsonValue :=
  .object [
    ("title", .text r.title),
    ("kind", .text "refactor.rewrite"),
    ("edit", workspaceEdit uri source [r.edit])]

/-- A span in the source at an address. -/
def location (uri : U) (source : String) (s : Span) : JsonValue :=
  .object [("uri", .text (Addressing.written uri)), ("range", spanRange source s)]

/-- An occurrence of a custom property. -/
def highlight (source : String) (o : Occurrence) : JsonValue :=
  let kind : Nat :=
    match o.access with
    | .write => 3
    | .read => 2
  .object [("range", spanRange source o.span), ("kind", natural kind)]

/-- The number of a kind of outline entry. -/
def symbolKind : SymbolKind → Nat
  | .ruleset => 5
  | .atRule => 2
  | .variable => 13

mutual

/-- An entry of the outline with those below it. -/
def symbol (source : String) : Symbol → JsonValue
  | .entry name kind span selection children =>
    let below := symbols source children
    record [
      ("name", JsonValue.text name),
      ("kind", natural (symbolKind kind)),
      ("range", spanRange source span),
      ("selectionRange", spanRange source selection),
      ("children", if below.isEmpty then none else some (.list below))]

/-- Entries of the outline. -/
def symbols (source : String) : List Symbol → List JsonValue
  | [] => []
  | s :: rest => symbol source s :: symbols source rest

end

/-- A run of lines that can be folded. -/
def folding (r : FoldingRange) : JsonValue :=
  let kind : FoldingKind → String
    | .comment => "comment"
    | .region => "region"
  record [
    ("startLine", natural r.startLine),
    ("endLine", natural r.stopLine),
    ("kind", r.kind.map fun k => .text (kind k))]

/-- Spans that grow outwards, each holding the next one as its parent. -/
def selection (source : String) : List Span → JsonValue
  | [] => .null
  | [s] => .object [("range", spanRange source s)]
  | s :: rest => .object [("range", spanRange source s), ("parent", selection source rest)]

/-- A link, if its target is an address relative to that of its source. -/
def link? (uri : U) (source : String) (l : Link) : Option JsonValue :=
  (Addressing.join? uri l.target).map fun target =>
    .object [("range", spanRange source l.span), ("target", .text (Addressing.written target))]

/-- A message to the editor. -/
def message (method : String) (params : JsonValue) : JsonValue :=
  .object [("method", .text method), ("params", params)]

/-- The name under which progress is shown. -/
def progressToken : String × JsonValue := ("token", .text "cssls:index")

/-- A message about progress. -/
def progress (value : List (String × JsonValue)) : JsonValue :=
  message "$/progress" (.object [progressToken, ("value", .object value)])

/-- What a session tells the editor, as a message. -/
def notice : Announcement U → JsonValue
  | .log line =>
    message "window/logMessage" (.object [("type", natural 3), ("message", .text line)])
  | .askConfiguration =>
    message "workspace/configuration"
      (.object [("items", .list [.object [("section", .text "css")]])])
  | .askProgress => message "window/workDoneProgress/create" (.object [progressToken])
  | .beginProgress =>
    progress [("kind", .text "begin"), ("title", .text "CSS: Indexing workspace"),
      ("cancellable", .bool false)]
  | .endProgress files =>
    progress [("kind", .text "end"), ("message", .text (toString files ++ " stylesheets indexed"))]
  | .publish uri version source diagnostics =>
    message "textDocument/publishDiagnostics" (record [
      ("uri", JsonValue.text (Addressing.written uri)),
      ("diagnostics", JsonValue.list (diagnostics.map (diagnostic source))),
      ("version", version.map .whole)])

/-- What the session can do. -/
def capabilities : JsonValue :=
  .object [
    ("codeActionProvider",
      .object [("codeActionKinds", texts ["quickfix", "refactor.rewrite"])]),
    ("colorProvider", .bool true),
    ("completionProvider",
      .object [("resolveProvider", .bool false),
        ("triggerCharacters", texts ["@", ":", "-", "(", " "])]),
    ("definitionProvider", .bool true),
    ("documentFormattingProvider", .bool true),
    ("documentHighlightProvider", .bool true),
    ("documentLinkProvider", .object [("resolveProvider", .bool false)]),
    ("documentSymbolProvider", .bool true),
    ("foldingRangeProvider", .bool true),
    ("hoverProvider", .bool true),
    ("referencesProvider", .bool true),
    ("renameProvider", .object [("prepareProvider", .bool true)]),
    ("selectionRangeProvider", .bool true),
    ("textDocumentSync", natural 2)]

/-- How the session introduces itself. -/
def introduction : JsonValue :=
  .object [
    ("capabilities", capabilities),
    ("serverInfo",
      .object [("name", .text "CSS Language Server"), ("version", .text "0.2.0")])]

end CssWorkbench.Encoding
