import CssWorkbench.Session.Request

/-!
# What an editor sends

Notifications and requests are told by the names of their methods, and their parameters are read.
What is not known or cannot be read is no message.
-/

namespace CssWorkbench.Decoding

variable {U : Type} [Addressing U]

/-- The address in a member. -/
def uri? (v : JsonValue) : Option U :=
  v.text?.bind Addressing.read?

/-- The document that parameters name. -/
def document? (params : JsonValue) : Option U :=
  uri? ((params.member "textDocument").member "uri")

/-- A position. -/
def position? (v : JsonValue) : Option Position := do
  let line ← (v.member "line").natural? 32
  let character ← (v.member "character").natural? 32
  some ⟨line, character⟩

/-- A range. -/
def range? (v : JsonValue) : Option Range := do
  let start ← position? (v.member "start")
  let stop ← position? (v.member "end")
  some ⟨start, stop⟩

/-- A change to a text. -/
def change? (v : JsonValue) : Option TextChange := do
  let newText ← (v.member "text").text?
  let range := v.member "range"
  if range.isNull then some ⟨none, newText⟩
  else (range? range).map fun range => ⟨some range, newText⟩

/-- A channel of a color, in single precision. -/
def channel? (v : JsonValue) : Option Float :=
  v.number?.map fun x => x.toFloat32.toFloat

/-- A color. -/
def color? (v : JsonValue) : Option Color := do
  let red ← channel? (v.member "red")
  let green ← channel? (v.member "green")
  let blue ← channel? (v.member "blue")
  let alpha ← channel? (v.member "alpha")
  some (.ofChannels red green blue alpha)

/-- The address of a folder of the workspace, which has a name too. -/
def folder? (v : JsonValue) : Option U :=
  (v.member "name").text?.bind fun _ => uri? (v.member "uri")

/-- What `read?` makes of a value that may be null; null is read as `default`. -/
def unlessNull? {α : Type} (default : α) (read? : JsonValue → Option α) (v : JsonValue) :
    Option α :=
  if v.isNull then some default else read? v

/-- The paths of some addresses that lead to files. -/
def paths (uris : List U) : List FilePath := uris.filterMap Addressing.filePath?

variable (U) in
/-- The folders of the workspace, or else its one root, as far as they are files. -/
def roots? (params : JsonValue) : Option (List FilePath) := do
  let folders : List U ← unlessNull? [] (fun v => v.list?.bind (·.mapM folder?))
    (params.member "workspaceFolders")
  let root : List U ← unlessNull? [] (fun v => (uri? v).map ([·])) (params.member "rootUri")
  some (if (paths folders).isEmpty then paths root else paths folders)

/-- How an editor that says what it can do begins. -/
def beginning? (params : JsonValue) : Option (Event U) :=
  if (params.member "capabilities").isNull then none else (roots? U params).map .began

/-- The members of a diagnostic that are sent back with a fix. -/
def diagnosticMembers : List String :=
  ["range", "severity", "code", "codeDescription", "source", "message", "relatedInformation",
    "tags", "data"]

/-- A diagnostic as the editor knows it. -/
def givenDiagnostic (v : JsonValue) : JsonValue :=
  .object ((diagnosticMembers.map fun name => (name, v.member name)).filter fun m => !m.2.isNull)

/-- The event that a notification stands for. -/
def event? (method : String) (params : JsonValue) : Option (Event U) :=
  let document := params.member "textDocument"
  match method with
  | "initialized" => some .initialized
  | "workspace/didChangeConfiguration" => some .configurationChanged
  | "textDocument/didOpen" => do
    let uri ← document? params
    let _ ← (document.member "languageId").text?
    let version ← (document.member "version").whole? 31
    let text ← (document.member "text").text?
    some (.opened uri version text)
  | "textDocument/didChange" => do
    let uri ← document? params
    let version ← (document.member "version").whole? 31
    let changes ← (params.member "contentChanges").list?
    let changes ← changes.mapM change?
    some (.changed uri version changes)
  | "textDocument/didClose" => (document? params).map .closed
  | _ => none

/-- The request about a document that a method stands for. -/
def documentRequest? (uri : U) (params : JsonValue) : String → Option (Request U)
  | "documentColor" => some (.documentColor uri)
  | "documentSymbol" => some (.documentSymbol uri)
  | "foldingRange" => some (.foldingRange uri)
  | "documentLink" => some (.documentLink uri)
  | "selectionRange" => do
    let places ← (params.member "positions").list?
    let places ← places.mapM position?
    some (.selectionRange uri places)
  | "codeAction" => do
    let range ← range? (params.member "range")
    let given ← ((params.member "context").member "diagnostics").list?
    some (.codeAction uri range (given.map givenDiagnostic))
  | "formatting" => do
    let options := params.member "options"
    let tabSize ← (options.member "tabSize").natural? 32
    let insertSpaces ← (options.member "insertSpaces").bool?
    some (.formatting uri tabSize insertSpaces)
  | "colorPresentation" => do
    let color ← color? (params.member "color")
    let range ← range? (params.member "range")
    some (.colorPresentation color range)
  | method => do
    let place ← position? (params.member "position")
    match method with
    | "completion" => some (.completion uri place)
    | "hover" => some (.hover uri place)
    | "definition" => some (.definition uri place)
    | "references" =>
      ((params.member "context").member "includeDeclaration").bool?.map fun _ =>
        .references uri place
    | "documentHighlight" => some (.documentHighlight uri place)
    | "prepareRename" => some (.prepareRename uri place)
    | "rename" =>
      (params.member "newName").text?.map fun newName => .rename uri place newName
    | _ => none

/-- The request that a method stands for. -/
def request? (method : String) (params : JsonValue) : Option (Request U) :=
  match Knowledge.behind? "textDocument/".toList method.toList with
  | some name =>
    (document? params).bind fun uri => documentRequest? uri params (String.ofList name)
  | none => none

end CssWorkbench.Decoding
