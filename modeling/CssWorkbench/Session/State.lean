import CssWorkbench.Analysis.Diagnostic
import CssWorkbench.Session.Settings
import CssWorkbench.Workspace.Document
import CssWorkbench.Workspace.Search

/-!
# A session with an editor

A session holds the open documents, the index of the workspace, the settings and the runs that are
still to come. A run looks at a document some time after it was opened or changed, indexes its
custom properties and publishes its diagnostics; it does nothing if the document was closed or has
another version by then.

Here is what a session does at once: what it takes over from an event, and the single strokes of a
run, each of which leaves the session to others when it is done. `Session.advance` puts them
together as they are made while other things go on, `Session.handle` and `Session.wait` as they are
made when nothing else does.
-/

namespace CssWorkbench

/-- How long after it was opened a document is looked at, in milliseconds. -/
def openDelay : Nat := 100

/-- How long after a change a document is looked at, in milliseconds. -/
def changeDelay : Nat := 250

/-- What surrounds a session: the files, the section of the configuration that the editor answers
with, and whether the editor shows progress. -/
structure Surroundings where
  files : FileTree
  configuration : Option JsonValue
  progress : Bool
deriving Inhabited

/-- A run to come: the version it was scheduled for, when it is due, and the settings it goes by. -/
structure PendingRun (U : Type) where
  uri : U
  version : Int
  due : Nat
  settings : Settings
deriving DecidableEq, Repr, Inhabited

/-- What a session tells the editor. Diagnostics come with the text that they are about. -/
inductive Announcement (U : Type)
  | log (text : String)
  | askConfiguration
  | askProgress
  | beginProgress
  | endProgress (files : Nat)
  | publish (uri : U) (version : Option Int) (text : String) (diagnostics : List Diagnostic)
deriving DecidableEq, Repr, Inhabited

/-- The state of a session. -/
structure Session (U : Type) where
  now : Nat
  settings : Settings
  roots : List FilePath
  documents : Dictionary U Document
  index : PropertyIndex U
  pending : List (PendingRun U)
deriving Inhabited

/-- What happens to a session. -/
inductive Event (U : Type)
  | began (roots : List FilePath)
  | initialized
  | configurationChanged
  | opened (uri : U) (version : Int) (text : String)
  | changed (uri : U) (version : Int) (changes : List TextChange)
  | closed (uri : U)
deriving DecidableEq, Repr, Inhabited

/-- The diagnostics of a text under some settings. Without linting, only errors are reported. -/
def diagnosticsOf (settings : Settings) (p : ParsedText) : List Diagnostic :=
  if settings.lint then p.sheet.diagnostics p.errors else p.errors.map SyntaxError.diagnostic

variable {U : Type}

/-- What a run tells the editor of a document that looked like this. -/
def PendingRun.report (run : PendingRun U) (seen : Snapshot) : Announcement U :=
  .publish run.uri (some seen.version) seen.content
    (diagnosticsOf run.settings (.ofText seen.content))

/-- What the editor is told when a document is closed: there is nothing to report. -/
def Announcement.clearing (uri : U) : Announcement U := .publish uri none "" []

/-- What the editor is told at once when an event comes in. -/
def Event.announcements : Event U → List (Announcement U)
  | .initialized => [.log "CSS Language Server started", .askConfiguration]
  | .configurationChanged => [.askConfiguration]
  | .began _ | .opened .. | .changed .. | .closed _ => []

namespace Session

/-- A session at its start. -/
def start : Session U := ⟨0, ⟨false, true, .expanded, 80⟩, [], [], .empty, []⟩

/-- Schedule a run for a version of a document. -/
def schedule (s : Session U) (uri : U) (version : Int) (delay : Nat) : Session U :=
  { s with pending := s.pending ++ [⟨uri, version, s.now + delay, s.settings⟩] }

/-- Schedule a run for every open document. -/
def scheduleAll (s : Session U) : Session U :=
  s.documents.foldl (fun s p => s.schedule p.1 p.2.version 0) s

/-- Take over the configuration of the editor, if it is valid. -/
def configure (s : Session U) (around : Surroundings) : Session U :=
  match around.configuration.bind Settings.ofSection? with
  | some settings => { s with settings := settings }
  | none => s

variable [DecidableEq U]

/-- Put a document in the place of the one of the same address. -/
def putDocument (s : Session U) (uri : U) (d : Document) : Session U :=
  { s with documents := s.documents.put uri d }

/-- What the open document at an address looks like. -/
def snapshot? (s : Session U) (uri : U) : Option Snapshot :=
  (s.documents.get? uri).map Document.snapshot

/-- The session right after an event. -/
def hear (s : Session U) : Event U → Session U
  | .began roots => { s with roots := roots }
  | .initialized | .configurationChanged => s
  | .opened uri version text =>
    (s.putDocument uri (.opened text version)).schedule uri version openDelay
  | .changed uri version changes =>
    let d := (s.documents.get? uri).getD .blank
    (s.putDocument uri (d.change version changes)).schedule uri version changeDelay
  | .closed uri => { s with documents := s.documents.erase uri }

/-! ## The strokes of a run -/

/-- Look at the document of a run, if it still has the version of the run. -/
def look? (s : Session U) (run : PendingRun U) : Option Snapshot :=
  (s.snapshot? run.uri).filter fun seen => seen.version = run.version

/-- Index the text that was seen. Nobody looks whether the document still has it. -/
def indexSeen (s : Session U) (uri : U) (seen : Snapshot) : Session U :=
  { s with index := s.index.indexText uri seen.content }

/-- Whether a document is open that still looks as it was seen. -/
def stillShows (s : Session U) (uri : U) (seen : Snapshot) : Bool :=
  (s.documents.get? uri).any fun d => d.matchesSnapshot seen

/-- Store the tree of the text that was seen in the document at an address, if one is open there
that still looks like that. -/
def keep (s : Session U) (uri : U) (seen : Snapshot) : Session U :=
  match s.documents.get? uri with
  | some d => s.putDocument uri (d.store seen (.ofText seen.content))
  | none => s

/-- Make a run without a break: look at the document, index it, and keep and publish what was
computed. -/
def fire (s : Session U) (run : PendingRun U) : Session U × List (Announcement U) :=
  match s.look? run with
  | none => (s, [])
  | some seen =>
    let s := s.indexSeen run.uri seen
    if s.stillShows run.uri seen then (s.keep run.uri seen, [run.report seen]) else (s, [])

/-- Make some runs, one after the other. -/
def fireAll (s : Session U) : List (PendingRun U) → Session U × List (Announcement U)
  | [] => (s, [])
  | run :: runs =>
    let (s, told) := s.fire run
    let (s, more) := s.fireAll runs
    (s, told ++ more)

/-- Let some milliseconds pass. The runs that come due are made in the order of their times. -/
def wait (s : Session U) (milliseconds : Nat) : Session U × List (Announcement U) :=
  let now := s.now + milliseconds
  let due := (s.pending.filter (·.due ≤ now)).mergeSort fun a b => a.due ≤ b.due
  { s with now := now, pending := s.pending.filter (now < ·.due) }.fireAll due

/-! ## Events without a break -/

variable [Addressing U]

/-- Index the text of the file at a path, if the path has an address. -/
def indexFileText (s : Session U) (path : FilePath) (contents : String) : Session U :=
  { s with index := (s.index.indexAt? path contents).getD s.index }

/-- Index the stylesheets below some folders, those of open documents aside, and count them. -/
def scanRoots (s : Session U) (files : FileTree) : List FilePath → Nat × Session U
  | [] => (0, s)
  | root :: roots =>
    match files.at? root with
    | some (.folder entries) =>
      let found := addressed s.documents.has ((FileTree.folder entries).stylesheets root)
      let (count, s) := scanRoots { s with index := s.index.indexFound found } files roots
      (found.length + count, s)
    | _ => scanRoots s files roots

/-- Index the workspace, with the messages that show progress. -/
def indexWorkspace (s : Session U) (around : Surroundings) : Session U × List (Announcement U) :=
  if s.roots.isEmpty then (s, [])
  else
    let (count, s) := s.scanRoots around.files s.roots
    (s, .askProgress :: if around.progress then [.beginProgress, .endProgress count] else [])

/-- Index what is on the disk in the place of a document that was closed. A file that is no text
leaves the index as it is. -/
def reindex (s : Session U) (files : FileTree) (uri : U) : Session U :=
  match (Addressing.filePath? uri).bind fun path => (files.at? path).map (path, ·) with
  | some (path, .text contents) => s.indexFileText path contents
  | some (_, .binary) => s
  | some (_, .special) | some (_, .folder _) | none => { s with index := s.index.remove uri }

/-- The session after an event and all that comes of it at once, and what it tells the editor. -/
def handle (s : Session U) (around : Surroundings) (event : Event U) :
    Session U × List (Announcement U) :=
  let s := s.hear event
  let (s, more) :=
    match event with
    | .initialized => (s.configure around).indexWorkspace around
    | .configurationChanged => ((s.configure around).scheduleAll, [])
    | .closed uri => (s.reindex around.files uri, [.clearing uri])
    | .began _ | .opened .. | .changed .. => (s, [])
  (s, event.announcements ++ more)

omit [Addressing U] in
/-- The text of an open document with its tree, which is kept for later. -/
def current? (s : Session U) (uri : U) : Option (ParsedText × Session U) :=
  (s.documents.get? uri).map fun d =>
    (d.current, s.putDocument uri (d.store d.snapshot d.current))

end Session

end CssWorkbench
