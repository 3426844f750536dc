import CssWorkbench.Session.State

/-!
# What a session does while other things go on

An event is heard at once, but most of what comes of it is done in the background, and so are runs
and requests. Each of these is a job that goes from stage to stage; whatever it looked at may have
changed by its next stage. A busy session is a session with its jobs: events come in, time passes,
runs that are due begin, requests begin, and jobs advance, in any order.

A job that is through stays in its place, so that the others keep theirs. A call into the index is
one stage.
-/

namespace CssWorkbench

/-- A job and the stage it is at: what it does next, and what it goes by. -/
inductive Job (U : Type)
  /-- Take over the configuration that the editor answers with. -/
  | configuring (initial : Bool)
  /-- Learn whether the editor shows progress. -/
  | showing (roots : List FilePath)
  /-- Take a turn of the search, or go on to the next root. -/
  | searching (roots : List FilePath) (search : Search) (indexed : Nat) (progress : Bool)
  /-- Tell the editor that a document was closed. -/
  | clearing (uri : U)
  /-- Look for the file of a document that was closed. -/
  | restoring (uri : U)
  /-- Read a file. -/
  | reading (path : FilePath)
  /-- Index the text of a file. -/
  | indexing (path : FilePath) (contents : String)
  /-- Read and index the text that a run saw. -/
  | computing (run : PendingRun U) (seen : Snapshot)
  /-- Store the tree that a run computed, if the document is still as it was seen. -/
  | checking (run : PendingRun U) (seen : Snapshot)
  /-- Publish what a run computed. -/
  | publishing (run : PendingRun U) (seen : Snapshot)
  /-- Store the tree that a request computed, if the document is still as it was seen. -/
  | answering (uri : U) (seen : Snapshot)
  /-- Nothing is left to do. -/
  | finished
deriving Inhabited

variable {U : Type}

/-- The job that an event leaves behind. -/
def Event.job? : Event U → Option (Job U)
  | .initialized => some (.configuring true)
  | .configurationChanged => some (.configuring false)
  | .closed uri => some (.clearing uri)
  | .began _ | .opened .. | .changed .. => none

variable [DecidableEq U] [Addressing U]

namespace Session

/-- Take a turn of a search of the workspace, which passes over open documents. A folder that cannot
be listed ends the search below its root, and what was indexed there does not count. -/
def searchOn (s : Session U) (files : FileTree) (roots : List FilePath) (search : Search)
    (indexed : Nat) (progress : Bool) : Session U × Job U × List (Announcement U) :=
  if search.isOver then
    match roots with
    | [] =>
      (s, .finished, if progress then [.endProgress (indexed + search.indexed)] else [])
    | root :: roots => (s, .searching roots (.start root) (indexed + search.indexed) progress, [])
  else
    match search.turn files [] s.documents.has s.index with
    | some (search, index) => ({ s with index }, .searching roots search indexed progress, [])
    | none => (s, .searching roots .finished indexed progress, [])

/-- Look for the file of a document that was closed. What is no file leaves nothing in the index. -/
def restore (s : Session U) (files : FileTree) (uri : U) : Session U × Job U :=
  match (Addressing.filePath? uri).bind fun path => (files.at? path).map (path, ·) with
  | some (path, .text _) | some (path, .binary) => (s, .reading path)
  | some (_, .special) | some (_, .folder _) | none =>
    ({ s with index := s.index.remove uri }, .finished)

/-- A session after the stage that a job is at, with the next stage of the job and what the editor
is told. -/
def advance (s : Session U) (around : Surroundings) :
    Job U → Session U × Job U × List (Announcement U)
  | .configuring true =>
    if s.roots.isEmpty then (s.configure around, .finished, [])
    else (s.configure around, .showing s.roots, [.askProgress])
  | .configuring false => ((s.configure around).scheduleAll, .finished, [])
  | .showing roots =>
    (s, .searching roots .finished 0 around.progress,
      if around.progress then [.beginProgress] else [])
  | .searching roots search indexed progress =>
    s.searchOn around.files roots search indexed progress
  | .clearing uri => (s, .restoring uri, [.clearing uri])
  | .restoring uri => ((s.restore around.files uri).1, (s.restore around.files uri).2, [])
  | .reading path =>
    match Search.textAt? around.files path [] with
    | some contents => (s, .indexing path contents, [])
    | none => (s, .finished, [])
  | .indexing path contents => (s.indexFileText path contents, .finished, [])
  | .computing run seen => (s.indexSeen run.uri seen, .checking run seen, [])
  | .checking run seen =>
    if s.stillShows run.uri seen then (s.keep run.uri seen, .publishing run seen, [])
    else (s, .finished, [])
  | .publishing run seen => (s, .finished, [run.report seen])
  | .answering uri seen => (s.keep uri seen, .finished, [])
  | .finished => (s, .finished, [])

end Session

/-! ## Busy sessions -/

/-- A job under way. It is outlived when the document that it looked at was closed or opened anew in
the meantime, which nobody remembers when it goes on. -/
structure Underway (U : Type) where
  job : Job U
  outlived : Bool
deriving Inhabited

/-- A session with the jobs that are under way, and all that it told the editor so far. -/
structure BusySession (U : Type) where
  session : Session U
  jobs : List (Underway U)
  told : List (Announcement U)
deriving Inhabited

/-- What a busy session goes through: an event, some milliseconds, the beginning of a run that is
due or of a request about a document, or the stage that one of its jobs is at. -/
inductive BusyStep (U : Type)
  | event (event : Event U)
  | pass (milliseconds : Nat)
  | wake (place : Nat)
  | look (uri : U)
  | advance (place : Nat) (around : Surroundings)

/-- What a job saw of a document that it looked at. -/
def Job.seen? : Job U → Option (U × Snapshot)
  | .computing run seen | .checking run seen | .publishing run seen => some (run.uri, seen)
  | .answering uri seen => some (uri, seen)
  | _ => none

/-- A job under way after an event. -/
def Underway.after (j : Underway U) : Event U → Underway U
  | .opened uri _ _ | .closed uri =>
    { j with outlived := j.outlived || j.job.seen?.any fun seen => seen.1 = uri }
  | _ => j

namespace BusySession

/-- A busy session at its start. -/
def start : BusySession U := ⟨.start, [], []⟩

/-- A busy session with one more job. -/
def begin (b : BusySession U) (job : Job U) : BusySession U :=
  { b with jobs := b.jobs ++ [⟨job, false⟩] }

/-- A busy session right after an event, before the job that the event leaves behind. -/
def hear (b : BusySession U) (event : Event U) : BusySession U :=
  ⟨b.session.hear event, b.jobs.map (·.after event), b.told ++ event.announcements⟩

/-- A busy session after a step. -/
def take (b : BusySession U) : BusyStep U → BusySession U
  | .event event => event.job?.elim (b.hear event) (b.hear event).begin
  | .pass milliseconds =>
    { b with session := { b.session with now := b.session.now + milliseconds } }
  | .wake place =>
    match b.session.pending[place]? with
    | some run =>
      if run.due ≤ b.session.now then
        let woken : BusySession U :=
          { b with session := { b.session with pending := b.session.pending.eraseIdx place } }
        (b.session.look? run).elim woken fun seen => woken.begin (.computing run seen)
      else b
    | none => b
  | .look uri => (b.session.snapshot? uri).elim b fun seen => b.begin (.answering uri seen)
  | .advance place around =>
    match b.jobs[place]? with
    | some j =>
      let (session, job, told) := b.session.advance around j.job
      ⟨session, b.jobs.set place { j with job }, b.told ++ told⟩
    | none => b

/-- A busy session after some steps. -/
def takeAll (b : BusySession U) (steps : List (BusyStep U)) : BusySession U := steps.foldl take b

end BusySession

end CssWorkbench
