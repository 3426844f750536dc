import CssWorkbench.Session.Decoding
import CssWorkbench.Workspace.VariableIndex

/-!
# The connection with an editor

An editor introduces itself, then talks to the session, and at last shuts it down. What it sends
before or after is not heard, nor is a message that cannot be read: such a message has no answer and
changes nothing. Runs that were scheduled before the end are still made. Documents are named by
their URLs.
-/

namespace CssWorkbench

/-- How far a connection has come. -/
inductive Phase
  | silent | talking | ended
deriving DecidableEq, Repr, Inhabited

/-- A session and how far the connection with its editor has come. -/
structure Connection where
  phase : Phase
  session : Session Url
deriving Inhabited

/-- What a session tells its editor. -/
abbrev Notice := Announcement Url

/-- What an editor sends. A request is answered, a notification is not. -/
inductive Message
  | request (method : String) (params : JsonValue)
  | notification (method : String) (params : JsonValue)
deriving Inhabited

/-- What the editor gets for a message: the answer, and what else the session tells it at once. -/
structure Response where
  answer : JsonValue
  notices : List Notice
deriving Inhabited

namespace Connection

/-- A connection before the first message. -/
def start : Connection := ⟨.silent, .start⟩

/-- Neither an answer nor anything else. -/
def nothing : Response := ⟨.null, []⟩

/-- Hear the introduction of the editor. -/
def begin (c : Connection) (around : Surroundings) (params : JsonValue) : Response × Connection :=
  match Decoding.beginning? params with
  | some event =>
    let (session, notices) := c.session.handle around event
    (⟨Encoding.introduction, notices⟩, ⟨.talking, session⟩)
  | none => (nothing, c)

/-- Answer a request of an editor that has introduced itself. -/
def answer (c : Connection) (method : String) (params : JsonValue) : Response × Connection :=
  if method = "shutdown" then (nothing, { c with phase := .ended })
  else
    match Decoding.request? method params with
    | some request =>
      let (answer, session) := c.session.answer request
      (⟨answer, []⟩, { c with session := session })
    | none => (nothing, c)

/-- Hear a notification of an editor that has introduced itself. -/
def notify (c : Connection) (around : Surroundings) (method : String) (params : JsonValue) :
    Response × Connection :=
  match Decoding.event? method params with
  | some event =>
    let (session, notices) := c.session.handle around event
    (⟨.null, notices⟩, { c with session := session })
  | none => (nothing, c)

/-- Receive a message. -/
def receive (c : Connection) (around : Surroundings) (message : Message) :
    Response × Connection :=
  match c.phase, message with
  | .silent, .request "initialize" params => c.begin around params
  | .talking, .request method params => c.answer method params
  | .talking, .notification method params => c.notify around method params
  | _, _ => (nothing, c)

/-- Let some milliseconds pass, also after the end. -/
def wait (c : Connection) (milliseconds : Nat) : List Notice × Connection :=
  let (session, notices) := c.session.wait milliseconds
  (notices, { c with session := session })

end Connection

end CssWorkbench
