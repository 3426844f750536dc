import CssWorkbench.Url.Host

/-!
# URLs

An address is a scheme, an authority (user, host and service number) that may be missing, a path, a
query and a fragment. The path is a list of steps, or for addresses such as `untitled:notes` a plain
text. Two addresses are the same if they are written alike.
-/

namespace CssWorkbench

/-- Where an address is served: the user, who may have a secret, the host and the service number,
unless it is the usual one. -/
structure Url.Authority where
  user : String
  host : Url.Host
  service : Option Nat
deriving DecidableEq, Repr, Inhabited

/-- The path of an address. -/
inductive Url.Path
  | steps (list : List String)
  | plain (text : String)
deriving DecidableEq, Repr, Inhabited

/-- An address. -/
structure Url where
  scheme : String
  authority : Option Url.Authority
  path : Url.Path
  query : Option String
  fragment : Option String
deriving DecidableEq, Repr, Inhabited

namespace Url

/-- The service number that a scheme uses unless told otherwise, for the schemes of the web. -/
def webService? : String → Option Nat
  | "http" | "ws" => some 80
  | "https" | "wss" => some 443
  | "ftp" => some 21
  | _ => none

/-- The special schemes, whose addresses have a host and no plain path. -/
def isSpecial (scheme : String) : Bool :=
  scheme = "file" || (webService? scheme).isSome

/-- An authority without user and host. -/
def Authority.none : Authority := ⟨"", .none, Option.none⟩

/-- An authority as it is written. -/
protected def Authority.toString (a : Authority) : String :=
  (if a.user = "" then "" else a.user ++ "@") ++ a.host.toString ++
    a.service.elim "" fun number => ":" ++ toString number

/-- A path as it is written. -/
protected def Path.toString : Path → String
  | .steps list => String.join (list.map ("/" ++ ·))
  | .plain text => text

/-- Whether a path starts with two slashes, which without an authority would be taken for one. -/
def Path.startsWithSlashes : Path → Bool
  | .steps ("" :: _ :: _) => true
  | _ => false

/-- An address as it is written. -/
protected def toString (u : Url) : String :=
  let authority :=
    match u.authority with
    | some a => "//" ++ a.toString
    | none => if u.path.startsWithSlashes then "/." else ""
  u.scheme ++ ":" ++ authority ++ u.path.toString ++
    (u.query.elim "" ("?" ++ ·)) ++ (u.fragment.elim "" ("#" ++ ·))

end Url

end CssWorkbench
