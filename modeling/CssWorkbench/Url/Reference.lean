import CssWorkbench.Url.Path

/-!
# Reading addresses

A text spells an address by itself, or relative to another address. Blanks and controls at its ends
do not count, nor do line breaks and tabs anywhere in it. A text that spells none is refused.
-/

namespace CssWorkbench.Url

/-! ## Schemes -/

/-- The scheme in front of a text, and what follows its colon. -/
def takeScheme? (cs : List Char) : Option (String × List Char) :=
  let name := cs.takeWhile fun c => c.isAlphanum || c = '+' || c = '-' || c = '.'
  match name.head?, cs.drop name.length with
  | some first, ':' :: rest =>
    if first.isAlpha then some (Text.lower (String.ofList name), rest) else none
  | _, _ => none

/-! ## Authorities -/

/-- A user as it is kept: the name, and behind a colon the secret if there is one. -/
def userText (cs : List Char) : String :=
  let secret := (cs.dropWhile (· ≠ ':')).drop 1
  percentEncode hidesInUser (cs.takeWhile (· ≠ ':')) ++
    if secret.isEmpty then "" else ":" ++ percentEncode hidesInUser secret

/-- The user in front of the last `@`, if there is one, and the rest. -/
def splitUser (cs : List Char) : Option (List Char) × List Char :=
  let host := (cs.reverse.takeWhile (· ≠ '@')).reverse
  if cs.contains '@' then (some ((cs.take (cs.length - host.length)).dropLast), host)
  else (none, cs)

/-- A text up to the first colon that is not in brackets. -/
def untilColon (bracketed : Bool) : List Char → List Char
  | [] => []
  | c :: cs =>
    if c = ':' && !bracketed then []
    else c :: untilColon (c = '[' || (bracketed && c ≠ ']')) cs

/-- The host that a text spells. A special scheme needs one. -/
def host? (scheme : String) (cs : List Char) : Option Host :=
  if !isSpecial scheme then Host.ofPlain? cs
  else if cs.isEmpty then none
  else Host.ofDomain? cs

/-- The service number behind a host, if it is not the usual one, and the rest. -/
def takeService? (scheme : String) : List Char → Option (Option Nat × List Char)
  | ':' :: cs =>
    let digits := cs.takeWhile Char.isDigit
    let rest := cs.drop digits.length
    let number := digits.foldl (fun n c => 10 * n + (c.toNat - '0'.toNat)) 0
    if 65535 < number || rest.head?.any fun c => c ≠ '/' && c ≠ '\\' then none
    else if digits.isEmpty || some number = webService? scheme then some (none, rest)
    else some (some number, rest)
  | cs => some (none, cs)

/-- The authority in front of a text, and the rest. Neither a user nor a service number stands
without a host. -/
def takeAuthority? (scheme : String) (cs : List Char) : Option (Authority × List Char) :=
  let zone := cs.takeWhile (!partsSteps (isSpecial scheme) ·)
  let (user, behindUser) := splitUser zone
  let hostText := untilColon false behindUser
  let behindHost := cs.drop (zone.length - behindUser.length + hostText.length)
  let user' := user.elim "" userText
  do
    let host ← host? scheme hostText
    let (service, rest) ← takeService? scheme behindHost
    let alone := host = .none &&
      (user' ≠ "" || behindHost.head? = some ':' || (user.isSome && !rest.isEmpty))
    if alone then none else some (⟨user', host, service⟩, rest)

/-- An address from the text behind the two slashes, with its query. -/
def withAuthority? (scheme : String) (query : Option String) (cs : List Char) : Option Url :=
  (takeAuthority? scheme cs).map fun (authority, rest) =>
    ⟨scheme, some authority, .steps (keptSteps scheme (rootSteps scheme rest)), query, none⟩

/-! ## Files -/

/-- Whether a text starts with a drive. -/
def startsWithDrive : List Char → Bool
  | [a, b] => namesDrive [a, b]
  | a :: b :: c :: _ => namesDrive [a, b] && (c = '/' || c = '\\')
  | _ => false

/-- The address of a file on a host. -/
def onHost (host : Host) (query : Option String) (steps : List String) : Url :=
  ⟨"file", some ⟨"", host, none⟩, .steps (keptSteps "file" steps), query, none⟩

/-- The address of a file from the text behind two slashes. With a drive the host does not count. -/
def fileBehindSlashes? (query : Option String) (cs : List Char) : Option Url :=
  let zone := cs.takeWhile (!partsSteps true ·)
  let nowhere (cs : List Char) : Url := onHost .none query (readSteps "file" [] cs)
  if zone.isEmpty || namesDrive zone then some (nowhere cs)
  else
    (Host.ofDomain? zone).map fun host =>
      let rest := cs.drop zone.length
      let steps := rootSteps "file" rest
      if host = .name "localhost" then nowhere rest
      else if steps.head?.any isDrive then onHost .none query steps
      else onHost host query steps

/-- The host and the steps that a path from the root of a file keeps from another file: its drive,
or else its host. -/
def keptOfFile (base : Option Url) : Host × List String :=
  match base with
  | some b =>
    if b.path.toSteps.head?.any isDrive then (.none, b.path.toSteps.take 1)
    else ((b.authority.getD .none).host, [])
  | none => (.none, [])

/-- The address of a file from the text behind the scheme, relative to another file if one is
given. -/
def fileReference? (base : Option Url) (query : Option String) (cs : List Char) : Option Url :=
  match cs with
  | [] =>
    match base with
    | some b => some { b with query := query.or b.query, fragment := none }
    | none => some (onHost .none query [""])
  | c :: rest =>
    if partsSteps true c then
      if rest.head?.any (partsSteps true) then fileBehindSlashes? query (rest.drop 1)
      else
        let (host, folder) := if startsWithDrive rest then (.none, []) else keptOfFile base
        some (onHost host query (readSteps "file" folder rest))
    else
      match base.filter fun _ => !startsWithDrive cs with
      | some b =>
        let host := (b.authority.getD .none).host
        some (onHost host query (readSteps "file" (b.path.folder "file") cs))
      | none => some (onHost .none query (readSteps "file" [] cs))

/-! ## Other addresses -/

/-- Slashes of both kinds. -/
def isAnySlash (c : Char) : Bool := c = '/' || c = '\\'

/-- The address that a text without scheme spells relative to one that is no file. -/
def relativeTo? (base : Url) (query : Option String) (cs : List Char) : Option Url :=
  match cs with
  | [] => some { base with query := query.or base.query, fragment := none }
  | c :: rest =>
    if isAnySlash c then
      match cs with
      | '/' :: '/' :: behind => withAuthority? base.scheme query behind
      | _ =>
        if rest.head?.any isAnySlash then
          withAuthority? base.scheme query (cs.dropWhile isAnySlash)
        else some { base with
          path := readPath base.scheme [] rest, query := query, fragment := none }
    else
      let path := readPath base.scheme (base.path.folder base.scheme) cs
      some { base with path := path, query := query, fragment := none }

/-- The address that a text behind a scheme spells. A special scheme that is also that of the other
address makes the text relative to it, unless two slashes follow. -/
def behindScheme? (base : Option Url) (scheme : String) (query : Option String)
    (cs : List Char) : Option Url :=
  let related := base.filter (·.scheme = scheme)
  if scheme = "file" then fileReference? related query cs
  else if isSpecial scheme then
    let slashes := cs.takeWhile isAnySlash
    match related.filter fun _ => slashes.length < 2 with
    | some b => relativeTo? b query cs
    | none => withAuthority? scheme query (cs.drop slashes.length)
  else
    match cs with
    | '/' :: '/' :: rest => withAuthority? scheme query rest
    | '/' :: rest => some ⟨scheme, none, readPath scheme [] rest, query, none⟩
    | _ => some ⟨scheme, none, .plain (percentEncode isHidden cs), query, none⟩

/-! ## Whole texts -/

/-- What stands before the first `mark`, and what behind it if there is one. -/
def splitAtMark (mark : Char) (cs : List Char) : List Char × Option (List Char) :=
  match cs.dropWhile (· ≠ mark) with
  | [] => (cs, none)
  | _ :: behind => (cs.takeWhile (· ≠ mark), some behind)

/-- A text as it is read: without blanks and controls at its ends, and without line breaks and
tabs. -/
def readable (text : String) : List Char :=
  let outer (c : Char) : Bool := c.toNat ≤ 0x20
  (Text.dropEndWhile outer (text.toList.dropWhile outer)).filter fun c =>
    c ≠ '\t' && c ≠ '\n' && c ≠ '\r'

/-- The address that a text spells, by itself or relative to another one. An address with a plain
path is left by a fragment alone. -/
def read? (base : Option Url) (text : String) : Option Url :=
  let (whole, fragment) := splitAtMark '#' (readable text)
  let (front, query) := splitAtMark '?' whole
  let fragment := fragment.map (percentEncode hidesInFragment)
  let queryFor (scheme : String) := query.map (percentEncode (hidesInQuery (isSpecial scheme)))
  let found : Option Url :=
    match takeScheme? front, base with
    | some (scheme, rest), _ => behindScheme? base scheme (queryFor scheme) rest
    | none, some b =>
      match b.path with
      | .plain _ => if whole.isEmpty && fragment.isSome then some b else none
      | .steps _ =>
        if b.scheme = "file" then fileReference? base (queryFor b.scheme) front
        else relativeTo? b (queryFor b.scheme) front
    | none, none => none
  found.map ({ · with fragment := fragment })

/-- The address that a text spells by itself. -/
def ofString? (text : String) : Option Url := read? none text

/-- The address that a text spells relative to another one. -/
def join? (base : Url) (text : String) : Option Url := read? (some base) text

end CssWorkbench.Url
