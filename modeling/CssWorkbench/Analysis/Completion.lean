import CssWorkbench.Custom.Values
import CssWorkbench.Knowledge.AtRule
import CssWorkbench.Knowledge.NamedColor
import CssWorkbench.Knowledge.Property
import CssWorkbench.Knowledge.Pseudo
import CssWorkbench.Knowledge.Value
import CssWorkbench.Token.Stretch
import CssWorkbench.Tree.Walk

/-!
# Completion

The cursor is classified by the text in front of it and by the tree, and the names that make sense
there are offered if they start with what was typed so far.
-/

namespace CssWorkbench

/-- What can be typed at the cursor. -/
inductive CompletionContext
  | nothing
  | property
  | value (property : String)
  | atRule
  | pseudoClass
  | pseudoElement
  | selector
  | topLevel
deriving DecidableEq, Repr, Inhabited

/-- A classified cursor: the context, what was typed of a name, and the span that a chosen name
takes the place of, marks such as `@` and `::` included. -/
structure CompletionRequest where
  context : CompletionContext
  typed : String
  replace : Span
deriving DecidableEq, Repr, Inhabited

/-- What a name offered stands for. -/
inductive CompletionKind
  | property | keyword | function | color | variable | atRule | pseudoClass | pseudoElement
  | element
deriving DecidableEq, Repr, Inhabited

/-- A name offered. -/
structure CompletionItem where
  label : String
  kind : CompletionKind
  detail : Option String
  insertText : String
  replace : Span
  deprecated : Bool
deriving DecidableEq, Repr, Inhabited

/-! ## The text in front of the cursor -/

/-- Whether the last comment mark of a text opens a comment. The text is given backwards. -/
def endsInComment : List Char → Bool
  | '*' :: '/' :: _ => true
  | '/' :: '*' :: _ => false
  | _ :: cs => endsInComment cs
  | [] => false

/-- Where a scan for braces stands: in plain text, in a comment, or in a string with its quote. -/
inductive BraceScan
  | plain
  | comment
  | quoted (quote : Char)
deriving DecidableEq, Repr, Inhabited

/-- The number of braces left open behind a text in front of which `depth` are open. Braces in
comments and strings do not count; a string ends at its quote or at the end of its line. -/
def braceDepth (state : BraceScan) (depth : Nat) : List Char → Nat
  | [] => depth
  | c :: cs =>
    match state with
    | .plain =>
      if c = '/' && cs.head? = some '*' then
        match cs with
        | _ :: inner => braceDepth .comment depth inner
        | [] => depth
      else if c = '"' || c = '\'' then braceDepth (.quoted c) depth cs
      else if c = '\x7b' then braceDepth .plain (depth + 1) cs
      else if c = '\x7d' then braceDepth .plain (depth - 1) cs
      else braceDepth .plain depth cs
    | .comment =>
      if c = '*' && cs.head? = some '/' then
        match cs with
        | _ :: outer => braceDepth .plain depth outer
        | [] => depth
      else braceDepth .comment depth cs
    | .quoted quote =>
      if c = quote || c = '\n' then braceDepth .plain depth cs
      else if c = '\\' then
        match cs with
        | _ :: rest => braceDepth (.quoted quote) depth rest
        | [] => depth
      else braceDepth (.quoted quote) depth cs

/-- The characters between statements. -/
def endsStatement (c : Char) : Bool :=
  c = ';' || c = '\x7b' || c = '\x7d'

/-- The characters that part words while a name is typed. -/
def breaksWord (c : Char) : Bool :=
  Text.isAsciiBlank c || endsStatement c || c = ','

/-- The characters that part the names of a value while one is typed. -/
def breaksValue (c : Char) : Bool :=
  c = ':' || endsStatement c || c = '(' || c = ',' || c = '\n'

/-- What a text has behind the last character that satisfies `p`. -/
def behindLast (p : Char → Bool) (cs : List Char) : List Char :=
  (cs.reverse.takeWhile fun c => !p c).reverse

/-- Whether a name is that of an element. -/
def isElement (name : String) : Bool :=
  Knowledge.elements.any (Text.sameIgnoringCase name)

/-- Whether a text could be the name of a property in front of a colon. -/
def readsAsName (name : List Char) : Bool :=
  !name.isEmpty && name.all isNameChar

/-- Whether a name is that of a custom or known property. -/
def isPropertyName (name : List Char) : Bool :=
  ['-', '-'].isPrefixOf name || Knowledge.knowsProperty (String.ofList name)

/-- Whether a colon behind a text starts a pseudo-class, rather than a value. -/
def startsPseudoClass (head : List Char) : Bool :=
  if braceDepth .plain 0 head = 0 then true
  else
    let name := Text.trim (behindLast endsStatement head)
    if !readsAsName name then true
    else if isPropertyName name then false
    else isElement (String.ofList name)

/-- The property in front of a colon in the last statement of a text that starts a block, for a
value that is not there yet. -/
def pendingProperty? (block : List Char) : Option String :=
  let statement := behindLast endsStatement block
  if statement.contains ':' then
    let name := Text.trim (statement.takeWhile (· ≠ ':'))
    if readsAsName name && (isPropertyName name || !isElement (String.ofList name)) then
      some (String.ofList name)
    else none
  else none

/-! ## Classifying the cursor -/

/-- A request at the end of a text, with the name typed last. -/
def nameRequest (front name : List Char) (context : CompletionContext) : CompletionRequest :=
  let stop := Text.byteLength front
  ⟨context, String.ofList name, ⟨stop - Text.byteLength name, stop⟩⟩

/-- A request at the end of a text, with nothing typed. -/
def emptyRequest (front : List Char) (context : CompletionContext) : CompletionRequest :=
  nameRequest front [] context

/-- A request for a value, with all that was typed behind the last break. -/
def valueRequest (front : List Char) (property : String) : CompletionRequest :=
  nameRequest front ((behindLast breaksValue front).dropWhile Text.isAsciiBlank) (.value property)

/-- A request in a block that starts at an offset and holds declarations. -/
def blockRequest (front name : List Char) (block : Span) : CompletionRequest :=
  let inner := (Text.dropBytes (block.start + 1) front).bind pendingProperty?
  match inner with
  | some property => valueRequest front property
  | none => nameRequest front name .property

/-- The request that a place gives rise to, if the cursor is really inside it. -/
def Place.request? (source : String) (front name : List Char) (place : Place) :
    Option CompletionRequest :=
  let offset := Text.byteLength front
  let endsIn (span : Span) (closers : List Char) : Bool :=
    (span.chars source.toList).getLast?.any closers.contains
  match place with
  | .sheet _ => none
  | .node (.declaration d) =>
    if d.semicolon && d.span.stop ≤ offset then none
    else if d.property.stop < offset then some (valueRequest front d.name)
    else some (nameRequest front name .property)
  | .node (.comment _) => some (emptyRequest front .nothing)
  | .node (.ruleset rule _) =>
    if endsIn rule.span ['\x7d'] && rule.span.stop ≤ offset then none
    else if offset ≤ rule.block.start then some (nameRequest front name .selector)
    else some (blockRequest front name rule.block)
  | .node (.atRule rule _) =>
    if rule.span.stop ≤ offset && endsIn rule.span ['\x7d', ';'] then none
    else
      match rule.block with
      | none => some (nameRequest front name .nothing)
      | some block =>
        if offset ≤ block.start then some (nameRequest front name .nothing)
        else if Knowledge.declarationAtRules.contains (Text.lower rule.name) then
          some (blockRequest front name block)
        else some (nameRequest front name .selector)

/-- The request that the tree gives rise to at the end of a text. -/
def Stylesheet.treeRequest (sheet : Stylesheet) (source : String) (front name : List Char) :
    CompletionRequest :=
  let places := (sheet.pathAt (Text.byteLength front)).reverse
  match places.findSome? (Place.request? source front name) with
  | some request => request
  | none => nameRequest front name (if name.isEmpty then .topLevel else .selector)

/-- A request whose name has a mark of some bytes in front, to be replaced with it. -/
def markedRequest (front name : List Char) (mark : Nat) (context : CompletionContext) :
    CompletionRequest :=
  let request := nameRequest front name context
  { request with replace := ⟨request.replace.start - mark, request.replace.stop⟩ }

/-- The request at an offset. -/
def Stylesheet.requestAt (sheet : Stylesheet) (source : String) (offset : Nat) :
    CompletionRequest :=
  let front := Text.before offset source.toList
  let backwards := front.reverse
  if endsInComment backwards then emptyRequest front .nothing
  else
    let name := (backwards.takeWhile isNameChar).reverse
    let head := backwards.dropWhile isNameChar
    match head.takeWhile fun c => !breaksWord c with
    | '@' :: mark =>
      if mark.head? = some '\\' then sheet.treeRequest source front name
      else markedRequest front name 1 .atRule
    | ':' :: ':' :: _ => markedRequest front name 2 .pseudoElement
    | ':' :: _ =>
      if startsPseudoClass (head.drop 1).reverse then markedRequest front name 1 .pseudoClass
      else sheet.treeRequest source front name
    | _ => sheet.treeRequest source front name

/-! ## What is offered -/

/-- A name that may be offered: its label, what it stands for, a description, the text to insert and
whether its use is discouraged. -/
structure Candidate where
  label : String
  kind : CompletionKind
  detail : Option String
  insertText : String
  obsolete : Bool
deriving DecidableEq, Repr, Inhabited

namespace Candidate

/-- A name that is inserted as it is and has no description. -/
def bare (kind : CompletionKind) (name : String) : Candidate :=
  ⟨name, kind, none, name, false⟩

/-- An entry of a table, with a mark in front and behind. -/
def ofEntry (kind : CompletionKind) (front behind : String) (e : Knowledge.Entry) : Candidate :=
  let label := front ++ e.name ++ behind
  ⟨label, kind, some e.description, label, e.obsolete⟩

/-- A property, which is inserted with its colon. -/
def ofProperty (p : Knowledge.Property) : Candidate :=
  ⟨p.name, .property, some p.description, p.name ++ ": ", p.obsolete⟩

/-- A custom property with its text. -/
def ofCustom (p : String × String) : Candidate :=
  ⟨p.1, .variable, some p.2, p.1, false⟩

/-- Whether a candidate starts with what was typed, its mark aside. -/
def matchesTyped (typed : String) (c : Candidate) : Bool :=
  Text.startsIgnoringCase typed.toList (c.label.toList.dropWhile fun c => c = ':' || c = '@')

/-- The item that a candidate becomes. -/
def item (replace : Span) (c : Candidate) : CompletionItem :=
  ⟨c.label, c.kind, c.detail.filter (· ≠ ""), c.insertText, replace, c.obsolete⟩

/-- The elements. -/
def elements : List Candidate := Knowledge.elements.map (bare .element)

/-- The at-rules. -/
def atRules : List Candidate := Knowledge.atRules.map (ofEntry .atRule "@" "")

/-- What the value of a property can hold: its own keywords, those of all properties, the named
colors if it takes colors, and the functions. -/
def values (property : String) : List Candidate :=
  let known := Knowledge.anyProperty? property
  let own := (known.map (·.values)).getD []
  let colors := if known.any (·.color) then Knowledge.namedColors.map Prod.fst else []
  own.map (bare .keyword) ++ Knowledge.globalKeywords.map (bare .keyword) ++
    colors.map (bare .color) ++ Knowledge.functions.map (ofEntry .function "" "()")

end Candidate

/-- Whether the name of a custom property is to be typed at the end of a text: inside `var(`, or
behind two dashes. -/
def wantsCustom (front : List Char) (typed : String) : Bool :=
  Text.endsWith "var(".toList (front.map Char.toLower) || ['-', '-'].isPrefixOf typed.toList

/-- The candidates of a request. -/
def Stylesheet.candidates (sheet : Stylesheet) (source : String) (request : CompletionRequest) :
    List Candidate :=
  match request.context with
  | .nothing => []
  | .property => Knowledge.properties.map Candidate.ofProperty
  | .value property =>
    if wantsCustom (Text.before request.replace.start source.toList) request.typed then
      (CustomValues.sorted (sheet.customValues source)).map Candidate.ofCustom
    else Candidate.values property
  | .atRule => Candidate.atRules
  | .pseudoClass => Knowledge.pseudoClasses.map (Candidate.ofEntry .pseudoClass ":" "")
  | .pseudoElement => Knowledge.pseudoElements.map (Candidate.ofEntry .pseudoElement "::" "")
  | .selector => Candidate.elements
  | .topLevel => Candidate.elements ++ Candidate.atRules

/-- The names offered at an offset. Those whose use is discouraged are offered only if
`showDeprecated`. -/
def Stylesheet.completionsAt (sheet : Stylesheet) (source : String) (offset : Nat)
    (showDeprecated : Bool) : List CompletionItem :=
  let request := sheet.requestAt source offset
  let offered := (sheet.candidates source request).filter fun c =>
    (showDeprecated || !c.obsolete) && c.matchesTyped request.typed
  offered.map (Candidate.item request.replace)

end CssWorkbench
