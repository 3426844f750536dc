import CssWorkbench.Tree.Walk

/-!
# Links

The resources that a stylesheet refers to: the targets of `url(...)` in values and preludes, and
the string behind `@import`. The span of a link covers the target alone.
-/

namespace CssWorkbench

/-- A reference to a resource, as the source has it. -/
structure Link where
  span : Span
  target : String
deriving DecidableEq, Repr, Inhabited

/-- A link to a target, unless that is empty or holds the resource itself. -/
def Link.make? (span : Span) (target : String) : Option Link :=
  let target := Text.trim target.toList
  if target.isEmpty || Text.startsIgnoringCase "data:".toList target then none
  else some ⟨span, String.ofList target⟩

namespace Token

/-- The span between the quotes of a string. The quote at the end may be missing. -/
def stringBody (t : Token) (source : String) : Span :=
  let text := t.span.chars source.toList
  let quote := text.head?.getD '"'
  let closed := 2 ≤ text.length && text.getLast? = some quote
  ⟨t.start + 1, if closed then t.stop - 1 else t.stop⟩

/-- The span between the parentheses of a url, without the blanks inside. -/
def urlBody (t : Token) (source : String) : Span :=
  let text := t.span.chars source.toList
  match text.dropWhile (· ≠ '(') with
  | [] => t.span
  | _ :: behind =>
    let inner := if text.getLast? = some ')' then behind.dropLast else behind
    let lead := Text.byteLength text - Text.byteLength behind +
      Text.byteLength (inner.takeWhile Text.isBlank)
    ⟨t.start + lead, t.start + lead + Text.byteLength (Text.trim inner)⟩

end Token

/-- The string that comes first in a run, blanks and comments aside. -/
def leadingString? (tokens : List Token) : Option Token :=
  match tokens.find? fun t => !t.isTrivia with
  | some t => if t.is .string then some t else none
  | none => none

/-- The link to the target that a string spells. -/
def stringLink? (source : String) (t : Token) : Option Link :=
  Link.make? (t.stringBody source) t.value

/-- The links in a run. -/
def urlLinks (source : String) : List Token → List Link
  | [] => []
  | t :: ts =>
    let here :=
      if t.is .url then Link.make? (t.urlBody source) t.value
      else if t.isFunction "url" then (leadingString? ts).bind (stringLink? source)
      else none
    here.toList ++ urlLinks source ts

/-- The links of a node, those below it aside. -/
def Node.links (source : String) : Node → List Link
  | .declaration d => urlLinks source d.tokens
  | .atRule rule _ =>
    let imported :=
      if Text.sameIgnoringCase rule.name "import" then
        (leadingString? rule.prelude).bind (stringLink? source)
      else none
    urlLinks source rule.prelude ++ imported.toList
  | .ruleset .. => []
  | .comment _ => []

/-- The links of a stylesheet, by where they start. -/
def Stylesheet.links (sheet : Stylesheet) (source : String) : List Link :=
  (sheet.nodes.flatMap (Node.links source)).mergeSort fun a b => a.span.start ≤ b.span.start

end CssWorkbench
