import CssWorkbench.Tree.Basic

/-!
# The text of values, selectors and declarations

Tokens are written as the source has them, with one space where the source parts them by blanks;
only in front of a closing parenthesis there is none.
-/

namespace CssWorkbench

/-- The text of tokens behind a token that was written last, if any. -/
def joinTokensAfter (source : String) (last : Option Token) : List Token → String
  | [] => ""
  | t :: ts =>
    if t.is .whitespace then joinTokensAfter source last ts
    else
      let apart := last.any fun l => l.stop < t.start && !t.is .rparen
      (if apart then " " else "") ++ t.text source ++ joinTokensAfter source (some t) ts

/-- The text of tokens, each gap between two of them being one space. -/
def joinTokens (source : String) (tokens : List Token) : String :=
  joinTokensAfter source none tokens

/-- The text of a part of a selector behind the text `front`. A combinator stands between spaces,
except at the very front. -/
def SelectorPart.appendTo (source front : String) : SelectorPart → String
  | .compound _ tokens => front ++ joinTokens source tokens
  | .combinator _ .descendant => front ++ " "
  | .combinator _ kind => front ++ (if front = "" then "" else " ") ++ kind.text ++ " "

/-- The text of a selector. -/
def Selector.text (source : String) (s : Selector) : String :=
  s.parts.foldl (SelectorPart.appendTo source) ""

/-- The text of a list of selectors. -/
def SelectorList.text (source : String) (list : SelectorList) : String :=
  ", ".intercalate (list.selectors.map (Selector.text source))

/-- The text of a declaration, without the semicolon. -/
def Declaration.text (source : String) (d : Declaration) : String :=
  let value := joinTokens source d.tokens
  d.name ++ ": " ++ value ++
    (if d.important then (if value = "" then "" else " ") ++ "!important" else "")

/-- The text of an at-rule in front of its block. -/
def AtRule.head (source : String) (rule : AtRule) : String :=
  let prelude := joinTokens source rule.prelude
  "@" ++ rule.name ++ (if prelude = "" then "" else " " ++ prelude)

end CssWorkbench
