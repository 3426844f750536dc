import CssWorkbench.Token.Scanner
import CssWorkbench.Color.Calc
import CssWorkbench.Color.Space

/-!
# Colors in values

A color is spelled by a hash, by a name, by a color function, by a color function that starts from
another color (`hsl(from red h s l)`), or by a reference to a custom property whose text holds
one. References are followed at most five times in a row, and at most sixteen origins may be open
at once.
-/

namespace CssWorkbench

/-- How often a reference is followed before the search gives up. -/
def maxHops : Nat := 5

/-- How many origin colors may be open at once. -/
def maxOrigins : Nat := 16

/-- The texts of custom properties. -/
abbrev Resolver := String → Option String

/-- Ask one resolver, and another one for what the first does not know. -/
def chained (first : Resolver) (second : Option Resolver) : Resolver :=
  fun name => (first name).or (second.bind fun resolve => resolve name)

/-- A color that was read off the front of a run: its span, and the number of tokens it takes up
behind its first. -/
structure ColorMatch where
  color : Color
  span : Span
  behind : Nat
deriving Repr, Inhabited

/-- The custom property that a reference names with its first argument. -/
def referencedName? (arguments : List Token) : Option String :=
  match arguments.find? fun t => !t.isTrivia with
  | some t => if t.is .ident && t.isCustomName then some t.value else none
  | none => none

/-! ## Functions with plain channels -/

/-- An argument of a color function. -/
inductive Argument
  | number (value : Float)
  | percent (value : Float)
deriving Repr, Inhabited

namespace Argument

/-- The argument with the other sign. -/
def negate : Argument → Argument
  | number value => number (-value)
  | percent value => percent (-value)

/-- The channel that an argument gives. Saturation, lightness, whiteness and blackness without a
percent sign are fractions up to one and percents above it. -/
def channel? (space : ColorSpace) (channel : Nat) : Argument → Option Float
  | percent value => (space.percentBase? channel).map fun base => value / 100.0 * base
  | number value =>
    if (space = .hsl || space = .hwb) && 0 < channel then
      some (if value > 1.0 then value else value * 100.0)
    else some value

/-- The opacity that an argument gives. Behind a comma, the opacity of red, green and blue may be a
byte as well. -/
def opacity (space : ColorSpace) (slash : Bool) : Argument → Float
  | percent value => value / 100.0
  | number value => if space = .rgb && !slash && value > 1.0 then value / 255.0 else value

end Argument

/-- The arguments of a color function that were read so far, newest first; how many stood before
the slash; whether a sign in front of the next argument turns it around. -/
structure ArgumentDraft where
  arguments : List Argument
  slash : Option Nat
  negated : Bool
deriving Repr, Inhabited

namespace ArgumentDraft

/-- No argument yet. -/
def empty : ArgumentDraft := ⟨[], none, false⟩

/-- Put an argument behind the others. -/
def add (d : ArgumentDraft) (a : Argument) : ArgumentDraft :=
  { d with arguments := (if d.negated then a.negate else a) :: d.arguments, negated := false }

/-- The channels of a finished draft. -/
def channels? (d : ArgumentDraft) (space : ColorSpace) : Option Channels :=
  let slash := d.slash.isSome
  let finish (x y z : Argument) (alpha : Float) : Option Channels :=
    match x.channel? space 0, y.channel? space 1, z.channel? space 2 with
    | some x, some y, some z => some ⟨x, y, z, alpha⟩
    | _, _, _ => none
  match d.arguments with
  | [z, y, x] => if slash then none else finish x y z 1.0
  | [alpha, z, y, x] =>
    if d.slash.all (· = 3) then finish x y z (alpha.opacity space slash) else none
  | _ => none

end ArgumentDraft

/-- Read the arguments of a color function onto a draft. -/
def readArguments (space : ColorSpace) (d : ArgumentDraft) : List Token → Option ArgumentDraft
  | [] => some d
  | t :: ts =>
    match t.kind with
    | .whitespace | .comment | .comma => readArguments space d ts
    | .delim =>
      if t.isDelim '/' then
        if d.slash.isSome then none
        else readArguments space { d with slash := some d.arguments.length } ts
      else if t.isDelim '-' then readArguments space { d with negated := !d.negated } ts
      else if t.isDelim '+' then readArguments space d ts
      else none
    | .number => t.number?.bind fun value => readArguments space (d.add (.number value)) ts
    | .percentage => t.number?.bind fun value => readArguments space (d.add (.percent value)) ts
    | .dimension =>
      match t.number?, t.unit? with
      | some value, some unit =>
        (Conversion.degrees? value unit).bind fun angle =>
          readArguments space (d.add (.number angle)) ts
      | _, _ => none
    | .ident => if t.isIdent "none" then readArguments space (d.add (.number 0.0)) ts else none
    | .function =>
      if t.isFunction "calc" then
        let scope : Calc.Scope := ⟨[], space.percentBase? (min d.arguments.length 3)⟩
        (Calc.call scope (t :: ts)).bind fun value =>
          readArguments space (d.add (.number value)) (ts.drop (closeDistance (t :: ts)))
      else none
    | _ => none
termination_by ts => ts.length
decreasing_by all_goals simp only [List.length_cons, List.length_drop]; omega

/-- The color of a function whose arguments are plain channels. -/
def plainColor? (space : ColorSpace) (arguments : List Token) : Option Color :=
  ((readArguments space .empty arguments).bind (·.channels? space)).map space.toColor

/-! ## Functions with an origin -/

/-- The channels of a color with an origin, each a run of tokens, and that of the opacity. -/
structure ChannelRuns where
  channels : List (List Token)
  alpha : Option (List Token)
deriving DecidableEq, Repr, Inhabited

/-- The expression at the front of a run, signs included, and what follows it. -/
def takeExpression? (signs : List Token) : List Token → Option (List Token × List Token)
  | [] => none
  | t :: ts =>
    if t.isDelim '-' || t.isDelim '+' then takeExpression? (t :: signs) ts
    else
      let behind := if t.is .function || t.is .lparen then closeDistance (t :: ts) else 0
      some (signs.reverse ++ t :: ts.take behind, ts.drop behind)

/-- An expression that is taken leaves fewer tokens. -/
theorem takeExpression?_length {signs ts run rest : List Token}
    (h : takeExpression? signs ts = some (run, rest)) : rest.length < ts.length := by
  induction ts generalizing signs with
  | nil => simp [takeExpression?] at h
  | cons t ts ih =>
    simp only [takeExpression?] at h
    split at h
    · exact Nat.lt_trans (ih h) (by simp)
    · simp only [Option.some.injEq, Prod.mk.injEq] at h
      rw [← h.2, List.length_drop, List.length_cons]
      omega

/-- Part the channels of a color with an origin; `slash` says whether the slash is behind. -/
def splitChannels (slash : Bool) (runs : ChannelRuns) (ts : List Token) : Option ChannelRuns :=
  match ts with
  | [] => some runs
  | t :: ts =>
    if t.isTrivia || t.is .comma then splitChannels slash runs ts
    else if t.isDelim '/' then if slash then none else splitChannels true runs ts
    else
      match h : takeExpression? [] (t :: ts) with
      | none => none
      | some (run, rest) =>
        have := takeExpression?_length h
        if slash then
          if runs.alpha.isSome then none
          else splitChannels slash { runs with alpha := some run } rest
        else splitChannels slash { runs with channels := runs.channels ++ [run] } rest
termination_by ts.length
decreasing_by all_goals simp_all

/-- The sign in front of an expression, and what it applies to. -/
def takeSigns (sign : Float) : List Token → Float × List Token
  | [] => (sign, [])
  | t :: ts =>
    if t.isDelim '-' then takeSigns (-sign) ts
    else if t.isDelim '+' then takeSigns sign ts
    else (sign, t :: ts)

/-- The value of one channel of a color with an origin. -/
def channelValue? (scope : Calc.Scope) (run : List Token) : Option Float :=
  let (sign, ts) := takeSigns 1.0 run
  match ts with
  | [] => none
  | t :: ts =>
    let value :=
      match t.kind with
      | .function => if t.isFunction "calc" then Calc.call scope (t :: ts) else none
      | .lparen => Calc.evaluate scope (ts.take (closeDistance (t :: ts) - 1))
      | .ident => Calc.evaluate scope [t]
      | _ => scope.number? t
    value.map (sign * ·)

/-- The color that the tokens behind an origin color make of it. -/
def derivedColor? (space : ColorSpace) (origin : Color) (behind : List Token) : Option Color :=
  let native := space.ofColor origin
  let (x, y, z) := space.channelNames
  let names := [(x, native.first), (y, native.second), (z, native.third), ("alpha", native.alpha)]
  let value? (channel : Nat) := channelValue? ⟨names, space.percentBase? channel⟩
  match splitChannels false ⟨[], none⟩ behind with
  | some ⟨[first, second, third], alpha⟩ =>
    match value? 0 first, value? 1 second, value? 2 third,
        alpha.elim (some native.alpha) (value? 3) with
    | some x, some y, some z, some alpha => some (space.toColor ⟨x, y, z, alpha⟩)
    | _, _, _, _ => none
  | _ => none

/-! ## The search -/

/-- What `read` finds first on a run or one of its ends. -/
def firstMatch {α : Type} (read : List Token → Option α) : List Token → Option α
  | [] => none
  | t :: ts =>
    match read (t :: ts) with
    | some found => some found
    | none => firstMatch read ts

/-- The color at the front of a run, if there is one; `origins` more origins may be open. A
reference is left to `follow`, which is given the number of origins and the arguments. -/
def readColor (follow : Nat → List Token → Option Color) (origins : Nat) :
    List Token → Option ColorMatch
  | [] => none
  | t :: ts =>
    let whole (color : Color) : ColorMatch :=
      ⟨color, ⟨t.start, blockStop t ts⟩, closeDistance (t :: ts)⟩
    match t.kind with
    | .hash => (Color.ofHex? t.value).map (⟨·, t.span, 0⟩)
    | .ident => (Color.ofName? t.value).map (⟨·, t.span, 0⟩)
    | .function =>
      let arguments := argumentsOf (t :: ts)
      if t.isFunction "var" then (follow origins arguments).map whole
      else
        match ColorSpace.ofFunction? t.value, arguments.dropWhile Token.isTrivia with
        | some space, word :: behindWord =>
          if word.isIdent "from" then
            match origins with
            | 0 => none
            | origins + 1 =>
              let inner := behindWord.dropWhile Token.isTrivia
              match readColor follow origins inner with
              | some origin =>
                (derivedColor? space origin.color (inner.drop (origin.behind + 1))).map whole
              | none => none
          else (plainColor? space arguments).map whole
        | _, _ => none
    | _ => none

/-- The color at the front of a run, following at most `hops` references in a row. -/
def colorAt (resolver : Option Resolver) : (hops origins : Nat) → List Token → Option ColorMatch
  | 0 => readColor fun _ _ => none
  | hops + 1 => readColor fun origins arguments =>
    match resolver, referencedName? arguments with
    | some resolve, some name =>
      match resolve name with
      | some text => (firstMatch (colorAt resolver hops origins) (scan text)).map ColorMatch.color
      | none => none
    | _, _ => none

/-- The color at the front of a run. -/
def color? (resolver : Option Resolver) (tokens : List Token) : Option ColorMatch :=
  colorAt resolver maxHops maxOrigins tokens

/-- All colors of a run in order. What lies inside a color is not searched again. -/
def allColors (resolver : Option Resolver) : List Token → List ColorMatch
  | [] => []
  | t :: ts =>
    match color? resolver (t :: ts) with
    | some found => found :: allColors resolver (ts.drop found.behind)
    | none => allColors resolver ts
termination_by ts => ts.length
decreasing_by all_goals simp only [List.length_cons, List.length_drop]; omega

end CssWorkbench
