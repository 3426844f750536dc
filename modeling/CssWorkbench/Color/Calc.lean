import CssWorkbench.Token.Bracket
import CssWorkbench.Token.Dimension
import CssWorkbench.Color.Conversion

/-!
# Calculations

Sums and products of numbers, with signs and parentheses, as they stand inside `calc(...)`. The
names and the base of percents are given by a scope. A calculation has a value only if it is
written correctly, all of its names are known, nothing is divided by zero, and the value is
finite. A sign or parenthesis opens a factor within a factor, and at most thirty-two factors may
be open at once.
-/

namespace CssWorkbench.Calc

/-- What a calculation can see: the channels of an origin color by their names, and what a hundred
percent stand for. -/
structure Scope where
  channels : List (String × Float)
  percentBase : Option Float
deriving Repr, Inhabited

/-- How many factors may be open at once. -/
def maxOpen : Nat := 32

namespace Scope

/-- The value of a name. -/
def name? (scope : Scope) (name : String) : Option Float :=
  if Text.sameIgnoringCase name "none" then some 0.0
  else
    match scope.channels.find? fun c => Text.sameIgnoringCase c.1 name with
    | some (_, value) => some value
    | none =>
      match Text.lower name with
      | "pi" => some Conversion.pi
      | "e" => some 2.718281828459045
      | _ => none

/-- The value of a number, a percentage or an angle. -/
def number? (scope : Scope) (t : Token) : Option Float :=
  match t.kind, t.number? with
  | .number, some value => some value
  | .percentage, some value => scope.percentBase.map fun base => value / 100.0 * base
  | .dimension, some value => t.unit?.bind (Conversion.degrees? value)
  | _, _ => none

end Scope

/-- A value read off the front of `n` tokens, with what is left of them. -/
structure Reading (n : Nat) where
  value : Float
  rest : List Token
  rest_lt : rest.length < n

/-- Read more tokens in front of a reading. -/
def Reading.weaken {m n : Nat} (r : Reading m) (h : m ≤ n) : Reading n :=
  { r with rest_lt := Nat.lt_of_lt_of_le r.rest_lt h }

/-- Read operands joined by operators onto a value: `operator?` gives what an operator does, and
`none` for what is not one. -/
def readMore (operator? : Token → Option (Float → Float → Option Float))
    (operand : (ts : List Token) → Option (Reading ts.length)) (value : Float) (ts : List Token) :
    Option (Reading (ts.length + 1)) :=
  match ts with
  | [] => some ⟨value, [], by simp⟩
  | t :: ts =>
    match operator? t with
    | none => some ⟨value, t :: ts, by simp⟩
    | some combine =>
      match operand ts with
      | none => none
      | some right =>
        match combine value right.value with
        | none => none
        | some value =>
          have := right.rest_lt
          (readMore operator? operand value right.rest).map (·.weaken (by simp; omega))
termination_by ts.length
decreasing_by simp only [List.length_cons]; omega

/-- Read one or more operands joined by operators, from left to right. -/
def readChain (operator? : Token → Option (Float → Float → Option Float))
    (operand : (ts : List Token) → Option (Reading ts.length)) (ts : List Token) :
    Option (Reading ts.length) :=
  match operand ts with
  | none => none
  | some first =>
    (readMore operator? operand first.value first.rest).map (·.weaken first.rest_lt)

/-- Whether a token stands for the operator `c`: a delimiter whose text starts with it. -/
def isOperator (t : Token) (c : Char) : Bool := t.kind = .delim && t.value.toList.head? = some c

/-- What the operators of a product do. Nothing is divided by zero. -/
def productOperator? (t : Token) : Option (Float → Float → Option Float) :=
  if isOperator t '*' then some fun x y => some (x * y)
  else if isOperator t '/' then some fun x y => if y == 0.0 then none else some (x / y)
  else none

/-- What the operators of a sum do. -/
def sumOperator? (t : Token) : Option (Float → Float → Option Float) :=
  if isOperator t '+' then some fun x y => some (x + y)
  else if isOperator t '-' then some fun x y => some (x - y)
  else none

/-- Read a sum of products of factors. -/
def readSum (factor : (ts : List Token) → Option (Reading ts.length)) (ts : List Token) :
    Option (Reading ts.length) :=
  readChain sumOperator? (readChain productOperator? factor) ts

/-- Read a sum and the parenthesis behind it, which may be missing at the very end. -/
def readClosed (factor : (ts : List Token) → Option (Reading ts.length)) (ts : List Token) :
    Option (Reading ts.length) :=
  match readSum factor ts with
  | none => none
  | some sum =>
    match h : sum.rest with
    | [] => some sum
    | t :: rest =>
      if t.is .rparen then
        some ⟨sum.value, rest, by have := sum.rest_lt; simp [h] at this; omega⟩
      else none

/-- Read a factor, with at most `room` factors open at once. -/
def readFactor (scope : Scope) : (room : Nat) → (ts : List Token) → Option (Reading ts.length)
  | 0, _ => none
  | _ + 1, [] => none
  | room + 1, t :: ts =>
    let leaf (value : Option Float) : Option (Reading (t :: ts).length) :=
      value.map fun value => ⟨value, ts, by simp⟩
    match t.kind with
    | .number | .percentage | .dimension => leaf (scope.number? t)
    | .ident => leaf (scope.name? t.value)
    | .lparen => (readClosed (readFactor scope room) ts).map (·.weaken (by simp))
    | .function =>
      if t.isFunction "calc" then
        (readClosed (readFactor scope room) ts).map (·.weaken (by simp))
      else none
    | .delim =>
      if t.isDelim '-' then
        (readFactor scope room ts).map fun r =>
          ⟨-r.value, r.rest, Nat.lt_trans r.rest_lt (by simp)⟩
      else if t.isDelim '+' then (readFactor scope room ts).map (·.weaken (by simp))
      else none
    | _ => none

/-- The value of a calculation, the body of a `calc(...)`. -/
def evaluate (scope : Scope) (tokens : List Token) : Option Float :=
  let ts := significant tokens
  match readSum (readFactor scope maxOpen) ts with
  | none => none
  | some sum => if sum.rest.isEmpty && sum.value.isFinite then some sum.value else none

end Calc

/-- What stands between the opener at the front of a run and its closing parenthesis, or behind
the opener if that parenthesis is missing. -/
def argumentsOf (tokens : List Token) : List Token :=
  let close := closeDistance tokens
  let inner := (tokens.take (close + 1)).drop 1
  if inner.getLast?.any (·.is .rparen) then inner.dropLast else inner

namespace Calc

/-- The value of the `calc(...)` at the front of a run. -/
def call (scope : Scope) (tokens : List Token) : Option Float :=
  evaluate scope (argumentsOf tokens)

end Calc

end CssWorkbench
