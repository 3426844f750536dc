import CssWorkbench.Tree.Selector

/-!
# Specificity

How specific a selector is, counted in ids, in classes with attributes and pseudo-classes, and in
types with pseudo-elements. A pseudo-class that takes a list of selectors counts as the most
specific of them; `:where(...)` counts nothing.
-/

namespace CssWorkbench

/-- The three counts of a selector. Each takes a token, so that all fit 32 bits wherever a selector
has fewer than 2³² tokens. -/
structure Specificity where
  ids : Nat
  classes : Nat
  types : Nat
deriving DecidableEq, Repr, Inhabited

namespace Specificity

/-- Nothing counted. -/
def zero : Specificity := ⟨0, 0, 0⟩

/-- One id. -/
def id : Specificity := ⟨1, 0, 0⟩

/-- One class, attribute or pseudo-class. -/
def cls : Specificity := ⟨0, 1, 0⟩

/-- One type or pseudo-element. -/
def type : Specificity := ⟨0, 0, 1⟩

/-- The counts of two selectors together. -/
def add (a b : Specificity) : Specificity :=
  ⟨a.ids + b.ids, a.classes + b.classes, a.types + b.types⟩

instance : Add Specificity := ⟨add⟩

/-- Ids weigh more than classes, and these more than types. -/
def le (a b : Specificity) : Bool :=
  a.ids < b.ids ||
    (a.ids = b.ids && (a.classes < b.classes || (a.classes = b.classes && a.types ≤ b.types)))

/-- The weightier of two counts. -/
def greater (a b : Specificity) : Specificity :=
  if a.le b then b else a

/-- Counts are shown as a triple. -/
protected def toString (s : Specificity) : String :=
  "(" ++ toString s.ids ++ ", " ++ toString s.classes ++ ", " ++ toString s.types ++ ")"

end Specificity

/-- The pseudo-elements that may be written with a single colon. -/
def oldPseudoElements : List String := ["before", "after", "first-line", "first-letter"]

/-- The pseudo-classes that count as the most specific selector in their list. -/
def listPseudoClasses : List String := ["not", "is", "has", "matches", "-webkit-any", "-moz-any"]

/-- A group between commas is no longer than the whole. -/
theorem length_le_of_mem_splitCommasFrom {depth : Nat} {ts group : List Token}
    (h : group ∈ splitCommasFrom depth ts) : group.length ≤ ts.length := by
  induction ts generalizing depth group with
  | nil => simp [splitCommasFrom] at h; simp [h]
  | cons t ts ih =>
    rw [splitCommasFrom] at h
    split at h
    · rcases List.mem_cons.mp h with rfl | h
      · simp
      · exact Nat.le_succ_of_le (ih h)
    · split at h
      · rename_i front groups split
        rcases List.mem_cons.mp h with rfl | h
        · simpa using ih (split ▸ List.mem_cons_self)
        · exact Nat.le_succ_of_le (ih (split ▸ List.mem_cons_of_mem _ h))
      · simp at h; simp [h]

/-- A group between commas is no longer than the whole list. -/
theorem length_le_of_mem_splitCommas {ts group : List Token} (h : group ∈ splitCommas ts) :
    group.length ≤ ts.length :=
  length_le_of_mem_splitCommasFrom h

/-- What follows the name of a class. -/
def dropIdent : List Token → List Token
  | [] => []
  | t :: ts => if t.is .ident then ts else t :: ts

/-- What follows the name of a class is no more than there was. -/
theorem length_dropIdent_le (ts : List Token) : (dropIdent ts).length ≤ ts.length := by
  unfold dropIdent
  split
  · simp
  · split <;> simp

/-- What follows the first colon of a pseudo selector: whether a second colon stood there, and the
rest. -/
def takeColon : List Token → Bool × List Token
  | [] => (false, [])
  | t :: ts => if t.is .colon then (true, ts) else (false, t :: ts)

/-- What follows a colon is no more than there was. -/
theorem length_takeColon_le (ts : List Token) : (takeColon ts).2.length ≤ ts.length := by
  unfold takeColon
  split
  · simp
  · split <;> simp

/-- The specificity of a run of tokens. Combinators and blanks count nothing, so that the run may be
a whole selector as well as one compound. -/
def tokensSpecificity (ts : List Token) : Specificity :=
  match ts with
  | [] => .zero
  | t :: ts =>
    match t.kind with
    | .hash => .id + tokensSpecificity ts
    | .ident => .type + tokensSpecificity ts
    | .delim =>
      if t.isDelim '.' then
        have := length_dropIdent_le ts
        .cls + tokensSpecificity (dropIdent ts)
      else tokensSpecificity ts
    | .lbracket => .cls + tokensSpecificity (ts.drop (closeDistance (t :: ts)))
    | .colon =>
      have _colon := length_takeColon_le ts
      match _split : takeColon ts with
      | (_, []) => .zero
      | (element, name :: rest) =>
        match name.kind with
        | .ident =>
          let old := oldPseudoElements.any (Text.sameIgnoringCase name.value)
          (if element || old then .type else .cls) + tokensSpecificity rest
        | .function =>
          let close := closeDistance (name :: rest)
          let lower := Text.lower name.value
          let here :=
            if element then .type
            else if lower = "where" then .zero
            else if listPseudoClasses.contains lower then
              (splitCommas (rest.take (close - 1))).attach.foldl
                (fun most group => most.greater (tokensSpecificity group.1)) .zero
            else .cls
          here + tokensSpecificity (rest.drop close)
        | _ => tokensSpecificity (name :: rest)
    | _ => tokensSpecificity ts
termination_by ts.length
decreasing_by
  all_goals simp only [List.length_cons, List.length_drop] at *
  all_goals first
    | omega
    | (simp only [_split, List.length_cons] at _colon
       first
       | omega
       | (have bound := length_le_of_mem_splitCommas group.2
          simp only [List.length_take] at bound
          omega))

/-- The specificity of a selector. -/
def Selector.specificity (s : Selector) : Specificity :=
  s.parts.foldl (fun sum part =>
    match part with
    | .compound _ tokens => sum + tokensSpecificity tokens
    | .combinator .. => sum) .zero

end CssWorkbench
