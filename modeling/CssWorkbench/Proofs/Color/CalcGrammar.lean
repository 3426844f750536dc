import Mathlib
import CssWorkbench.Color.Calc

/-!
# The grammar of calculations

A sum is made of products, a product of factors, and a factor is a number, a percentage, an angle
or a name, a factor behind a sign, or a sum in parentheses, which `calc(` opens as well. Operators
of one layer group from the left. `Spells` says this of a list of tokens and the tree that it
spells; `SpelledBy` adds that closing parentheses may be missing at the very end. The value of a
tree and the number of its factors that are open at once are defined on the tree alone.
-/

namespace CssWorkbench.Calc

/-- The operators that join two operands. -/
inductive Operator
  | plus | minus | times | divided
deriving DecidableEq, Repr

/-- The layers of the grammar, the loosest first. -/
inductive Layer
  | sum | product | factor
deriving DecidableEq, Repr

namespace Operator

/-- How an operator is written. -/
def sign : Operator → Char
  | plus => '+'
  | minus => '-'
  | times => '*'
  | divided => '/'

/-- The layer whose operands an operator joins. -/
def layer : Operator → Layer
  | plus | minus => .sum
  | times | divided => .product

/-- What an operator makes of two values. Nothing is divided by zero. -/
def combine? : Operator → Float → Float → Option Float
  | plus, x, y => some (x + y)
  | minus, x, y => some (x - y)
  | times, x, y => some (x * y)
  | divided, x, y => if y == 0.0 then none else some (x / y)

end Operator

/-- The layer of the operands that are joined in a layer. -/
def Layer.operand : Layer → Layer
  | sum => product
  | product | factor => factor

/-- The tree of a calculation. -/
inductive Expr
  | leaf (t : Token)
  | positive (operand : Expr)
  | negative (operand : Expr)
  | group (body : Expr)
  | binary (op : Operator) (left right : Expr)
deriving Repr

/-- The tokens that stand for a value by themselves. -/
def IsLeaf (t : Token) : Prop :=
  t.kind = .number ∨ t.kind = .percentage ∨ t.kind = .dimension ∨ t.kind = .ident

/-- The value of such a token. -/
def leafValue? (scope : Scope) (t : Token) : Option Float :=
  if t.kind = .ident then scope.name? t.value else scope.number? t

/-- The value that a name stands for: nothing, a channel of the origin color, or a constant. The
first of these that goes by the name counts; names are read in any letter case. -/
inductive NameStandsFor (scope : Scope) (name : String) : Float → Prop
  | nothing (named : Text.sameIgnoringCase name "none" = true) : NameStandsFor scope name 0.0
  | channel {before behind : List (String × Float)} {channel : String} {value : Float}
      (something : Text.sameIgnoringCase name "none" = false)
      (channels : scope.channels = before ++ (channel, value) :: behind)
      (others : ∀ c ∈ before, Text.sameIgnoringCase c.1 name = false)
      (named : Text.sameIgnoringCase channel name = true) : NameStandsFor scope name value
  | pi (others : ∀ c ∈ scope.channels, Text.sameIgnoringCase c.1 name = false)
      (named : Text.sameIgnoringCase name "pi" = true) : NameStandsFor scope name Conversion.pi
  | e (others : ∀ c ∈ scope.channels, Text.sameIgnoringCase c.1 name = false)
      (named : Text.sameIgnoringCase name "e" = true) :
      NameStandsFor scope name 2.718281828459045

/-- The degrees of an angle by its unit, which is read in any letter case. -/
inductive InDegrees (x : Float) (unit : String) : Float → Prop
  | degrees (named : Text.sameIgnoringCase unit "deg" = true) : InDegrees x unit x
  | radians (named : Text.sameIgnoringCase unit "rad" = true) :
      InDegrees x unit (x * 180.0 / Conversion.pi)
  | gradians (named : Text.sameIgnoringCase unit "grad" = true) : InDegrees x unit (x * 0.9)
  | turns (named : Text.sameIgnoringCase unit "turn" = true) : InDegrees x unit (x * 360.0)

/-- The value that a token stands for: a number for itself, a percentage for its share of the base,
an angle for its degrees, and an identifier for what it names. -/
inductive StandsFor (scope : Scope) (t : Token) : Float → Prop
  | number {x : Float} (kind : t.kind = .number) (spelled : readFloat? t.value = some x) :
      StandsFor scope t x
  | percentage {x base : Float} (kind : t.kind = .percentage)
      (spelled : readFloat? t.value = some x) (share : scope.percentBase = some base) :
      StandsFor scope t (x / 100.0 * base)
  | angle {x degrees : Float} (kind : t.kind = .dimension)
      (spelled : readFloat? (splitDimension t.value).1 = some x)
      (measured : InDegrees x (splitDimension t.value).2 degrees) : StandsFor scope t degrees
  | name {value : Float} (kind : t.kind = .ident) (named : NameStandsFor scope t.value value) :
      StandsFor scope t value

/-- Small letters stay as they are. -/
theorem lower_lower (s : String) : Text.lower (Text.lower s) = Text.lower s := by
  have hsame : Char.toLower ∘ Char.toLower = Char.toLower :=
    funext Char.toLower_toLower_eq_toLower
  rw [Text.lower, Text.lower, String.toList_ofList, List.map_map, hsame]

/-- What a name gives it stands for. -/
theorem standsFor_of_name? {scope : Scope} {name : String} {value : Float}
    (h : scope.name? name = some value) : NameStandsFor scope name value := by
  have hpi : Text.lower "pi" = "pi" := by decide
  have he : Text.lower "e" = "e" := by decide
  unfold Scope.name? at h
  split at h
  · next hnone =>
    cases h
    exact .nothing hnone
  · next hnone =>
    split at h
    · next channel v hfind =>
      cases h
      obtain ⟨hnamed, before, behind, hchannels, hothers⟩ :=
        List.find?_eq_some_iff_append.mp hfind
      exact .channel (by simpa using hnone) hchannels (by simpa using hothers) hnamed
    · next hfind =>
      have hothers := List.find?_eq_none.mp hfind
      split at h
      · next hname =>
        cases h
        exact .pi (by simpa using hothers) (Text.sameIgnoringCase_iff.mpr (hname.trans hpi.symm))
      · next hname =>
        cases h
        exact .e (by simpa using hothers) (Text.sameIgnoringCase_iff.mpr (hname.trans he.symm))
      · cases h

/-- The name of a constant is found neither as nothing nor among channels of other names. -/
theorem lower_eq_of_constant {scope : Scope} {name constant : String}
    (hlower : Text.lower constant = constant) (hnone : constant ≠ "none")
    (hothers : ∀ c ∈ scope.channels, Text.sameIgnoringCase c.1 name = false)
    (hnamed : Text.sameIgnoringCase name constant = true) :
    Text.lower name = constant ∧ Text.sameIgnoringCase name "none" = false ∧
      (scope.channels.find? fun c => Text.sameIgnoringCase c.1 name) = none := by
  have hname : Text.lower name = constant := (Text.sameIgnoringCase_iff.mp hnamed).trans hlower
  refine ⟨hname, ?_, List.find?_eq_none.mpr (by simpa using hothers)⟩
  refine Bool.eq_false_iff.mpr fun h => hnone ?_
  rw [← hname, Text.sameIgnoringCase_iff.mp h]
  decide

/-- What a name stands for it gives. -/
theorem NameStandsFor.name?_eq {scope : Scope} {name : String} {value : Float}
    (h : NameStandsFor scope name value) : scope.name? name = some value := by
  unfold Scope.name?
  cases h with
  | nothing hnamed => rw [if_pos hnamed]
  | @channel before behind channel value hsomething hchannels hothers hnamed =>
    have hfind : (scope.channels.find? fun c => Text.sameIgnoringCase c.1 name) =
        some (channel, value) :=
      List.find?_eq_some_iff_append.mpr
        ⟨hnamed, before, behind, hchannels, by simpa using hothers⟩
    rw [hsomething, hfind]
    rfl
  | pi hothers hnamed =>
    obtain ⟨hname, hsomething, hfind⟩ :=
      lower_eq_of_constant (show Text.lower "pi" = "pi" by decide) (by decide) hothers hnamed
    rw [hsomething, hfind, hname]
    rfl
  | e hothers hnamed =>
    obtain ⟨hname, hsomething, hfind⟩ :=
      lower_eq_of_constant (show Text.lower "e" = "e" by decide) (by decide) hothers hnamed
    rw [hsomething, hfind, hname]
    rfl

/-- A name gives what it stands for. -/
theorem name?_eq_some_iff {scope : Scope} {name : String} {value : Float} :
    scope.name? name = some value ↔ NameStandsFor scope name value :=
  ⟨standsFor_of_name?, NameStandsFor.name?_eq⟩

/-- The degrees of an angle are found by its unit. -/
theorem degrees?_eq_some_iff {x degrees : Float} {unit : String} :
    Conversion.degrees? x unit = some degrees ↔ InDegrees x unit degrees := by
  have hdeg : Text.lower "deg" = "deg" := by decide
  have hrad : Text.lower "rad" = "rad" := by decide
  have hgrad : Text.lower "grad" = "grad" := by decide
  have hturn : Text.lower "turn" = "turn" := by decide
  constructor
  · intro h
    unfold Conversion.degrees? at h
    split at h
    · next hunit =>
      cases h
      exact .degrees (Text.sameIgnoringCase_iff.mpr (hunit.trans hdeg.symm))
    · next hunit =>
      cases h
      exact .radians (Text.sameIgnoringCase_iff.mpr (hunit.trans hrad.symm))
    · next hunit =>
      cases h
      exact .gradians (Text.sameIgnoringCase_iff.mpr (hunit.trans hgrad.symm))
    · next hunit =>
      cases h
      exact .turns (Text.sameIgnoringCase_iff.mpr (hunit.trans hturn.symm))
    · cases h
  · intro h
    unfold Conversion.degrees?
    cases h with
    | degrees hnamed => simp only [(Text.sameIgnoringCase_iff.mp hnamed).trans hdeg]
    | radians hnamed => simp only [(Text.sameIgnoringCase_iff.mp hnamed).trans hrad]
    | gradians hnamed => simp only [(Text.sameIgnoringCase_iff.mp hnamed).trans hgrad]
    | turns hnamed => simp only [(Text.sameIgnoringCase_iff.mp hnamed).trans hturn]

/-- What a leaf gives is what it stands for. -/
theorem leafValue?_eq_some_iff {scope : Scope} {t : Token} {value : Float} :
    leafValue? scope t = some value ↔ StandsFor scope t value := by
  have hunit (x : Float) (hkind : t.kind = .dimension) :
      t.unit?.bind (Conversion.degrees? x) = Conversion.degrees? x (splitDimension t.value).2 := by
    rw [Token.unit?, if_pos hkind, Option.bind_some, Conversion.degrees?, lower_lower]
    rfl
  constructor
  · intro h
    unfold leafValue? at h
    split at h
    · next hkind => exact .name hkind (name?_eq_some_iff.mp h)
    · unfold Scope.number? at h
      split at h
      · next hkind hnumber =>
        cases h
        exact .number hkind (by simpa [Token.number?, hkind] using hnumber)
      · next hkind hnumber =>
        obtain ⟨base, hbase, rfl⟩ := Option.map_eq_some_iff.mp h
        exact .percentage hkind (by simpa [Token.number?, hkind] using hnumber) hbase
      · next x hkind hnumber =>
        rw [hunit x hkind] at h
        exact .angle hkind (by simpa [Token.number?, hkind] using hnumber)
          (degrees?_eq_some_iff.mp h)
      · cases h
  · intro h
    cases h with
    | name hkind hnamed => rw [leafValue?, if_pos hkind, name?_eq_some_iff.mpr hnamed]
    | number hkind hspelled =>
      simp [leafValue?, Scope.number?, Token.number?, hkind, hspelled]
    | percentage hkind hspelled hshare =>
      simp [leafValue?, Scope.number?, Token.number?, hkind, hspelled, hshare]
    | @angle x degrees hkind hspelled hmeasured =>
      have hgiven := (hunit x hkind).trans (degrees?_eq_some_iff.mpr hmeasured)
      simpa [leafValue?, Scope.number?, Token.number?, hkind, hspelled] using hgiven

/-- The tokens that open a parenthesis of a calculation. -/
def OpensGroup (t : Token) : Prop :=
  t.kind = .lparen ∨ t.isFunction "calc" = true

namespace Expr

/-- The value of a tree, if all of its leaves have one and no divisor is zero. -/
def value? (scope : Scope) : Expr → Option Float
  | leaf t => leafValue? scope t
  | positive e => e.value? scope
  | negative e => (e.value? scope).map (- ·)
  | group e => e.value? scope
  | binary op l r => (l.value? scope).bind fun x => (r.value? scope).bind fun y => op.combine? x y

/-- How many factors are open at once, at most, while a tree is read. -/
def openFactors : Expr → Nat
  | leaf _ => 1
  | positive e => e.openFactors + 1
  | negative e => e.openFactors + 1
  | group e => e.openFactors + 1
  | binary _ l r => max l.openFactors r.openFactors

end Expr

/-- The tokens that spell a tree in a layer of the grammar. -/
inductive Spells : Layer → Expr → List Token → Prop
  | leaf {t : Token} (leaf : IsLeaf t) : Spells .factor (.leaf t) [t]
  | positive {t : Token} {e : Expr} {ts : List Token} (sign : t.isDelim '+' = true)
      (operand : Spells .factor e ts) : Spells .factor (.positive e) (t :: ts)
  | negative {t : Token} {e : Expr} {ts : List Token} (sign : t.isDelim '-' = true)
      (operand : Spells .factor e ts) : Spells .factor (.negative e) (t :: ts)
  | group {t u : Token} {e : Expr} {ts : List Token} (opens : OpensGroup t)
      (body : Spells .sum e ts) (closes : u.kind = .rparen) :
      Spells .factor (.group e) (t :: (ts ++ [u]))
  | factor {e : Expr} {ts : List Token} (alone : Spells .factor e ts) : Spells .product e ts
  | product {e : Expr} {ts : List Token} (alone : Spells .product e ts) : Spells .sum e ts
  | binary {layer : Layer} {op : Operator} {l r : Expr} {t : Token} {ts us : List Token}
      (joins : op.layer = layer) (left : Spells layer l ts) (sign : isOperator t op.sign = true)
      (right : Spells layer.operand r us) : Spells layer (.binary op l r) (ts ++ t :: us)

/-- Only closing parentheses. -/
def AllClosing (ts : List Token) : Prop :=
  ∀ t ∈ ts, t.kind = .rparen

/-- The tokens spell a sum once the closing parentheses are supplied that are missing at the very
end. -/
def Expr.SpelledBy (e : Expr) (ts : List Token) : Prop :=
  ∃ missing, AllClosing missing ∧ Spells .sum e (ts ++ missing)

variable {t : Token} {op : Operator}

/-- Only single characters are operators. -/
theorem kind_of_isOperator {c : Char} (h : isOperator t c = true) : t.kind = .delim := by
  simp only [isOperator, Bool.and_eq_true, decide_eq_true_eq] at h
  exact h.1

/-- Only functions open a function. -/
theorem kind_of_isFunction {name : String} (h : t.isFunction name = true) : t.kind = .function := by
  simp only [Token.isFunction, Bool.and_eq_true, decide_eq_true_eq] at h
  exact h.1

/-- A leaf is no closing parenthesis. -/
theorem kind_of_isLeaf (h : IsLeaf t) : t.kind ≠ .rparen := by
  rcases h with h | h | h | h <;> (rw [h]; decide)

/-- What opens a parenthesis closes none. -/
theorem kind_of_opensGroup (h : OpensGroup t) : t.kind ≠ .rparen := by
  rcases h with h | h
  · rw [h]
    decide
  · rw [kind_of_isFunction h]
    decide

/-- A delimiter is one sign only. -/
theorem isDelim_of_ne {c d : Char} (h : t.isDelim c = true) (hcd : c ≠ d) :
    t.isDelim d = false := by
  simp only [Token.isDelim, Bool.and_eq_true, decide_eq_true_eq] at h
  simp [Token.isDelim, h, hcd]

/-- A token stands for one operator only. -/
theorem eq_of_isOperator {c d : Char} (h : isOperator t c = true) (h' : isOperator t d = true) :
    c = d := by
  simp only [isOperator, Bool.and_eq_true, decide_eq_true_eq] at h h'
  exact Option.some.inj (h.2.symm.trans h'.2)

/-- What the reader takes for an operator of a layer. -/
def Layer.operator? : Layer → Token → Option (Float → Float → Option Float)
  | sum => sumOperator?
  | product => productOperator?
  | factor => fun _ => none

/-- The operators of a layer are read for what they are, and nothing else is. -/
theorem operator?_eq_some_iff {layer : Layer} {combine : Float → Float → Option Float} :
    layer.operator? t = some combine ↔
      ∃ op : Operator, op.layer = layer ∧ isOperator t op.sign = true ∧ combine = op.combine? := by
  have hne : ∀ {c d}, isOperator t c = true → c ≠ d → isOperator t d = false :=
    fun h hcd => Bool.eq_false_iff.mpr fun h' => hcd (eq_of_isOperator h h')
  constructor
  · intro h
    cases layer with
    | sum =>
      simp only [Layer.operator?, sumOperator?] at h
      split at h
      · exact ⟨.plus, rfl, ‹_›, (Option.some.inj h).symm⟩
      · split at h
        · exact ⟨.minus, rfl, ‹_›, (Option.some.inj h).symm⟩
        · cases h
    | product =>
      simp only [Layer.operator?, productOperator?] at h
      split at h
      · exact ⟨.times, rfl, ‹_›, (Option.some.inj h).symm⟩
      · split at h
        · exact ⟨.divided, rfl, ‹_›, (Option.some.inj h).symm⟩
        · cases h
    | factor => cases h
  · rintro ⟨op, rfl, hsign, rfl⟩
    cases op with
    | plus => exact if_pos hsign
    | minus =>
      have hother := hne hsign (show '-' ≠ '+' by decide)
      exact (if_neg (Bool.eq_false_iff.mp hother)).trans (if_pos hsign)
    | times => exact if_pos hsign
    | divided =>
      have hother := hne hsign (show '/' ≠ '*' by decide)
      exact (if_neg (Bool.eq_false_iff.mp hother)).trans (if_pos hsign)

/-- An operator of one layer is none of another. -/
theorem operator?_eq_none (layer : Layer) (hsign : isOperator t op.sign = true)
    (hlayer : op.layer ≠ layer) : layer.operator? t = none := by
  rw [Option.eq_none_iff_forall_not_mem]
  intro combine h
  obtain ⟨other, hother, hsign', -⟩ := operator?_eq_some_iff.mp h
  have heq := eq_of_isOperator hsign hsign'
  cases op <;> cases other <;> first | exact hlayer hother | cases heq

/-- Only a delimiter is an operator. -/
theorem operator?_eq_none_of_kind (layer : Layer) (h : t.kind ≠ .delim) :
    layer.operator? t = none := by
  rw [Option.eq_none_iff_forall_not_mem]
  intro combine hc
  obtain ⟨other, -, hsign, -⟩ := operator?_eq_some_iff.mp hc
  exact h (kind_of_isOperator hsign)

end CssWorkbench.Calc
