import PastTime.Names
import PastTime.Predicate.Basic

/-!
# Building predicates

Operators are applied to values. The values are normalized from left to right, and only then are
the auxiliary names of the operator issued, so the names of the operands come first and a failure
issues none.
-/

namespace PastTime

/-- Why no predicate was built. -/
inductive BuildError where
  /-- No operator is written like this. -/
  | unknownOperator (symbol : String)
  /-- An operand is no predicate. -/
  | invalidTerm (error : TermError)
  /-- The operator takes another number of operands. -/
  | arity (operator : Operator) (found : Nat)
  deriving DecidableEq, Repr

/-- The text of the error. -/
def BuildError.message : BuildError → String
  | unknownOperator symbol => s!"Unknown operator \"{symbol}\""
  | invalidTerm error => error.message
  | arity operator found =>
    s!"Operator \"{operator.symbol}\" expects {operator.arity} operand(s), found {found}"

/-- A computation that issues names and may fail. The names issued before a failure stay issued. -/
abbrev Build (σ : Type) := ExceptT BuildError (StateM σ)

namespace Build

variable {σ : Type}

/-- Issues a name. -/
def fresh [NameSource σ] (kind : AuxiliaryKind) : Build σ String :=
  modifyGet (NameSource.fresh kind.tag)

/-- The predicate that a value stands for. -/
def normalize (value : Value) : Build σ Predicate :=
  ofExcept (value.normalize.mapError .invalidTerm)

end Build

namespace Predicate

variable {σ : Type} [NameSource σ]

/-- Applies an operator to values. -/
def apply : (operator : Operator) → (values : List Value) → Build σ Predicate
  | .not, [value] => do
    return .not (← Build.normalize value)
  | .connective c, [left, right] => do
    let left ← Build.normalize left
    let right ← Build.normalize right
    return .connective c left right
  | .previously, [value] => do
    let operand ← Build.normalize value
    return .previously operand (← Build.fresh .previously)
  | .since, [left, right] => do
    let left ← Build.normalize left
    let right ← Build.normalize right
    let hold ← Build.fresh .sinceHold
    let trail ← Build.fresh .sinceTrail
    return .since left right hold trail
  | operator, values => throw (.arity operator values.length)

/-- Applies the operator that is written as the given text. -/
def applySymbol (symbol : String) (values : List Value) : Build σ Predicate :=
  match Operator.ofSymbol? symbol with
  | some operator => apply operator values
  | none => throw (.unknownOperator symbol)

end Predicate

/-- A plan of a value, in which operators are still to be applied. -/
inductive Sketch where
  | literal (text : String)
  | sequence (parts : List Sketch)
  | grouped (inner : Sketch)
  | term (text : String)
  | applySymbol (symbol : String) (parts : List Sketch)
  | apply (operator : Operator) (parts : List Sketch)
  deriving Repr

namespace Sketch

variable {σ : Type} [NameSource σ]

mutual

/-- Carries out a plan: the parts from left to right, then what they are parts of. -/
def build : Sketch → Build σ Value
  | literal text => return .literal text
  | sequence parts => return .sequence (← buildAll parts)
  | grouped inner => return .grouped (← inner.build)
  | term text => return .predicate (.term (← ofExcept ((Term.ofText text).mapError .invalidTerm)))
  | applySymbol symbol parts => do
    let values ← buildAll parts
    return .predicate (← Predicate.applySymbol symbol values)
  | apply operator parts => do
    let values ← buildAll parts
    return .predicate (← Predicate.apply operator values)

/-- Carries out plans from left to right. -/
def buildAll : List Sketch → Build σ (List Value)
  | [] => return []
  | sketch :: rest => do
    let value ← sketch.build
    return value :: (← buildAll rest)

end

end Sketch

end PastTime
