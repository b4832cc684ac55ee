/-!
# Operators

The operators that a predicate is built with. The past-time operators `previously` and `since`
look at earlier steps; negation and the four connectives look at the current step only.
-/

namespace PastTime

/-- The binary operators on truth values at one step. -/
inductive Connective where
  | and
  | or
  | equal
  | notEqual
  deriving DecidableEq, Repr

/-- How a connective is written. -/
def Connective.symbol : Connective → String
  | .and => "&&"
  | .or => "||"
  | .equal => "=="
  | .notEqual => "!="

/-- The operators of predicates. -/
inductive Operator where
  | not
  | connective (connective : Connective)
  | previously
  | since
  deriving DecidableEq, Repr

namespace Operator

/-- How an operator is written. -/
def symbol : Operator → String
  | not => "!"
  | connective c => c.symbol
  | previously => "previously"
  | since => "since"

/-- The number of operands of an operator. -/
def arity : Operator → Nat
  | not | previously => 1
  | connective _ | since => 2

/-- Whether the value of an operator depends on earlier steps. -/
def isTemporal : Operator → Bool
  | not | connective _ => false
  | previously | since => true

/-- Every operator. -/
def all : List Operator :=
  [not, connective .and, connective .or, connective .equal, connective .notEqual, previously, since]

/-- The operator that is written as the given text. -/
def ofSymbol? (text : String) : Option Operator := all.find? (·.symbol == text)

theorem mem_all (op : Operator) : op ∈ all := by
  cases op with
  | connective c => cases c <;> simp [all]
  | _ => simp [all]

theorem ofSymbol?_symbol (op : Operator) : ofSymbol? op.symbol = some op := by
  cases op with
  | connective c => cases c <;> rfl
  | _ => rfl

end Operator

end PastTime
