import PastTime.Formula.Basic
import PastTime.Predicate.Build

/-!
# From formulas to values

Formulas are lowered to values, in which only the operators of predicates are left:

* `p -> q` becomes `!p || q`,
* `once(p)` becomes `since(true, p)`,
* `always(p)` becomes `!since(true, !p)`.

Operands are lowered from left to right before their operator is applied, so auxiliary names are
issued in post-order.
-/

namespace PastTime

mutual

/-- A token as a value with the same text. -/
def Token.toValue : Token → Value
  | .word text => .literal text
  | .symbol text => .literal text
  | .group bracket tokens =>
    .sequence (.literal bracket.opening :: Token.toValues tokens ++ [.literal bracket.closing])

/-- Tokens as values, one by one. -/
def Token.toValues : List Token → List Value
  | [] => []
  | token :: rest => token.toValue :: Token.toValues rest

end

variable {σ : Type} [NameSource σ]

/-- Applies an operator of formulas to one value. -/
def UnaryOp.apply (operand : Value) : UnaryOp → Build σ Predicate
  | .not => Predicate.apply .not [operand]
  | .previously => Predicate.apply .previously [operand]
  | .once => Predicate.apply .since [.literal Text.trueLiteral, operand]
  | .always => do
    let never ← Predicate.apply .not [operand]
    let sometime ← Predicate.apply .since [.literal Text.trueLiteral, .predicate never]
    Predicate.apply .not [.predicate sometime]

/-- Applies an operator of formulas to two values. -/
def BinaryOp.apply (left right : Value) : BinaryOp → Build σ Predicate
  | .connective c => Predicate.apply (.connective c) [left, right]
  | .since => Predicate.apply .since [left, right]
  | .implies => do
    let antecedent ← Predicate.apply .not [left]
    Predicate.apply (.connective .or) [.predicate antecedent, right]

/-- The value of a formula. A formula with an operator is a predicate; a terminal, in parentheses
or not, is text. -/
def Formula.lower : Formula → Build σ Value
  | .terminal tokens => return .sequence (Token.toValues tokens)
  | .grouped inner => return .grouped (← inner.lower)
  | .unary op operand => do
    let operand ← operand.lower
    return .predicate (← op.apply operand)
  | .binary op left right => do
    let left ← left.lower
    let right ← right.lower
    return .predicate (← op.apply left right)

end PastTime
