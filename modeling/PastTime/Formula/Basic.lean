import PastTime.Operator

/-!
# Source formulas

The tree of a predicate text, before its derived operators are expanded. The leaves are terminals:
sequences of tokens that are never interpreted, except that brackets are matched. Parentheses
around a formula are part of the tree.
-/

namespace PastTime

/-- The two kinds of brackets that can enclose tokens. -/
inductive Bracket where
  | round
  | square
  deriving DecidableEq, Repr

namespace Bracket

def opening : Bracket → String
  | round => "("
  | square => "["

def closing : Bracket → String
  | round => ")"
  | square => "]"

end Bracket

/-- A piece of uninterpreted text. -/
inductive Token where
  | word (text : String)
  | symbol (text : String)
  | group (bracket : Bracket) (tokens : List Token)
  deriving Repr

namespace Token

mutual

/-- The text of a token, brackets included. -/
def text : Token → String
  | word text => text
  | symbol text => text
  | group bracket tokens => bracket.opening ++ textAll tokens ++ bracket.closing

/-- The texts of tokens, one after the other. -/
def textAll : List Token → String
  | [] => ""
  | token :: rest => token.text ++ textAll rest

end

mutual

/-- Equality of tokens is decided piece by piece. -/
def decEq : (left right : Token) → Decidable (left = right)
  | word a, word b => decidable_of_iff (a = b) (by simp)
  | symbol a, symbol b => decidable_of_iff (a = b) (by simp)
  | group a tokens, group b others =>
    match decEqAll tokens others with
    | isTrue h => decidable_of_iff (a = b) (by simp [h])
    | isFalse h => isFalse (by simp [h])
  | word _, symbol _ | word _, group .. | symbol _, word _ | symbol _, group .. | group .., word _
  | group .., symbol _ => isFalse (by simp)

/-- Equality of lists of tokens is decided token by token. -/
def decEqAll : (left right : List Token) → Decidable (left = right)
  | [], [] => isTrue rfl
  | token :: tokens, other :: others =>
    match decEq token other with
    | isTrue h =>
      match decEqAll tokens others with
      | isTrue hs => isTrue (by rw [h, hs])
      | isFalse hs => isFalse (by simp [hs])
    | isFalse h => isFalse (by simp [h])
  | [], _ :: _ | _ :: _, [] => isFalse (by simp)

end

instance : DecidableEq Token := decEq

end Token

/-- The operators that a source text applies to one formula. -/
inductive UnaryOp where
  | not
  | previously
  | once
  | always
  deriving DecidableEq, Repr

/-- The operators that a source text applies to two formulas. -/
inductive BinaryOp where
  | implies
  | connective (connective : Connective)
  | since
  deriving DecidableEq, Repr

/-- The tree of a predicate text. -/
inductive Formula where
  | terminal (tokens : List Token)
  | grouped (inner : Formula)
  | unary (op : UnaryOp) (operand : Formula)
  | binary (op : BinaryOp) (left right : Formula)
  deriving DecidableEq, Repr

end PastTime
