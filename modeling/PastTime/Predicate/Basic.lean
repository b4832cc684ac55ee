import PastTime.Operator
import PastTime.Text

/-!
# Predicates

A term is the leaf of a predicate: text that is copied into the generated expression and never
interpreted. It is not empty and has no blank characters.

A predicate applies operators to terms. Its generated expression reads only the current step: a
past-time operator is replaced by auxiliary variables, which the program that embeds the expression
keeps up to date.

* `previously(p)` reads one variable, the value of `p` at the step before, false at the first step.
* `since(p, q)` reads two variables, whose conjunction holds when `q` held at some step up to now
  and `p` held at every step after that one.

A value is what an operator is applied to, before it is known to be a predicate: text, a sequence
of values, a value in parentheses, or a predicate. Text and sequences become terms.
-/

namespace PastTime

/-! ## Terms -/

/-- An uninterpreted boolean expression. -/
structure Term where
  expression : String
  deriving DecidableEq, Repr

/-- Why a value is no term. -/
inductive TermError where
  /-- The text of the value is empty, or blank throughout. -/
  | empty
  /-- The value contains a predicate that is no term, displayed as the given text. -/
  | composite (display : String)
  deriving DecidableEq, Repr

/-- The text of the error. -/
def TermError.message : TermError → String
  | empty => "Cannot create a term from an empty fragment"
  | composite display => s!"Cannot flatten composite predicate \"{display}\" into a term"

namespace Term

/-- The term with the given text, less its blank characters. -/
def ofText (text : String) : Except TermError Term :=
  let expression := Text.squeeze text
  if expression = "" then .error .empty else .ok ⟨expression⟩

/-- The variables that a term refers to. -/
def freeVariables (term : Term) : NameSet := Text.freeVariables term.expression

/-- The term in parentheses. -/
def parenthesized (term : Term) : Term := ⟨"(" ++ term.expression ++ ")"⟩

end Term

/-! ## Predicates -/

/-- What an auxiliary variable stands for. -/
inductive AuxiliaryKind where
  /-- The operand of `previously` at the step before. -/
  | previously
  /-- The first variable of `since`. -/
  | sinceHold
  /-- The second variable of `since`. -/
  | sinceTrail
  deriving DecidableEq, Repr

namespace AuxiliaryKind

/-- The part of an auxiliary's name that tells its kind. -/
def tag : AuxiliaryKind → String
  | previously => "previously"
  | sinceHold => "q"
  | sinceTrail => "p_since_q"

/-- The operator that needs the auxiliary. -/
def operator : AuxiliaryKind → Operator
  | previously => .previously
  | sinceHold | sinceTrail => .since

/-- How reports name the kind. -/
def label : AuxiliaryKind → String
  | previously => "Previously"
  | sinceHold => "SinceHold"
  | sinceTrail => "SinceTrail"

end AuxiliaryKind

/-- A boolean variable that a generated expression reads. -/
structure Auxiliary where
  name : String
  kind : AuxiliaryKind
  deriving DecidableEq, Repr

/-- A formula over terms, with the auxiliary names of its past-time operators. -/
inductive Predicate where
  | term (term : Term)
  | not (operand : Predicate)
  | connective (connective : Connective) (left right : Predicate)
  | previously (operand : Predicate) (name : String)
  | since (left right : Predicate) (hold trail : String)
  deriving DecidableEq, Repr

namespace Predicate

/-- The outermost operator; a term has none. -/
def operator : Predicate → Option Operator
  | term _ => none
  | not _ => some .not
  | connective c _ _ => some (.connective c)
  | previously _ _ => some .previously
  | since .. => some .since

/-- The operands of the outermost operator. -/
def operands : Predicate → List Predicate
  | term _ => []
  | not operand | previously operand _ => [operand]
  | connective _ left right | since left right _ _ => [left, right]

/-- Whether the predicate is a term. -/
def isTerm : Predicate → Bool
  | term _ => true
  | _ => false

/-- The variables of all terms of the predicate. -/
def freeVariables : Predicate → NameSet
  | term t => t.freeVariables
  | not operand | previously operand _ => operand.freeVariables
  | connective _ left right | since left right _ _ => left.freeVariables ∪ right.freeVariables

/-- The boolean expression that the predicate stands for at one step. -/
def expression : Predicate → String
  | term t => t.expression
  | not operand => "!(" ++ operand.expression ++ ")"
  | connective c left right =>
    "(" ++ left.expression ++ ")" ++ c.symbol ++ "(" ++ right.expression ++ ")"
  | previously _ name => name
  | since _ _ hold trail => "(" ++ hold ++ "&&" ++ trail ++ ")"

/-- The auxiliaries of the outermost operator. -/
def ownAuxiliaries : Predicate → List Auxiliary
  | term _ | not _ | connective .. => []
  | previously _ name => [⟨name, .previously⟩]
  | since _ _ hold trail => [⟨hold, .sinceHold⟩, ⟨trail, .sinceTrail⟩]

/-- All auxiliaries, those of the operands before those of the operator. -/
def auxiliaries : Predicate → List Auxiliary
  | term _ => []
  | not operand => operand.auxiliaries
  | connective _ left right => left.auxiliaries ++ right.auxiliaries
  | previously operand name => operand.auxiliaries ++ [⟨name, .previously⟩]
  | since left right hold trail =>
    left.auxiliaries ++ right.auxiliaries ++ [⟨hold, .sinceHold⟩, ⟨trail, .sinceTrail⟩]

/-- The predicate as a formula, with its operators and without its auxiliaries. -/
def display : Predicate → String
  | term t => t.expression
  | not operand => "!(" ++ operand.display ++ ")"
  | connective c left right =>
    "(" ++ left.display ++ ") " ++ c.symbol ++ " (" ++ right.display ++ ")"
  | previously operand _ => "previously(" ++ operand.display ++ ")"
  | since left right _ _ => "since(" ++ left.display ++ ", " ++ right.display ++ ")"

/-- The predicate with other names for its auxiliaries. -/
def mapNames (rename : String → String) : Predicate → Predicate
  | term t => term t
  | not operand => not (operand.mapNames rename)
  | connective c left right => connective c (left.mapNames rename) (right.mapNames rename)
  | previously operand name => previously (operand.mapNames rename) (rename name)
  | since left right hold trail =>
    since (left.mapNames rename) (right.mapNames rename) (rename hold) (rename trail)

/-- Parentheses are kept around a term and dropped around any other predicate. -/
def parenthesized : Predicate → Predicate
  | term t => term t.parenthesized
  | predicate => predicate

end Predicate

/-! ## Values -/

/-- An operand in the shape in which it was given. -/
inductive Value where
  | literal (text : String)
  | sequence (values : List Value)
  | grouped (inner : Value)
  | predicate (predicate : Predicate)
  deriving Repr

namespace Value

mutual

/-- The text of a value. It has none if a predicate in it is no term. -/
def flatten : Value → Except TermError String
  | literal text => .ok text
  | sequence values => flattenAll values
  | grouped inner => do return "(" ++ (← inner.flatten) ++ ")"
  | predicate (.term term) => .ok term.expression
  | predicate composite => .error (.composite composite.display)

/-- The texts of values, one after the other. The first value without a text decides the error. -/
def flattenAll : List Value → Except TermError String
  | [] => .ok ""
  | value :: rest => do return (← value.flatten) ++ (← flattenAll rest)

end

/-- The term that a value spells. -/
def toTerm (value : Value) : Except TermError Term := value.flatten >>= Term.ofText

/-- The predicate that a value stands for. A predicate in one pair of parentheses is the predicate
itself. -/
def normalize : Value → Except TermError Predicate
  | predicate p => .ok p
  | grouped (predicate p) => .ok p
  | grouped inner => inner.normalize.map Predicate.parenthesized
  | literal text => (literal text).toTerm.map .term
  | sequence values => (sequence values).toTerm.map .term

end Value

end PastTime
