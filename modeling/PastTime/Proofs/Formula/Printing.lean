import PastTime.Formula.Grammar

/-!
# Written formulas

The lexemes that a formula is written with, and the formulas that can be written: parentheses are
never left out where an operator needs them, and terminals hold only what may stand in them.
-/

namespace PastTime

/-! ## Lexemes -/

namespace Token

mutual

/-- The lexemes of a token, brackets included. -/
def lexemes : Token → List Lexeme
  | word text => [.word text]
  | symbol text => [.mark text]
  | group bracket tokens => .mark bracket.opening :: lexemesAll tokens ++ [.mark bracket.closing]

/-- The lexemes of tokens, one token after the other. -/
def lexemesAll : List Token → List Lexeme
  | [] => []
  | token :: rest => token.lexemes ++ lexemesAll rest

end

theorem lexemesAll_eq_flatMap (tokens : List Token) :
    lexemesAll tokens = tokens.flatMap lexemes := by
  induction tokens with
  | nil => rfl
  | cons token rest ih => rw [lexemesAll, ih, List.flatMap_cons]

end Token

/-- A keyword with what it is applied to. -/
def Lexeme.call (keyword : String) (operands : List Lexeme) : List Lexeme :=
  .word keyword :: .mark "(" :: operands ++ [.mark ")"]

/-- How an operator is written on one written formula. -/
def UnaryOp.write (operand : List Lexeme) : UnaryOp → List Lexeme
  | not => .mark "!" :: operand
  | previously => Lexeme.call "previously" operand
  | once => Lexeme.call "once" operand
  | always => Lexeme.call "always" operand

/-- How an operator is written on two written formulas. -/
def BinaryOp.write (left right : List Lexeme) : BinaryOp → List Lexeme
  | implies => left ++ .mark "->" :: right
  | connective c => left ++ .mark c.symbol :: right
  | since => Lexeme.call "since" (left ++ .mark "," :: right)

/-- The lexemes of a formula, from left to right. -/
def Formula.lexemes : Formula → List Lexeme
  | terminal tokens => Token.lexemesAll tokens
  | grouped inner => .mark "(" :: inner.lexemes ++ [.mark ")"]
  | unary op operand => op.write operand.lexemes
  | binary op left right => op.write left.lexemes right.lexemes

/-! ## Allowed tokens -/

namespace Token

mutual

/-- No word of the token is a keyword, its own symbol is one of the given marks, and inside its
brackets only the marks of groups and terminals stand. -/
def WellFormed (marks : List String) : Token → Prop
  | word text => text ∉ Grammar.keywords
  | symbol text => text ∈ marks
  | group _ tokens => AllWellFormed (Grammar.innerSymbols ++ Grammar.symbols) tokens

/-- Every token is well formed. -/
def AllWellFormed (marks : List String) : List Token → Prop
  | [] => True
  | token :: rest => token.WellFormed marks ∧ AllWellFormed marks rest

end

mutual

/-- Whether a token is well formed can be decided. -/
def decidableWellFormed (marks : List String) : (token : Token) → Decidable (token.WellFormed marks)
  | word text => inferInstanceAs (Decidable (text ∉ Grammar.keywords))
  | symbol text => inferInstanceAs (Decidable (text ∈ marks))
  | group _ tokens => decidableAllWellFormed (Grammar.innerSymbols ++ Grammar.symbols) tokens

def decidableAllWellFormed (marks : List String) :
    (tokens : List Token) → Decidable (AllWellFormed marks tokens)
  | [] => .isTrue trivial
  | token :: rest =>
    @instDecidableAnd _ _ (decidableWellFormed marks token) (decidableAllWellFormed marks rest)

end

instance (marks : List String) (tokens : List Token) : Decidable (AllWellFormed marks tokens) :=
  decidableAllWellFormed marks tokens

theorem allWellFormed_iff {marks : List String} {tokens : List Token} :
    AllWellFormed marks tokens ↔ ∀ token ∈ tokens, token.WellFormed marks := by
  induction tokens with
  | nil => simp [AllWellFormed]
  | cons token rest ih => simp [AllWellFormed, ih]

end Token

/-! ## Precedence -/

/-- How tightly a connective binds. -/
def Connective.tightness : Connective → Nat
  | or => 1
  | and => 2
  | equal | notEqual => 3

namespace Formula

/-- How tightly the outermost operator binds: an implication least, then the connectives, and a
formula without outer connectives most. -/
def tightness : Formula → Nat
  | binary .implies _ _ => 0
  | binary (.connective c) _ _ => c.tightness
  | terminal _ | grouped _ | unary _ _ | binary .since _ _ => 4

/-- The formula can be read without further parentheses, with connectives grouped to the left and
implications to the right, and its terminals are not empty and hold only allowed tokens. -/
def WellFormed : Formula → Prop
  | terminal tokens => tokens ≠ [] ∧ Token.AllWellFormed Grammar.symbols tokens
  | grouped inner => inner.WellFormed
  | unary .not operand => operand.WellFormed ∧ operand.tightness = 4
  | unary .previously operand | unary .once operand | unary .always operand => operand.WellFormed
  | binary .implies left right => left.WellFormed ∧ right.WellFormed ∧ 0 < left.tightness
  | binary (.connective c) left right =>
    left.WellFormed ∧ right.WellFormed ∧ c.tightness ≤ left.tightness ∧
      c.tightness < right.tightness
  | binary .since left right => left.WellFormed ∧ right.WellFormed

/-- Whether a formula is well formed can be decided. -/
def decidableWellFormed : (formula : Formula) → Decidable formula.WellFormed
  | terminal tokens =>
    inferInstanceAs (Decidable (tokens ≠ [] ∧ Token.AllWellFormed Grammar.symbols tokens))
  | grouped inner => inner.decidableWellFormed
  | unary .not operand => @instDecidableAnd _ _ operand.decidableWellFormed inferInstance
  | unary .previously operand | unary .once operand | unary .always operand =>
    operand.decidableWellFormed
  | binary .implies left right =>
    @instDecidableAnd _ _ left.decidableWellFormed
      (@instDecidableAnd _ _ right.decidableWellFormed inferInstance)
  | binary (.connective _) left right =>
    @instDecidableAnd _ _ left.decidableWellFormed
      (@instDecidableAnd _ _ right.decidableWellFormed inferInstance)
  | binary .since left right =>
    @instDecidableAnd _ _ left.decidableWellFormed right.decidableWellFormed

instance (formula : Formula) : Decidable formula.WellFormed := formula.decidableWellFormed

theorem tightness_le (formula : Formula) : formula.tightness ≤ 4 := by
  unfold tightness
  split
  next => omega
  next c _ _ => cases c <;> decide
  all_goals omega

end Formula

end PastTime
