import PastTime.Formula.Basic
import PastTime.Lexeme.Parser

/-!
# The grammar of predicate texts

The parsers of the grammar `Grammar.ebnf`. From loose to tight the operators are `->`, which groups
to the right, then `||`, `&&` and the pair `==` and `!=`, which group to the left, then `!`. A
parenthesis opens a formula, unless a further piece follows its end: `(a + b) * c` is one terminal.

Every parser that can call itself takes the number of levels it may still open. Negation, a
temporal operator, parentheses, a bracket group and the right side of an implication each open one
level; a parser without room gives up the whole reading. The rules themselves are written for any
`Parsing`, from what stands for the rules that they refer to, and only the parsers `group`, `unary`
and `predicate` say how much room is left.
-/

namespace PastTime.Grammar

open PastTime.Parsing
open PastTime.Parser (expect many many1)

/-- The grammar in extended Backus-Naur form. -/
def ebnf : String :=
  "(* ptlc predicate grammar, version 1.0 *)
(* operators and brackets nest at most 100 levels deep *)

predicate   = implication ;
implication = disjunction , [ \"->\" , implication ] ;
disjunction = conjunction , \x7b \"||\" , conjunction \x7d ;
conjunction = equality , \x7b \"&&\" , equality \x7d ;
equality    = unary , \x7b ( \"==\" | \"!=\" ) , unary \x7d ;
unary       = \"!\" , unary | temporal | primary ;
temporal    = \"previously\" , \"(\" , predicate , \")\"
            | \"once\" , \"(\" , predicate , \")\"
            | \"always\" , \"(\" , predicate , \")\"
            | \"since\" , \"(\" , predicate , \",\" , predicate , \")\" ;
primary     = \"(\" , predicate , \")\"      (* only when no further piece follows *)
            | terminal ;
terminal    = piece , \x7b piece \x7d ;
piece       = word | symbol | group ;
group       = \"(\" , \x7b group-token \x7d , \")\" | \"[\" , \x7b group-token \x7d , \"]\" ;
group-token = word | group | symbol | \"&&\" | \"||\" | \"==\" | \"!=\" | \"->\"
            | \"!\" | \",\" | \"?\" | \":\" | \"=\" ;
word        = ? one or more of [A-Za-z0-9_.], except a temporal keyword ? ;
symbol      = \"<<\" | \">>\" | \"<=\" | \">=\" | \"**\" | \"<\" | \">\" | \"+\" | \"-\" | \"*\"
            | \"/\" | \"%\" | \"^\" | \"&\" | \"|\" | \"~\" ;
"

/-- The version of the grammar. -/
def version : String := "1.0"

/-- The number of levels that operators and brackets may nest. -/
def maxDepth : Nat := 100

/-- The words that are temporal operators and never part of a terminal. -/
def keywords : List String := ["previously", "once", "always", "since"]

/-- The marks that may stand anywhere in a terminal. -/
def symbols : List String :=
  ["<<", ">>", "<=", ">=", "**", "<", ">", "+", "-", "*", "/", "%", "^", "&", "|", "~"]

/-- The marks that may stand in a terminal only inside brackets. -/
def innerSymbols : List String := ["&&", "||", "==", "!=", "->", "!", ",", "?", ":", "="]

/-! ## Terminals -/

section

variable {m : Type → Type} [Parsing m]

/-- A word that is no keyword. -/
def word : m Token := next fun
  | .word text => if text ∈ keywords then none else some (.word text)
  | .mark _ => none

/-- A mark out of the given list. -/
def markAmong (marks : List String) : m Token := next fun
  | .word _ => none
  | .mark text => if text ∈ marks then some (.symbol text) else none

/-- A group, a word or one of the given marks. -/
def tokenOf (marks : List String) (group : m Token) : m Token :=
  group <|> word <|> markAmong marks

/-- Tokens in a pair of brackets. -/
def delimited (bracket : Bracket) (token : m Token) : m Token := do
  expect (.mark bracket.opening)
  let tokens ← many token
  expect (.mark bracket.closing)
  return .group bracket tokens

/-- Tokens in either pair of brackets, from the groups among them. Square brackets are tried last,
so an unclosed parenthesis is refused where it opens. -/
def groupOf (inside : m Token) : m Token :=
  delimited .round (tokenOf (innerSymbols ++ symbols) inside) <|>
    delimited .square (tokenOf (innerSymbols ++ symbols) inside)

/-- The bracket that a lexeme opens. -/
def opening? (lexeme : Lexeme) : Option Bracket :=
  [Bracket.round, Bracket.square].find? fun bracket => lexeme = .mark bracket.opening

/-- Gives up at a bracket that opens a group. -/
def noGroup : m Token := do
  notFollowedBy (next opening?) <|> tooDeep
  mismatch

/-- As many pieces as follow each other. -/
def terminal (piece : m Token) : m Formula := return .terminal (← many1 piece)

/-! ## Operators -/

/-- A connective and its right operand. Once the connective is read the operand must follow. -/
def link (connectives : List Connective) (operand : m Formula) :
    m (Option (Connective × Formula)) := do
  match ← optional (next fun lexeme => connectives.find? fun c => lexeme = .mark c.symbol) with
  | none => return none
  | some c => return some (c, ← operand)

/-- Operands joined by connectives, grouped to the left. -/
def chain (connectives : List Connective) (operand : m Formula) : m Formula := do
  let first ← operand
  let links ← collect (link connectives operand)
  return links.foldl (fun left (c, right) => .binary (.connective c) left right) first

/-- Operands joined by `||`, of operands joined by `&&`, of operands joined by `==` and `!=`. -/
def disjunction (unary : m Formula) : m Formula :=
  chain [.or] (chain [.and] (chain [.equal, .notEqual] unary))

/-- A disjunction, implying a further formula if one follows behind an arrow. An arrow without a
formula behind it is left unread. -/
def implication (unary consequent : m Formula) : m Formula := do
  let left ← disjunction unary
  match ← optional (do expect (.mark "->"); consequent) with
  | none => return left
  | some right => return .binary .implies left right

/-- Negation of a formula that is no chain. -/
def negation (unary : m Formula) : m Formula := do
  expect (.mark "!")
  return .unary .not (← unary)

/-- A keyword applied to one formula in parentheses. -/
def application (keyword : String) (op : UnaryOp) (predicate : m Formula) : m Formula := do
  expect (.word keyword)
  expect (.mark "(")
  let operand ← predicate
  expect (.mark ")")
  return .unary op operand

/-- The keyword `since` applied to two formulas in parentheses. -/
def since (predicate : m Formula) : m Formula := do
  expect (.word "since")
  expect (.mark "(")
  let left ← predicate
  expect (.mark ",")
  let right ← predicate
  expect (.mark ")")
  return .binary .since left right

/-- A temporal operator with its operands. -/
def temporal (predicate : m Formula) : m Formula :=
  application "previously" .previously predicate <|> application "once" .once predicate <|>
    application "always" .always predicate <|> since predicate

/-- A formula in parentheses with no further piece behind it. -/
def grouped (predicate : m Formula) (piece : m Token) : m Formula := do
  expect (.mark "(")
  let inner ← predicate
  expect (.mark ")")
  notFollowedBy piece
  return .grouped inner

/-- A formula without outer connectives, from the groups and the operands in it. -/
def unaryOf (group : m Token) (unary predicate : m Formula) : m Formula :=
  negation unary <|> temporal predicate <|> grouped predicate (tokenOf symbols group) <|>
    terminal (tokenOf symbols group)

end

/-! ## Levels -/

/-- Tokens in matching brackets, with at most `room` levels of brackets. -/
def group : (room : Nat) → Parser Token
  | 0 => noGroup
  | room + 1 => groupOf (group room)

/-- A token of a terminal outside brackets. -/
def piece (room : Nat) : Parser Token := tokenOf symbols (group room)

/-- A token inside brackets. -/
def groupToken (room : Nat) : Parser Token := tokenOf (innerSymbols ++ symbols) (group room)

/-- The two parsers that open levels: for a formula without outer connectives, and for any. -/
structure Level where
  unary : Parser Formula
  predicate : Parser Formula

/-- The parsers with the given room, from those with one level less. -/
def level : (room : Nat) → Level
  | 0 => ⟨tooDeep, tooDeep⟩
  | room + 1 =>
    let below := level room
    let unary := unaryOf (group room) below.unary below.predicate
    ⟨unary, implication unary below.predicate⟩

/-- A formula without outer connectives, with at most `room` levels. -/
def unary (room : Nat) : Parser Formula := (level room).unary

/-- Any formula, with at most `room` levels. -/
def predicate (room : Nat) : Parser Formula := (level room).predicate

theorem unary_succ (room : Nat) :
    unary (room + 1) = (negation (unary room) <|> temporal (predicate room) <|>
      grouped (predicate room) (piece room) <|> terminal (piece room)) := rfl

theorem predicate_succ (room : Nat) :
    predicate (room + 1) = implication (unary (room + 1)) (predicate room) := rfl

/-! ## Where groups begin -/

theorem opening?_opening (bracket : Bracket) : opening? (.mark bracket.opening) = some bracket := by
  cases bracket <;> decide

theorem opening?_eq_some {lexeme : Lexeme} {bracket : Bracket}
    (h : opening? lexeme = some bracket) : lexeme = .mark bracket.opening := by
  simpa using List.find?_some h

theorem ne_opening {lexeme : Lexeme} (h : opening? lexeme = none) (bracket : Bracket) :
    lexeme ≠ .mark bracket.opening := by
  rintro rfl
  simp [opening?_opening] at h

theorem delimited_of_ne {bracket : Bracket} {lexeme : Lexeme} (h : lexeme ≠ .mark bracket.opening)
    (token : Parser Token) (rest : List Lexeme) :
    delimited bracket token (lexeme :: rest) = .mismatch (lexeme :: rest) := by
  rw [delimited, Parser.bind_apply, Parser.expect_cons_of_ne h]
  rfl

/-- Where no bracket opens there is no group. -/
theorem groupOf_of_opening?_eq_none {lexeme : Lexeme} (h : opening? lexeme = none)
    (inside : Parser Token) (rest : List Lexeme) :
    groupOf inside (lexeme :: rest) = .mismatch (lexeme :: rest) := by
  change Parser.orElse (delimited .round _) (delimited .square _) _ = _
  simp only [Parser.orElse, delimited_of_ne (ne_opening h _)]

/-- It is refused in the same way without room. -/
theorem group_of_opening?_eq_none {lexeme : Lexeme} (h : opening? lexeme = none) (room : Nat)
    (rest : List Lexeme) : group room (lexeme :: rest) = .mismatch (lexeme :: rest) := by
  cases room with
  | zero =>
      change (Parser.orElse (Parser.notFollowedBy (Parser.next opening?)) _ _).andThen _ = _
      simp only [Parser.orElse, Parser.notFollowedBy, Parser.next, h]
      rfl
  | succ room => exact groupOf_of_opening?_eq_none h (group room) rest

/-- Without room a group is given up where its bracket opens. -/
theorem group_zero_of_opening? {lexeme : Lexeme} {bracket : Bracket}
    (h : opening? lexeme = some bracket) (rest : List Lexeme) :
    group 0 (lexeme :: rest) = .tooDeep (lexeme :: rest) := by
  change (Parser.orElse (Parser.notFollowedBy (Parser.next opening?)) _ _).andThen _ = _
  simp only [Parser.orElse, Parser.notFollowedBy, Parser.next, h]
  rfl

end PastTime.Grammar
