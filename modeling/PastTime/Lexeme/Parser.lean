import PastTime.Lexeme

/-!
# Parsers over lexemes

A parser reads a value off the front of a list of lexemes. It can fail in two ways. A mismatch is
an ordinary failure, after which another alternative may be tried. A text that nests too deep ends
the whole reading: no alternative, repetition or look-ahead recovers from it. Both failures say
which lexemes were left where they arose.

A grammar is put together from a few operations, those of the class `Parsing`. Parsers have them,
and so has anything else that a grammar is to be read as.
-/

namespace PastTime

/-- The answer of a parser. -/
inductive Reply (α : Type) where
  | ok (value : α) (rest : List Lexeme)
  | mismatch (rest : List Lexeme)
  | tooDeep (rest : List Lexeme)
  deriving DecidableEq, Repr

/-- Goes on with the value and the lexemes that are left, unless the reply is a failure. -/
def Reply.andThen {α β : Type} (reply : Reply α) (next : α → List Lexeme → Reply β) : Reply β :=
  match reply with
  | ok value rest => next value rest
  | mismatch rest => mismatch rest
  | tooDeep rest => tooDeep rest

/-- A reader of a value off the front of a list of lexemes. -/
def Parser (α : Type) : Type := List Lexeme → Reply α

/-- The operations that a grammar is put together from. -/
class Parsing (m : Type → Type) extends Monad m where
  /-- Fails without reading. -/
  mismatch {α : Type} : m α
  /-- Gives up the whole reading at this place. -/
  tooDeep {α : Type} : m α
  /-- Tries the second one where the first one mismatches. -/
  orElse {α : Type} (first second : m α) : m α
  /-- Reads one lexeme that has a meaning. -/
  next {α : Type} (meaning : Lexeme → Option α) : m α
  /-- Reads a value, or nothing at all in place of a mismatch. -/
  optional {α : Type} (parser : m α) : m (Option α)
  /-- Reads nothing, and mismatches where the given one would read something. -/
  notFollowedBy {α : Type} (parser : m α) : m Unit
  /-- Repeats a step until it reads nothing, and lists what was read. -/
  collect {α : Type} (step : m (Option α)) : m (List α)

instance {m : Type → Type} [Parsing m] {α : Type} : OrElse (m α) :=
  ⟨fun first second => Parsing.orElse first (second ())⟩

namespace Parser

variable {α : Type}

/-! ## The operations on parsers -/

def mismatch : Parser α := fun input => .mismatch input

def tooDeep : Parser α := fun input => .tooDeep input

def orElse (first second : Parser α) : Parser α := fun input =>
  match first input with
  | .ok value rest => .ok value rest
  | .mismatch _ => second input
  | .tooDeep rest => .tooDeep rest

def next (meaning : Lexeme → Option α) : Parser α
  | [] => .mismatch []
  | lexeme :: rest =>
    match meaning lexeme with
    | some value => .ok value rest
    | none => .mismatch (lexeme :: rest)

def optional (parser : Parser α) : Parser (Option α) := fun input =>
  match parser input with
  | .ok value rest => .ok (some value) rest
  | .mismatch _ => .ok none input
  | .tooDeep rest => .tooDeep rest

def notFollowedBy (parser : Parser α) : Parser Unit := fun input =>
  match parser input with
  | .ok _ _ => .mismatch input
  | .mismatch _ => .ok () input
  | .tooDeep rest => .tooDeep rest

/-- A step that reads a value must use up a lexeme. -/
def collect (step : Parser (Option α)) (input : List Lexeme) : Reply (List α) :=
  match step input with
  | .ok none rest => .ok [] rest
  | .ok (some value) rest =>
    if rest.length < input.length then
      (collect step rest).andThen fun values rest => .ok (value :: values) rest
    else .mismatch input
  | .mismatch rest => .mismatch rest
  | .tooDeep rest => .tooDeep rest
termination_by input.length

instance : Parsing Parser where
  pure value := fun input => .ok value input
  bind parser next := fun input => (parser input).andThen next
  mismatch := mismatch
  tooDeep := tooDeep
  orElse := orElse
  next := next
  optional := optional
  notFollowedBy := notFollowedBy
  collect := collect

/-! ## What is put together from them -/

variable {m : Type → Type} [Parsing m]

/-- Reads exactly the given lexeme. -/
def expect (lexeme : Lexeme) : m Unit :=
  Parsing.next fun found => if found = lexeme then some () else none

/-- Reads as many values as possible, possibly none. -/
def many (parser : m α) : m (List α) := Parsing.collect (Parsing.optional parser)

/-- Reads as many values as possible, and at least one. -/
def many1 (parser : m α) : m (List α) := do
  let first ← parser
  let rest ← many parser
  return first :: rest

/-! ## Single steps -/

theorem bind_apply {β : Type} (parser : Parser α) (next : α → Parser β) (input : List Lexeme) :
    (parser >>= next) input = (parser input).andThen next := rfl

theorem bind_of_ok {β : Type} {parser : Parser α} {input rest : List Lexeme} {value : α}
    (h : parser input = .ok value rest) (next : α → Parser β) :
    (parser >>= next) input = next value rest := by
  rw [bind_apply, h]
  rfl

theorem many_apply (parser : Parser α) (input : List Lexeme) :
    many parser input = collect (optional parser) input := rfl

theorem expect_cons (lexeme : Lexeme) (rest : List Lexeme) :
    (expect lexeme : Parser Unit) (lexeme :: rest) = .ok () rest := by
  simp [expect, Parsing.next, next]

theorem expect_cons_of_ne {lexeme found : Lexeme} (h : found ≠ lexeme) (rest : List Lexeme) :
    (expect lexeme : Parser Unit) (found :: rest) = .mismatch (found :: rest) := by
  simp [expect, Parsing.next, next, h]

end Parser

end PastTime
