import PastTime.Formula.Grammar

/-!
# Reading a predicate text

`Formula.parse` reads a whole text as one formula. A text that it rejects is rejected at a place:
the byte offset of a lexeme, or of the end of the text, together with the text from there on.
-/

namespace PastTime

/-- A place in a text: its byte offset and the text from there on. -/
structure Place where
  offset : Nat
  fragment : String
  deriving DecidableEq, Repr

/-- The place in a text where the given number of lexemes is left. -/
def Place.ofRemaining (text : String) (remaining : Nat) : Place :=
  let fragment := Lexeme.suffix text remaining
  ⟨text.utf8ByteSize - fragment.utf8ByteSize, fragment⟩

/-- Why a text is no predicate. -/
inductive GrammarError where
  /-- Nothing that the grammar allows stands at the place. -/
  | mismatch (place : Place)
  /-- The text before the place is a predicate, and the rest is left over. -/
  | incomplete (place : Place)
  /-- The text opens too many levels at the place. -/
  | tooDeep (place : Place)
  deriving DecidableEq, Repr

namespace GrammarError

/-- Where the text was rejected. -/
def place : GrammarError → Place
  | mismatch place | incomplete place | tooDeep place => place

/-- The text of the error. -/
def message : GrammarError → String
  | mismatch place => s!"Invalid predicate at offset {place.offset}: \"{place.fragment}\""
  | incomplete place =>
    s!"Could not parse remaining input \"{place.fragment}\" at offset {place.offset}"
  | tooDeep place =>
    s!"Predicate nesting exceeds {Grammar.maxDepth} levels at offset {place.offset}"

end GrammarError

namespace Formula

/-- Reads a whole text with room for the given number of levels. -/
def parseWithin (room : Nat) (text : String) : Except GrammarError Formula :=
  match Grammar.predicate room (Lexeme.lexemes text) with
  | .ok formula [] => .ok formula
  | .ok _ rest => .error (.incomplete (.ofRemaining text rest.length))
  | .mismatch rest => .error (.mismatch (.ofRemaining text rest.length))
  | .tooDeep rest => .error (.tooDeep (.ofRemaining text rest.length))

/-- Reads a whole text, which may nest `Grammar.maxDepth` levels. -/
def parse (text : String) : Except GrammarError Formula :=
  parseWithin (Grammar.maxDepth + 1) text

end Formula

end PastTime
