import PastTime.Text

/-!
# Lexemes

A predicate text is read as a sequence of lexemes. Space, tab, carriage return and line feed
separate lexemes and are dropped. A lexeme is a word, one of ten pairs of characters, or a single
character; the longest one is taken. `scan` keeps with each lexeme the text from its first
character on, so that a place among the lexemes is also a place in the text.
-/

namespace PastTime

/-- The smallest unit of a predicate text. -/
inductive Lexeme where
  | word (text : String)
  | mark (text : String)
  deriving DecidableEq, Repr

namespace Lexeme

/-- The pairs of characters that are one lexeme when they stand together. -/
def pairs : List (Char × Char) :=
  [('<', '<'), ('>', '>'), ('<', '='), ('>', '='), ('*', '*'), ('&', '&'), ('|', '|'), ('=', '='),
    ('!', '='), ('-', '>')]

/-- A lexeme together with the text that starts at its first character. -/
structure Located where
  lexeme : Lexeme
  start : List Char
  deriving DecidableEq, Repr

/-- The lexemes of a text, each with its place. -/
def scan : List Char → List Located
  | [] => []
  | c :: rest =>
    if c.isWhitespace then scan rest
    else if Text.isWordChar c then
      ⟨.word (String.ofList (c :: rest.takeWhile Text.isWordChar)), c :: rest⟩ ::
        scan (rest.dropWhile Text.isWordChar)
    else match rest with
      | [] => [⟨.mark (String.ofList [c]), [c]⟩]
      | d :: rest =>
        if (c, d) ∈ pairs then ⟨.mark (String.ofList [c, d]), c :: d :: rest⟩ :: scan rest
        else ⟨.mark (String.ofList [c]), c :: d :: rest⟩ :: scan (d :: rest)
termination_by text => text.length
decreasing_by
  · exact Nat.lt_succ_self _
  · exact Nat.lt_succ_of_le (List.dropWhile_sublist _).length_le
  · simp only [List.length_cons]; omega
  · simp only [List.length_cons]; omega

/-- The lexemes of a text. -/
def lexemes (text : String) : List Lexeme := (scan text.toList).map (·.lexeme)

/-- The text from the lexeme on after which `remaining` lexemes, itself included, are left. -/
def suffix (text : String) (remaining : Nat) : String :=
  let located := scan text.toList
  match located.drop (located.length - remaining) with
  | [] => ""
  | next :: _ => String.ofList next.start

end Lexeme

end PastTime
