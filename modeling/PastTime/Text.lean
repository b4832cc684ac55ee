import PastTime.NameSet

/-!
# Blanks, words and identifiers

`Char.isWhitespace` is the class that separates lexemes: space, tab, carriage return and line
feed. `isBlank` is the wider class of Unicode white space, which is removed from the text of a
term.

A word is a maximal run of letters, digits, underscores and dots. An identifier is a word with at
least one letter that is no boolean literal. The identifiers of a text are its variables: member
accesses such as `msg.sender` count as one name, and so does a number with a letter in it, such as
`1e18`.
-/

namespace PastTime.Text

/-! ## Blanks -/

/-- The code point ranges of the Unicode property `White_Space`, ends included. -/
def blankRanges : List (Nat × Nat) :=
  [(0x09, 0x0D), (0x20, 0x20), (0x85, 0x85), (0xA0, 0xA0), (0x1680, 0x1680), (0x2000, 0x200A),
    (0x2028, 0x2029), (0x202F, 0x202F), (0x205F, 0x205F), (0x3000, 0x3000)]

/-- Whether a character is Unicode white space. -/
def isBlank (c : Char) : Bool :=
  blankRanges.any fun range => range.1 ≤ c.toNat && c.toNat ≤ range.2

/-- The text without its blank characters. -/
def squeeze (text : String) : String :=
  String.ofList (text.toList.filter fun c => !isBlank c)

@[simp] theorem toList_squeeze (text : String) :
    (squeeze text).toList = text.toList.filter fun c => !isBlank c :=
  String.toList_ofList

/-! ## Words -/

/-- Whether a character can stand in a word. -/
def isWordChar (c : Char) : Bool := c.isAlphanum || c == '_' || c == '.'

theorem isAlpha_iff {c : Char} :
    c.isAlpha = true ↔ 'A' ≤ c ∧ c ≤ 'Z' ∨ 'a' ≤ c ∧ c ≤ 'z' := by
  have hupper : c.isUpper = true ↔ 'A' ≤ c ∧ c ≤ 'Z' := decide_eq_true_iff
  have hlower : c.isLower = true ↔ 'a' ≤ c ∧ c ≤ 'z' :=
    Bool.and_eq_true_iff.trans (and_congr decide_eq_true_iff decide_eq_true_iff)
  change (c.isUpper || c.isLower) = true ↔ _
  rw [Bool.or_eq_true, hupper, hlower]

/-- The maximal runs of characters that satisfy `p`, from left to right. -/
def runs (p : Char → Bool) : List Char → List (List Char)
  | [] => []
  | c :: rest =>
    if p c then (c :: rest.takeWhile p) :: runs p (rest.dropWhile p) else runs p rest
termination_by text => text.length
decreasing_by
  · exact Nat.lt_succ_of_le (List.dropWhile_sublist p).length_le
  · exact Nat.lt_succ_self _

/-- The boolean literal that always holds. -/
def trueLiteral : String := "true"

/-- The boolean literal that never holds. -/
def falseLiteral : String := "false"

/-- Whether a text is a boolean literal. -/
def isBooleanLiteral (text : String) : Bool := text == trueLiteral || text == falseLiteral

/-- The words of a text, from left to right. -/
def words (text : String) : List String := (runs isWordChar text.toList).map String.ofList

/-- Whether a word names a variable: it has a letter and is no boolean literal. -/
def isIdentifier (word : String) : Bool := word.toList.any Char.isAlpha && !isBooleanLiteral word

/-- The identifiers of a text, from left to right and with repetitions. -/
def identifiers (text : String) : List String := (words text).filter isIdentifier

/-- The variables that a text refers to. -/
def freeVariables (text : String) : NameSet := NameSet.ofList (identifiers text)

@[simp] theorem mem_freeVariables {name text : String} :
    name ∈ freeVariables text ↔ name ∈ identifiers text :=
  NameSet.mem_ofList

end PastTime.Text
