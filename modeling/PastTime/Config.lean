import PastTime.Names

/-!
# Configurations

A configuration lists the predicates to compile and says how random names look:

    predicates = ["once(paused)", "x > 0"]

    [naming]
    prefix = "PTLC"
    suffix_length = 8

Values are strings, numbers and lists of strings. Comments start with `#`. Other keys and tables
are ignored, and the keys of the table `naming` may be left out.
-/

namespace PastTime

/-- What a configuration says. -/
structure Config where
  predicates : List String
  naming : Naming := {}
  deriving DecidableEq, Repr

/-- Why a text is no configuration. -/
inductive ConfigError where
  /-- The text is no sequence of keys, values and tables. -/
  | malformed
  /-- A known key has a value of another type. -/
  | unexpectedValue (key : String)
  /-- The list of predicates is missing. -/
  | noPredicates
  deriving DecidableEq, Repr

/-- The text of the error. -/
def ConfigError.message : ConfigError → String
  | malformed => "The configuration is malformed"
  | unexpectedValue key => s!"The value of \"{key}\" has an unexpected type"
  | noPredicates => "The list \"predicates\" is missing"

namespace Config

/-- The units of a configuration text. -/
inductive Item where
  | quoted (text : String)
  | bare (text : String)
  | mark (character : Char)
  | lineEnd
  deriving DecidableEq, Repr

/-- The character that an escape in a quoted text stands for. -/
def escapes : List (Char × Char) :=
  [('"', '"'), ('\\', '\\'), ('n', '\n'), ('t', '\t'), ('r', '\r'), ('b', '\x08'), ('f', '\x0c')]

/-- The characters up to the closing quote, and the text behind it. -/
def quotedText : List Char → Option (List Char × List Char)
  | '"' :: rest => some ([], rest)
  | '\\' :: c :: rest => do
    let meaning ← escapes.lookup c
    let (text, rest) ← quotedText rest
    return (meaning :: text, rest)
  | '\n' :: _ => none
  | c :: rest => do
    let (text, rest) ← quotedText rest
    return (c :: text, rest)
  | [] => none

/-- Whether a character can stand in a key or a number. -/
def isBare (c : Char) : Bool := c.isAlphanum || c == '_' || c == '-'

/-- The units of a text. -/
def items (input : List Char) : Option (List Item) :=
  match input with
  | [] => some []
  | '\n' :: rest => do return .lineEnd :: (← items rest)
  | '#' :: rest => items (rest.dropWhile (· != '\n'))
  | '"' :: rest => do
    let (text, behind) ← quotedText rest
    if behind.length ≤ rest.length then
      return .quoted (String.ofList text) :: (← items behind)
    else none
  | c :: rest =>
    if c.isWhitespace then items rest
    else if isBare c then do
      let word := String.ofList (c :: rest.takeWhile isBare)
      return .bare word :: (← items (rest.dropWhile isBare))
    else do return .mark c :: (← items rest)
termination_by input.length
decreasing_by
  · exact Nat.lt_succ_self _
  · exact Nat.lt_succ_of_le (List.dropWhile_sublist _).length_le
  · exact Nat.lt_succ_of_le (by assumption)
  · exact Nat.lt_succ_self _
  · exact Nat.lt_succ_of_le (List.dropWhile_sublist _).length_le
  · exact Nat.lt_succ_self _

/-- A value of a key. -/
inductive Setting where
  | text (text : String)
  | number (number : Nat)
  | texts (texts : List String)
  deriving DecidableEq, Repr

/-- The quoted texts up to the closing bracket, and the units behind it. `separated` tells whether
a quoted text may stand next. -/
def texts : (separated : Bool) → List Item → Option (List String × List Item)
  | separated, .lineEnd :: rest => texts separated rest
  | _, .mark ']' :: rest => some ([], rest)
  | false, .mark ',' :: rest => texts true rest
  | true, .quoted text :: rest => do
    let (others, rest) ← texts false rest
    return (text :: others, rest)
  | _, _ => none

/-- Reads a value, and returns the units behind it. -/
def setting : List Item → Option (Setting × List Item)
  | .quoted text :: rest => some (.text text, rest)
  | .bare word :: rest => do return (.number (← word.toNat?), rest)
  | .mark '[' :: rest => do
    let (values, rest) ← texts true rest
    return (.texts values, rest)
  | _ => none

/-- Reads keys and values, each with the table that it stands in. -/
def settings (table : String) (input : List Item) : Option (List (String × String × Setting)) :=
  match input with
  | [] => some []
  | .lineEnd :: rest => settings table rest
  | .mark '[' :: .bare table :: .mark ']' :: rest => settings table rest
  | .bare key :: .mark '=' :: rest => do
    let (value, behind) ← setting rest
    if behind.length ≤ rest.length then
      return (table, key, value) :: (← settings table behind)
    else none
  | _ => none
termination_by input.length

/-- Takes over one value. -/
def add (table key : String) (value : Setting) (predicates : Option (List String))
    (naming : Naming) : Except ConfigError (Option (List String) × Naming) :=
  match table, key, value with
  | "", "predicates", .texts texts => .ok (some texts, naming)
  | "naming", "prefix", .text stem => .ok (predicates, { naming with stem })
  | "naming", "suffix_length", .number suffixLength =>
    .ok (predicates, { naming with suffixLength })
  | "", "predicates", _ | "naming", "prefix", _ | "naming", "suffix_length", _ =>
    .error (.unexpectedValue key)
  | _, _, _ => .ok (predicates, naming)

/-- Reads a configuration. -/
def read (text : String) : Except ConfigError Config := do
  match items text.toList >>= settings "" with
  | none => throw .malformed
  | some settings =>
    let (predicates, naming) ← settings.foldlM
      (fun (predicates, naming) (table, key, value) => add table key value predicates naming)
      (none, {})
    match predicates with
    | none => throw .noPredicates
    | some predicates => return { predicates, naming }

end Config

end PastTime
