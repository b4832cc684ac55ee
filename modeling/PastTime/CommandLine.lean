import PastTime.Compilation
import PastTime.Config
import PastTime.Names

/-!
# The command line

The program compiles the predicates of a configuration and prints a report on each. Names are
numbered with `--sequential`, determined by a seed with `--seed`, and else random.
-/

namespace PastTime.CommandLine

/-- How the names of auxiliaries are chosen. -/
inductive Choice where
  | sequential
  | seeded (seed : UInt64)
  | unseeded
  deriving DecidableEq, Repr

/-- The arguments as far as they are read. -/
structure Options where
  paths : List String := []
  seed : Option UInt64 := none
  sequential : Bool := false
  deriving DecidableEq, Repr

/-- Reads a seed: decimal digits, possibly after a plus sign, below `2 ^ 64`. -/
def readSeed? (text : String) : Option UInt64 :=
  let digits : List Char := match text.toList with
    | '+' :: rest => rest
    | characters => characters
  let number : Nat := digits.foldl (fun number digit => 10 * number + (digit.toNat - '0'.toNat)) 0
  if digits ≠ [] ∧ digits.all Char.isDigit ∧ number < UInt64.size then some number.toUInt64
  else none

namespace Options

/-- Adds a seed. An option can be given only once. -/
def addSeed? (options : Options) (text : String) : Option Options := do
  let seed ← readSeed? text
  if options.seed.isSome then none else some { options with seed }

/-- Adds the wish for numbered names. -/
def addSequential? (options : Options) : Option Options :=
  if options.sequential then none else some { options with sequential := true }

/-- Adds the path of a configuration. -/
def addPath (options : Options) (path : String) : Options :=
  { options with paths := options.paths ++ [path] }

/-- Reads arguments from left to right. A seed is the next argument, or stands in the same one
behind an equals sign; behind the short option it can also follow directly. After `--` there are
only paths. -/
def read? : (arguments : List String) → Options → Option Options
  | [], options => some options
  | argument :: rest, options =>
    match argument.toList with
    | ['-', '-'] => some (rest.foldl addPath options)
    | '-' :: '-' :: long =>
      if long = "sequential".toList then options.addSequential?.bind (read? rest)
      else if long = "seed".toList then
        match rest with
        | [] => none
        | value :: rest => (options.addSeed? value).bind (read? rest)
      else if "seed=".toList.isPrefixOf long then
        (options.addSeed? (String.ofList (long.drop 5))).bind (read? rest)
      else none
    | ['-', 's'] =>
      match rest with
      | [] => none
      | value :: rest => (options.addSeed? value).bind (read? rest)
    | '-' :: 's' :: '=' :: value => (options.addSeed? (String.ofList value)).bind (read? rest)
    | '-' :: 's' :: value => (options.addSeed? (String.ofList value)).bind (read? rest)
    | '-' :: _ :: _ => none
    | _ => read? rest (options.addPath argument)

/-- How names are chosen. A seed and numbered names exclude each other. -/
def choice? (options : Options) : Option Choice :=
  match options.sequential, options.seed with
  | true, none => some .sequential
  | true, some _ => none
  | false, some seed => some (.seeded seed)
  | false, none => some .unseeded

end Options

/-- The path of the configuration and the choice of names that the arguments give, if they are
well formed. -/
def readArguments? (arguments : List String) : Option (String × Choice) := do
  let options ← Options.read? arguments {}
  let choice ← options.choice?
  match options.paths with
  | [path] => some (path, choice)
  | _ => none

/-- The source of names of a choice. The seed is only looked at when none was chosen. -/
def Choice.names (naming : Naming) (seed : UInt64) : Choice → Names
  | sequential => .sequential (.new naming.stem)
  | seeded seed => .random (.seeded naming seed)
  | unseeded => .random (.seeded naming seed)

/-- The report on one predicate. -/
def report (compilation : Compilation) : String :=
  let listed := ", ".intercalate compilation.freeVariables.toList
  let auxiliaries := compilation.auxiliaries.map fun auxiliary =>
    s!"  auxiliary:  {auxiliary.name} ({auxiliary.kind.label})\n"
  s!"{compilation.source}\n  expression: {compilation.expression}\n  variables:  {listed}\n" ++
    String.join auxiliaries

/-- How an error is printed: what failed, and below it why. Further lines of the reason are indented
like the first. -/
def errorReport (what why : String) : String :=
  let indented := String.join <| why.toList.map fun c =>
    if c = '\n' then "\n    " else String.ofList [c]
  s!"Error: {what}\n\nCaused by:\n    {indented}\n"

/-- What a run prints, and whether it failed. -/
inductive Outcome where
  /-- The arguments are not well formed. -/
  | usage
  /-- The run failed with the given report. -/
  | failed (report : String)
  /-- The run went well and printed the given text. -/
  | printed (text : String)
  deriving DecidableEq, Repr

/-- The status that the program ends with. -/
def Outcome.exitCode : Outcome → UInt32
  | printed _ => 0
  | failed _ => 1
  | usage => 2

/-- Compiles the predicates of a configuration. Nothing is printed unless all of them compile. -/
def run (config : Config) (choice : Choice) (seed : UInt64) : Outcome :=
  match (compileAll config.predicates).run (choice.names config.naming seed) with
  | (.ok compilations, _) => .printed (String.join (compilations.map report))
  | (.error error, _) => .failed (errorReport "Failed compiling the predicates" error.message)

end PastTime.CommandLine
