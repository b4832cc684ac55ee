import PastTime.Journal

/-!
# Sessions

A session serves requests one after the other from one source of names. A request that fails does
not end the session.
-/

namespace PastTime

/-- What can be asked of a session. -/
inductive Request where
  /-- Compile a text. -/
  | compile (text : String)
  /-- Compile texts, up to the first that fails. -/
  | compileAll (texts : List String)
  /-- Build the predicate of a text. -/
  | predicate (text : String)
  /-- Lower the formula of a text, without reserving its identifiers. -/
  | lowerText (text : String)
  /-- Lower a formula. -/
  | lower (formula : Formula)
  /-- Build a value and normalize it. -/
  | normalize (sketch : Sketch)
  /-- Build a value and flatten it to a term. -/
  | term (sketch : Sketch)
  /-- Issue a name. -/
  | fresh (tag : String)
  /-- Issue names. -/
  | freshMany (tag : String) (count : Nat)
  /-- Reserve a name. -/
  | reserve (name : String)

/-- What a request is answered with. -/
inductive Answer where
  | compilation (compilation : Compilation)
  | compilations (compilations : List Compilation)
  | predicate (predicate : Predicate)
  | value (value : Value)
  | term (term : Term)
  | name (name : String)
  | names (names : List String)
  | reserved (name : String)

namespace Session

variable {σ : Type}

/-- Issues names with the same tag. -/
def freshMany [NameSource σ] (tag : String) : (count : Nat) → σ → List String × σ
  | 0, names => ([], names)
  | count + 1, names =>
    let (name, names) := NameSource.fresh tag names
    let (rest, names) := freshMany tag count names
    (name :: rest, names)

variable [ReportingSource σ]

/-- Serves one request. -/
def serve : Request → Serve (Journal σ) Answer
  | .compile text => return .compilation (← Journal.compile text)
  | .compileAll texts => return .compilations (← Journal.compileAll texts)
  | .predicate text => return .predicate (← Journal.parsePredicate text)
  | .lowerText text => return .value (← Journal.lower text)
  | .lower formula => return .value (← Serve.build formula.lower)
  | .normalize sketch => Serve.build do
    let value ← sketch.build
    return .predicate (← Build.normalize value)
  | .term sketch => Serve.build do
    let value ← sketch.build
    return .term (← ofExcept (value.toTerm.mapError .invalidTerm))
  | .fresh tag => return .name (← modifyGet (NameSource.fresh tag))
  | .freshMany tag count => return .names (← modifyGet (freshMany tag count))
  | .reserve name => do
    modify (NameSource.reserve name)
    return .reserved name

/-- What came of a request: the answer, the events, and the source of names after it. -/
structure Outcome (σ : Type) where
  result : Except CompileError Answer
  entries : List Entry
  names : σ

/-- Serves one request from a source of names. -/
def step (request : Request) (names : σ) : Outcome σ :=
  let (result, journal) := (serve request).run { names }
  ⟨result, journal.entries, journal.names⟩

/-- Serves requests one after the other. -/
def run : (requests : List Request) → σ → List (Outcome σ)
  | [], _ => []
  | request :: rest, names =>
    let outcome := step request names
    outcome :: run rest outcome.names

end Session

end PastTime
