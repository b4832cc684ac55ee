import PastTime.Compilation

/-!
# Journals

A journal is a source of names that writes down what happens while it is used: how names were
issued, and which texts were rejected, parsed and compiled.
-/

namespace PastTime

/-- One event. -/
inductive Entry where
  | naming (note : NameNote)
  | rejected (text : String) (error : GrammarError)
  | parsed (text : String) (predicate : Predicate)
  | compiled (compilation : Compilation)
  deriving Repr

/-- The event on one line, after its severity. -/
def Entry.line : Entry → String
  | naming (.issued name) => "TRACE issued auxiliary name " ++ name
  | naming (.collided name) => s!"WARN auxiliary name {name} is already taken, drawing again"
  | naming (.extended length) => s!"WARN extending auxiliary name suffixes to {length} letters"
  | rejected text error => s!"DEBUG rejected predicate \"{text}\": {error.message}"
  | parsed text predicate => s!"DEBUG parsed \"{text}\" as {predicate.display}"
  | compiled compilation =>
    let count := compilation.auxiliaries.length
    s!"DEBUG compiled \"{compilation.source}\" into \"{compilation.expression}\" with {count} auxiliaries"

/-- A source of names with the events so far. -/
structure Journal (σ : Type) where
  names : σ
  entries : List Entry := []

namespace Journal

variable {σ : Type}

/-- Writes down further events. -/
def record (entries : List Entry) (journal : Journal σ) : Journal σ :=
  { journal with entries := journal.entries ++ entries }

variable [ReportingSource σ]

instance : NameSource (Journal σ) where
  fresh tag journal :=
    let notes := ReportingSource.notes tag journal.names
    let (name, names) := NameSource.fresh tag journal.names
    (name, { journal with names }.record (notes.map .naming))
  reserve name journal := { journal with names := NameSource.reserve name journal.names }

/-- Works on a text, and writes down that it was rejected, or else the events of its result. -/
def recording {α : Type} (text : String) (action : Serve (Journal σ) α)
    (events : α → List Entry) : Serve (Journal σ) α := fun journal =>
  match action.run journal with
  | (.ok value, journal) => (.ok value, journal.record (events value))
  | (.error (.grammar error), journal) =>
    (.error (.grammar error), journal.record [.rejected text error])
  | (.error (.build error), journal) => (.error (.build error), journal)

/-- The predicate of a text. -/
def parsePredicate (text : String) : Serve (Journal σ) Predicate :=
  recording text (PastTime.parsePredicate text) fun predicate => [.parsed text predicate]

/-- Compiles a text. -/
def compile (text : String) : Serve (Journal σ) Compilation :=
  recording text (PastTime.compile text) fun compilation =>
    [.parsed text compilation.predicate, .compiled compilation]

/-- Compiles texts from left to right, up to the first that fails. -/
def compileAll (texts : List String) : Serve (Journal σ) (List Compilation) := texts.mapM compile

/-- The value of the formula of a text, whose identifiers are not reserved. -/
def lower (text : String) : Serve (Journal σ) Value :=
  recording text (do Serve.build (← Serve.parse text).lower) fun _ => []

end Journal

end PastTime
