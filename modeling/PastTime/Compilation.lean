import PastTime.Formula.Lower
import PastTime.Formula.Parse

/-!
# Compilation

A predicate text is read, its identifiers are reserved, and its formula is lowered to a predicate.
An auxiliary therefore never has the name of an identifier of this text, or of a text that the same
source of names served before.
-/

namespace PastTime

/-- Why a text was not compiled. -/
inductive CompileError where
  | grammar (error : GrammarError)
  | build (error : BuildError)
  deriving DecidableEq, Repr

/-- The text of the error. -/
def CompileError.message : CompileError → String
  | grammar error => error.message
  | build error => error.message

/-- A computation that serves requests on a source of names. What it does to the source before a
failure stays done. -/
abbrev Serve (σ : Type) := ExceptT CompileError (StateM σ)

namespace Serve

variable {σ : Type}

/-- Reads a text as a formula. -/
def parse (text : String) : Serve σ Formula := ofExcept ((Formula.parse text).mapError .grammar)

/-- Builds a value. -/
def build {α : Type} (action : Build σ α) : Serve σ α := fun names =>
  let (result, names) := action.run names
  (result.mapError .build, names)

end Serve

/-- A text with the predicate that it was compiled to. -/
structure Compilation where
  source : String
  predicate : Predicate
  deriving DecidableEq, Repr

namespace Compilation

/-- The generated boolean expression. -/
def expression (compilation : Compilation) : String := compilation.predicate.expression

/-- The variables of the source, without the auxiliaries. -/
def freeVariables (compilation : Compilation) : NameSet := compilation.predicate.freeVariables

/-- The auxiliaries that the predicate depends on, those of inner operators first. -/
def auxiliaries (compilation : Compilation) : List Auxiliary := compilation.predicate.auxiliaries

/-- The source and the expression on one line. -/
def line (compilation : Compilation) : String :=
  compilation.source ++ " => " ++ compilation.expression

end Compilation

variable {σ : Type} [NameSource σ]

/-- The predicate of a text. -/
def parsePredicate (text : String) : Serve σ Predicate := do
  let formula ← Serve.parse text
  modify (NameSource.reserveAll (Text.identifiers text))
  Serve.build do
    let value ← formula.lower
    Build.normalize value

/-- Compiles a text. -/
def compile (text : String) : Serve σ Compilation := return ⟨text, ← parsePredicate text⟩

/-- Compiles texts from left to right, up to the first that fails. -/
def compileAll (texts : List String) : Serve σ (List Compilation) := texts.mapM compile

end PastTime
