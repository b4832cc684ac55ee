import Mathlib.Logic.Relation
import PastTime.Proofs.Formula.Lowering

/-!
# Builds only draw names

Whatever is built, and whether or not it fails: all that happens to the source is that names are
issued from it, one after the other.
-/

namespace PastTime

variable {σ : Type} [NameSource σ]

/-- The later source is left when names are issued from the first one. -/
def Draws : σ → σ → Prop :=
  Relation.ReflTransGen fun source later => ∃ tag, later = (NameSource.fresh tag source).2

/-- All that a computation does to its source is to draw names from it. -/
def OnlyDraws {ε α : Type} (action : ExceptT ε (StateM σ) α) : Prop :=
  ∀ source, Draws source (action.run source).2

namespace OnlyDraws

section

variable {ε α β : Type} {action : ExceptT ε (StateM σ) α}

theorem pure (value : α) : OnlyDraws (Pure.pure value : ExceptT ε (StateM σ) α) :=
  fun _ => .refl

theorem throw (error : ε) : OnlyDraws (MonadExcept.throw error : ExceptT ε (StateM σ) α) :=
  fun _ => .refl

theorem ofExcept (result : Except ε α) :
    OnlyDraws (MonadExcept.ofExcept result : ExceptT ε (StateM σ) α) := by
  cases result with
  | error error => exact .throw error
  | ok value => exact .pure value

theorem bind (h : OnlyDraws action) {next : α → ExceptT ε (StateM σ) β}
    (hnext : ∀ value, OnlyDraws (next value)) : OnlyDraws (action >>= next) := by
  intro source
  have hsource := h source
  rcases hrun : action.run source with ⟨error | value, later⟩ <;> rw [hrun] at hsource
  · rw [run_bind_of_error hrun]
    exact hsource
  · rw [run_bind_of_ok hrun]
    exact hsource.trans (hnext value later)

end

theorem fresh (kind : AuxiliaryKind) : OnlyDraws (Build.fresh kind : Build σ String) :=
  fun _ => .single ⟨kind.tag, rfl⟩

theorem normalize (value : Value) : OnlyDraws (Build.normalize value : Build σ Predicate) :=
  .ofExcept _

theorem apply (operator : Operator) (values : List Value) :
    OnlyDraws (Predicate.apply operator values : Build σ Predicate) := by
  unfold Predicate.apply
  split
  · exact (normalize _).bind fun _ => .pure _
  · exact (normalize _).bind fun _ => (normalize _).bind fun _ => .pure _
  · exact (normalize _).bind fun _ => (fresh _).bind fun _ => .pure _
  · exact (normalize _).bind fun _ => (normalize _).bind fun _ => (fresh _).bind fun _ =>
      (fresh _).bind fun _ => .pure _
  · exact .throw _

theorem unary (op : UnaryOp) (operand : Value) :
    OnlyDraws (op.apply operand : Build σ Predicate) := by
  cases op with
  | not | previously | once => exact apply _ _
  | always => exact (apply _ _).bind fun _ => (apply _ _).bind fun _ => apply _ _

theorem binary (op : BinaryOp) (left right : Value) :
    OnlyDraws (op.apply left right : Build σ Predicate) := by
  cases op with
  | connective | since => exact apply _ _
  | implies => exact (apply _ _).bind fun _ => apply _ _

theorem lower (formula : Formula) : OnlyDraws (formula.lower : Build σ Value) := by
  induction formula with
  | terminal tokens => exact .pure _
  | grouped inner ih => exact ih.bind fun _ => .pure _
  | unary op operand ih => exact ih.bind fun _ => (unary op _).bind fun _ => .pure _
  | binary op left right ihleft ihright =>
      exact ihleft.bind fun _ => ihright.bind fun _ => (binary op _ _).bind fun _ => .pure _

theorem applySymbol (symbol : String) (values : List Value) :
    OnlyDraws (Predicate.applySymbol symbol values : Build σ Predicate) := by
  unfold Predicate.applySymbol
  split
  · exact apply _ _
  · exact .throw _

mutual

theorem build : (sketch : Sketch) → OnlyDraws (sketch.build : Build σ Value)
  | .literal text => by
      rw [Sketch.build]
      exact .pure _
  | .sequence parts => by
      rw [Sketch.build]
      exact (buildAll parts).bind fun _ => .pure _
  | .grouped inner => by
      rw [Sketch.build]
      exact (build inner).bind fun _ => .pure _
  | .term text => by
      rw [Sketch.build]
      exact (OnlyDraws.ofExcept _).bind fun _ => .pure _
  | .applySymbol symbol parts => by
      rw [Sketch.build]
      exact (buildAll parts).bind fun _ => (applySymbol symbol _).bind fun _ => .pure _
  | .apply operator parts => by
      rw [Sketch.build]
      exact (buildAll parts).bind fun _ => (apply operator _).bind fun _ => .pure _

theorem buildAll : (parts : List Sketch) → OnlyDraws (Sketch.buildAll parts : Build σ (List Value))
  | [] => by
      rw [Sketch.buildAll]
      exact .pure _
  | sketch :: rest => by
      rw [Sketch.buildAll]
      exact (build sketch).bind fun _ => (buildAll rest).bind fun _ => .pure _

end

/-- Serving a build does the same to the source. -/
theorem serve {α : Type} {action : Build σ α} (h : OnlyDraws action) :
    OnlyDraws (Serve.build action) :=
  fun source => h source

end OnlyDraws

end PastTime
