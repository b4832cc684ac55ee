import PastTime.Proofs.Formula.Auxiliaries
import PastTime.Proofs.Predicate.Obtainable
import PastTime.Proofs.Predicate.Records

/-!
# What becomes of an application

An operator that is applied to values checks their number first, then normalizes them from left to
right, and only then has its names issued. `Applied` lists the outcomes: every application has one
of them, and every outcome of the list is that of its application.
-/

namespace PastTime

/-- The kinds of the auxiliaries of an operator, in the order in which they are issued. -/
def Operator.auxiliaryKinds : Operator → List AuxiliaryKind
  | not | connective _ => []
  | previously => [.previously]
  | since => [.sinceHold, .sinceTrail]

namespace Predicate

theorem kinds_ownAuxiliaries {predicate : Predicate} {operator : Operator}
    (h : predicate.operator = some operator) :
    predicate.ownAuxiliaries.map (·.kind) = operator.auxiliaryKinds := by
  cases predicate with
  | term => cases h
  | not | connective | previously | since => cases h; rfl

theorem length_operands {predicate : Predicate} {operator : Operator}
    (h : predicate.operator = some operator) : predicate.operands.length = operator.arity := by
  cases predicate with
  | term => cases h
  | not | connective | previously | since => cases h; rfl

/-- Two predicates with the same operator, the same operands and the same auxiliaries are equal. -/
theorem eq_of_operator_eq {left right : Predicate} {operator : Operator}
    (hleft : left.operator = some operator) (hright : right.operator = some operator)
    (hoperands : left.operands = right.operands)
    (hauxiliaries : left.ownAuxiliaries = right.ownAuxiliaries) : left = right := by
  cases left with
  | term => cases hleft
  | not | connective | previously | since =>
      cases hleft
      cases right <;> simp_all [Predicate.operator, operands, ownAuxiliaries]

end Predicate

/-! ## The first value that fails -/

/-- Either all values can be normalized, or there is a first one that cannot. -/
theorem Value.normalize_all_or_first_error (values : List Value) :
    (∃ operands : List Predicate, values.map normalize = operands.map .ok) ∨
      ∃ before value after operands error, values = before ++ value :: after ∧
        before.map normalize = List.map .ok operands ∧ value.normalize = .error error := by
  induction values with
  | nil => exact .inl ⟨[], rfl⟩
  | cons value rest ih =>
      cases hvalue : value.normalize with
      | error error => exact .inr ⟨[], value, rest, [], error, rfl, rfl, hvalue⟩
      | ok operand =>
          rcases ih with
            ⟨operands, hrest⟩ | ⟨before, first, after, operands, error, rfl, hbefore, hfirst⟩
          · exact .inl ⟨operand :: operands, by simp [hvalue, hrest]⟩
          · exact .inr ⟨value :: before, first, after, operand :: operands, error, rfl,
              by simp [hvalue, hbefore], hfirst⟩

theorem Value.length_eq_of_map_normalize {values : List Value} {operands : List Predicate}
    (h : values.map normalize = operands.map .ok) : values.length = operands.length := by
  simpa using congrArg List.length h

theorem Value.exists_of_mem_values {values : List Value} {operands : List Predicate} {value : Value}
    (h : values.map normalize = operands.map .ok) (hvalue : value ∈ values) :
    ∃ operand, value.normalize = .ok operand := by
  have hmem : value.normalize ∈ operands.map .ok := h ▸ List.mem_map_of_mem hvalue
  obtain ⟨operand, -, hoperand⟩ := List.mem_map.mp hmem
  exact ⟨operand, hoperand.symm⟩

theorem Build.run_normalize_of_error {σ : Type} {value : Value} {error : TermError}
    (h : value.normalize = .error error) (source : σ) :
    (normalize value).run source = (.error (.invalidTerm error), source) := by
  rw [normalize, h]
  rfl

variable {σ : Type} [NameSource σ]

/-! ## Outcomes -/

namespace Predicate

/-- What an operator that is applied to values comes to, and the source of names behind it. -/
inductive Applied (operator : Operator) (values : List Value) (source : σ) :
    Except BuildError Predicate → σ → Prop where
  /-- The number of values is wrong, whatever the values are. -/
  | arity (hlength : values.length ≠ operator.arity) :
      Applied operator values source (.error (.arity operator values.length)) source
  /-- The number is right, and the first value that stands for no predicate is reported. -/
  | invalid {before after : List Value} {value : Value} {operands : List Predicate}
      {error : TermError} (hlength : values.length = operator.arity)
      (hvalues : values = before ++ value :: after)
      (hbefore : before.map Value.normalize = operands.map .ok)
      (hvalue : value.normalize = .error error) :
      Applied operator values source (.error (.invalidTerm error)) source
  /-- All is right, and the names of the operator are issued. -/
  | built {predicate : Predicate} {later : σ} (hlength : values.length = operator.arity)
      (hoperator : predicate.operator = some operator)
      (hoperands : values.map Value.normalize = predicate.operands.map .ok)
      (hkinds : predicate.ownAuxiliaries.map (·.kind) = operator.auxiliaryKinds)
      (hissued : Issued predicate.ownAuxiliaries source later) :
      Applied operator values source (.ok predicate) later

variable {operator : Operator} {values : List Value}

theorem run_apply_of_first_error {before after : List Value} {value : Value}
    {operands : List Predicate} {error : TermError}
    (hlength : (before ++ value :: after).length = operator.arity)
    (hbefore : before.map Value.normalize = operands.map .ok)
    (hvalue : value.normalize = .error error) (source : σ) :
    (apply operator (before ++ value :: after)).run source =
      (.error (.invalidTerm error), source) := by
  have hfirst := Build.run_normalize_of_error hvalue source
  -- at most two values, so at most one stands before the first that fails
  match before, after with
  | [], [] =>
      cases operator with
      | not | previously => exact run_bind_of_error hfirst _
      | connective | since => cases hlength
  | [], [other] =>
      cases operator with
      | not | previously => cases hlength
      | connective | since => exact run_bind_of_error hfirst _
  | [other], [] =>
      obtain ⟨operand, hoperand⟩ := Value.exists_of_mem_values hbefore List.mem_cons_self
      cases operator with
      | not | previously => cases hlength
      | connective | since =>
          exact (run_bind_of_ok (Build.run_normalize hoperand source) _).trans
            (run_bind_of_error hfirst _)
  | _ :: _ :: _, _ | [_], _ :: _ | [], _ :: _ :: _ =>
      cases operator <;> simp [Operator.arity] at hlength

theorem run_apply_of_operands {operands : List Predicate}
    (hlength : values.length = operator.arity)
    (hoperands : values.map Value.normalize = operands.map .ok) (source : σ) :
    ∃ predicate later, (apply operator values).run source = (.ok predicate, later) := by
  have hcount : operands.length = operator.arity :=
    (Value.length_eq_of_map_normalize hoperands).symm.trans hlength
  cases operator with
  | not | previously =>
      obtain ⟨value, rfl⟩ := List.length_eq_one_iff.mp hlength
      obtain ⟨operand, rfl⟩ := List.length_eq_one_iff.mp hcount
      have hvalue : value.normalize = .ok operand := (List.cons.inj hoperands).1
      exact ⟨_, _, run_bind_of_ok (Build.run_normalize hvalue source) _⟩
  | connective | since =>
      obtain ⟨value, other, rfl⟩ := List.length_eq_two.mp hlength
      obtain ⟨left, right, rfl⟩ := List.length_eq_two.mp hcount
      obtain ⟨hvalue, hrest⟩ := List.cons.inj hoperands
      have hother : other.normalize = .ok right := (List.cons.inj hrest).1
      exact ⟨_, _, (run_bind_of_ok (Build.run_normalize hvalue source) _).trans
        (run_bind_of_ok (Build.run_normalize hother source) _)⟩

/-- The operator, its operands and what is issued for it make up the whole predicate. -/
theorem run_apply_of_built {predicate : Predicate} {source later : σ}
    (hlength : values.length = operator.arity) (hoperator : predicate.operator = some operator)
    (hoperands : values.map Value.normalize = predicate.operands.map .ok)
    (hissued : Issued predicate.ownAuxiliaries source later) :
    (apply operator values).run source = (.ok predicate, later) := by
  -- the application succeeds, and what it gives cannot differ from the predicate in any part
  obtain ⟨found, last, hrun⟩ := run_apply_of_operands hlength hoperands source
  obtain ⟨hfound, hfoundOperands, hfoundIssued⟩ := run_apply_eq_ok hrun
  obtain ⟨hauxiliaries, rfl⟩ := hfoundIssued.unique hissued
    ((kinds_ownAuxiliaries hfound).trans (kinds_ownAuxiliaries hoperator).symm)
  have hinjective : Function.Injective (Except.ok : Predicate → Except TermError Predicate) :=
    fun _ _ h => Except.ok.inj h
  have heq : found.operands = predicate.operands :=
    hinjective.list_map (hfoundOperands.symm.trans hoperands)
  rw [hrun, eq_of_operator_eq hfound hoperator heq hauxiliaries]

/-- Every application has exactly one outcome. -/
theorem run_apply_iff (operator : Operator) (values : List Value) (source later : σ)
    (result : Except BuildError Predicate) :
    (apply operator values).run source = (result, later) ↔
      Applied operator values source result later := by
  constructor
  · intro h
    by_cases hlength : values.length = operator.arity
    · rcases Value.normalize_all_or_first_error values with
        ⟨operands, hoperands⟩ | ⟨before, value, after, operands, error, rfl, hbefore, hvalue⟩
      · obtain ⟨predicate, last, hrun⟩ := run_apply_of_operands hlength hoperands source
        rw [hrun] at h
        cases h
        obtain ⟨hoperator, hnormal, hissued⟩ := run_apply_eq_ok hrun
        exact .built hlength hoperator hnormal (kinds_ownAuxiliaries hoperator) hissued
      · rw [run_apply_of_first_error hlength hbefore hvalue] at h
        cases h
        exact .invalid hlength rfl hbefore hvalue
    · rw [apply_of_length_ne hlength] at h
      cases h
      exact .arity hlength
  · intro h
    cases h with
    | arity hlength => rw [apply_of_length_ne hlength]; rfl
    | invalid hlength hvalues hbefore hvalue =>
        subst hvalues
        exact run_apply_of_first_error hlength hbefore hvalue source
    | built hlength hoperator hoperands _ hissued =>
        exact run_apply_of_built hlength hoperator hoperands hissued

/-- An application succeeds if and only if the number of the values is right and each of them can be
normalized. -/
theorem run_apply_ok_iff (operator : Operator) (values : List Value) (source : σ) :
    (∃ predicate later, (apply operator values).run source = (.ok predicate, later)) ↔
      values.length = operator.arity ∧
        ∀ value ∈ values, ∃ operand, value.normalize = .ok operand := by
  constructor
  · rintro ⟨predicate, later, hrun⟩
    obtain ⟨hoperator, hoperands, -⟩ := run_apply_eq_ok hrun
    exact ⟨(Value.length_eq_of_map_normalize hoperands).trans (length_operands hoperator),
      fun value hvalue => Value.exists_of_mem_values hoperands hvalue⟩
  · rintro ⟨hlength, hvalues⟩
    rcases Value.normalize_all_or_first_error values with
      ⟨operands, hoperands⟩ | ⟨before, value, after, operands, error, rfl, -, hvalue⟩
    · exact run_apply_of_operands hlength hoperands source
    · obtain ⟨operand, hoperand⟩ := hvalues value (by simp)
      rw [hvalue] at hoperand
      cases hoperand

/-- An application fails cleanly. A wrong number of values is reported first, then the first value
that cannot be normalized; with neither, it succeeds. A failure leaves the source of names as it is,
and a success issues the names of the operator. The checks of the number of operands behind the
first one never fail, whatever they would report. An operator that is given by its symbol is
applied in the same way, and any other text is refused. -/
theorem apply_fails_cleanly (operator : Operator) (values : List Value) (source : σ) :
    (∀ result later, (apply operator values).run source = (result, later) ↔
      Applied operator values source result later) ∧
    ((∃ predicate later, (apply operator values).run source = (.ok predicate, later)) ↔
      values.length = operator.arity ∧
        ∀ value ∈ values, ∃ operand, value.normalize = .ok operand) ∧
    (∀ late, Record.apply late operator (values.map Value.draft) =
      Predicate.record <$> (apply operator values : Build σ Predicate)) ∧
    (applySymbol operator.symbol values : Build σ Predicate) = apply operator values ∧
    ∀ symbol, symbol ∈ Operator.all.map Operator.symbol ∨
      (applySymbol symbol values).run source = (.error (.unknownOperator symbol), source) := by
  refine ⟨fun result later => run_apply_iff operator values source later result,
    run_apply_ok_iff operator values source,
    fun late => Record.apply_map_draft late operator values, ?_, fun symbol => ?_⟩
  · rw [applySymbol, Operator.ofSymbol?_symbol]
  · cases hsymbol : Operator.ofSymbol? symbol with
    | some found =>
        left
        have heq : found.symbol = symbol := by simpa using List.find?_some hsymbol
        exact heq ▸ List.mem_map_of_mem found.mem_all
    | none =>
        right
        rw [applySymbol, hsymbol]
        rfl

example (source : σ) :
    (apply .not [.literal "", .literal "p"]).run source = (.error (.arity .not 2), source) := rfl

end Predicate

end PastTime
