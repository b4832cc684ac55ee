import PastTime.Proofs.Names.Issuing
import PastTime.Proofs.Predicate.Parts

/-!
# Obtainable values

`Obtainable` is everything that can be had by building values, taking terms from them, applying
operators and compiling texts, in any order and any number, as long as the names come from sources
of a given kind. Whatever holds of all names that such sources issue holds of all auxiliaries of an
obtainable predicate.
-/

namespace PastTime

/-! ## What an application gives -/

section

variable {σ : Type}

theorem Build.run_normalize_bind_eq_ok {α : Type} {value : Value} {next : Predicate → Build σ α}
    {result : α} {source later : σ}
    (h : (normalize value >>= next).run source = (.ok result, later)) :
    ∃ predicate, value.normalize = .ok predicate ∧
      (next predicate).run source = (.ok result, later) := by
  cases hvalue : value.normalize with
  | error error =>
      rw [normalize, hvalue] at h
      cases h
  | ok predicate => exact ⟨predicate, rfl, run_bind_of_ok (run_normalize hvalue source) next ▸ h⟩

variable [NameSource σ] {values : List Value} {predicate : Predicate} {source later : σ}

/-- An operator that was applied has the values, normalized, as its operands, and only its own
auxiliaries were issued. -/
theorem Predicate.run_apply_eq_ok {operator : Operator}
    (h : (apply operator values).run source = (.ok predicate, later)) :
    predicate.operator = some operator ∧
      values.map Value.normalize = predicate.operands.map .ok ∧
      Issued predicate.ownAuxiliaries source later := by
  unfold apply at h
  split at h
  next value =>
    obtain ⟨operand, hvalue, hrest⟩ := Build.run_normalize_bind_eq_ok h
    cases hrest
    exact ⟨rfl, by simp [hvalue, operands], .nil _⟩
  next c value other =>
    obtain ⟨left, hvalue, hrest⟩ := Build.run_normalize_bind_eq_ok h
    obtain ⟨right, hother, hrest⟩ := Build.run_normalize_bind_eq_ok hrest
    cases hrest
    exact ⟨rfl, by simp [hvalue, hother, operands], .nil _⟩
  next value =>
    obtain ⟨operand, hvalue, hrest⟩ := Build.run_normalize_bind_eq_ok h
    cases hrest
    exact ⟨rfl, by simp [hvalue, operands], .cons rfl (.nil _)⟩
  next value other =>
    obtain ⟨left, hvalue, hrest⟩ := Build.run_normalize_bind_eq_ok h
    obtain ⟨right, hother, hrest⟩ := Build.run_normalize_bind_eq_ok hrest
    cases hrest
    exact ⟨rfl, by simp [hvalue, hother, operands], .cons rfl (.cons rfl (.nil _))⟩
  next => cases h

/-- Every operand is what one of the values was normalized to. -/
theorem Value.exists_of_mem_operands {operands : List Predicate} {operand : Predicate}
    (h : values.map normalize = operands.map .ok) (hoperand : operand ∈ operands) :
    ∃ value ∈ values, value.normalize = .ok operand := by
  have hmem : .ok operand ∈ values.map normalize := h ▸ List.mem_map_of_mem hoperand
  exact List.mem_map.mp hmem

theorem Predicate.run_applySymbol_eq_ok {symbol : String}
    (h : (applySymbol symbol values).run source = (.ok predicate, later)) :
    ∃ operator, (apply operator values).run source = (.ok predicate, later) := by
  unfold applySymbol at h
  split at h
  next operator _ => exact ⟨operator, h⟩
  next => cases h

end

/-! ## Obtainable values -/

/-- The values that can be obtained with usable sources of names. A predicate counts as the value
that it is. -/
inductive Obtainable {σ : Type} [NameSource σ] (Usable : σ → Prop) : Value → Prop where
  | literal (text : String) : Obtainable Usable (.literal text)
  | sequence {values : List Value} (hvalues : ∀ value ∈ values, Obtainable Usable value) :
      Obtainable Usable (.sequence values)
  | grouped {inner : Value} (hinner : Obtainable Usable inner) : Obtainable Usable (.grouped inner)
  | term {text : String} {found : Term} (hterm : Term.ofText text = .ok found) :
      Obtainable Usable (.predicate (.term found))
  | toTerm {value : Value} {found : Term} (hvalue : Obtainable Usable value)
      (hterm : value.toTerm = .ok found) : Obtainable Usable (.predicate (.term found))
  | normalize {value : Value} {predicate : Predicate} (hvalue : Obtainable Usable value)
      (hpredicate : value.normalize = .ok predicate) : Obtainable Usable (.predicate predicate)
  | apply {operator : Operator} {values : List Value} {predicate : Predicate} {source later : σ}
      (hsource : Usable source) (hvalues : ∀ value ∈ values, Obtainable Usable value)
      (hrun : (Predicate.apply operator values).run source = (.ok predicate, later)) :
      Obtainable Usable (.predicate predicate)
  | applySymbol {symbol : String} {values : List Value} {predicate : Predicate} {source later : σ}
      (hsource : Usable source) (hvalues : ∀ value ∈ values, Obtainable Usable value)
      (hrun : (Predicate.applySymbol symbol values).run source = (.ok predicate, later)) :
      Obtainable Usable (.predicate predicate)
  | compiled {text : String} {predicate : Predicate} {source later : σ} (hsource : Usable source)
      (hrun : (parsePredicate text).run source = (.ok predicate, later)) :
      Obtainable Usable (.predicate predicate)

/-! ## Auxiliaries of what is obtained -/

theorem exists_of_map_eq_ok {ε α β : Type} {f : α → β} {result : Except ε α} {value : β}
    (h : result.map f = .ok value) : ∃ found, result = .ok found ∧ value = f found := by
  cases result with
  | error => cases h
  | ok found =>
      cases h
      exact ⟨found, rfl, rfl⟩

namespace Value

theorem auxiliaries_of_toTerm {value : Value} {predicate : Predicate}
    (h : value.toTerm.map Predicate.term = .ok predicate) : predicate.auxiliaries = [] := by
  obtain ⟨found, -, rfl⟩ := exists_of_map_eq_ok h
  rfl

/-- Parentheses around a value add no auxiliaries. -/
theorem auxiliaries_of_normalize_grouped {inner : Value} {predicate : Predicate}
    (h : (grouped inner).normalize = .ok predicate) :
    ∃ found, inner.normalize = .ok found ∧ predicate.auxiliaries = found.auxiliaries := by
  cases inner with
  | predicate =>
      cases h
      exact ⟨predicate, rfl, rfl⟩
  | literal | sequence | grouped =>
      rw [normalize] at h
      · obtain ⟨found, hfound, rfl⟩ := exists_of_map_eq_ok h
        exact ⟨found, hfound, found.auxiliaries_parenthesized⟩
      · simp

end Value

section

variable {σ : Type} [NameSource σ] {P : String → Prop}

/-- The auxiliaries of an operator that was applied are those of the values and those that were
issued. -/
theorem Predicate.forall_auxiliaries_of_run_apply {operator : Operator} {values : List Value}
    {predicate : Predicate} {source later : σ} (hnames : IssuesOnly P source)
    (hrun : (apply operator values).run source = (.ok predicate, later))
    (hvalues : ∀ value ∈ values, ∀ operand, value.normalize = .ok operand →
      ∀ auxiliary ∈ operand.auxiliaries, P auxiliary.name) :
    ∀ auxiliary ∈ predicate.auxiliaries, P auxiliary.name := by
  obtain ⟨-, hoperands, hissued⟩ := run_apply_eq_ok hrun
  rw [auxiliaries_eq, List.forall_mem_append]
  refine ⟨?_, hissued.of_issuesOnly hnames⟩
  intro auxiliary hauxiliary
  obtain ⟨operand, hoperand, hauxiliary⟩ := List.mem_flatMap.mp hauxiliary
  obtain ⟨value, hvalue, hnormal⟩ := Value.exists_of_mem_operands hoperands hoperand
  exact hvalues value hvalue operand hnormal auxiliary hauxiliary

/-- What holds of all names of usable sources holds of the auxiliaries of what is obtained with
them. -/
theorem Obtainable.forall_auxiliaries {Usable : σ → Prop} {value : Value}
    (h : Obtainable Usable value) (hnames : ∀ source, Usable source → IssuesOnly P source)
    (predicate : Predicate) (hpredicate : value.normalize = .ok predicate) :
    ∀ auxiliary ∈ predicate.auxiliaries, P auxiliary.name := by
  -- the invariant is about what a value is normalized to, because that is what an operator that is
  -- applied to the value takes as its operand
  induction h generalizing predicate with
  | literal | sequence =>
      rw [Value.normalize] at hpredicate
      simp [Value.auxiliaries_of_toTerm hpredicate]
  | grouped _ ih =>
      obtain ⟨found, hfound, heq⟩ := Value.auxiliaries_of_normalize_grouped hpredicate
      exact heq ▸ ih found hfound
  | term | toTerm =>
      cases hpredicate
      simp [Predicate.auxiliaries]
  | normalize _ hnormal ih =>
      cases hpredicate
      exact ih _ hnormal
  | apply hsource _ hrun ih =>
      cases hpredicate
      exact Predicate.forall_auxiliaries_of_run_apply (hnames _ hsource) hrun ih
  | applySymbol hsource _ hrun ih =>
      cases hpredicate
      obtain ⟨operator, hrun⟩ := Predicate.run_applySymbol_eq_ok hrun
      exact Predicate.forall_auxiliaries_of_run_apply (hnames _ hsource) hrun ih
  | compiled hsource hrun =>
      cases hpredicate
      obtain ⟨_, _, _, hissued⟩ := issued_of_run_parsePredicate hrun
      exact hissued.of_issuesOnly ((hnames _ hsource).reserveAll _)

end

end PastTime
