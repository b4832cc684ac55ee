import Mathlib.Logic.Function.Iterate
import PastTime.Proofs.Formula.Variables

/-!
# Values in parentheses

What pairs of parentheses around a value do to the predicate that it stands for. Text in parentheses
becomes a term in as many parentheses, and it makes no difference whether these are written around
the text or added to the term. The first pair around a predicate is dropped; further pairs are
dropped around an operator, and kept around a term.
-/

namespace PastTime

/-! ## Parentheses around terms -/

theorem Text.squeeze_append (text other : String) :
    squeeze (text ++ other) = squeeze text ++ squeeze other := by
  rw [← String.toList_inj]
  simp

theorem Text.squeeze_parenthesized (text : String) :
    squeeze ("(" ++ text ++ ")") = "(" ++ squeeze text ++ ")" := by
  have hopening : squeeze "(" = "(" := by decide
  have hclosing : squeeze ")" = ")" := by decide
  rw [squeeze_append, squeeze_append, hopening, hclosing]

theorem Text.squeeze_eq_empty_iff {text : String} :
    squeeze text = "" ↔ ∀ c ∈ text.toList, isBlank c = true := by
  rw [← String.toList_eq_nil_iff, toList_squeeze, List.filter_eq_nil_iff]
  simp

namespace Term

theorem ofText_eq_ok_iff {text : String} {term : Term} :
    ofText text = .ok term ↔ Text.squeeze text ≠ "" ∧ term = ⟨Text.squeeze text⟩ := by
  unfold ofText
  by_cases hempty : Text.squeeze text = ""
  · simp [hempty]
  · simp [hempty, eq_comm]

theorem ofText_eq_error_iff {text : String} {error : TermError} :
    ofText text = .error error ↔ error = .empty ∧ Text.squeeze text = "" := by
  unfold ofText
  by_cases hempty : Text.squeeze text = ""
  · simp [hempty, eq_comm]
  · simp [hempty]

theorem ofText_parenthesized {text : String} {term : Term} (h : ofText text = .ok term) :
    ofText ("(" ++ text ++ ")") = .ok term.parenthesized := by
  obtain ⟨-, rfl⟩ := ofText_eq_ok_iff.mp h
  rw [ofText_eq_ok_iff, Text.squeeze_parenthesized]
  exact ⟨by simp, rfl⟩

theorem freeVariables_iterate_parenthesized (pairs : Nat) (term : Term) :
    (parenthesized^[pairs] term).freeVariables = term.freeVariables := by
  induction pairs with
  | zero => rfl
  | succ pairs ih =>
      rw [Function.iterate_succ_apply', ← ih]
      exact (Predicate.term _).freeVariables_parenthesized

theorem length_iterate_parenthesized (pairs : Nat) (term : Term) :
    (parenthesized^[pairs] term).expression.length = term.expression.length + 2 * pairs := by
  induction pairs with
  | zero => rfl
  | succ pairs ih =>
      rw [Function.iterate_succ_apply', parenthesized]
      simp only [String.length_append, ih]
      change 1 + _ + 1 = _
      omega

end Term

namespace Predicate

theorem iterate_parenthesized_term (pairs : Nat) (term : Term) :
    parenthesized^[pairs] (.term term) = .term (Term.parenthesized^[pairs] term) := by
  induction pairs with
  | zero => rfl
  | succ pairs ih =>
      rw [Function.iterate_succ_apply', Function.iterate_succ_apply', ih, parenthesized]

theorem iterate_parenthesized_of_not_isTerm {predicate : Predicate}
    (h : predicate.isTerm = false) (pairs : Nat) : parenthesized^[pairs] predicate = predicate := by
  refine Function.iterate_fixed ?_ pairs
  cases predicate with
  | term => cases h
  | not | connective | previously | since => rfl

theorem iterate_parenthesized_eq_self_iff {predicate : Predicate} {pairs : Nat} :
    parenthesized^[pairs] predicate = predicate ↔ predicate.isTerm = false ∨ pairs = 0 := by
  cases hterm : predicate.isTerm with
  | false => simp [iterate_parenthesized_of_not_isTerm hterm]
  | true =>
      cases predicate with
      | not | connective | previously | since => cases hterm
      | term found =>
          simp only [iterate_parenthesized_term, Bool.true_eq_false, false_or]
          constructor
          · intro heq
            have hlength := Term.length_iterate_parenthesized pairs found
            rw [Predicate.term.inj heq] at hlength
            omega
          · rintro rfl
            rfl

theorem freeVariables_iterate_parenthesized (pairs : Nat) (predicate : Predicate) :
    (parenthesized^[pairs] predicate).freeVariables = predicate.freeVariables := by
  induction pairs with
  | zero => rfl
  | succ pairs ih => rw [Function.iterate_succ_apply', freeVariables_parenthesized, ih]

end Predicate

namespace Value

/-! ## Predicates in parentheses -/

/-- Parentheses around anything but a predicate are added to what it stands for. -/
theorem normalize_grouped {inner : Value} (h : ∀ predicate, inner ≠ .predicate predicate) :
    (grouped inner).normalize = inner.normalize.map Predicate.parenthesized := by
  cases inner with
  | predicate predicate => exact absurd rfl (h predicate)
  | literal | sequence | grouped => rw [normalize]; simp

/-- The first pair of parentheses around a predicate is dropped, and the others are added to it. -/
theorem normalize_iterate_grouped_predicate (pairs : Nat) (predicate : Predicate) :
    (grouped^[pairs] (.predicate predicate)).normalize =
      .ok (Predicate.parenthesized^[pairs - 1] predicate) := by
  induction pairs with
  | zero => rfl
  | succ pairs ih =>
      cases pairs with
      | zero => rfl
      | succ pairs =>
          rw [Function.iterate_succ_apply', normalize_grouped, ih]
          · rw [Nat.add_sub_cancel, Nat.add_sub_cancel, Function.iterate_succ_apply']
            rfl
          · rw [Function.iterate_succ_apply']
            simp

/-- A predicate in parentheses stands for itself, in one pair of parentheses less if it is a term.
It is unchanged if and only if it has an operator or there is at most one pair. Its variables are
always the same. -/
theorem normalize_grouped_predicate_iff (pairs : Nat) (predicate : Predicate) :
    (grouped^[pairs] (.predicate predicate)).normalize =
        .ok (Predicate.parenthesized^[pairs - 1] predicate) ∧
      (Predicate.parenthesized^[pairs - 1] predicate).freeVariables = predicate.freeVariables ∧
      ((grouped^[pairs] (.predicate predicate)).normalize = .ok predicate ↔
        predicate.isTerm = false ∨ pairs ≤ 1) := by
  refine ⟨normalize_iterate_grouped_predicate pairs predicate,
    predicate.freeVariables_iterate_parenthesized _, ?_⟩
  rw [normalize_iterate_grouped_predicate, Except.ok.injEq,
    Predicate.iterate_parenthesized_eq_self_iff, Nat.sub_eq_zero_iff_le]

/-- Two pairs of parentheses around a term change it. -/
theorem normalize_grouped_twice_term :
    (grouped (grouped (.predicate (.term ⟨"x"⟩)))).normalize = .ok (.term ⟨"(x)"⟩) ∧
      (grouped (grouped (.predicate (.term ⟨"x"⟩)))).normalize ≠ .ok (.term ⟨"x"⟩) := by
  decide

/-! ## The first predicate that is no term -/

mutual

/-- The predicates in a value that are no terms, from left to right. -/
def composites : Value → List Predicate
  | literal _ => []
  | sequence values => compositesAll values
  | grouped inner => inner.composites
  | predicate found => if found.isTerm then [] else [found]

/-- The predicates in values that are no terms, from left to right. -/
def compositesAll : List Value → List Predicate
  | [] => []
  | value :: rest => value.composites ++ compositesAll rest

end

/-- The text of something with the given predicates in it that are no terms: the first of them is
the reason why there is none. -/
def TextOf (composites : List Predicate) (result : Except TermError String) : Prop :=
  match composites with
  | [] => ∃ text, result = .ok text
  | first :: _ => result = .error (.composite first.display)

namespace TextOf

variable {first second : List Predicate} {result other : Except TermError String}

theorem enclosed (h : TextOf first result) :
    TextOf first (do return "(" ++ (← result) ++ ")") := by
  cases first with
  | nil =>
      obtain ⟨text, rfl⟩ := h
      exact ⟨"(" ++ text ++ ")", rfl⟩
  | cons composite rest =>
      cases h
      rfl

theorem append (hfirst : TextOf first result) (hsecond : TextOf second other) :
    TextOf (first ++ second) (do return (← result) ++ (← other)) := by
  cases first with
  | nil =>
      obtain ⟨text, rfl⟩ := hfirst
      cases second with
      | nil =>
          obtain ⟨more, rfl⟩ := hsecond
          exact ⟨text ++ more, rfl⟩
      | cons composite rest =>
          cases hsecond
          rfl
  | cons composite rest =>
      cases hfirst
      rfl

end TextOf

mutual

theorem textOf_flatten : (value : Value) → TextOf value.composites value.flatten
  | literal text => ⟨text, rfl⟩
  | sequence values => textOf_flattenAll values
  | grouped inner => (textOf_flatten inner).enclosed
  | predicate (.term term) => ⟨term.expression, rfl⟩
  | predicate (.not _) | predicate (.connective ..) | predicate (.previously ..)
  | predicate (.since ..) => rfl

theorem textOf_flattenAll :
    (values : List Value) → TextOf (compositesAll values) (flattenAll values)
  | [] => ⟨"", rfl⟩
  | value :: rest => (textOf_flatten value).append (textOf_flattenAll rest)

end

theorem flatten_eq_error_iff {value : Value} {error : TermError} :
    value.flatten = .error error ↔
      ∃ first ∈ value.composites.head?, error = .composite first.display := by
  have h := textOf_flatten value
  cases hcomposites : value.composites with
  | nil =>
      rw [hcomposites] at h
      obtain ⟨text, h⟩ := h
      simp [h]
  | cons first rest =>
      rw [hcomposites] at h
      change value.flatten = .error (.composite first.display) at h
      simp [h, eq_comm]

theorem composites_iterate_grouped (pairs : Nat) (value : Value) :
    (grouped^[pairs] value).composites = value.composites := by
  induction pairs with
  | zero => rfl
  | succ pairs ih => rw [Function.iterate_succ_apply', composites, ih]

/-! ## Terms from values -/

theorem toTerm_eq_composite_iff {value : Value} {display : String} :
    value.toTerm = .error (.composite display) ↔
      ∃ first ∈ value.composites.head?, first.display = display := by
  have hflatten : value.toTerm = .error (.composite display) ↔
      value.flatten = .error (.composite display) := by
    unfold toTerm
    cases value.flatten with
    | error error =>
        change Except.error error = _ ↔ _
        simp
    | ok text =>
        change Term.ofText text = _ ↔ _
        simp [Term.ofText_eq_error_iff]
  rw [hflatten, flatten_eq_error_iff]
  simp [eq_comm]

theorem toTerm_eq_empty_iff {value : Value} :
    value.toTerm = .error .empty ↔
      ∃ text, value.flatten = .ok text ∧ ∀ c ∈ text.toList, Text.isBlank c = true := by
  unfold toTerm
  cases hflatten : value.flatten with
  | error error =>
      -- a value without a text is never reported as empty
      obtain ⟨first, -, rfl⟩ := flatten_eq_error_iff.mp hflatten
      change Except.error _ = _ ↔ _
      simp
  | ok text =>
      change Term.ofText text = _ ↔ _
      simp [Term.ofText_eq_error_iff, Text.squeeze_eq_empty_iff]

/-- Parentheses that are written around the text of a term are added to the term. -/
theorem toTerm_grouped {value : Value} {term : Term} (h : value.toTerm = .ok term) :
    (grouped value).toTerm = .ok term.parenthesized := by
  unfold toTerm at h ⊢
  rw [flatten]
  cases hflatten : value.flatten with
  | error error => rw [hflatten] at h; cases h
  | ok text =>
      rw [hflatten] at h
      exact Term.ofText_parenthesized h

theorem toTerm_iterate_grouped {value : Value} {term : Term} (h : value.toTerm = .ok term)
    (pairs : Nat) : (grouped^[pairs] value).toTerm = .ok (Term.parenthesized^[pairs] term) := by
  induction pairs with
  | zero => exact h
  | succ pairs ih =>
      rw [Function.iterate_succ_apply', Function.iterate_succ_apply']
      exact toTerm_grouped ih

/-- Whether a value is text, given in one piece or as a sequence. -/
def isFragment : Value → Bool
  | literal _ | sequence _ => true
  | grouped _ | predicate _ => false

theorem normalize_iterate_grouped_fragment {core : Value} (h : core.isFragment = true)
    (pairs : Nat) :
    (grouped^[pairs] core).normalize =
      core.toTerm.map fun term => .term (Term.parenthesized^[pairs] term) := by
  induction pairs with
  | zero =>
      cases core with
      | literal | sequence => rfl
      | grouped | predicate => cases h
  | succ pairs ih =>
      have hne : ∀ predicate, grouped^[pairs] core ≠ .predicate predicate := by
        rintro predicate heq
        cases pairs with
        | zero => cases heq; cases h
        | succ pairs => rw [Function.iterate_succ_apply'] at heq; cases heq
      rw [Function.iterate_succ_apply', normalize_grouped hne, ih]
      cases core.toTerm with
      | error error => rfl
      | ok term =>
          simp only [Except.map, Function.iterate_succ_apply', Predicate.parenthesized]

/-- Text in parentheses becomes the same term in two ways: the text with the parentheses is a term,
or the parentheses are added to the term of the text. Either way the first predicate in it that is
no term is refused. The second way also refuses text that is blank throughout. -/
theorem normalize_grouped_fragment_iff {core : Value} (h : core.isFragment = true) (pairs : Nat) :
    (∀ display,
      ((grouped^[pairs] core).normalize = .error (.composite display) ↔
        (grouped^[pairs] core).toTerm = .error (.composite display)) ∧
      ((grouped^[pairs] core).toTerm = .error (.composite display) ↔
        ∃ first ∈ core.composites.head?, first.display = display)) ∧
    ((grouped^[pairs] core).normalize = .error .empty ↔
      ∃ text, core.flatten = .ok text ∧ ∀ c ∈ text.toList, Text.isBlank c = true) ∧
    (core.composites = [] →
      (∀ text, core.flatten = .ok text → ∃ c ∈ text.toList, Text.isBlank c = false) →
      ∃ inner term, core.toTerm = .ok inner ∧ term.freeVariables = inner.freeVariables ∧
        (grouped^[pairs] core).normalize = .ok (.term term) ∧
        (grouped^[pairs] core).toTerm = .ok term) := by
  have herror (error : TermError) : (grouped^[pairs] core).normalize = .error error ↔
      core.toTerm = .error error := by
    rw [normalize_iterate_grouped_fragment h]
    cases core.toTerm <;> simp [Except.map]
  refine ⟨fun display => ⟨?_, ?_⟩, ?_, fun hterms hblank => ?_⟩
  · rw [herror, toTerm_eq_composite_iff, toTerm_eq_composite_iff, composites_iterate_grouped]
  · rw [toTerm_eq_composite_iff, composites_iterate_grouped]
  · rw [herror, toTerm_eq_empty_iff]
  · cases hcore : core.toTerm with
    | ok inner =>
        refine ⟨inner, Term.parenthesized^[pairs] inner, rfl,
          inner.freeVariables_iterate_parenthesized pairs, ?_, toTerm_iterate_grouped hcore pairs⟩
        rw [normalize_iterate_grouped_fragment h, hcore]
        rfl
    | error error =>
        exfalso
        cases error with
        | composite display =>
            obtain ⟨first, hfirst, -⟩ := toTerm_eq_composite_iff.mp hcore
            simp [hterms] at hfirst
        | empty =>
            obtain ⟨text, htext, hall⟩ := toTerm_eq_empty_iff.mp hcore
            obtain ⟨c, hc, hnot⟩ := hblank text htext
            simp [hall c hc] at hnot

/-- Text around a predicate: it becomes a term if the predicate is one. -/
def textAround (inner : Predicate) : Value :=
  sequence [literal "f\u00a0", grouped (predicate inner), literal "\t"]

theorem normalize_grouped_fragment_iff_around :
    (grouped^[2] (textAround (.not (.term ⟨"b"⟩)))).normalize = .error (.composite "!(b)") ∧
      ∃ inner term, (textAround (.term ⟨"b"⟩)).toTerm = .ok inner ∧
        term.freeVariables = inner.freeVariables ∧
        (grouped^[2] (textAround (.term ⟨"b"⟩))).normalize = .ok (.term term) ∧
        (grouped^[2] (textAround (.term ⟨"b"⟩))).toTerm = .ok term := by
  obtain ⟨hcomposite, -, -⟩ :=
    normalize_grouped_fragment_iff (rfl : (textAround (.not (.term ⟨"b"⟩))).isFragment = true) 2
  obtain ⟨-, -, hterm⟩ :=
    normalize_grouped_fragment_iff (rfl : (textAround (.term ⟨"b"⟩)).isFragment = true) 2
  refine ⟨(hcomposite "!(b)").1.mpr ((hcomposite "!(b)").2.mpr ⟨.not (.term ⟨"b"⟩), rfl, rfl⟩),
    hterm rfl ?_⟩
  rintro text ⟨⟩
  exact ⟨'f', by decide, by decide⟩

end Value

end PastTime
