import Mathlib.Control.Monad.Basic
import PastTime.Proofs.Predicate.Obtainable

/-!
# What a generated expression reads

A past-time operator hides its operands: its expression reads the auxiliaries of the operator and
nothing else. All other operators read what their operands read. The parentheses and marks that join
the expressions of the operands keep the names in them apart, so the variables of the expression of
a predicate are the variables of the terms, and the auxiliaries of the past-time operators, that
stand below no past-time operator.
-/

namespace PastTime

namespace Predicate

/-- A part of a predicate that stands below no past-time operator. -/
def Present : Predicate → Predicate → Prop :=
  Within fun operator => operator.isTemporal = false

section

variable {part operand left right : Predicate}

@[simp] theorem present_term {found : Term} : Present part (term found) ↔ part = term found :=
  within_term

@[simp] theorem present_not :
    Present part (not operand) ↔ part = not operand ∨ Present part operand := by
  simp [Present, Operator.isTemporal]

@[simp] theorem present_connective {c : Connective} :
    Present part (connective c left right) ↔
      part = connective c left right ∨ Present part left ∨ Present part right := by
  simp [Present, Operator.isTemporal]

@[simp] theorem present_previously {name : String} :
    Present part (previously operand name) ↔ part = previously operand name := by
  simp [Present, Operator.isTemporal]

@[simp] theorem present_since {hold trail : String} :
    Present part (since left right hold trail) ↔ part = since left right hold trail := by
  simp [Present, Operator.isTemporal]

end

/-! ## Identifiers of expressions -/

theorem identifiers_expression_not (operand : Predicate) :
    Text.identifiers (not operand).expression = Text.identifiers operand.expression := by
  have hshape : (not operand).expression = "!" ++ "(" ++ operand.expression ++ ")" ++ "" :=
    String.toList_inj.mp (by simp [expression])
  have hnone : Text.identifiers "!" = [] := by decide +kernel
  rw [hshape, Text.identifiers_enclosed, hnone, Text.identifiers_empty, List.nil_append,
    List.append_nil]

theorem identifiers_expression_connective (c : Connective) (left right : Predicate) :
    Text.identifiers (connective c left right).expression =
      Text.identifiers left.expression ++ Text.identifiers right.expression := by
  have hshape : (connective c left right).expression =
      "" ++ "(" ++ left.expression ++ ")" ++ c.symbol ++ "(" ++ right.expression ++ ")" ++ "" := by
    simp [expression]
  have hnone : Text.identifiers c.symbol = [] := by cases c <;> decide +kernel
  rw [hshape, Text.identifiers_enclosed, Text.identifiers_enclosed, hnone, Text.identifiers_empty,
    List.nil_append, List.append_nil, List.append_nil]

theorem identifiers_expression_since (left right : Predicate) (hold trail : String) :
    Text.identifiers (since left right hold trail).expression =
      Text.identifiers hold ++ Text.identifiers trail := by
  have hshape : (since left right hold trail).expression = "(" ++ (hold ++ "&&" ++ trail) ++ ")" :=
    String.toList_inj.mp (by simp [expression])
  rw [hshape, Text.identifiers_parenthesized, Text.identifiers_append (by decide) (by decide)]

/-- Whether the predicate reads the name itself, other than through its operands: a term reads its
variables, and a past-time operator its auxiliaries. -/
def ReadsItself (name : String) : Predicate → Prop
  | term found => name ∈ found.freeVariables
  | predicate => ∃ auxiliary ∈ predicate.ownAuxiliaries, auxiliary.name = name

theorem readsItself_iff {name : String} {predicate : Predicate} :
    predicate.ReadsItself name ↔
      (∃ found, predicate = term found ∧ name ∈ found.freeVariables) ∨
        ∃ auxiliary ∈ predicate.ownAuxiliaries, auxiliary.name = name := by
  cases predicate <;> simp [ReadsItself, ownAuxiliaries]

/-- The identifiers of an expression whose auxiliaries are each one identifier. -/
theorem mem_identifiers_expression_iff {predicate : Predicate} {name : String}
    (hnames : ∀ auxiliary ∈ predicate.auxiliaries,
      Text.identifiers auxiliary.name = [auxiliary.name]) :
    name ∈ Text.identifiers predicate.expression ↔
      ∃ part, Present part predicate ∧ part.ReadsItself name := by
  induction predicate with
  | term found => simp [expression, ReadsItself, Term.freeVariables]
  | not operand ih =>
      rw [identifiers_expression_not, ih hnames]
      simp [ReadsItself, ownAuxiliaries, or_and_right, exists_or]
  | connective c left right ihleft ihright =>
      obtain ⟨hleft, hright⟩ := List.forall_mem_append.mp hnames
      rw [identifiers_expression_connective, List.mem_append, ihleft hleft, ihright hright]
      simp [ReadsItself, ownAuxiliaries, or_and_right, exists_or]
  | previously operand issued _ =>
      obtain ⟨-, hissued⟩ := List.forall_mem_append.mp hnames
      rw [expression, hissued _ List.mem_cons_self]
      simp [ReadsItself, ownAuxiliaries, eq_comm]
  | since left right hold trail _ _ =>
      obtain ⟨-, hissued⟩ := List.forall_mem_append.mp hnames
      rw [identifiers_expression_since, hissued ⟨hold, .sinceHold⟩ (by simp),
        hissued ⟨trail, .sinceTrail⟩ (by simp)]
      simp [ReadsItself, ownAuxiliaries, eq_comm]

/-- What a part reads itself is a variable or an auxiliary of the whole. -/
theorem Present.declared {part predicate : Predicate} {name : String} (h : Present part predicate)
    (hreads : part.ReadsItself name) : name ∈ predicate.freeVariables ∨
      ∃ auxiliary ∈ predicate.auxiliaries, auxiliary.name = name := by
  rcases readsItself_iff.mp hreads with ⟨found, rfl, hname⟩ | ⟨auxiliary, hown, hname⟩
  · exact .inl (predicate.mem_freeVariables_iff.mpr
      ⟨found, h.terms_subset List.mem_cons_self, Text.mem_freeVariables.mp hname⟩)
  · exact .inr ⟨auxiliary, h.ownAuxiliaries_subset hown, hname⟩

end Predicate

/-- What the expression of an obtainable predicate reads, if the names begin with word characters
only: the variables of the terms, and the auxiliaries of the past-time operators, that no past-time
operator stands above. So it reads nothing but variables and auxiliaries of the predicate. -/
theorem Obtainable.mem_freeVariables_expression_iff {predicate : Predicate}
    (h : Obtainable (fun names : Names => Text.isWord names.stem = true) (.predicate predicate)) :
    (∀ name, name ∈ Text.freeVariables predicate.expression ↔
      (∃ term, Predicate.Present (.term term) predicate ∧ name ∈ term.freeVariables) ∨
        ∃ node, Predicate.Present node predicate ∧
          ∃ auxiliary ∈ node.ownAuxiliaries, auxiliary.name = name) ∧
      ∀ name ∈ Text.identifiers predicate.expression, name ∈ predicate.freeVariables ∨
        ∃ auxiliary ∈ predicate.auxiliaries, auxiliary.name = name := by
  have hnames : ∀ auxiliary ∈ predicate.auxiliaries,
      Text.identifiers auxiliary.name = [auxiliary.name] :=
    h.forall_auxiliaries (fun _ hstem => (Names.issuesOnly_identifiers hstem).mono
      fun _ hname => Text.identifiers_of_isIdentifier hname.1 hname.2) predicate rfl
  refine ⟨fun name => ?_, fun name hname => ?_⟩
  · rw [Text.mem_freeVariables, Predicate.mem_identifiers_expression_iff hnames]
    simp [Predicate.readsItself_iff, and_or_left, exists_or]
  · obtain ⟨part, hpart, hreads⟩ := (Predicate.mem_identifiers_expression_iff hnames).mp hname
    exact hpart.declared hreads

/-- The operand of a past-time operator is hidden, and its auxiliary is read. -/
theorem Obtainable.mem_freeVariables_expression_iff_hidden :
    let predicate : Predicate := .connective .and (.term ⟨"(f(a,1e3))"⟩)
      (.previously (.term ⟨"y"⟩) "T_previously_0")
    Obtainable (fun names : Names => Text.isWord names.stem = true) (.predicate predicate) ∧
      "a" ∈ Text.freeVariables predicate.expression ∧
      "T_previously_0" ∈ Text.freeVariables predicate.expression ∧
      "y" ∉ Text.freeVariables predicate.expression := by
  intro predicate
  have hstem : Text.isWord (Names.sequential (.new "T")).stem = true := by decide
  have hliteral : (Value.literal "y").normalize = .ok (.term ⟨"y"⟩) := by decide +kernel
  have hgrouped : (Value.grouped (.literal "f(a, 1e3)")).normalize =
      .ok (.term ⟨"(f(a,1e3))"⟩) := by
    decide +kernel
  have hfresh : (SequentialNames.new "T").fresh "previously" = ("T_previously_0", ⟨"T", 1, ∅⟩) := by
    decide +kernel
  have hprevious : (Predicate.apply .previously [.literal "y"]).run (Names.sequential (.new "T")) =
      (.ok (.previously (.term ⟨"y"⟩) "T_previously_0"), .sequential ⟨"T", 1, ∅⟩) := by
    refine (run_bind_of_ok (Build.run_normalize hliteral _) _).trans ?_
    change (Except.ok (Predicate.previously _ ((SequentialNames.new "T").fresh "previously").1),
      Names.sequential ((SequentialNames.new "T").fresh "previously").2) = _
    rw [hfresh]
  have hboth : (Predicate.applySymbol "&&" [.grouped (.literal "f(a, 1e3)"),
      .predicate (.previously (.term ⟨"y"⟩) "T_previously_0")]).run
        (Names.sequential (.new "T")) = (.ok predicate, .sequential (.new "T")) := by
    have hsymbol : Operator.ofSymbol? "&&" = some (.connective .and) := by decide
    rw [Predicate.applySymbol, hsymbol]
    exact (run_bind_of_ok (Build.run_normalize hgrouped _) _).trans
      (run_bind_of_ok (Build.run_normalize rfl _) _)
  have h : Obtainable (fun names : Names => Text.isWord names.stem = true)
      (.predicate predicate) := by
    refine .applySymbol hstem ?_ hboth
    simp only [List.mem_cons, List.not_mem_nil, or_false, forall_eq_or_imp, forall_eq]
    refine ⟨.grouped (.literal _), .apply hstem ?_ hprevious⟩
    simpa using .literal "y"
  obtain ⟨hreads, -⟩ := h.mem_freeVariables_expression_iff
  have hterm : Text.identifiers "(f(a,1e3))" = ["f", "a", "1e3"] := by decide +kernel
  refine ⟨h, ?_, ?_, ?_⟩
  · rw [hreads]
    exact .inl ⟨⟨"(f(a,1e3))"⟩, by simp [predicate], by simp [Term.freeVariables, hterm]⟩
  · rw [hreads]
    exact .inr ⟨.previously (.term ⟨"y"⟩) "T_previously_0", by simp [predicate],
      by simp [Predicate.ownAuxiliaries]⟩
  · rw [hreads]
    simp [predicate, Term.freeVariables, hterm, Predicate.ownAuxiliaries]

end PastTime
