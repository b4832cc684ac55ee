import PastTime.Proofs.Formula.Rereading
import PastTime.Proofs.Formula.Variables

/-!
# Redundant parentheses

A text in parentheses is read as the formula of the text in parentheses, unless it then nests too
deep. Its predicate is the same if it has an operator. Around a term the parentheses are kept.
-/

namespace PastTime

theorem Formula.parse_parenthesized {text : String} {formula : Formula}
    (h : parse text = .ok formula) :
    parse ("(" ++ text ++ ")") = .ok (.grouped formula) ∨
      ∃ place, parse ("(" ++ text ++ ")") = .error (.tooDeep place) := by
  have hinner := rereads_of_parse h (Nat.le_succ Grammar.maxDepth)
  refine parse_of_rereads (Grammar.rereads_predicate
    (Grammar.rereads_disjunction (Grammar.rereads_grouped hinner))) ?_
  have htext : "(" ++ text ++ ")" = "" ++ "(" ++ text ++ ")" ++ "" := by simp
  rw [htext, Lexeme.lexemes_enclosed, Lexeme.lexemes_empty, ← (lexemes_of_parseWithin h).1]
  rfl

/-- Compiling an accepted text and the same text in parentheses. The second text is read as the
formula of the first one in parentheses, or nests too deep. If it does not, the predicate of the
first text is also that of the second one, unless it is a term, which gets parentheses, and the
names are left in the same state. -/
theorem compile_parenthesized {text : String} {formula : Formula}
    (h : Formula.parse text = .ok formula) :
    (Formula.parse ("(" ++ text ++ ")") = .ok (.grouped formula) ∨
      ∃ place, Formula.parse ("(" ++ text ++ ")") = .error (.tooDeep place)) ∧
    ∀ {σ : Type} [NameSource σ] (names : σ),
      (∀ place, Formula.parse ("(" ++ text ++ ")") ≠ .error (.tooDeep place)) →
      ∃ predicate later, (compile text).run names = (.ok ⟨text, predicate⟩, later) ∧
        ((predicate.isTerm = false ∧ (compile ("(" ++ text ++ ")")).run names =
            (.ok ⟨"(" ++ text ++ ")", predicate⟩, later)) ∨
          ∃ expression, predicate = .term ⟨expression⟩ ∧
            (compile ("(" ++ text ++ ")")).run names =
              (.ok ⟨"(" ++ text ++ ")", .term ⟨"(" ++ expression ++ ")"⟩⟩, later) ∧
            Term.freeVariables ⟨"(" ++ expression ++ ")"⟩ = Term.freeVariables ⟨expression⟩) := by
  refine ⟨Formula.parse_parenthesized h, fun {σ} _ names hshallow => ?_⟩
  have hgrouped := (Formula.parse_parenthesized h).resolve_right fun ⟨place, hdeep⟩ =>
    hshallow place hdeep
  obtain ⟨value, predicate, later, hrun, hvalue, hparenthesized, -, -⟩ :=
    Formula.run_lower (Formula.solid_of_parse h)
      (NameSource.reserveAll (Text.identifiers text) names)
  have hplain := run_parsePredicate_of_lower h hrun hvalue
  have henclosed : (parsePredicate ("(" ++ text ++ ")")).run names =
      (.ok predicate.parenthesized, later) := by
    refine run_parsePredicate_of_lower hgrouped ?_ hparenthesized
    rw [Text.identifiers_parenthesized]
    exact run_bind_of_ok hrun _
  refine ⟨predicate, later, run_bind_of_ok hplain _, ?_⟩
  cases predicate with
  | term term =>
      refine Or.inr ⟨term.expression, rfl, run_bind_of_ok henclosed _, ?_⟩
      exact (Predicate.term term).freeVariables_parenthesized
  | not | connective | previously | since =>
      exact Or.inl ⟨rfl, run_bind_of_ok henclosed _⟩

set_option maxRecDepth 20000 in
theorem compile_parenthesized_negation :
    Formula.parse ("(" ++ "!(a)" ++ ")") =
        .ok (.grouped (.unary .not (.grouped (.terminal [.word "a"])))) ∧
      ∃ later, (compile "!(a)").run (SequentialNames.new "T") =
          (.ok ⟨"!(a)", .not (.term ⟨"(a)"⟩)⟩, later) ∧
        (compile ("(" ++ "!(a)" ++ ")")).run (SequentialNames.new "T") =
          (.ok ⟨"(" ++ "!(a)" ++ ")", .not (.term ⟨"(a)"⟩)⟩, later) := by
  have h : Formula.parse "!(a)" = .ok (.unary .not (.grouped (.terminal [.word "a"]))) := by
    decide +kernel
  have henclosed : Formula.parse ("(" ++ "!(a)" ++ ")") =
      .ok (.grouped (.unary .not (.grouped (.terminal [.word "a"])))) := by
    decide +kernel
  obtain ⟨found, _, hfound, hcompiles, -⟩ := run_parsePredicate h (SequentialNames.new "T")
  have hcompile : (compile "!(a)").run (SequentialNames.new "T") = (.ok ⟨"!(a)", found⟩, _) :=
    run_bind_of_ok hfound _
  cases hcompiles with
  | unary hgrouped hnot =>
      cases hgrouped with
      | grouped hterminal =>
          cases hterminal
          cases hnot
          obtain ⟨-, hrun⟩ := compile_parenthesized h
          obtain ⟨predicate, later, hplain, hcases⟩ :=
            hrun (SequentialNames.new "T") fun place hdeep => by
              rw [henclosed] at hdeep
              cases hdeep
          rw [hplain] at hcompile
          cases hcompile
          rcases hcases with ⟨-, hsame⟩ | ⟨_, hterm, -⟩
          · exact ⟨henclosed, _, hplain, hsame⟩
          · cases hterm

end PastTime
