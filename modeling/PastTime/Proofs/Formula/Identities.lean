import PastTime.Proofs.Formula.Auxiliaries
import PastTime.Proofs.Formula.Rereading
import PastTime.Proofs.Formula.Variables
import PastTime.Proofs.Names.Alike

/-!
# Expansions of operators

Implication, `once` and `always` can be written with other operators. Both ways of writing give the
same predicate under the same names: the formulas that are read have the same predicates, the names
are issued in the same order, and the words in which the texts differ are never issued as names.
-/

namespace PastTime

/-! ## Formulas with the same predicates -/

/-- The formula that always holds. -/
def Formula.truth : Formula := .terminal [.word Text.trueLiteral]

section

variable {left right operand : Formula} {predicate : Predicate}

theorem Compiles.eq_truth (h : Compiles .truth predicate) : predicate = .truth := by
  cases h
  rfl

theorem Compiles.implies
    (h : Compiles (.binary (.connective .or) (.unary .not left) right) predicate) :
    Compiles (.binary .implies left right) predicate := by
  cases h with
  | binary hleft hright hresult =>
      cases hleft with
      | unary hoperand hnot =>
          cases hnot
          cases hresult
          exact .binary hoperand hright .implies

theorem Compiles.once (h : Compiles (.binary .since .truth operand) predicate) :
    Compiles (.unary .once operand) predicate := by
  cases h with
  | binary hleft hright hresult =>
      rw [hleft.eq_truth] at hresult
      cases hresult with
      | since hold trail => exact .unary hright (.once hold trail)

theorem Compiles.always
    (h : Compiles (.unary .not (.binary .since .truth (.unary .not operand))) predicate) :
    Compiles (.unary .always operand) predicate := by
  cases h with
  | unary hsince hresult =>
      cases hresult
      cases hsince with
      | binary hleft hright hsince =>
          rw [hleft.eq_truth] at hsince
          cases hright with
          | unary hoperand hnot =>
              cases hnot
              cases hsince with
              | since hold trail => exact .unary hoperand (.always hold trail)

end

/-- The predicates give the same expression, with the same variables and auxiliaries. -/
structure Predicate.Interchangeable (left right : Predicate) : Prop where
  expression : left.expression = right.expression
  freeVariables : left.freeVariables = right.freeVariables
  auxiliaries : left.auxiliaries = right.auxiliaries

/-- Parentheses around the operand of `always` do not show in what is generated. -/
theorem Compiles.exists_interchangeable {operand : Formula} {predicate : Predicate}
    (h : Compiles (.unary .always (.grouped operand)) predicate) :
    ∃ plain, Compiles (.unary .always operand) plain ∧ plain.Interchangeable predicate := by
  cases h with
  | unary hgrouped hresult =>
      cases hgrouped with
      | grouped hoperand =>
          cases hresult with
          | always hold trail =>
              refine ⟨_, .unary hoperand (.always hold trail), rfl, ?_, ?_⟩
              · simp [Predicate.freeVariables, Predicate.freeVariables_parenthesized]
              · simp [Predicate.auxiliaries, Predicate.auxiliaries_parenthesized]

/-! ## How the texts are read -/

/-- The text is read as the formula unless it nests too deep, and it has the given identifiers. -/
structure Formula.Spelled (text : String) (identifiers : List String) (formula : Formula) :
    Prop where
  parse : parse text = .ok formula ∨ ∃ place, parse text = .error (.tooDeep place)
  identifiers : Text.identifiers text = identifiers

namespace Formula

open Grammar

variable {text other : String} {formula otherFormula : Formula}

theorem spelled_implies (htext : parse text = .ok formula)
    (hother : parse other = .ok otherFormula) :
    Spelled ("(" ++ text ++ ") -> (" ++ other ++ ")")
      (Text.identifiers text ++ Text.identifiers other)
      (.binary .implies (.grouped formula) (.grouped otherFormula)) := by
  have hleft := @rereads_of_parse _ _ htext maxDepth (by decide)
  have hright := @rereads_of_parse _ _ hother (maxDepth - 1) (by decide)
  have hshape : "(" ++ text ++ ") -> (" ++ other ++ ")" =
      "" ++ "(" ++ text ++ ")" ++ " -> " ++ "(" ++ other ++ ")" ++ "" :=
    String.toList_inj.mp (by simp)
  have hmarks : Lexeme.lexemes " -> " = [.mark "->"] := by decide +kernel
  have hnone : Text.identifiers " -> " = [] := by decide +kernel
  rw [hshape]
  refine ⟨parse_of_rereads (rereads_implies (rereads_disjunction (rereads_grouped hleft))
    (rereads_predicate (rereads_disjunction (rereads_grouped hright)))) ?_, ?_⟩
  · rw [Lexeme.lexemes_enclosed, Lexeme.lexemes_enclosed, hmarks,
      ← (lexemes_of_parseWithin htext).1, ← (lexemes_of_parseWithin hother).1]
    simp [lexemes, BinaryOp.write]
  · rw [Text.identifiers_enclosed, Text.identifiers_enclosed, hnone]
    simp

theorem spelled_or (htext : parse text = .ok formula) (hother : parse other = .ok otherFormula) :
    Spelled ("!(" ++ text ++ ") || (" ++ other ++ ")")
      (Text.identifiers text ++ Text.identifiers other)
      (.binary (.connective .or) (.unary .not (.grouped formula)) (.grouped otherFormula)) := by
  have hleft := @rereads_of_parse _ _ htext (maxDepth - 1) (by decide)
  have hright := @rereads_of_parse _ _ hother maxDepth (by decide)
  have hshape : "!(" ++ text ++ ") || (" ++ other ++ ")" =
      "!" ++ "(" ++ text ++ ")" ++ " || " ++ "(" ++ other ++ ")" ++ "" :=
    String.toList_inj.mp (by simp)
  have hmarks : Lexeme.lexemes "!" = [.mark "!"] ∧ Lexeme.lexemes " || " = [.mark "||"] := by
    decide +kernel
  have hnone : Text.identifiers "!" = [] ∧ Text.identifiers " || " = [] := by decide +kernel
  rw [hshape]
  refine ⟨parse_of_rereads (rereads_predicate (rereads_or (rereads_not (rereads_grouped hleft))
    (rereads_grouped hright))) ?_, ?_⟩
  · rw [Lexeme.lexemes_enclosed, Lexeme.lexemes_enclosed, hmarks.1, hmarks.2,
      ← (lexemes_of_parseWithin htext).1, ← (lexemes_of_parseWithin hother).1]
    simp [lexemes, BinaryOp.write, UnaryOp.write, Connective.symbol]
  · rw [Text.identifiers_enclosed, Text.identifiers_enclosed, hnone.1, hnone.2]
    simp

theorem spelled_application {keyword : String} {op : UnaryOp} (htext : parse text = .ok formula)
    (hop : op.write formula.lexemes = Lexeme.call keyword formula.lexemes)
    (hread : Rereads behindUnary (Grammar.unary (maxDepth + 1)) (.unary op formula))
    (hword : Lexeme.lexemes keyword = [.word keyword])
    (hname : Text.identifiers keyword = [keyword]) :
    Spelled (keyword ++ "(" ++ text ++ ")") (keyword :: Text.identifiers text)
      (.unary op formula) := by
  rw [← String.append_empty (s := keyword ++ "(" ++ text ++ ")")]
  refine ⟨parse_of_rereads (rereads_predicate (rereads_disjunction hread)) ?_, ?_⟩
  · rw [Lexeme.lexemes_enclosed, hword, ← (lexemes_of_parseWithin htext).1, lexemes, hop]
    simp [Lexeme.call]
  · rw [Text.identifiers_enclosed, hname]
    simp

theorem spelled_once (htext : parse text = .ok formula) :
    Spelled ("once(" ++ text ++ ")") ("once" :: Text.identifiers text) (.unary .once formula) := by
  have hread := rereads_once (@rereads_of_parse _ _ htext maxDepth (by decide))
  exact @spelled_application _ _ "once" .once htext rfl hread (by decide +kernel)
    (by decide +kernel)

theorem spelled_always (htext : parse text = .ok formula) :
    Spelled ("always(" ++ text ++ ")") ("always" :: Text.identifiers text)
      (.unary .always formula) := by
  have hread := rereads_always (@rereads_of_parse _ _ htext maxDepth (by decide))
  exact @spelled_application _ _ "always" .always htext rfl hread (by decide +kernel)
    (by decide +kernel)

theorem rereads_truth (room : Nat) : Rereads behindPredicate (predicate (room + 1)) truth :=
  rereads_predicate (rereads_disjunction (rereads_word (by decide)))

theorem spelled_since (htext : parse text = .ok formula) :
    Spelled ("since(true, " ++ text ++ ")") ("since" :: Text.identifiers text)
      (.binary .since .truth formula) := by
  have hoperand := @rereads_of_parse _ _ htext maxDepth (by decide)
  have hshape : "since(true, " ++ text ++ ")" =
      "since" ++ "(" ++ ("true" ++ ", " ++ text) ++ ")" ++ "" :=
    String.toList_inj.mp (by simp)
  have hwords : Lexeme.lexemes "since" = [.word "since"] ∧
      Lexeme.lexemes "true" = [.word "true"] := by
    decide +kernel
  have hnames : Text.identifiers "since" = ["since"] ∧ Text.identifiers "true" = [] := by
    decide +kernel
  rw [hshape]
  refine ⟨parse_of_rereads (rereads_predicate (rereads_disjunction (rereads_since
    (rereads_truth _) hoperand))) ?_, ?_⟩
  · rw [Lexeme.lexemes_enclosed, Lexeme.lexemes_comma, hwords.1, hwords.2,
      ← (lexemes_of_parseWithin htext).1]
    simp [lexemes, truth, BinaryOp.write, Lexeme.call, Token.lexemesAll, Token.lexemes,
      Text.trueLiteral]
  · rw [Text.identifiers_enclosed, Text.identifiers_append (by decide) (by decide), hnames.1,
      hnames.2]
    simp

theorem spelled_not_since (htext : parse text = .ok formula) :
    Spelled ("!since(true, !(" ++ text ++ "))") ("since" :: Text.identifiers text)
      (.unary .not (.binary .since .truth (.unary .not (.grouped formula)))) := by
  have hoperand := @rereads_of_parse _ _ htext (maxDepth - 3) (by decide)
  have hshape : "!since(true, !(" ++ text ++ "))" =
      "!since" ++ "(" ++ ("true" ++ ", " ++ ("!" ++ "(" ++ text ++ ")" ++ "")) ++ ")" ++ "" :=
    String.toList_inj.mp (by simp)
  have hwords : Lexeme.lexemes "!since" = [.mark "!", .word "since"] ∧
      Lexeme.lexemes "true" = [.word "true"] ∧ Lexeme.lexemes "!" = [.mark "!"] := by
    decide +kernel
  have hnames : Text.identifiers "!since" = ["since"] ∧ Text.identifiers "true" = [] ∧
      Text.identifiers "!" = [] := by
    decide +kernel
  rw [hshape]
  refine ⟨parse_of_rereads (rereads_predicate (rereads_disjunction (rereads_not (rereads_since
    (rereads_truth _) (rereads_predicate (rereads_disjunction (rereads_not
      (rereads_grouped hoperand)))))))) ?_, ?_⟩
  · rw [Lexeme.lexemes_enclosed, Lexeme.lexemes_comma, Lexeme.lexemes_enclosed, hwords.1,
      hwords.2.1, hwords.2.2, ← (lexemes_of_parseWithin htext).1]
    simp [lexemes, truth, BinaryOp.write, UnaryOp.write, Lexeme.call, Token.lexemesAll,
      Token.lexemes, Text.trueLiteral]
  · rw [Text.identifiers_enclosed, Text.identifiers_append (by decide) (by decide),
      Text.identifiers_enclosed, hnames.1, hnames.2.1, hnames.2.2]
    simp

end Formula

/-! ## Compiling two texts -/

/-- From the same names, both texts are compiled to related predicates, unless one of them nests
too deep. -/
def CompileAlike (same : Predicate → Predicate → Prop) (names : Names) (text other : String) :
    Prop :=
  (∃ place, (compile text).run names = (.error (.grammar (.tooDeep place)), names)) ∨
  (∃ place, (compile other).run names = (.error (.grammar (.tooDeep place)), names)) ∨
  ∃ first second later otherLater, (compile text).run names = (.ok ⟨text, first⟩, later) ∧
    (compile other).run names = (.ok ⟨other, second⟩, otherLater) ∧ same first second

/-- It is enough that each predicate of the second formula is related to one of the first, if the
reserved words make no difference. -/
theorem compileAlike_of_compiles {same : Predicate → Predicate → Prop}
    (hauxiliaries : ∀ first second, same first second → first.auxiliaries = second.auxiliaries)
    {text other : String} {formula otherFormula : Formula} {words otherWords : List String}
    (htext : formula.Spelled text words) (hother : otherFormula.Spelled other otherWords)
    (hsame : ∀ second, Compiles otherFormula second →
      ∃ first, Compiles formula first ∧ same first second) {names : Names}
    (hnames : Names.Alike (NameSource.reserveAll words names)
      (NameSource.reserveAll otherWords names)) :
    CompileAlike same names text other := by
  obtain ⟨htext, rfl⟩ := htext
  obtain ⟨hother, rfl⟩ := hother
  rcases htext with htext | ⟨place, hdeep⟩
  · rcases hother with hother | ⟨place, hdeep⟩
    · obtain ⟨first, later, hrun, hfirst, hissued⟩ := run_parsePredicate htext names
      obtain ⟨second, otherLater, hotherRun, hsecond, hotherIssued⟩ :=
        run_parsePredicate hother names
      obtain ⟨model, hmodel, hrelated⟩ := hsame second hsecond
      rw [← hauxiliaries model second hrelated] at hotherIssued
      have hissuedEq := hnames.issued_eq hissued hotherIssued (hfirst.kinds_eq hmodel)
      rw [← hfirst.eq_of_auxiliaries_eq hmodel hissuedEq] at hrelated
      exact .inr (.inr ⟨first, second, later, otherLater, run_bind_of_ok hrun _,
        run_bind_of_ok hotherRun _, hrelated⟩)
    · exact .inr (.inl ⟨place, run_bind_of_error (run_parsePredicate_of_error hdeep names) _⟩)
  · exact .inl ⟨place, run_bind_of_error (run_parsePredicate_of_error hdeep names) _⟩

/-- How operators expand. Implication is the disjunction with the negated left side, `once` is
`since` with a left side that always holds, and `always` is the negation of `once` of the negation,
up to parentheses around a term, which do not show in what is generated. -/
theorem compile_expansions {text other : String} {formula otherFormula : Formula}
    (htext : Formula.parse text = .ok formula) (hother : Formula.parse other = .ok otherFormula)
    (names : Names) :
    CompileAlike (· = ·) names ("(" ++ text ++ ") -> (" ++ other ++ ")")
        ("!(" ++ text ++ ") || (" ++ other ++ ")") ∧
      CompileAlike (· = ·) names ("once(" ++ text ++ ")") ("since(true, " ++ text ++ ")") ∧
      CompileAlike Predicate.Interchangeable names ("always(" ++ text ++ ")")
        ("!since(true, !(" ++ text ++ "))") := by
  have heq (first second : Predicate) (h : first = second) :
      first.auxiliaries = second.auxiliaries := congrArg _ h
  have hreserved {keyword : String} (hkeyword : '_' ∉ keyword.toList) :
      Names.Alike (NameSource.reserveAll (keyword :: Text.identifiers text) names)
        (NameSource.reserveAll ("since" :: Text.identifiers text) names) :=
    ((Names.Alike.refl names).reserve_plain hkeyword (by decide)).reserveAll _
  refine ⟨?_, ?_, ?_⟩
  · exact compileAlike_of_compiles heq (Formula.spelled_implies htext hother)
      (Formula.spelled_or htext hother) (fun second h => ⟨second, h.implies, rfl⟩) (.refl _)
  · exact compileAlike_of_compiles heq (Formula.spelled_once htext) (Formula.spelled_since htext)
      (fun second h => ⟨second, h.once, rfl⟩) (hreserved (by decide))
  · exact compileAlike_of_compiles (fun _ _ h => h.auxiliaries) (Formula.spelled_always htext)
      (Formula.spelled_not_since htext) (fun _ h => h.always.exists_interchangeable)
      (hreserved (by decide))

set_option maxRecDepth 20000 in
theorem compile_expansions_previously :
    let names := Names.random (.new { stem := "T", suffixLength := 1 } (Words.cycle [0]))
    CompileAlike (· = ·) names ("(" ++ "previously(a)" ++ ") -> (" ++ "b" ++ ")")
        ("!(" ++ "previously(a)" ++ ") || (" ++ "b" ++ ")") ∧
      CompileAlike (· = ·) names ("once(" ++ "previously(a)" ++ ")")
        ("since(true, " ++ "previously(a)" ++ ")") ∧
      CompileAlike Predicate.Interchangeable names ("always(" ++ "previously(a)" ++ ")")
        ("!since(true, !(" ++ "previously(a)" ++ "))") := by
  intro names
  have htext : Formula.parse "previously(a)" =
      .ok (.unary .previously (.terminal [.word "a"])) := by
    decide +kernel
  have hother : Formula.parse "b" = .ok (.terminal [.word "b"]) := by decide +kernel
  exact compile_expansions htext hother names

end PastTime
