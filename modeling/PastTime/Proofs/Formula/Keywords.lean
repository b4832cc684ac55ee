import PastTime.Proofs.Formula.Variables

/-!
# Keywords in terms

No word of a terminal is a keyword, so a temporal operator is never read as part of a term. A term
is written without blanks, though, and words that only blanks separate run together in it. They can
give a keyword, and this is the only way in which a keyword gets into a term.
-/

namespace PastTime

/-! ## Terms of a predicate -/

/-- The terms of a predicate, from left to right. -/
def Predicate.terms : Predicate → List Term
  | term t => [t]
  | not operand | previously operand _ => operand.terms
  | connective _ left right | since left right _ _ => left.terms ++ right.terms

/-- The variables of a predicate are the identifiers of its terms. -/
theorem Predicate.mem_freeVariables_iff {name : String} (predicate : Predicate) :
    name ∈ predicate.freeVariables ↔
      ∃ term ∈ predicate.terms, name ∈ Text.identifiers term.expression := by
  induction predicate with
  | term found => simp [freeVariables, terms, Term.freeVariables]
  | not operand ih => exact ih
  | previously operand _ ih => exact ih
  | connective _ left right ihleft ihright =>
      simp only [freeVariables, terms, NameSet.mem_union, ihleft, ihright, List.mem_append,
        or_and_right, exists_or]
  | since left right _ _ ihleft ihright =>
      simp only [freeVariables, terms, NameSet.mem_union, ihleft, ihright, List.mem_append,
        or_and_right, exists_or]

/-! ## Words of a terminal -/

namespace Token

mutual

theorem not_keyword_of_mem_lexemes {marks : List String} {name : String} :
    (token : Token) → token.WellFormed marks → .word name ∈ token.lexemes →
      name ∉ Grammar.keywords
  | word text, htoken, hmem => by
      simp only [lexemes, List.mem_singleton, Lexeme.word.injEq] at hmem
      exact hmem ▸ htoken
  | symbol text, _, hmem => by simp [lexemes] at hmem
  | group bracket tokens, htoken, hmem => by
      simp only [lexemes, List.cons_append, List.mem_cons, List.mem_append, reduceCtorEq,
        List.not_mem_nil, or_false, false_or] at hmem
      exact not_keyword_of_mem_lexemesAll tokens htoken hmem

theorem not_keyword_of_mem_lexemesAll {marks : List String} {name : String} :
    (tokens : List Token) → AllWellFormed marks tokens → .word name ∈ lexemesAll tokens →
      name ∉ Grammar.keywords
  | [], _, hmem => by simp [lexemesAll] at hmem
  | token :: rest, htokens, hmem => by
      rw [lexemesAll, List.mem_append] at hmem
      rcases hmem with hmem | hmem
      · exact not_keyword_of_mem_lexemes token htokens.1 hmem
      · exact not_keyword_of_mem_lexemesAll rest htokens.2 hmem

end

end Token

theorem Grammar.isIdentifier_of_mem_keywords :
    ∀ keyword ∈ keywords, Text.isIdentifier keyword = true := by
  decide

/-! ## Accepted texts -/

section

variable {σ : Type} [NameSource σ] {text : String} {predicate : Predicate} {names later : σ}

/-- A text with a predicate was read as a formula of which the predicate is one. -/
theorem compiles_of_run_parsePredicate
    (h : (parsePredicate text).run names = (.ok predicate, later)) :
    ∃ formula, Formula.parse text = .ok formula ∧ Compiles formula predicate := by
  obtain ⟨formula, hparse, hcompiles, -⟩ := issued_of_run_parsePredicate h
  exact ⟨formula, hparse, hcompiles⟩

/-- When a keyword hides in a term of an accepted text. It then counts as a variable of the
predicate, and two or more neighbouring words of the text, written in one, are the keyword. -/
theorem keyword_mem_words_iff (h : (parsePredicate text).run names = (.ok predicate, later))
    {keyword : String} (hkeyword : keyword ∈ Grammar.keywords) :
    ((∃ term ∈ predicate.terms, keyword ∈ Text.words term.expression) ↔
        keyword ∈ predicate.freeVariables) ∧
      (keyword ∈ predicate.freeVariables ↔
        ∃ phrase ∈ Lexeme.phrases (Lexeme.lexemes text),
          2 ≤ phrase.length ∧ String.join phrase = keyword) := by
  obtain ⟨formula, hparse, hcompiles⟩ := compiles_of_run_parsePredicate h
  have hidentifier := Grammar.isIdentifier_of_mem_keywords keyword hkeyword
  refine ⟨?_, hcompiles.mem_freeVariables_iff_of_not_word hparse hidentifier ?_⟩
  · rw [predicate.mem_freeVariables_iff]
    simp [Text.identifiers, hidentifier]
  · intro tokens htokens hword
    have hformula := (Formula.lexemes_of_parseWithin hparse).2
    have htokens := (Formula.wellFormed_of_mem_terminals hformula htokens).2
    exact Token.not_keyword_of_mem_lexemesAll tokens htokens hword hkeyword

end

set_option maxRecDepth 20000 in
theorem keyword_mem_words_iff_apart :
    ∃ predicate later,
      (parsePredicate "a && g[al ways]").run (SequentialNames.new "T") =
        (.ok predicate, later) ∧
      "always" ∈ predicate.freeVariables ∧
      ∃ term ∈ predicate.terms, "always" ∈ Text.words term.expression := by
  have hparse : Formula.parse "a && g[al ways]" = .ok (.binary (.connective .and)
      (.terminal [.word "a"])
      (.terminal [.word "g", .group .square [.word "al", .word "ways"]])) := by
    decide +kernel
  have hphrases : Lexeme.phrases (Lexeme.lexemes "a && g[al ways]") =
      [["a"], ["g"], ["al", "ways"], []] := by
    decide +kernel
  obtain ⟨predicate, later, hrun, -⟩ := run_parsePredicate hparse (SequentialNames.new "T")
  obtain ⟨hwords, hphrase⟩ := keyword_mem_words_iff hrun (by decide : "always" ∈ Grammar.keywords)
  have hmem := hphrase.mpr ⟨["al", "ways"], by rw [hphrases]; simp, by decide, rfl⟩
  exact ⟨predicate, later, hrun, hmem, hwords.mpr hmem⟩

set_option maxRecDepth 20000 in
/-- A call of `once` that is spelled with a blank is accepted as a term. -/
theorem keyword_hides_in_term :
    ∃ later, (parsePredicate "f(on ce(x))").run (SequentialNames.new "T") =
        (.ok (.term ⟨"f(once(x))"⟩), later) ∧
      "once" ∈ Grammar.keywords ∧ "once" ∈ Text.words "f(once(x))" ∧
      "once" ∈ (Predicate.term ⟨"f(once(x))"⟩).freeVariables := by
  have hparse : Formula.parse "f(on ce(x))" = .ok (.terminal [.word "f",
      .group .round [.word "on", .word "ce", .group .round [.word "x"]]]) := by
    decide +kernel
  have hwords : Text.words "f(once(x))" = ["f", "once", "x"] := by decide +kernel
  obtain ⟨predicate, later, hrun, hcompiles, -⟩ :=
    run_parsePredicate hparse (SequentialNames.new "T")
  cases hcompiles
  refine ⟨later, hrun, by decide, ?_, ?_⟩
  · rw [hwords]
    simp
  · change "once" ∈ Text.freeVariables "f(once(x))"
    rw [Text.mem_freeVariables, Text.identifiers, hwords]
    decide

end PastTime
