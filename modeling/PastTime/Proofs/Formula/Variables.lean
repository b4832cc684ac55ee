import PastTime.Proofs.Formula.Lowering

/-!
# The variables of a compiled text

The variables of a predicate are read off its terms, in which neighbouring words of the source have
run together. They are therefore the phrases of the source that are identifiers: an identifier of
the source as it stands, or two and more words in one.
-/

namespace PastTime

/-! ## Variables of terms -/

theorem Text.identifiers_parenthesized (text : String) :
    identifiers ("(" ++ text ++ ")") = identifiers text := by
  have hopening : isWordChar '(' = false := by decide
  have hclosing : isWordChar ')' = false := by decide
  have hruns : runs isWordChar ("(" ++ text ++ ")").toList = runs isWordChar text.toList := by
    have htext : ("(" ++ text ++ ")").toList = '(' :: (text.toList ++ ')' :: []) := by simp
    rw [htext, runs_cons_of_not hopening, runs_append_cons hclosing, runs, List.append_nil]
  rw [identifiers, words, hruns, identifiers, words]

theorem Predicate.freeVariables_parenthesized (predicate : Predicate) :
    predicate.parenthesized.freeVariables = predicate.freeVariables := by
  cases predicate with
  | term found =>
      change Text.freeVariables ("(" ++ found.expression ++ ")") = _
      rw [Text.freeVariables, Text.identifiers_parenthesized]
      rfl
  | not | connective | previously | since => rfl

theorem Predicate.not_mem_freeVariables_truth (name : String) : name ∉ truth.freeVariables := by
  have hnone : Text.identifiers Text.trueLiteral = [] := by decide +kernel
  change name ∉ Text.freeVariables Text.trueLiteral
  rw [Text.mem_freeVariables, hnone]
  exact List.not_mem_nil

section

variable {name : String}

theorem UnaryOp.Expands.mem_freeVariables_iff {op : UnaryOp} {operand result : Predicate}
    (h : op.Expands operand result) :
    name ∈ result.freeVariables ↔ name ∈ operand.freeVariables := by
  cases h with
  | not | previously => rfl
  | once | always =>
      simp [Predicate.freeVariables, Predicate.not_mem_freeVariables_truth]

theorem BinaryOp.Expands.mem_freeVariables_iff {op : BinaryOp} {left right result : Predicate}
    (h : op.Expands left right result) :
    name ∈ result.freeVariables ↔ name ∈ left.freeVariables ∨ name ∈ right.freeVariables := by
  cases h <;> simp [Predicate.freeVariables]

/-- The variables of a predicate are the identifiers of the terminals of its formula. -/
theorem Compiles.mem_freeVariables_iff {formula : Formula} {predicate : Predicate}
    (h : Compiles formula predicate) : name ∈ predicate.freeVariables ↔
      ∃ tokens ∈ formula.terminals, name ∈ Text.identifiers (Token.textAll tokens) := by
  induction h with
  | terminal tokens =>
      simp [Predicate.freeVariables, Term.freeVariables, Formula.terminals]
  | grouped _ ih => rw [Predicate.freeVariables_parenthesized, ih, Formula.terminals]
  | unary _ hresult ih => rw [hresult.mem_freeVariables_iff, ih, Formula.terminals]
  | binary _ _ hresult ihleft ihright =>
      rw [hresult.mem_freeVariables_iff, ihleft, ihright, Formula.terminals]
      simp only [List.mem_append, or_and_right, exists_or]

end

/-! ## Phrases of the source -/

section

variable {phrase : List String} (hlength : 2 ≤ phrase.length)

include hlength

theorem Lexeme.mem_phrases_enclosed {operands : List Lexeme} {opening closing : String} :
    phrase ∈ phrases (mark opening :: operands ++ [mark closing]) ↔ phrase ∈ phrases operands := by
  have hphrases : phrases (mark opening :: operands ++ [mark closing]) =
      [] :: (phrases operands ++ [[]]) := by
    rw [List.cons_append, phrases, phrases_append_mark]
    rfl
  have hne : phrase ≠ [] := by
    rintro rfl
    simp at hlength
  rw [hphrases]
  simp [hne]

theorem Lexeme.mem_phrases_call {keyword : String} {operands : List Lexeme} :
    phrase ∈ phrases (call keyword operands) ↔ phrase ∈ phrases operands := by
  -- the keyword is a phrase of its own, and that is too short
  have hphrases : phrases (call keyword operands) = [keyword] :: (phrases operands ++ [[]]) := by
    rw [call, List.cons_append, List.cons_append, phrases, phrases, phrases_append_mark]
    rfl
  have hne : phrase ≠ [keyword] ∧ phrase ≠ [] := by
    refine ⟨?_, ?_⟩ <;> rintro rfl <;> simp at hlength
  rw [hphrases]
  simp [hne]

/-- Words that run together stand in one terminal. -/
theorem Formula.mem_phrases_lexemes_iff {formula : Formula} :
    phrase ∈ Lexeme.phrases formula.lexemes ↔
      ∃ tokens ∈ formula.terminals, phrase ∈ Lexeme.phrases (Token.lexemesAll tokens) := by
  induction formula with
  | terminal tokens => simp [lexemes, terminals]
  | grouped inner ih => rw [lexemes, Lexeme.mem_phrases_enclosed hlength, ih, terminals]
  | unary op operand ih =>
      rw [lexemes, terminals, ← ih]
      cases op with
      | not =>
          have hne : phrase ≠ [] := by
            rintro rfl
            simp at hlength
          simp [UnaryOp.write, Lexeme.phrases, hne]
      | previously | once | always => exact Lexeme.mem_phrases_call hlength
  | binary op left right ihleft ihright =>
      have hterminals : (∃ tokens ∈ (binary op left right).terminals,
          phrase ∈ Lexeme.phrases (Token.lexemesAll tokens)) ↔
          phrase ∈ Lexeme.phrases left.lexemes ∨ phrase ∈ Lexeme.phrases right.lexemes := by
        rw [ihleft, ihright, terminals]
        simp only [List.mem_append, or_and_right, exists_or]
      rw [hterminals, lexemes]
      cases op with
      | implies | connective =>
          rw [BinaryOp.write, Lexeme.phrases_append_mark, List.mem_append]
      | since =>
          rw [BinaryOp.write, Lexeme.mem_phrases_call hlength, Lexeme.phrases_append_mark,
            List.mem_append]

end

section

variable {source name : String} {formula : Formula} {predicate : Predicate}
  (hparse : Formula.parse source = .ok formula) (hcompiles : Compiles formula predicate)
  (hidentifier : Text.isIdentifier name = true)

include hparse hcompiles hidentifier

/-- A name that is no word of a terminal is a variable exactly if two or more neighbouring words of
the source run together into it. -/
theorem Compiles.mem_freeVariables_iff_of_not_word
    (hword : ∀ tokens ∈ formula.terminals, .word name ∉ Token.lexemesAll tokens) :
    name ∈ predicate.freeVariables ↔
      ∃ phrase ∈ Lexeme.phrases (Lexeme.lexemes source),
        2 ≤ phrase.length ∧ String.join phrase = name := by
  have hne : name ≠ "" := by
    rintro rfl
    simp [Text.isIdentifier] at hidentifier
  have hterminal : ∀ tokens ∈ formula.terminals, name ∈ Text.identifiers (Token.textAll tokens) ↔
      ∃ phrase ∈ Lexeme.phrases (Token.lexemesAll tokens), String.join phrase = name := by
    intro tokens htokens
    have hproper := Formula.proper_of_parse hparse htokens
    rw [Text.identifiers, List.mem_filter,
      Lexeme.mem_words_of_toList_eq_chars hproper (Token.toList_textAll tokens)]
    simp [hidentifier, hne]
  rw [hcompiles.mem_freeVariables_iff, ← (Formula.lexemes_of_parseWithin hparse).1]
  constructor
  · intro h
    obtain ⟨tokens, htokens, hmem⟩ := h
    obtain ⟨phrase, hphrase, hjoin⟩ := (hterminal tokens htokens).mp hmem
    -- a phrase of one word would be a word of the terminal
    have hlength : 2 ≤ phrase.length := by
      rcases phrase with _ | ⟨word, _ | ⟨second, rest⟩⟩
      · exact absurd hjoin.symm hne
      · have hmem := Lexeme.word_mem_of_mem_phrases hphrase List.mem_cons_self
        have heq : name = word := by simpa using hjoin.symm
        exact absurd (heq ▸ hmem) (hword tokens htokens)
      · simp
    exact ⟨phrase, (Formula.mem_phrases_lexemes_iff hlength).mpr ⟨tokens, htokens, hphrase⟩,
      hlength, hjoin⟩
  · intro h
    obtain ⟨phrase, hphrase, hlength, hjoin⟩ := h
    obtain ⟨tokens, htokens, hmem⟩ := (Formula.mem_phrases_lexemes_iff hlength).mp hphrase
    exact ⟨tokens, htokens, (hterminal tokens htokens).mpr ⟨phrase, hmem, hjoin⟩⟩

/-- Which names, other than the identifiers of the source, are variables of its predicate: those
into which two or more neighbouring words of the source run together. -/
theorem Compiles.mem_freeVariables_iff_mem_phrases (hname : name ∉ Text.identifiers source) :
    name ∈ predicate.freeVariables ↔
      ∃ phrase ∈ Lexeme.phrases (Lexeme.lexemes source),
        2 ≤ phrase.length ∧ String.join phrase = name := by
  apply hcompiles.mem_freeVariables_iff_of_not_word hparse hidentifier
  intro tokens htokens hword
  have hsource := Formula.mem_lexemes_of_mem_terminals htokens hword
  rw [(Formula.lexemes_of_parseWithin hparse).1, ← Lexeme.mem_words_iff] at hsource
  exact hname (List.mem_filter.mpr ⟨hsource, hidentifier⟩)

end

end PastTime
