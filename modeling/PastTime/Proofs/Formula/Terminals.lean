import PastTime.Formula.Lower
import PastTime.Proofs.Formula.Soundness
import PastTime.Proofs.Lexeme.Spelling

/-!
# Terminals

The terminals of an accepted text are terms as they stand: their tokens, written one after the
other, give a text that is not empty and has no blank characters.
-/

namespace PastTime

/-- The terminals of a formula, from left to right. -/
def Formula.terminals : Formula → List (List Token)
  | terminal tokens => [tokens]
  | grouped inner => inner.terminals
  | unary _ operand => operand.terminals
  | binary _ left right => left.terminals ++ right.terminals

/-- Whether a text has no blank characters. -/
def Text.isBlankFree (text : String) : Bool := text.toList.all fun c => !isBlank c

theorem Text.isBlankFree_iff {text : String} :
    isBlankFree text = true ↔ ∀ c ∈ text.toList, isBlank c = false := by
  simp [isBlankFree]

/-- A text that is a term as it stands: not empty, and without blank characters. -/
def Text.Solid (text : String) : Prop := text ≠ "" ∧ isBlankFree text = true

theorem Term.ofText_of_solid {text : String} (h : Text.Solid text) : ofText text = .ok ⟨text⟩ := by
  have hsqueeze : Text.squeeze text = text := by
    rw [← String.toList_inj, Text.toList_squeeze, List.filter_eq_self]
    intro c hc
    rw [Text.isBlankFree_iff.mp h.2 c hc]
    rfl
  rw [ofText, hsqueeze, if_neg h.1]

theorem Text.isBlank_of_isWordChar {c : Char} (h : isWordChar c = true) : isBlank c = false := by
  have hcode : c.toNat = 46 ∨ 48 ≤ c.toNat ∧ c.toNat ≤ 122 := by
    simp only [isWordChar, Char.isAlphanum, isAlpha_iff, Char.isDigit, Bool.or_eq_true,
      Bool.and_eq_true, decide_eq_true_eq, beq_iff_eq, ge_iff_le, Char.le_def,
      UInt32.le_iff_toNat_le, Char.toNat_val] at h
    rcases h with (hletter | rfl) | rfl
    · simp only [Char.reduceToNat] at hletter
      omega
    · decide
    · decide
  simp [isBlank, blankRanges]
  omega

/-- No mark that may stand in a terminal has a blank character. -/
theorem Grammar.isBlankFree_of_mem_symbols :
    ∀ mark ∈ innerSymbols ++ symbols, Text.isBlankFree mark = true := by
  decide

theorem Value.flattenAll_append {values others : List Value} {text other : String}
    (hvalues : flattenAll values = .ok text) (hothers : flattenAll others = .ok other) :
    flattenAll (values ++ others) = .ok (text ++ other) := by
  induction values generalizing text with
  | nil =>
      cases hvalues
      rwa [List.nil_append, String.empty_append]
  | cons value rest ih =>
      rw [flattenAll] at hvalues
      cases hvalue : value.flatten with
      | error e => rw [hvalue] at hvalues; cases hvalues
      | ok first =>
          cases hrest : flattenAll rest with
          | error e => rw [hvalue, hrest] at hvalues; cases hvalues
          | ok last =>
              rw [hvalue, hrest] at hvalues
              cases hvalues
              rw [List.cons_append, flattenAll, hvalue, ih hrest, String.append_assoc]
              rfl

namespace Token

mutual

theorem toList_text : (token : Token) → token.text.toList = Lexeme.chars token.lexemes
  | word text => by simp [Token.text, lexemes, Lexeme.chars, Lexeme.text]
  | symbol text => by simp [Token.text, lexemes, Lexeme.chars, Lexeme.text]
  | group bracket tokens => by
      have htokens := toList_textAll tokens
      simp only [Lexeme.chars] at htokens
      simp [Token.text, lexemes, Lexeme.chars, Lexeme.text, htokens]

theorem toList_textAll : (tokens : List Token) →
    (textAll tokens).toList = Lexeme.chars (lexemesAll tokens)
  | [] => rfl
  | token :: rest => by
      rw [textAll, String.toList_append, toList_text token, toList_textAll rest, lexemesAll]
      simp [Lexeme.chars]

end

mutual

theorem flatten_toValue : (token : Token) → token.toValue.flatten = .ok token.text
  | word text => rfl
  | symbol text => rfl
  | group bracket tokens => by
      have hinner := Value.flattenAll_append (flattenAll_toValues tokens)
        (rfl : Value.flattenAll [.literal bracket.closing] = .ok (bracket.closing ++ ""))
      rw [toValue, Value.flatten, List.cons_append, Value.flattenAll, Value.flatten, hinner, text,
        String.append_empty, String.append_assoc]
      rfl

theorem flattenAll_toValues : (tokens : List Token) →
    Value.flattenAll (toValues tokens) = .ok (textAll tokens)
  | [] => rfl
  | token :: rest => by
      rw [toValues, Value.flattenAll, flatten_toValue token, flattenAll_toValues rest]
      rfl

end

mutual

theorem isBlankFree_of_mem_lexemes {marks : List String} {mark : String}
    (hmarks : ∀ mark ∈ marks, Text.isBlankFree mark = true) :
    (token : Token) → token.WellFormed marks → .mark mark ∈ token.lexemes →
      Text.isBlankFree mark = true
  | word text, _, hmem => by simp [lexemes] at hmem
  | symbol text, htoken, hmem => by
      simp only [lexemes, List.mem_singleton, Lexeme.mark.injEq] at hmem
      exact hmem ▸ hmarks text htoken
  | group bracket tokens, htoken, hmem => by
      simp only [lexemes, List.cons_append, List.mem_cons, List.mem_append, Lexeme.mark.injEq,
        List.not_mem_nil, or_false] at hmem
      rcases hmem with rfl | hmem | rfl
      · cases bracket <;> decide
      · exact isBlankFree_of_mem_lexemesAll Grammar.isBlankFree_of_mem_symbols tokens htoken hmem
      · cases bracket <;> decide

theorem isBlankFree_of_mem_lexemesAll {marks : List String} {mark : String}
    (hmarks : ∀ mark ∈ marks, Text.isBlankFree mark = true) :
    (tokens : List Token) → AllWellFormed marks tokens → .mark mark ∈ lexemesAll tokens →
      Text.isBlankFree mark = true
  | [], _, hmem => by simp [lexemesAll] at hmem
  | token :: rest, htokens, hmem => by
      rw [lexemesAll, List.mem_append] at hmem
      rcases hmem with hmem | hmem
      · exact isBlankFree_of_mem_lexemes hmarks token htokens.1 hmem
      · exact isBlankFree_of_mem_lexemesAll hmarks rest htokens.2 hmem

end

theorem lexemes_ne_nil (token : Token) : token.lexemes ≠ [] := by
  cases token <;> simp [lexemes]

/-- A terminal of an accepted text is a term as it stands. -/
theorem solid_textAll {tokens : List Token} (hne : tokens ≠ [])
    (htokens : AllWellFormed Grammar.symbols tokens)
    (hproper : ∀ lexeme ∈ lexemesAll tokens, lexeme.Proper) : Text.Solid (textAll tokens) := by
  refine ⟨?_, ?_⟩
  · intro hempty
    obtain ⟨token, rest, rfl⟩ := List.exists_cons_of_ne_nil hne
    obtain ⟨lexeme, others, hlexemes⟩ := List.exists_cons_of_ne_nil token.lexemes_ne_nil
    rw [lexemesAll, hlexemes] at hproper
    have hchars := toList_textAll (token :: rest)
    rw [hempty, lexemesAll, hlexemes] at hchars
    have hfirst : lexeme.text.toList = [] := by
      simp only [Lexeme.chars, String.toList_empty, List.cons_append, List.flatMap_cons] at hchars
      exact (List.append_eq_nil_iff.mp hchars.symm).1
    have hlexeme := hproper lexeme List.mem_cons_self
    cases lexeme with
    | word text => exact hlexeme.1 (String.toList_eq_nil_iff.mp hfirst)
    | mark text => exact hlexeme.1 (String.toList_eq_nil_iff.mp hfirst)
  · rw [Text.isBlankFree_iff]
    intro c hc
    rw [toList_textAll, Lexeme.chars, List.mem_flatMap] at hc
    obtain ⟨lexeme, hlexeme, hc⟩ := hc
    cases lexeme with
    | word text => exact Text.isBlank_of_isWordChar ((hproper _ hlexeme).2 c hc)
    | mark text =>
        have hsymbols : ∀ mark ∈ Grammar.symbols, Text.isBlankFree mark = true :=
          fun mark hmark => Grammar.isBlankFree_of_mem_symbols mark (List.mem_append_right _ hmark)
        have hmark := isBlankFree_of_mem_lexemesAll hsymbols tokens htokens hlexeme
        exact Text.isBlankFree_iff.mp hmark c hc

end Token

namespace Formula

theorem wellFormed_of_mem_terminals {formula : Formula} {tokens : List Token}
    (hformula : formula.WellFormed) (h : tokens ∈ formula.terminals) :
    tokens ≠ [] ∧ Token.AllWellFormed Grammar.symbols tokens := by
  induction formula with
  | terminal found =>
      rw [terminals, List.mem_singleton] at h
      exact h ▸ hformula
  | grouped inner ih => exact ih hformula h
  | unary op operand ih =>
      cases op with
      | not => exact ih hformula.1 h
      | previously | once | always => exact ih hformula h
  | binary op left right ihleft ihright =>
      have hoperands : left.WellFormed ∧ right.WellFormed := by
        cases op with
        | implies | connective => exact ⟨hformula.1, hformula.2.1⟩
        | since => exact hformula
      rcases List.mem_append.mp h with h | h
      · exact ihleft hoperands.1 h
      · exact ihright hoperands.2 h

theorem mem_lexemes_of_mem_terminals {formula : Formula} {tokens : List Token} {lexeme : Lexeme}
    (htokens : tokens ∈ formula.terminals) (h : lexeme ∈ Token.lexemesAll tokens) :
    lexeme ∈ formula.lexemes := by
  induction formula with
  | terminal found =>
      rw [terminals, List.mem_singleton] at htokens
      exact htokens ▸ h
  | grouped inner ih => simp [lexemes, ih htokens]
  | unary op operand ih =>
      cases op <;> simp [lexemes, UnaryOp.write, Lexeme.call, ih htokens]
  | binary op left right ihleft ihright =>
      rcases List.mem_append.mp htokens with hleft | hright
      · cases op <;> simp [lexemes, BinaryOp.write, Lexeme.call, ihleft hleft]
      · cases op <;> simp [lexemes, BinaryOp.write, Lexeme.call, ihright hright]

/-- Every lexeme of a terminal of an accepted text is proper. -/
theorem proper_of_parse {text : String} {formula : Formula} (h : parse text = .ok formula)
    {tokens : List Token} (htokens : tokens ∈ formula.terminals) :
    ∀ lexeme ∈ Token.lexemesAll tokens, lexeme.Proper := by
  intro lexeme hlexeme
  have hmem := mem_lexemes_of_mem_terminals htokens hlexeme
  rw [(lexemes_of_parseWithin h).1] at hmem
  exact Lexeme.proper_of_mem_lexemes hmem

theorem solid_of_parse {text : String} {formula : Formula} (h : parse text = .ok formula) :
    ∀ tokens ∈ formula.terminals, Text.Solid (Token.textAll tokens) := by
  intro tokens htokens
  obtain ⟨hne, hwellFormed⟩ := wellFormed_of_mem_terminals (lexemes_of_parseWithin h).2 htokens
  exact Token.solid_textAll hne hwellFormed (proper_of_parse h htokens)

end Formula

end PastTime
