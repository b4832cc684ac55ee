import PastTime.Proofs.Formula.Printing

/-!
# The language of the grammar

The rules of `Grammar.ebnf` as data, and the lexeme sequences that can be derived from them. A
family of languages that is closed under the rules contains every derivable sequence. Every
well-formed formula is written with a derivable sequence.
-/

namespace PastTime.Grammar

/-- The names of the rules. -/
inductive Rule where
  | predicate
  | implication
  | disjunction
  | conjunction
  | equality
  | unary
  | temporal
  | primary
  | terminal
  | piece
  | group
  | groupToken
  | word
  | symbol
  deriving DecidableEq, Repr

/-- The right-hand side of a rule. -/
inductive Ebnf where
  | keyword (text : String)
  | mark (text : String)
  /-- Any word that is no keyword. -/
  | anyWord
  /-- One of several marks. -/
  | anyMark (texts : List String)
  | rule (name : Rule)
  | seq (first second : Ebnf)
  | choice (first second : Ebnf)
  /-- Written in square brackets. -/
  | optional (inner : Ebnf)
  /-- Written in braces. -/
  | repeated (inner : Ebnf)
  deriving DecidableEq, Repr

namespace Ebnf

/-- Operands of a rule, joined by one of several marks. -/
def joined (operand : Rule) (marks : List String) : Ebnf :=
  (rule operand).seq (repeated ((anyMark marks).seq (rule operand)))

/-- Something in brackets. -/
def enclosed (bracket : Bracket) (inner : Ebnf) : Ebnf :=
  (mark bracket.opening).seq (inner.seq (mark bracket.closing))

/-- A keyword applied to something in parentheses. -/
def call (text : String) (operands : Ebnf) : Ebnf := (keyword text).seq (enclosed .round operands)

end Ebnf

open Ebnf in
/-- What a rule stands for. -/
def Rule.definition : Rule → Ebnf
  | predicate => rule implication
  | implication => (rule disjunction).seq (optional ((mark "->").seq (rule implication)))
  | disjunction => joined conjunction ["||"]
  | conjunction => joined equality ["&&"]
  | equality => joined unary ["==", "!="]
  | unary => choice ((mark "!").seq (rule unary)) (choice (rule temporal) (rule primary))
  | temporal =>
    choice (call "previously" (rule predicate)) <|
    choice (call "once" (rule predicate)) <|
    choice (call "always" (rule predicate)) <|
    call "since" ((rule predicate).seq ((mark ",").seq (rule predicate)))
  | primary => choice (enclosed .round (rule predicate)) (rule terminal)
  | terminal => (rule piece).seq (repeated (rule piece))
  | piece => choice (rule word) (choice (rule symbol) (rule group))
  | group =>
    choice (enclosed .round (repeated (rule groupToken)))
      (enclosed .square (repeated (rule groupToken)))
  | groupToken =>
    choice (rule word) <| choice (rule group) <| choice (rule symbol) <|
    anyMark ["&&", "||", "==", "!=", "->", "!", ",", "?", ":", "="]
  | word => anyWord
  | symbol =>
    anyMark ["<<", ">>", "<=", ">=", "**", "<", ">", "+", "-", "*", "/", "%", "^", "&", "|", "~"]

/-- The lexemes can be derived from the right-hand side of a rule. -/
inductive Derives : Ebnf → List Lexeme → Prop
  | keyword (text : String) : Derives (.keyword text) [.word text]
  | mark (text : String) : Derives (.mark text) [.mark text]
  | anyWord {text : String} (h : text ∉ keywords) : Derives .anyWord [.word text]
  | anyMark {text : String} {texts : List String} (h : text ∈ texts) :
      Derives (.anyMark texts) [.mark text]
  | rule {name : Rule} {used : List Lexeme} (h : Derives name.definition used) :
      Derives (.rule name) used
  | seq {first second : Ebnf} {front back : List Lexeme} (hfirst : Derives first front)
      (hsecond : Derives second back) : Derives (.seq first second) (front ++ back)
  | left {first second : Ebnf} {used : List Lexeme} (h : Derives first used) :
      Derives (.choice first second) used
  | right {first second : Ebnf} {used : List Lexeme} (h : Derives second used) :
      Derives (.choice first second) used
  | absent {inner : Ebnf} : Derives (.optional inner) []
  | present {inner : Ebnf} {used : List Lexeme} (h : Derives inner used) :
      Derives (.optional inner) used
  | stop {inner : Ebnf} : Derives (.repeated inner) []
  | again {inner : Ebnf} {front back : List Lexeme} (hfirst : Derives inner front)
      (hothers : Derives (.repeated inner) back) : Derives (.repeated inner) (front ++ back)

/-! ## Closed families of languages -/

/-- The lexemes match the right-hand side of a rule, when every rule in it stands for a language. -/
def Ebnf.Matches (language : Rule → List Lexeme → Prop) : Ebnf → List Lexeme → Prop
  | keyword text, used => used = [.word text]
  | mark text, used => used = [.mark text]
  | anyWord, used => ∃ text, text ∉ keywords ∧ used = [.word text]
  | anyMark texts, used => ∃ text ∈ texts, used = [.mark text]
  | rule name, used => language name used
  | seq first second, used =>
    ∃ front back, used = front ++ back ∧ first.Matches language front ∧ second.Matches language back
  | choice first second, used => first.Matches language used ∨ second.Matches language used
  | optional inner, used => used = [] ∨ inner.Matches language used
  | repeated inner, used =>
    ∃ parts : List (List Lexeme), used = parts.flatten ∧ ∀ part ∈ parts, inner.Matches language part

/-- Derivable lexemes belong to every family of languages that is closed under the rules. -/
theorem Derives.matches {language : Rule → List Lexeme → Prop}
    (hclosed : ∀ name used, name.definition.Matches language used → language name used)
    {expression : Ebnf} {used : List Lexeme} (h : Derives expression used) :
    expression.Matches language used := by
  induction h with
  | keyword text => rfl
  | mark text => rfl
  | anyWord h => exact ⟨_, h, rfl⟩
  | anyMark h => exact ⟨_, h, rfl⟩
  | rule _ ih => exact hclosed _ _ ih
  | seq _ _ ihfirst ihsecond => exact ⟨_, _, rfl, ihfirst, ihsecond⟩
  | left _ ih => exact Or.inl ih
  | right _ ih => exact Or.inr ih
  | absent => exact Or.inl rfl
  | present _ ih => exact Or.inr ih
  | stop => exact ⟨[], rfl, by simp⟩
  | again _ _ ihfirst ihothers =>
      obtain ⟨parts, rfl, hparts⟩ := ihothers
      refine ⟨_ :: parts, rfl, ?_⟩
      intro part hpart
      rcases List.mem_cons.mp hpart with rfl | hpart
      · exact ihfirst
      · exact hparts part hpart

/-! ## Well-formed formulas are derivable -/

namespace Derives

/-- A repetition may go on behind its last part. -/
theorem repeated_append {inner : Ebnf} {front back : List Lexeme}
    (hfront : Derives (.repeated inner) front) (hback : Derives inner back) :
    Derives (.repeated inner) (front ++ back) := by
  generalize hrepeated : Ebnf.repeated inner = expression at hfront
  induction hfront with
  | stop =>
      cases hrepeated
      simpa using Derives.again hback .stop
  | again hfirst _ _ ih =>
      cases hrepeated
      rw [List.append_assoc]
      exact .again hfirst (ih rfl)
  | _ => cases hrepeated

/-- Operands may be joined to the right of joined operands. -/
theorem joined_append {operand : Rule} {marks : List String} {left right : List Lexeme}
    {text : String} (hleft : Derives (.joined operand marks) left) (htext : text ∈ marks)
    (hright : Derives (.rule operand) right) :
    Derives (.joined operand marks) (left ++ .mark text :: right) := by
  cases hleft with
  | seq hfirst hothers =>
      rw [List.append_assoc]
      exact .seq hfirst (hothers.repeated_append (.seq (.anyMark htext) hright))

theorem joined_single {operand : Rule} {marks : List String} {used : List Lexeme}
    (h : Derives (.rule operand) used) : Derives (.joined operand marks) used := by
  have hsingle : Derives (.joined operand marks) (used ++ []) := .seq h .stop
  rwa [List.append_nil] at hsingle

theorem enclosed (bracket : Bracket) {inner : Ebnf} {used : List Lexeme} (h : Derives inner used) :
    Derives (.enclosed bracket inner)
      (.mark bracket.opening :: used ++ [.mark bracket.closing]) := by
  have henclosed := Derives.seq (.mark bracket.opening) (.seq h (.mark bracket.closing))
  exact henclosed

theorem call (text : String) {operands : Ebnf} {used : List Lexeme} (h : Derives operands used) :
    Derives (.call text operands) (Lexeme.call text used) := by
  have hcall := Derives.seq (.keyword text) (enclosed .round h)
  exact hcall

end Derives

mutual

theorem derives_groupToken {token : Token} (h : token.WellFormed (innerSymbols ++ symbols)) :
    Derives (.rule .groupToken) token.lexemes := by
  cases token with
  | word text => exact .rule (.left (.rule (.anyWord h)))
  | symbol text =>
      rcases List.mem_append.mp h with h | h
      · exact .rule (.right (.right (.right (.anyMark h))))
      · exact .rule (.right (.right (.left (.rule (.anyMark h)))))
  | group bracket tokens =>
      have htokens := Derives.enclosed bracket (derives_groupTokens h)
      cases bracket with
      | round => exact .rule (.right (.left (.rule (.left htokens))))
      | square => exact .rule (.right (.left (.rule (.right htokens))))

theorem derives_groupTokens {tokens : List Token}
    (h : Token.AllWellFormed (innerSymbols ++ symbols) tokens) :
    Derives (.repeated (.rule .groupToken)) (Token.lexemesAll tokens) := by
  cases tokens with
  | nil => exact .stop
  | cons token rest => exact .again (derives_groupToken h.1) (derives_groupTokens h.2)

end

theorem derives_piece {token : Token} (h : token.WellFormed symbols) :
    Derives (.rule .piece) token.lexemes := by
  cases token with
  | word text => exact .rule (.left (.rule (.anyWord h)))
  | symbol text => exact .rule (.right (.left (.rule (.anyMark h))))
  | group bracket tokens =>
      have htokens := Derives.enclosed bracket (derives_groupTokens h)
      cases bracket with
      | round => exact .rule (.right (.right (.rule (.left htokens))))
      | square => exact .rule (.right (.right (.rule (.right htokens))))

theorem derives_pieces {tokens : List Token} (h : Token.AllWellFormed symbols tokens) :
    Derives (.repeated (.rule .piece)) (Token.lexemesAll tokens) := by
  induction tokens with
  | nil => exact .stop
  | cons token rest ih => exact .again (derives_piece h.1) (ih h.2)

/-- The rule for the formulas that bind at least so tightly. -/
def ruleAt : (tightness : Nat) → Rule
  | 0 => .implication
  | 1 => .disjunction
  | 2 => .conjunction
  | 3 => .equality
  | _ => .unary

/-- What binds more tightly can stand where less is asked for. -/
theorem derives_looser {looser tightness : Nat} (hle : looser ≤ tightness) {used : List Lexeme}
    (h : Derives (.rule (ruleAt tightness)) used) : Derives (.rule (ruleAt looser)) used := by
  induction tightness with
  | zero => rwa [Nat.le_zero.mp hle]
  | succ tightness ih =>
      rcases Nat.lt_or_eq_of_le hle with hlt | rfl
      · apply ih (Nat.le_of_lt_succ hlt)
        -- each rule derives what the next tighter one derives, with nothing joined to it
        match tightness with
        | 0 =>
            have hsingle : Derives Rule.implication.definition (used ++ []) := .seq h .absent
            rw [List.append_nil] at hsingle
            exact .rule hsingle
        | 1 | 2 | 3 => exact .rule (.joined_single h)
        | _ + 4 => exact h
      · exact h

theorem derives_connective (c : Connective) {left right : List Lexeme}
    (hleft : Derives (.rule (ruleAt c.tightness)) left)
    (hright : Derives (.rule (ruleAt (c.tightness + 1))) right) :
    Derives (.rule (ruleAt c.tightness)) (left ++ .mark c.symbol :: right) := by
  cases c <;> cases hleft <;>
    exact .rule (.joined_append (by assumption) (by decide) hright)

/-- A well-formed formula is derived from the rule for its outermost operator. -/
theorem derives_of_wellFormed {formula : Formula} (h : formula.WellFormed) :
    Derives (.rule (ruleAt formula.tightness)) formula.lexemes := by
  induction formula with
  | terminal tokens =>
      obtain ⟨hne, htokens⟩ := h
      cases tokens with
      | nil => exact absurd rfl hne
      | cons token rest =>
          exact .rule (.right (.right (.rule (.right (.rule
            (.seq (derives_piece htokens.1) (derives_pieces htokens.2)))))))
  | grouped inner ih =>
      have hinner := derives_looser (Nat.zero_le _) (ih h)
      exact .rule (.right (.right (.rule (.left (.enclosed .round (.rule hinner))))))
  | unary op operand ih =>
      cases op with
      | not =>
          obtain ⟨hoperand, htight⟩ := h
          rw [htight] at ih
          exact .rule (.left (.seq (.mark "!") (ih hoperand)))
      | previously =>
          have hoperand := derives_looser (Nat.zero_le _) (ih h)
          exact .rule (.right (.left (.rule (.left (.call _ (.rule hoperand))))))
      | once =>
          have hoperand := derives_looser (Nat.zero_le _) (ih h)
          exact .rule (.right (.left (.rule (.right (.left (.call _ (.rule hoperand)))))))
      | always =>
          have hoperand := derives_looser (Nat.zero_le _) (ih h)
          exact .rule (.right (.left (.rule (.right (.right (.left (.call _ (.rule hoperand))))))))
  | binary op left right ihleft ihright =>
      cases op with
      | implies =>
          obtain ⟨hleft, hright, htight⟩ := h
          have hleft := derives_looser htight (ihleft hleft)
          have hright := derives_looser (Nat.zero_le _) (ihright hright)
          exact .rule (.seq hleft (.present (.seq (.mark "->") hright)))
      | connective c =>
          obtain ⟨hleft, hright, hle, hlt⟩ := h
          exact derives_connective c (derives_looser hle (ihleft hleft))
            (derives_looser hlt (ihright hright))
      | since =>
          have hleft := derives_looser (Nat.zero_le _) (ihleft h.1)
          have hright := derives_looser (Nat.zero_le _) (ihright h.2)
          exact .rule (.right (.left (.rule (.right (.right (.right
            (.call _ (.seq (.rule hleft) (.seq (.mark ",") (.rule hright))))))))))

theorem derives_predicate {formula : Formula} (h : formula.WellFormed) :
    Derives (.rule .predicate) formula.lexemes :=
  .rule (derives_looser (Nat.zero_le _) (derives_of_wellFormed h))

end PastTime.Grammar
