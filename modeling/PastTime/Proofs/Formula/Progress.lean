import PastTime.Proofs.Formula.Completeness
import PastTime.Proofs.Formula.Places
import PastTime.Proofs.Formula.Soundness
import PastTime.Proofs.Formula.Terminals
import PastTime.Proofs.Parser.Advances

/-!
# Progress of the grammar

Nothing that the grammar reads is empty, so its parsers advance and the steps that it repeats are
productive, with whatever room. Since no lexeme is empty either, a parser that advances among the
lexemes of a text moves at least one byte forward in the text.
-/

namespace PastTime

/-! ## Bytes of a text -/

namespace Lexeme

theorem scan_suffix (text : String) (remaining : Nat) :
    scan (suffix text remaining).toList =
      (scan text.toList).drop ((scan text.toList).length - remaining) := by
  cases hdrop : (scan text.toList).drop ((scan text.toList).length - remaining) with
  | nil => simp only [suffix, hdrop, String.toList_empty, scan]
  | cons first rest =>
      simp only [suffix, hdrop, String.toList_ofList]
      exact (scan_drop hdrop).2.1

/-- The text from a later lexeme on can be found from an earlier one. -/
theorem suffix_suffix {text : String} {more fewer : Nat} (hfewer : fewer ≤ more)
    (hmore : more ≤ (lexemes text).length) :
    suffix (suffix text more) fewer = suffix text fewer := by
  have hdrop : (scan (suffix text more).toList).drop
      ((scan (suffix text more).toList).length - fewer) =
        (scan text.toList).drop ((scan text.toList).length - fewer) := by
    rw [lexemes, List.length_map] at hmore
    rw [scan_suffix, List.length_drop, List.drop_drop]
    congr 1
    omega
  rw [suffix]
  simp only [hdrop]
  rfl

end Lexeme

/-- Where fewer lexemes are left, a later byte of the text comes next. -/
theorem Place.offset_lt {text : String} {input rest : List Lexeme}
    (hinput : input <:+ Lexeme.lexemes text) (hrest : rest <:+ input)
    (hlt : rest.length < input.length) :
    (ofRemaining text input.length).offset < (ofRemaining text rest.length).offset := by
  obtain ⟨front, hfront, hlexemes, -⟩ := Lexeme.suffix_spec hinput
  obtain ⟨between, hbetween, hlater, -⟩ := Lexeme.suffix_spec (hlexemes.symm ▸ hrest)
  rw [Lexeme.suffix_suffix hlt.le hinput.length_le] at hbetween hlater
  have hne : between ≠ "" := by
    rintro rfl
    rw [String.empty_append] at hbetween
    rw [hbetween, hlater] at hlexemes
    exact absurd (congrArg List.length hlexemes) hlt.ne
  have hpos : between.utf8ByteSize ≠ 0 := fun hzero =>
    hne (String.utf8ByteSize_eq_zero_iff.mp hzero)
  have htext := congrArg String.utf8ByteSize hfront
  have hsuffix := congrArg String.utf8ByteSize hbetween
  rw [String.utf8ByteSize_append] at htext hsuffix
  simp only [ofRemaining]
  omega

/-- Wherever in the text the parser succeeds, it uses up at least one byte. -/
def Parser.UsesBytes {α : Type} (text : String) (parser : Parser α) : Prop :=
  ∀ input value rest, input <:+ Lexeme.lexemes text → parser input = .ok value rest →
    (Place.ofRemaining text input.length).offset < (Place.ofRemaining text rest.length).offset

theorem Parser.Advances.usesBytes {α : Type} {parser : Parser α} (h : Advances parser)
    (hleaves : Leaves parser) (text : String) : UsesBytes text parser := by
  intro input value rest hinput hok
  exact Place.offset_lt hinput (hleaves.of_eq hok) (h input value rest hok)

/-! ## What is read is not empty -/

theorem Formula.lexemes_ne_nil {formula : Formula} (h : formula.WellFormed) :
    formula.lexemes ≠ [] := by
  cases formula with
  | terminal tokens =>
      obtain ⟨token, rest, rfl⟩ := List.exists_cons_of_ne_nil h.1
      rw [lexemes, Token.lexemesAll]
      exact List.append_ne_nil_of_left_ne_nil token.lexemes_ne_nil _
  | grouped inner => simp [lexemes]
  | unary op operand => cases op <;> simp [lexemes, UnaryOp.write, Lexeme.call]
  | binary op left right => cases op <;> simp [lexemes, BinaryOp.write, Lexeme.call]

namespace Grammar

open PastTime.Parser

theorem Written.ne_nil {tightness : Nat} (formula : Formula) (used : List Lexeme)
    (h : Written tightness formula used) : used ≠ [] := by
  obtain ⟨rfl, hformula, -⟩ := h
  exact formula.lexemes_ne_nil hformula

theorem printed_token_ne_nil {marks : List String} (token : Token) (used : List Lexeme)
    (h : Printed Token.lexemes (Token.WellFormed marks) token used) : used ≠ [] := by
  obtain ⟨rfl, -⟩ := h
  exact token.lexemes_ne_nil

theorem advances_piece (room : Nat) : Advances (piece room) :=
  (reads_piece room).advances printed_token_ne_nil

theorem advances_groupToken (room : Nat) : Advances (groupToken room) :=
  (reads_groupToken room).advances printed_token_ne_nil

theorem advances_level (room : Nat) : Advances (unary room) ∧ Advances (predicate room) :=
  ⟨(reads_level room).1.advances Written.ne_nil, (reads_level room).2.advances Written.ne_nil⟩

/-! ## What is repeated -/

/-- The steps that the parsers with the given room repeat: the pieces of a terminal, the tokens of a
group, and the links of the three chains. -/
inductive Repetition (room : Nat) : {α : Type} → Parser (Option α) → Prop
  | pieces : Repetition room (optional (piece room))
  | tokens : Repetition room (optional (groupToken room))
  | equality : Repetition room (link [.equal, .notEqual] (unary room))
  | conjunction : Repetition room (link [.and] (chain [.equal, .notEqual] (unary room)))
  | disjunction :
    Repetition room (link [.or] (chain [.and] (chain [.equal, .notEqual] (unary room))))

theorem productive_link {connectives : List Connective} {operand : Parser Formula}
    {tightness : Nat} (hconnectives : ∀ c ∈ connectives, c.tightness = tightness)
    (hoperand : Reads operand (Written (tightness + 1))) :
    Productive (link connectives operand) := by
  refine (reads_link hconnectives hoperand).productive ?_
  rintro link used ⟨rfl, -⟩
  exact List.cons_ne_nil _ _

theorem Repetition.productive {room : Nat} {α : Type} {step : Parser (Option α)}
    (h : Repetition room step) : Productive step := by
  have hunary := (reads_level room).1
  have hequality : Reads (chain [.equal, .notEqual] (unary room)) (Written 3) :=
    reads_chain (by decide) hunary
  have hconjunction : Reads (chain [.and] (chain [.equal, .notEqual] (unary room))) (Written 2) :=
    reads_chain (by decide) hequality
  cases h with
  | pieces => exact (reads_piece room).optional.productive printed_token_ne_nil
  | tokens => exact (reads_groupToken room).optional.productive printed_token_ne_nil
  | equality => exact productive_link (by decide) hunary
  | conjunction => exact productive_link (by decide) hequality
  | disjunction => exact productive_link (by decide) hconjunction

end Grammar

end PastTime
