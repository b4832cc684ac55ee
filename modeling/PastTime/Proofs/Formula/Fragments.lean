import PastTime.Proofs.Predicate.Normalization

/-!
# The terms of terminals

A terminal is written out in two ways: token by token, and as a value whose parts are flattened and
squeezed to the text of a term. Both give the same text, whatever the words and symbols are, and
parentheses around the terminal become parentheses around the term. No name is needed for this, so
the source of names stays as it is.
-/

namespace PastTime

/-- The text in pairs of parentheses. -/
def Text.inParentheses (pairs : Nat) (text : String) : String :=
  String.ofList (List.replicate pairs '(') ++ text ++ String.ofList (List.replicate pairs ')')

theorem Term.iterate_parenthesized (pairs : Nat) (text : String) :
    parenthesized^[pairs] ⟨text⟩ = ⟨Text.inParentheses pairs text⟩ := by
  induction pairs with
  | zero => simp [Text.inParentheses]
  | succ pairs ih =>
      -- the pair that is added last stands outside of the others
      have hopening : List.replicate (pairs + 1) '(' = ['('] ++ List.replicate pairs '(' := rfl
      have hclosing : List.replicate (pairs + 1) ')' = List.replicate pairs ')' ++ [')'] :=
        List.replicate_succ'
      rw [Function.iterate_succ_apply', ih, parenthesized, Text.inParentheses, Text.inParentheses,
        hopening, hclosing, String.ofList_append, String.ofList_append]
      simp only [String.append_assoc]

theorem Text.freeVariables_inParentheses (pairs : Nat) (text : String) :
    freeVariables (inParentheses pairs text) = freeVariables text := by
  have hterm := Term.freeVariables_iterate_parenthesized pairs ⟨text⟩
  rwa [Term.iterate_parenthesized] at hterm

namespace Formula

/-- The value of the tokens spells the text of the tokens. -/
theorem toTerm_toValues (tokens : List Token) :
    (Value.sequence (Token.toValues tokens)).toTerm = Term.ofText (Token.textAll tokens) := by
  rw [Value.toTerm, Value.flatten, Token.flattenAll_toValues]
  rfl

/-- The term of tokens in parentheses, unless nothing but blanks is left of them. -/
theorem normalize_iterate_grouped_toValues (tokens : List Token) (pairs : Nat) :
    (Value.grouped^[pairs] (.sequence (Token.toValues tokens))).normalize =
      if Text.squeeze (Token.textAll tokens) = "" then .error .empty
      else .ok (.term ⟨Text.inParentheses pairs (Text.squeeze (Token.textAll tokens))⟩) := by
  rw [Value.normalize_iterate_grouped_fragment rfl, toTerm_toValues, Term.ofText]
  by_cases hempty : Text.squeeze (Token.textAll tokens) = ""
  · rw [if_pos hempty, if_pos hempty]
    rfl
  · rw [if_neg hempty, if_neg hempty, ← Term.iterate_parenthesized]
    rfl

variable {σ : Type} [NameSource σ]

/-- A terminal in parentheses is lowered to a value in as many parentheses. -/
theorem lower_iterate_grouped_terminal (tokens : List Token) (pairs : Nat) :
    ((grouped^[pairs] (terminal tokens)).lower : Build σ Value) =
      pure (Value.grouped^[pairs] (.sequence (Token.toValues tokens))) := by
  induction pairs with
  | zero => rfl
  | succ pairs ih =>
      rw [Function.iterate_succ_apply', lower, ih, pure_bind, Function.iterate_succ_apply']

/-- A terminal in any number of parentheses is lowered without a name being issued or reserved. The
value stands for a term whose text is that of the tokens, less its blanks, in the parentheses, and
whose variables are those of the text without them. There is no term exactly if only blanks, or no
characters at all, are in the text. -/
theorem normalize_lower_terminal (tokens : List Token) (pairs : Nat) (source : σ) :
    ∃ value, (grouped^[pairs] (terminal tokens)).lower.run source = (.ok value, source) ∧
      value.normalize =
        (if Text.squeeze (Token.textAll tokens) = "" then .error .empty
        else .ok (.term ⟨Text.inParentheses pairs (Text.squeeze (Token.textAll tokens))⟩)) ∧
      Text.freeVariables (Text.inParentheses pairs (Text.squeeze (Token.textAll tokens))) =
        Text.freeVariables (Text.squeeze (Token.textAll tokens)) := by
  refine ⟨Value.grouped^[pairs] (.sequence (Token.toValues tokens)), ?_,
    normalize_iterate_grouped_toValues tokens pairs, Text.freeVariables_inParentheses pairs _⟩
  rw [lower_iterate_grouped_terminal]
  rfl

/-- Blanks inside a word go, and brackets that enclose nothing stay. -/
example :
    (Value.grouped^[2] (.sequence (Token.toValues [.word "f\u2003", .group .square [.symbol " "]]))
      ).normalize = .ok (.term ⟨"((f[]))"⟩) := by
  decide

end Formula

end PastTime
