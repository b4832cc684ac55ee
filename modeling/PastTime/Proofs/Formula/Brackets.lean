import PastTime.Proofs.Formula.Ebnf

/-!
# Matching brackets

Every derivable sequence of lexemes is balanced, so a bracket that closes it is found without
knowing how the sequence was derived.
-/

namespace PastTime.Grammar

/-- The lexeme opens or closes no bracket. -/
def IsPlain (lexeme : Lexeme) : Prop :=
  ∀ bracket : Bracket, lexeme ≠ .mark bracket.opening ∧ lexeme ≠ .mark bracket.closing

theorem isPlain_word (text : String) : IsPlain (.word text) := by
  intro bracket
  exact ⟨by simp, by simp⟩

theorem isPlain_mark {text : String} (h : text ∉ ["(", ")", "[", "]"]) : IsPlain (.mark text) := by
  simp only [List.mem_cons, List.not_mem_nil, or_false, not_or] at h
  intro bracket
  cases bracket <;> simp [Bracket.opening, Bracket.closing, h]

/-- Brackets are closed in the order in which they were opened, each by its own kind. -/
inductive Balanced : List Lexeme → Prop
  | nil : Balanced []
  | plain {lexeme : Lexeme} {rest : List Lexeme} (hplain : IsPlain lexeme) (hrest : Balanced rest) :
      Balanced (lexeme :: rest)
  | enclosed (bracket : Bracket) {inner rest : List Lexeme} (hinner : Balanced inner)
      (hrest : Balanced rest) :
      Balanced (.mark bracket.opening :: inner ++ .mark bracket.closing :: rest)

namespace Balanced

theorem append {front back : List Lexeme} (hfront : Balanced front) (hback : Balanced back) :
    Balanced (front ++ back) := by
  induction hfront with
  | nil => exact hback
  | plain hplain _ ih => exact .plain hplain ih
  | @enclosed bracket inner rest hinner _ _ ih =>
      have h := Balanced.enclosed bracket hinner ih
      simpa using h

theorem flatten {parts : List (List Lexeme)} (h : ∀ part ∈ parts, Balanced part) :
    Balanced parts.flatten := by
  induction parts with
  | nil => exact .nil
  | cons part parts ih =>
      exact (h part List.mem_cons_self).append (ih fun other hother => h other (by simp [hother]))

theorem brackets (bracket : Bracket) {inner : List Lexeme} (hinner : Balanced inner) :
    Balanced (.mark bracket.opening :: inner ++ [.mark bracket.closing]) :=
  .enclosed bracket hinner .nil

theorem head_ne_closing {lexeme : Lexeme} {rest : List Lexeme} (h : Balanced (lexeme :: rest))
    (bracket : Bracket) : lexeme ≠ .mark bracket.closing := by
  cases h with
  | plain hplain _ => exact (hplain bracket).2
  | enclosed other _ _ => cases other <;> cases bracket <;> decide

theorem of_plain {lexeme : Lexeme} {rest : List Lexeme} (h : Balanced (lexeme :: rest))
    (hplain : IsPlain lexeme) : Balanced rest := by
  cases h with
  | plain _ hrest => exact hrest
  | enclosed bracket _ _ => exact absurd rfl (hplain bracket).1

/-- A bracket that a balanced sequence begins with is closed in it. -/
theorem of_opening {bracket : Bracket} {rest : List Lexeme}
    (h : Balanced (.mark bracket.opening :: rest)) :
    ∃ inner after, rest = inner ++ .mark bracket.closing :: after ∧ Balanced inner ∧
      Balanced after := by
  generalize hwhole : Lexeme.mark bracket.opening :: rest = whole at h
  cases h with
  | nil => cases hwhole
  | plain hplain _ => exact absurd (List.cons.inj hwhole).1.symm (hplain bracket).1
  | @enclosed other inner after hinner hafter =>
      obtain ⟨hopening, rfl⟩ := List.cons.inj hwhole
      have hsame : bracket = other := by
        revert hopening
        cases bracket <;> cases other <;> decide
      subst hsame
      exact ⟨inner, after, rfl, hinner, hafter⟩

/-- The bracket that closes a balanced sequence is the first that closes more than was opened. -/
theorem eq_of_closing {front other : List Lexeme} (hfront : Balanced front)
    (hother : Balanced other) (bracket bracket' : Bracket) {rest rest' : List Lexeme}
    (h : front ++ .mark bracket.closing :: rest = other ++ .mark bracket'.closing :: rest') :
    front = other := by
  induction hfront generalizing other bracket bracket' rest rest' with
  | nil =>
      cases hother with
      | nil => rfl
      | plain hplain _ => exact absurd (List.cons.inj h).1.symm (hplain bracket).2
      | enclosed inner hinner hrest =>
          exact absurd (List.cons.inj h).1.symm
            ((Balanced.enclosed inner hinner hrest).head_ne_closing bracket)
  | plain hplain _ ih =>
      cases hother with
      | nil => exact absurd (List.cons.inj h).1 (hplain bracket').2
      | plain _ hrest =>
          obtain ⟨rfl, hrests⟩ := List.cons.inj h
          rw [ih hrest _ _ hrests]
      | enclosed inner _ _ => exact absurd (List.cons.inj h).1 (hplain inner).1
  | @enclosed outer inner after hinner hafter ihinner ihafter =>
      cases hother with
      | nil =>
          exact absurd (List.cons.inj h).1
            ((Balanced.enclosed outer hinner hafter).head_ne_closing bracket')
      | plain hplain _ => exact absurd (List.cons.inj h).1.symm (hplain outer).1
      | @enclosed outer' inner' after' hinner' hafter' =>
          simp only [List.cons_append, List.append_assoc, List.cons.injEq] at h
          obtain ⟨houter, h⟩ := h
          have hsame : outer = outer' := by
            revert houter
            cases outer <;> cases outer' <;> decide
          subst hsame
          obtain rfl := ihinner hinner' _ _ h
          have hrest := (List.cons.inj (List.append_cancel_left h)).2
          rw [ihafter hafter' _ _ hrest]

end Balanced

theorem balanced_joined {operand : Rule} {marks : List String} {used : List Lexeme}
    (hmarks : ∀ text ∈ marks, text ∉ ["(", ")", "[", "]"])
    (h : (Ebnf.joined operand marks).Matches (fun _ => Balanced) used) : Balanced used := by
  obtain ⟨first, _, rfl, hfirst, parts, rfl, hparts⟩ := h
  refine Balanced.append hfirst (Balanced.flatten fun part hpart => ?_)
  obtain ⟨_, operand, rfl, ⟨text, htext, rfl⟩, hoperand⟩ := hparts part hpart
  exact .plain (isPlain_mark (hmarks text htext)) hoperand

theorem balanced_enclosed {bracket : Bracket} {inner : Ebnf} {used : List Lexeme}
    (hinner : ∀ used, inner.Matches (fun _ => Balanced) used → Balanced used)
    (h : (Ebnf.enclosed bracket inner).Matches (fun _ => Balanced) used) : Balanced used := by
  obtain ⟨_, _, rfl, rfl, used, _, rfl, hused, rfl⟩ := h
  exact (hinner used hused).brackets bracket

theorem balanced_call {text : String} {operands : Ebnf} {used : List Lexeme}
    (hoperands : ∀ used, operands.Matches (fun _ => Balanced) used → Balanced used)
    (h : (Ebnf.call text operands).Matches (fun _ => Balanced) used) : Balanced used := by
  obtain ⟨_, _, rfl, rfl, hused⟩ := h
  exact .plain (isPlain_word text) (balanced_enclosed hoperands hused)

theorem balanced_repeated {name : Rule} {used : List Lexeme}
    (h : (Ebnf.repeated (.rule name)).Matches (fun _ => Balanced) used) : Balanced used := by
  obtain ⟨parts, rfl, hparts⟩ := h
  exact Balanced.flatten hparts

theorem balanced_anyMark {marks : List String} {used : List Lexeme}
    (hmarks : ∀ text ∈ marks, text ∉ ["(", ")", "[", "]"])
    (h : (Ebnf.anyMark marks).Matches (fun _ => Balanced) used) : Balanced used := by
  obtain ⟨text, htext, rfl⟩ := h
  exact .plain (isPlain_mark (hmarks text htext)) .nil

/-- Balanced sequences are closed under every rule of the grammar. -/
theorem balanced_closed (name : Rule) (used : List Lexeme)
    (h : name.definition.Matches (fun _ => Balanced) used) : Balanced used := by
  cases name with
  | predicate => exact h
  | implication =>
      obtain ⟨left, _, rfl, hleft, rfl | ⟨_, right, rfl, rfl, hright⟩⟩ := h
      · exact hleft.append .nil
      · exact hleft.append (.plain (isPlain_mark (by decide)) hright)
  | disjunction => exact balanced_joined (by decide) h
  | conjunction => exact balanced_joined (by decide) h
  | equality => exact balanced_joined (by decide) h
  | unary =>
      rcases h with ⟨_, operand, rfl, rfl, hoperand⟩ | h | h
      · exact .plain (isPlain_mark (by decide)) hoperand
      · exact h
      · exact h
  | temporal =>
      rcases h with h | h | h | h
      · exact balanced_call (fun _ => id) h
      · exact balanced_call (fun _ => id) h
      · exact balanced_call (fun _ => id) h
      · refine balanced_call ?_ h
        intro inner h
        obtain ⟨left, _, rfl, hleft, _, right, rfl, rfl, hright⟩ := h
        exact hleft.append (.plain (isPlain_mark (by decide)) hright)
  | primary =>
      rcases h with h | h
      · exact balanced_enclosed (fun _ => id) h
      · exact h
  | terminal =>
      obtain ⟨first, _, rfl, hfirst, hothers⟩ := h
      exact Balanced.append hfirst (balanced_repeated hothers)
  | piece => rcases h with h | h | h <;> exact h
  | group => rcases h with h | h <;> exact balanced_enclosed (fun _ => balanced_repeated) h
  | groupToken =>
      rcases h with h | h | h | h
      · exact h
      · exact h
      · exact h
      · exact balanced_anyMark (by decide) h
  | word =>
      obtain ⟨text, _, rfl⟩ := h
      exact .plain (isPlain_word text) .nil
  | symbol => exact balanced_anyMark (by decide) h

theorem Derives.balanced {name : Rule} {used : List Lexeme} (h : Derives (.rule name) used) :
    Balanced used :=
  h.matches balanced_closed

end PastTime.Grammar
