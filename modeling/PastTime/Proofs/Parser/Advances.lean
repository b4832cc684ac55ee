import PastTime.Proofs.Parser.Reads

/-!
# Parsers that advance

A parser that advances uses up a lexeme whenever it succeeds. A repetition of a step that advances
ends because its input gets shorter in every round, and the check for rounds that read nothing new
is never the reason why it ends: `Repeats` is the repetition without this check, and it has the
reply of `collect` and no other.
-/

namespace PastTime.Parser

variable {α : Type}

/-- Every success uses up a lexeme. -/
def Advances (parser : Parser α) : Prop :=
  ∀ input value rest, parser input = .ok value rest → rest.length < input.length

/-- Every round of the repetition that reads a value uses up a lexeme. -/
def Productive (step : Parser (Option α)) : Prop :=
  ∀ input value rest, step input = .ok (some value) rest → rest.length < input.length

namespace Reads

variable {From : α → List Lexeme → Prop}

theorem length_lt {parser : Parser α} (h : Reads parser From) {input rest : List Lexeme} {value : α}
    (hok : parser input = .ok value rest) (hne : ∀ used, From value used → used ≠ []) :
    rest.length < input.length := by
  obtain ⟨used, rfl, hfrom⟩ := h input value rest hok
  have hpos := List.length_pos_iff.mpr (hne used hfrom)
  rw [List.length_append]
  omega

theorem advances {parser : Parser α} (h : Reads parser From)
    (hne : ∀ value used, From value used → used ≠ []) : Advances parser := by
  intro input value rest hok
  exact h.length_lt hok (hne value)

theorem productive {step : Parser (Option α)}
    (h : Reads step fun found used => found.elim (used = []) (From · used))
    (hne : ∀ value used, From value used → used ≠ []) : Productive step := by
  intro input value rest hok
  exact h.length_lt hok (hne value)

end Reads

/-! ## Repetition without a check -/

/-- The repetition of a step ends with the reply, where no round is checked for progress. -/
inductive Repeats (step : Parser (Option α)) : List Lexeme → Reply (List α) → Prop
  | stop {input rest : List Lexeme} (h : step input = .ok none rest) :
    Repeats step input (.ok [] rest)
  | round {input rest : List Lexeme} {value : α} {reply : Reply (List α)}
    (h : step input = .ok (some value) rest) (hlater : Repeats step rest reply) :
    Repeats step input (reply.andThen fun values rest => .ok (value :: values) rest)
  | mismatch {input rest : List Lexeme} (h : step input = .mismatch rest) :
    Repeats step input (.mismatch rest)
  | tooDeep {input rest : List Lexeme} (h : step input = .tooDeep rest) :
    Repeats step input (.tooDeep rest)

namespace Productive

variable {step : Parser (Option α)}

theorem collect_of_repeats (hstep : Productive step) {input : List Lexeme}
    {reply : Reply (List α)} (h : Repeats step input reply) : collect step input = reply := by
  induction h with
  | stop h => rw [collect, h]
  | round h _ ih =>
      rw [collect, h]
      simp only [hstep _ _ _ h, ↓reduceIte, ih]
  | mismatch h => rw [collect, h]
  | tooDeep h => rw [collect, h]

theorem repeats_collect (hstep : Productive step) (input : List Lexeme) :
    Repeats step input (collect step input) := by
  fun_induction collect step input with
  | case1 input rest h => exact .stop h
  | case2 input value rest h _ ih => exact .round h ih
  | case3 input value rest h hstuck => exact absurd (hstep input value rest h) hstuck
  | case4 input rest h => exact .mismatch h
  | case5 input rest h => exact .tooDeep h

/-- The check for progress does not show in what is collected. -/
theorem repeats_iff (hstep : Productive step) {input : List Lexeme} {reply : Reply (List α)} :
    Repeats step input reply ↔ collect step input = reply := by
  refine ⟨hstep.collect_of_repeats, ?_⟩
  rintro rfl
  exact hstep.repeats_collect input

end Productive

end PastTime.Parser
