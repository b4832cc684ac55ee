import PastTime.Lexeme.Parser

/-!
# What a parser leaves

`Leaves` is a judgement about a parser: whether it succeeds or fails, the lexemes that its reply
names are the end of its input. There is one law for each combinator, and it covers the failures
that are passed on as well as those that are recovered from.
-/

namespace PastTime

variable {α β : Type}

/-- The lexemes that a success has left, or that stand where a failure arose. -/
def Reply.rest : Reply α → List Lexeme
  | ok _ rest | mismatch rest | tooDeep rest => rest

namespace Parser

/-- Whatever the parser replies, it names an end of the input. -/
def Leaves (parser : Parser α) : Prop := ∀ input, (parser input).rest <:+ input

namespace Leaves

variable {parser : Parser α}

theorem of_eq (hparser : Leaves parser) {input : List Lexeme} {reply : Reply α}
    (h : parser input = reply) : reply.rest <:+ input :=
  h ▸ hparser input

theorem pure (value : α) : Leaves (pure value) := List.suffix_refl

theorem mismatch : Leaves (mismatch : Parser α) := List.suffix_refl

theorem tooDeep : Leaves (tooDeep : Parser α) := List.suffix_refl

theorem next (meaning : Lexeme → Option α) : Leaves (next meaning) := by
  intro input
  cases input with
  | nil => exact List.suffix_refl []
  | cons lexeme rest =>
      simp only [Parser.next]
      split
      next => exact List.suffix_cons lexeme rest
      next => exact List.suffix_refl _

theorem expect (lexeme : Lexeme) : Leaves (expect lexeme) := next _

/-- What is left after the second parser is an end of what is left after the first one. -/
theorem bind {next : α → Parser β} (hparser : Leaves parser)
    (hnext : ∀ value, Leaves (next value)) : Leaves (parser >>= next) := by
  intro input
  change ((parser input).andThen next).rest <:+ input
  cases hreply : parser input with
  | ok value middle => exact (hnext value middle).trans (hparser.of_eq hreply)
  | mismatch rest => exact hparser.of_eq hreply
  | tooDeep rest => exact hparser.of_eq hreply

theorem orElse {first second : Parser α} (hfirst : Leaves first) (hsecond : Leaves second) :
    Leaves (first <|> second) := by
  intro input
  change (Parser.orElse first second input).rest <:+ input
  unfold Parser.orElse
  split
  next hreply => exact hfirst.of_eq hreply
  next => exact hsecond input
  next hreply => exact hfirst.of_eq hreply

theorem optional (hparser : Leaves parser) : Leaves (optional parser) := by
  intro input
  unfold Parser.optional
  split
  next hreply => exact hparser.of_eq hreply
  next => exact List.suffix_refl input
  next hreply => exact hparser.of_eq hreply

theorem notFollowedBy (hparser : Leaves parser) : Leaves (notFollowedBy parser) := by
  intro input
  unfold Parser.notFollowedBy
  split
  next => exact List.suffix_refl input
  next => exact List.suffix_refl input
  next hreply => exact hparser.of_eq hreply

theorem collect {step : Parser (Option α)} (hstep : Leaves step) : Leaves (collect step) := by
  intro input
  fun_induction Parser.collect step input with
  | case1 input rest hreply => exact hstep.of_eq hreply
  | case2 input value rest hreply _ ih =>
      -- where a later round fails, it fails in what this round has left
      have hrest : rest <:+ input := hstep.of_eq hreply
      cases hlater : Parser.collect step rest with
      | ok values last | mismatch last | tooDeep last =>
          rw [hlater] at ih
          exact ih.trans hrest
  | case3 input => exact List.suffix_refl input
  | case4 input rest hreply => exact hstep.of_eq hreply
  | case5 input rest hreply => exact hstep.of_eq hreply

end Leaves

end Parser

end PastTime
