import PastTime.Proofs.Parser.Takes

/-!
# Giving up earlier

A reply is below another one if it is the same, or if the reading was given up because the text
nests too deep. A parser is below another one if all its replies are. Every combinator keeps this
order, because none of them recovers from giving up.
-/

namespace PastTime

variable {α β : Type}

/-- The reply is the other one, unless the whole reading was given up. -/
def Reply.Below (reply other : Reply α) : Prop :=
  reply = other ∨ ∃ left, reply = .tooDeep left

namespace Reply.Below

theorem refl (reply : Reply α) : reply.Below reply := Or.inl rfl

theorem trans {first second third : Reply α} (h : first.Below second) (h' : second.Below third) :
    first.Below third := by
  rcases h with rfl | hleft
  · exact h'
  · exact Or.inr hleft

theorem andThen {first second : Reply α} {next other : α → List Lexeme → Reply β}
    (h : first.Below second) (hnext : ∀ value rest, (next value rest).Below (other value rest)) :
    (first.andThen next).Below (second.andThen other) := by
  rcases h with rfl | ⟨left, rfl⟩
  · cases first with
    | ok value rest => exact hnext value rest
    | mismatch rest => exact refl _
    | tooDeep rest => exact refl _
  · exact Or.inr ⟨left, rfl⟩

theorem eq_of_ne {reply other : Reply α} (h : reply.Below other)
    (hne : ∀ left, reply ≠ .tooDeep left) : reply = other := by
  rcases h with heq | ⟨left, heq⟩
  · exact heq
  · exact absurd heq (hne left)

/-- Once it is known what was read, only what follows matters. -/
theorem andThen_ok {reply : Reply α} {value : α} {rest : List Lexeme}
    {next : α → List Lexeme → Reply β} {other : Reply β} (h : reply.Below (.ok value rest))
    (hnext : (next value rest).Below other) : (reply.andThen next).Below other := by
  rcases h with rfl | ⟨left, rfl⟩
  · exact hnext
  · exact Or.inr ⟨left, rfl⟩

end Reply.Below

namespace Parser

/-! ## All inputs -/

/-- On every input the reply of the parser is below that of the other one. -/
def Below (parser other : Parser α) : Prop := ∀ input, (parser input).Below (other input)

namespace Below

theorem refl (parser : Parser α) : Below parser parser := fun _ => Reply.Below.refl _

theorem tooDeep (parser : Parser α) : Below tooDeep parser := fun input => Or.inr ⟨input, rfl⟩

theorem trans {first second third : Parser α} (h : Below first second) (h' : Below second third) :
    Below first third :=
  fun input => (h input).trans (h' input)

theorem bind {parser other : Parser α} {next after : α → Parser β} (h : Below parser other)
    (hnext : ∀ value, Below (next value) (after value)) :
    Below (parser >>= next) (other >>= after) :=
  fun input => (h input).andThen fun value rest => hnext value rest

theorem orElse {first second first' second' : Parser α} (hfirst : Below first first')
    (hsecond : Below second second') : Below (first <|> second) (first' <|> second') := by
  intro input
  change (Parser.orElse first second input).Below (Parser.orElse first' second' input)
  unfold Parser.orElse
  rcases hfirst input with heq | ⟨left, heq⟩
  · rw [heq]
    split
    next => exact Reply.Below.refl _
    next => exact hsecond input
    next => exact Reply.Below.refl _
  · rw [heq]
    exact Or.inr ⟨left, rfl⟩

theorem optional {parser other : Parser α} (h : Below parser other) :
    Below (optional parser) (optional other) := by
  intro input
  unfold Parser.optional
  rcases h input with heq | ⟨left, heq⟩
  · rw [heq]
    exact Reply.Below.refl _
  · rw [heq]
    exact Or.inr ⟨left, rfl⟩

theorem notFollowedBy {parser other : Parser α} (h : Below parser other) :
    Below (notFollowedBy parser) (notFollowedBy other) := by
  intro input
  unfold Parser.notFollowedBy
  rcases h input with heq | ⟨left, heq⟩
  · rw [heq]
    exact Reply.Below.refl _
  · rw [heq]
    exact Or.inr ⟨left, rfl⟩

theorem collect {step other : Parser (Option α)} (h : Below step other) :
    Below (collect step) (collect other) := by
  intro input
  induction hlength : input.length using Nat.strongRecOn generalizing input with
  | ind length ih =>
      rw [Parser.collect, Parser.collect]
      rcases h input with heq | ⟨left, heq⟩
      · rw [heq]
        split
        next => exact Reply.Below.refl _
        next value rest _ =>
          split
          next hlt => exact (ih rest.length (hlength ▸ hlt) rest rfl).andThen fun _ _ => .refl _
          next => exact Reply.Below.refl _
        next => exact Reply.Below.refl _
        next => exact Reply.Below.refl _
      · rw [heq]
        exact Or.inr ⟨left, rfl⟩

/-- A family of parsers that grows from each number to the next grows throughout. -/
theorem of_le {parser : Nat → Parser α} (hstep : ∀ room, Below (parser room) (parser (room + 1)))
    {room more : Nat} (h : room ≤ more) : Below (parser room) (parser more) := by
  induction h with
  | refl => exact refl _
  | step _ ih => exact ih.trans (hstep _)

/-- It also stays below the parser that takes on each input a number that is enough for it. -/
theorem enough {parser : Nat → Parser α}
    (hstep : ∀ room, Below (parser room) (parser (room + 1))) {needed : List Lexeme → Nat}
    (hneeded : ∀ input left, parser (needed input) input ≠ .tooDeep left) (room : Nat) :
    Below (parser room) fun input => parser (needed input) input := by
  intro input
  rcases Nat.le_total room (needed input) with hle | hle
  · exact of_le hstep hle input
  · exact Or.inl ((of_le hstep hle input).eq_of_ne (hneeded input)).symm

end Below

/-! ## One input -/

section

variable {parser first second : Parser α} {next : α → Parser β} {input rest : List Lexeme}
  {value : α}

theorem bind_below {reply : Reply β} (hparser : (parser input).Below (.ok value rest))
    (hnext : (next value rest).Below reply) : ((parser >>= next) input).Below reply :=
  hparser.andThen_ok hnext

theorem expect_bind_below {lexeme : Lexeme} {next : Unit → Parser β} {reply : Reply β}
    (hnext : (next () rest).Below reply) :
    ((expect lexeme >>= next) (lexeme :: rest)).Below reply :=
  bind_below (Or.inl (expect_cons lexeme rest)) hnext

theorem orElse_below_left (h : (first input).Below (.ok value rest)) :
    ((first <|> second) input).Below (.ok value rest) := by
  change (orElse first second input).Below _
  unfold orElse
  rcases h with heq | ⟨left, heq⟩
  · rw [heq]
    exact Reply.Below.refl _
  · rw [heq]
    exact Or.inr ⟨left, rfl⟩

theorem orElse_below_right {reply : Reply α} (hfirst : Refuses first input)
    (hsecond : (second input).Below reply) : ((first <|> second) input).Below reply := by
  obtain ⟨left, hfirst⟩ := hfirst
  change (orElse first second input).Below _
  unfold orElse
  rw [hfirst]
  exact hsecond

theorem optional_below (h : (parser input).Below (.ok value rest)) :
    (optional parser input).Below (.ok (some value) rest) := by
  unfold optional
  rcases h with heq | ⟨left, heq⟩
  · rw [heq]
    exact Reply.Below.refl _
  · rw [heq]
    exact Or.inr ⟨left, rfl⟩

end

end Parser

end PastTime
