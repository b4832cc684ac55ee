import PastTime.Proofs.Parser.Reads

/-!
# Where a reading is given up

Brackets, negations and arrows open levels, and closing brackets close them. The height of a
sequence of lexemes is how many more levels it opens than it closes. `GivesUp` is a judgement about
a parser: where it gives up, the lexemes up to this place have reached a given height. There is one
law for each combinator, and a law of sequencing that adds up what was read before.
-/

namespace PastTime

namespace Lexeme

/-- The number of levels that the lexeme opens. -/
def opens (lexeme : Lexeme) : Nat :=
  if lexeme ∈ [mark "(", mark "[", mark "!", mark "->"] then 1 else 0

/-- The number of levels that the lexeme closes. -/
def closes (lexeme : Lexeme) : Nat :=
  if lexeme ∈ [mark ")", mark "]"] then 1 else 0

/-- No lexeme opens a level and closes one. -/
theorem opens_add_closes_le (lexeme : Lexeme) : lexeme.opens + lexeme.closes ≤ 1 := by
  by_cases hopens : lexeme ∈ [mark "(", mark "[", mark "!", mark "->"]
  · have hone : lexeme.opens = 1 := if_pos hopens
    have hzero : lexeme.closes = 0 := by
      simp only [List.mem_cons, List.not_mem_nil, or_false] at hopens
      rcases hopens with rfl | rfl | rfl | rfl <;> decide
    omega
  · have hzero : lexeme.opens = 0 := if_neg hopens
    have hone : lexeme.closes ≤ 1 := by
      unfold closes
      split <;> decide
    omega

/-- How many more levels the lexemes open than they close. -/
def height : List Lexeme → Int
  | [] => 0
  | lexeme :: rest => lexeme.opens - lexeme.closes + height rest

@[simp] theorem height_nil : height [] = 0 := rfl

@[simp] theorem height_cons (lexeme : Lexeme) (rest : List Lexeme) :
    height (lexeme :: rest) = lexeme.opens - lexeme.closes + height rest := rfl

@[simp] theorem height_append (front back : List Lexeme) :
    height (front ++ back) = height front + height back := by
  induction front with
  | nil => simp
  | cons lexeme rest ih =>
      rw [List.cons_append, height_cons, height_cons, ih]
      omega

/-- The height that is reached in front of a place, with what the lexeme there opens. -/
def heightAt (used left : List Lexeme) : Int := height used + left.head?.elim 0 opens

theorem heightAt_append (front used left : List Lexeme) :
    heightAt (front ++ used) left = height front + heightAt used left := by
  simp only [heightAt, height_append]
  omega

/-- A height is reached by as many lexemes. -/
theorem heightAt_le_length (used left : List Lexeme) :
    heightAt used left ≤ (used ++ left).length := by
  induction used with
  | nil =>
      cases left with
      | nil => decide
      | cons lexeme rest =>
          have hone := opens_add_closes_le lexeme
          simp only [heightAt, height_nil, List.head?_cons, Option.elim_some, List.nil_append,
            List.length_cons]
          omega
  | cons lexeme rest ih =>
      have hone := opens_add_closes_le lexeme
      have hcons := heightAt_append [lexeme] rest left
      simp only [List.singleton_append, height_cons, height_nil] at hcons
      simp only [List.cons_append, List.length_cons]
      omega

end Lexeme

namespace Parser

open Lexeme

variable {α β : Type}

/-- Where the parser gives up, the levels that are open have reached this height. -/
def GivesUp (levels : Int) (parser : Parser α) : Prop :=
  ∀ input left, parser input = .tooDeep left →
    ∃ used, input = used ++ left ∧ levels ≤ heightAt used left

/-- What the parser reads opens at least so many more levels than it closes. -/
def Rises (levels : Int) (parser : Parser α) : Prop :=
  Reads parser fun _ used => levels ≤ height used

theorem Rises.expect (lexeme : Lexeme) :
    Rises (lexeme.opens - lexeme.closes) (Parser.expect lexeme) := by
  apply (Reads.expect lexeme).mono
  rintro _ _ rfl
  simp

/-! ## Parsers that never give up -/

/-- The parser gives up on no input. -/
def Finishes (parser : Parser α) : Prop := ∀ input left, parser input ≠ .tooDeep left

namespace Finishes

theorem pure (value : α) : Finishes (pure value) := by
  intro input left h
  cases h

theorem next (meaning : Lexeme → Option α) : Finishes (next meaning) := by
  intro input left h
  cases input with
  | nil => cases h
  | cons lexeme rest =>
      cases hmeaning : meaning lexeme with
      | none => simp [Parser.next, hmeaning] at h
      | some value => simp [Parser.next, hmeaning] at h

theorem expect_bind {lexeme : Lexeme} {next : Unit → Parser β} (hnext : Finishes (next ())) :
    Finishes (expect lexeme >>= next) := by
  intro input left h
  change ((expect lexeme : Parser Unit) input).andThen next = _ at h
  cases hreply : (expect lexeme : Parser Unit) input with
  | ok value middle =>
      rw [hreply] at h
      exact hnext _ _ h
  | mismatch middle => rw [hreply] at h; cases h
  | tooDeep middle => exact Finishes.next _ _ _ hreply

theorem givesUp {parser : Parser α} (h : Finishes parser) (levels : Int) : GivesUp levels parser :=
  fun input left hleft => absurd hleft (h input left)

end Finishes

namespace GivesUp

variable {levels : Int} {parser : Parser α}

/-- A parser does not give up on fewer lexemes than it needs open levels for. -/
theorem ne_tooDeep (h : GivesUp levels parser) {input : List Lexeme}
    (hlength : input.length < levels) (left : List Lexeme) : parser input ≠ .tooDeep left := by
  intro hleft
  obtain ⟨used, rfl, hlevels⟩ := h _ _ hleft
  have hheight := heightAt_le_length used left
  omega

/-! ## Combinators -/

/-- What was read first adds its height to that of what follows. -/
theorem bind {next : α → Parser β} {rise : Int} (hparser : GivesUp levels parser)
    (hrise : Rises rise parser) (hnext : ∀ value, GivesUp (levels - rise) (next value)) :
    GivesUp levels (parser >>= next) := by
  intro input left h
  change (parser input).andThen next = _ at h
  cases hreply : parser input with
  | ok value middle =>
      rw [hreply] at h
      obtain ⟨front, rfl, hfront⟩ := hrise _ _ _ hreply
      obtain ⟨used, rfl, hused⟩ := hnext value _ _ h
      refine ⟨front ++ used, (List.append_assoc _ _ _).symm, ?_⟩
      rw [heightAt_append]
      omega
  | mismatch middle => rw [hreply] at h; cases h
  | tooDeep middle =>
      rw [hreply] at h
      cases h
      exact hparser _ _ hreply

/-- Nothing is closed by what was read first. -/
theorem bind_of_rises {next : α → Parser β} (hparser : GivesUp levels parser)
    (hrise : Rises 0 parser) (hnext : ∀ value, GivesUp levels (next value)) :
    GivesUp levels (parser >>= next) :=
  hparser.bind hrise fun value => by simpa using hnext value

/-- The lexeme opens or closes a level, or does neither. -/
theorem expect_bind {lexeme : Lexeme} {next : Unit → Parser β}
    (hnext : GivesUp (levels - (lexeme.opens - lexeme.closes)) (next ())) :
    GivesUp levels (Parser.expect lexeme >>= next) :=
  ((Finishes.next _).givesUp _).bind (Rises.expect lexeme) fun _ => hnext

theorem expect_word_bind {text : String} {next : Unit → Parser β}
    (hnext : GivesUp levels (next ())) : GivesUp levels (Parser.expect (.word text) >>= next) := by
  apply expect_bind
  simpa [opens, closes] using hnext

theorem bind_of_finishes {next : α → Parser β} (hparser : GivesUp levels parser)
    (hnext : ∀ value, Finishes (next value)) : GivesUp levels (parser >>= next) := by
  intro input left h
  change (parser input).andThen next = _ at h
  cases hreply : parser input with
  | ok value middle =>
      rw [hreply] at h
      exact absurd h (hnext value middle left)
  | mismatch middle => rw [hreply] at h; cases h
  | tooDeep middle =>
      rw [hreply] at h
      cases h
      exact hparser _ _ hreply

theorem map (hparser : GivesUp levels parser) (f : α → β) :
    GivesUp levels (do let value ← parser; return f value) :=
  hparser.bind_of_finishes fun value => Finishes.pure (f value)

theorem orElse {first second : Parser α} (hfirst : GivesUp levels first)
    (hsecond : GivesUp levels second) : GivesUp levels (first <|> second) := by
  intro input left h
  change Parser.orElse first second input = _ at h
  unfold Parser.orElse at h
  split at h
  next => cases h
  next => exact hsecond _ _ h
  next heq => cases h; exact hfirst _ _ heq

theorem optional (hparser : GivesUp levels parser) : GivesUp levels (optional parser) := by
  intro input left h
  unfold Parser.optional at h
  split at h
  next => cases h
  next => cases h
  next heq => cases h; exact hparser _ _ heq

theorem notFollowedBy (hparser : GivesUp levels parser) :
    GivesUp levels (notFollowedBy parser) := by
  intro input left h
  unfold Parser.notFollowedBy at h
  split at h
  next => cases h
  next => cases h
  next heq => cases h; exact hparser _ _ heq

/-- The rounds before the one that gives up have closed nothing. -/
theorem collect {step : Parser (Option α)} (hstep : GivesUp levels step) (hrise : Rises 0 step) :
    GivesUp levels (collect step) := by
  intro input left
  fun_induction Parser.collect step input with
  | case1 input rest heq => rintro ⟨⟩
  | case2 input value rest heq hlt ih =>
      intro h
      cases hrest : Parser.collect step rest with
      | ok others last => rw [hrest] at h; cases h
      | mismatch last => rw [hrest] at h; cases h
      | tooDeep last =>
          rw [hrest] at h
          cases h
          obtain ⟨front, rfl, hfront⟩ := hrise _ _ _ heq
          obtain ⟨used, rfl, hused⟩ := ih hrest
          refine ⟨front ++ used, (List.append_assoc _ _ _).symm, ?_⟩
          rw [heightAt_append]
          omega
  | case3 input value rest heq hlt => rintro ⟨⟩
  | case4 input rest heq => rintro ⟨⟩
  | case5 input rest heq =>
      rintro ⟨⟩
      exact hstep _ _ heq

theorem many (hparser : GivesUp levels parser) (hrise : Rises 0 parser) :
    GivesUp levels (many parser) := by
  refine hparser.optional.collect ((Reads.optional hrise).mono fun found used h => ?_)
  cases found with
  | none =>
      cases h
      exact Int.le_refl 0
  | some value => exact h

theorem many1 (hparser : GivesUp levels parser) (hrise : Rises 0 parser) :
    GivesUp levels (many1 parser) :=
  hparser.bind_of_rises hrise fun _ => (hparser.many hrise).map _

end GivesUp

end Parser

end PastTime
