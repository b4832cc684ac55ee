import Mathlib.Control.Monad.Basic
import PastTime.Proofs.Formula.Attempts
import PastTime.Proofs.Formula.Unlimited

/-!
# How exact the limit is

A text that the grammar accepts without a limit is accepted under the limit if and only if its
formula fits and every attempt at parentheses that begin a terminal comes to an end. Such an attempt
counts the negations and arrows in the parentheses as levels, which the terminal does not have.
Where there are few of them, the levels of the formula decide alone; where there are many, a text
can nest too deep although its formula does not.
-/

namespace PastTime

/-! ## The greatest height -/

namespace Lexeme

/-- The greatest height that the lexemes reach from their beginning. -/
def peak : List Lexeme → Int
  | [] => 0
  | lexeme :: rest => max 0 (lexeme.opens - lexeme.closes + peak rest)

theorem peak_nonneg (lexemes : List Lexeme) : 0 ≤ peak lexemes := by
  cases lexemes with
  | nil => exact Int.le_refl 0
  | cons lexeme rest => exact Int.le_max_left _ _

theorem peak_append (front back : List Lexeme) :
    peak (front ++ back) = max (peak front) (height front + peak back) := by
  induction front with
  | nil =>
      have hback := peak_nonneg back
      simp only [List.nil_append, peak, height_nil]
      omega
  | cons lexeme rest ih =>
      simp only [List.cons_append, peak, height_cons, ih]
      omega

theorem heightAt_le_peak (used left : List Lexeme) : heightAt used left ≤ peak (used ++ left) := by
  induction used with
  | nil =>
      cases left with
      | nil => exact Int.le_refl 0
      | cons lexeme rest =>
          have hone := opens_add_closes_le lexeme
          have hrest := peak_nonneg rest
          simp only [heightAt, height_nil, List.head?_cons, Option.elim_some, List.nil_append, peak]
          omega
  | cons lexeme rest ih =>
      simp only [heightAt, height_cons, List.cons_append, peak] at ih ⊢
      omega

/-- The number of negations and arrows. -/
def operators (lexemes : List Lexeme) : Nat :=
  lexemes.countP fun lexeme => lexeme ∈ [mark "!", mark "->"]

end Lexeme

namespace Grammar

open PastTime.Parser Lexeme

mutual

/-- Inside a token, levels are opened by its brackets, negations and arrows only. -/
theorem peak_token {token : Token} (h : token.WellFormed (innerSymbols ++ symbols)) :
    height token.lexemes = operators token.lexemes ∧
      peak token.lexemes ≤ token.levels + operators token.lexemes := by
  cases token with
  | word text => simp [Token.lexemes, Token.levels, operators, opens, closes, peak]
  | symbol text =>
      have hsymbols : ∀ text ∈ innerSymbols ++ symbols,
          height [mark text] = operators [mark text] ∧
            peak [mark text] ≤ operators [mark text] := by
        decide
      simpa [Token.lexemes, Token.levels] using hsymbols text h
  | group bracket tokens =>
      obtain ⟨hheight, hpeak⟩ := peak_tokens h
      have hoperators : operators (Token.group bracket tokens).lexemes =
          operators (Token.lexemesAll tokens) := by
        cases bracket <;>
          simp [Token.lexemes, operators, Bracket.opening, Bracket.closing]
      rw [hoperators]
      simp only [Token.lexemes, Token.levels, List.cons_append, height_cons, height_append,
        height_nil, peak, peak_append, opens_opening, closes_opening, opens_closing,
        closes_closing]
      omega

theorem peak_tokens {tokens : List Token}
    (h : Token.AllWellFormed (innerSymbols ++ symbols) tokens) :
    height (Token.lexemesAll tokens) = operators (Token.lexemesAll tokens) ∧
      peak (Token.lexemesAll tokens) ≤
        Token.levelsAll tokens + operators (Token.lexemesAll tokens) := by
  cases tokens with
  | nil => simp [Token.lexemesAll, Token.levelsAll, operators, peak]
  | cons token rest =>
      obtain ⟨hheight, hpeak⟩ := peak_token h.1
      obtain ⟨hheights, hpeaks⟩ := peak_tokens h.2
      simp only [Token.lexemesAll, Token.levelsAll, height_append, peak_append, operators,
        List.countP_append] at *
      omega

end

/-- An attempt comes to an end if there is room for the negations and arrows too. -/
theorem attempt_of_levels {tokens : List Token} {room : Nat}
    (h : Token.AllWellFormed (innerSymbols ++ symbols) tokens)
    (hroom : Token.levelsAll tokens + operators (Token.lexemesAll tokens) < room)
    (left : List Lexeme) : predicate room (Token.lexemesAll tokens) ≠ .tooDeep left := by
  intro hdeep
  obtain ⟨used, hused, hheight⟩ := (givesUp_level room).2 _ _ hdeep
  have hpeak := (peak_tokens h).2
  have hreached := heightAt_le_peak used left
  rw [← hused] at hreached
  omega

end Grammar

namespace Formula

open Grammar

/-! ## Texts -/

/-- The most negations and arrows in parentheses that begin a terminal. -/
def concealed : Formula → Nat
  | terminal (.group .round tokens :: _) => Lexeme.operators (Token.lexemesAll tokens)
  | terminal _ => 0
  | grouped inner => inner.concealed
  | unary _ operand => operand.concealed
  | binary _ left right => max left.concealed right.concealed

/-- With room for the negations and arrows too, every attempt comes to an end. -/
theorem attemptsFit_of_concealed {formula : Formula} {room : Nat} (hformula : formula.WellFormed)
    (hroom : formula.levels + formula.concealed < room) : formula.AttemptsFit room := by
  induction formula generalizing room with
  | terminal tokens =>
      cases tokens with
      | nil => trivial
      | cons first others =>
          cases first with
          | word text => trivial
          | symbol text => trivial
          | group bracket tokens =>
              cases bracket with
              | square => trivial
              | round =>
                  apply attempt_of_levels hformula.2.1
                  simp only [levels, concealed, Token.levelsAll, Token.levels] at hroom
                  omega
  | grouped inner ih =>
      simp only [levels, concealed] at hroom
      exact ih hformula (by omega)
  | unary op operand ih =>
      simp only [levels, concealed] at hroom
      have hoperand : operand.WellFormed := by
        cases op with
        | not => exact hformula.1
        | previously | once | always => exact hformula
      exact ih hoperand (by omega)
  | binary op left right ihleft ihright =>
      cases op with
      | implies =>
          simp only [levels, concealed] at hroom
          exact ⟨ihleft hformula.1 (by omega), ihright hformula.2.1 (by omega)⟩
      | connective c =>
          simp only [levels, concealed] at hroom
          exact ⟨ihleft hformula.1 (by omega), ihright hformula.2.1 (by omega)⟩
      | since =>
          simp only [levels, concealed] at hroom
          exact ⟨ihleft hformula.1 (by omega), ihright hformula.2 (by omega)⟩

/-- A text that the grammar accepts without a limit is accepted as the same formula, or it is said
to nest too deep. It is accepted if and only if its formula has no more levels than the limit and no
attempt at the parentheses that begin a terminal exceeds it. The levels decide alone where the limit
leaves room for the negations and arrows that such parentheses conceal. -/
theorem parse_of_unlimited (free : Unlimited) {text : String} {formula : Formula}
    (h : free.predicate (Lexeme.lexemes text) = .ok formula []) :
    (parse text = .ok formula ∨ ∃ place, parse text = .error (.tooDeep place)) ∧
      (parse text = .ok formula ↔
        formula.levels ≤ maxDepth ∧ formula.AttemptsFit (maxDepth + 1)) ∧
      (formula.levels + formula.concealed ≤ maxDepth → parse text = .ok formula) := by
  obtain ⟨more, hmore, hread⟩ := free.exists_room h (maxDepth + 1)
  have hless := below_predicate hmore (Lexeme.lexemes text)
  rw [hread] at hless
  have hiff : parse text = .ok formula ↔
      formula.levels ≤ maxDepth ∧ formula.AttemptsFit (maxDepth + 1) := by
    unfold parse
    rw [parseWithin_eq_ok_iff, predicate_eq_ok_iff_fits hmore (follow_nil _) hread]
    constructor
    · intro hfits
      exact ⟨Nat.le_of_lt_succ hfits.levels, hfits.attempts⟩
    · rintro ⟨hlevels, hattempts⟩
      exact ⟨Nat.lt_succ_of_le hlevels, hattempts⟩
  refine ⟨?_, hiff, fun hconcealed => hiff.mpr ⟨by omega, ?_⟩⟩
  · rcases hless with heq | ⟨left, heq⟩
    · exact Or.inl (parseWithin_eq_ok_iff.mpr heq)
    · refine Or.inr ⟨.ofRemaining text left.length, ?_⟩
      simp only [parse, parseWithin, heq]
  · obtain ⟨_, _, _, hformula, _⟩ := (reads_level more).2 _ _ _ hread
    exact attemptsFit_of_concealed hformula (by omega)

/-- Parentheses that conceal negations, with a further piece behind them. -/
def concealing (count : Nat) : String :=
  "(" ++ String.ofList (List.replicate count '!') ++ "a)+b"

/-- The parentheses are read as brackets around tokens, and open one level. -/
def concealingTerminal (count : Nat) : Formula :=
  .terminal [.group .round (List.replicate count (.symbol "!") ++ [.word "a"]), .symbol "+",
    .word "b"]

set_option maxRecDepth 20000 in
/-- For one negation less than the limit there is room. -/
theorem parse_of_unlimited_concealing :
    unlimited.predicate (Lexeme.lexemes (concealing 99)) = .ok (concealingTerminal 99) [] ∧
      parse (concealing 99) = .ok (concealingTerminal 99) := by
  have hread : unlimited.predicate (Lexeme.lexemes (concealing 99)) =
      .ok (concealingTerminal 99) [] := by
    decide +kernel
  exact ⟨hread, (parse_of_unlimited unlimited hread).2.2 (by decide)⟩

set_option maxRecDepth 20000 in
/-- A hundred negations are too many, although the formula has one level. -/
theorem parse_concealing_tooDeep :
    unlimited.predicate (Lexeme.lexemes (concealing 100)) = .ok (concealingTerminal 100) [] ∧
      (concealingTerminal 100).levels ≤ maxDepth ∧
      parse (concealing 100) = .error (.tooDeep ⟨101, "a)+b"⟩) := by
  refine ⟨?_, ?_, ?_⟩
  · decide +kernel
  · decide
  · decide +kernel

end Formula

end PastTime
