import PastTime.Proofs.Formula.Brackets
import PastTime.Proofs.Formula.Soundness
import PastTime.Proofs.Parser.GivesUp

/-!
# The height at which a formula is given up

A parser of the grammar gives up only where at least as many levels are open as it had room for.
What a parser has read before is balanced, so each level is charged to a bracket, a negation or an
arrow of its own.
-/

namespace PastTime.Grammar

open PastTime.Parser Lexeme

/-! ## What is read -/

@[simp] theorem opens_opening (bracket : Bracket) : (mark bracket.opening).opens = 1 := by
  cases bracket <;> decide

@[simp] theorem closes_opening (bracket : Bracket) : (mark bracket.opening).closes = 0 := by
  cases bracket <;> decide

@[simp] theorem opens_closing (bracket : Bracket) : (mark bracket.closing).opens = 0 := by
  cases bracket <;> decide

@[simp] theorem closes_closing (bracket : Bracket) : (mark bracket.closing).closes = 1 := by
  cases bracket <;> decide

theorem IsPlain.closes_eq_zero {lexeme : Lexeme} (h : IsPlain lexeme) : lexeme.closes = 0 := by
  refine if_neg fun hmem => ?_
  rcases List.mem_cons.mp hmem with rfl | hmem
  · exact (h .round).2 rfl
  · exact (h .square).2 (List.mem_singleton.mp hmem)

theorem Balanced.height_nonneg {used : List Lexeme} (h : Balanced used) : 0 ≤ height used := by
  induction h with
  | nil => exact Int.le_refl 0
  | plain hplain _ ih =>
      rw [height_cons, hplain.closes_eq_zero]
      omega
  | enclosed bracket _ _ ihinner ihrest =>
      simp only [List.cons_append, height_cons, height_append, opens_opening, closes_opening,
        opens_closing, closes_closing]
      omega

theorem rises_of_written {parser : Parser Formula} {tightness : Nat}
    (h : Reads parser (Written tightness)) : Rises 0 parser := by
  apply h.mono
  rintro formula _ ⟨rfl, hformula, -⟩
  exact (derives_of_wellFormed hformula).balanced.height_nonneg

theorem rises_groupToken (room : Nat) : Rises 0 (groupToken room) := by
  apply (reads_groupToken room).mono
  rintro token _ ⟨rfl, htoken⟩
  exact (derives_groupToken htoken).balanced.height_nonneg

theorem rises_piece (room : Nat) : Rises 0 (piece room) := by
  apply (reads_piece room).mono
  rintro token _ ⟨rfl, htoken⟩
  exact (derives_piece htoken).balanced.height_nonneg

/-! ## Terminals -/

theorem givesUp_tokenOf (marks : List String) {levels : Int} {inside : Parser Token}
    (h : GivesUp levels inside) : GivesUp levels (tokenOf marks inside) :=
  h.orElse (((Finishes.next _).givesUp _).orElse ((Finishes.next _).givesUp _))

theorem givesUp_group (room : Nat) : GivesUp (room + 1) (group room) := by
  induction room with
  | zero =>
      intro input left h
      -- without room only an opening bracket makes the parser give up
      cases input with
      | nil => cases h
      | cons lexeme rest =>
          cases hfound : opening? lexeme with
          | none =>
              rw [group_of_opening?_eq_none hfound] at h
              cases h
          | some bracket =>
              rw [group_zero_of_opening? hfound] at h
              cases h
              refine ⟨[], rfl, ?_⟩
              rw [opening?_eq_some hfound]
              simp [heightAt]
  | succ room ih =>
      have htoken : GivesUp (room + 1) (groupToken room) := givesUp_tokenOf _ ih
      have hdelimited (bracket : Bracket) :
          GivesUp (room + 1 + 1) (delimited bracket (groupToken room)) := by
        refine GivesUp.expect_bind ?_
        rw [opens_opening, closes_opening]
        have hlevels : (room : Int) + 1 + 1 - ((1 : Nat) - (0 : Nat)) = room + 1 := by omega
        rw [hlevels]
        exact (htoken.many (rises_groupToken room)).bind_of_finishes fun tokens =>
          Finishes.expect_bind (Finishes.pure _)
      exact (hdelimited .round).orElse (hdelimited .square)

theorem givesUp_piece (room : Nat) : GivesUp (room + 1) (piece room) :=
  givesUp_tokenOf _ (givesUp_group room)

theorem givesUp_terminal (room : Nat) : GivesUp (room + 1) (terminal (piece room)) :=
  ((givesUp_piece room).many1 (rises_piece room)).map _

/-! ## Operators -/

section

variable {levels : Int} {unary predicate operand : Parser Formula}

theorem givesUp_chain {connectives : List Connective} {tightness : Nat}
    (hconnectives : ∀ c ∈ connectives, c.tightness = tightness) (h : GivesUp levels operand)
    (hreads : Reads operand (Written (tightness + 1))) :
    GivesUp levels (chain connectives operand) := by
  have hlink : GivesUp levels (link connectives operand) := by
    refine ((Finishes.next _).givesUp _).optional.bind_of_rises ?_ fun found => ?_
    · apply (Reads.next _).optional.mono
      intro found used hused
      cases found with
      | none =>
          cases hused
          exact Int.le_refl 0
      | some c =>
          obtain ⟨lexeme, rfl, hfound⟩ := hused
          have hsymbol : lexeme = .mark c.symbol := by simpa using List.find?_some hfound
          rw [hsymbol]
          cases c <;> decide
    · cases found with
      | none => exact (Finishes.pure _).givesUp _
      | some c => exact h.map _
  have hlinks : Rises 0 (link connectives operand) := by
    apply (reads_link hconnectives hreads).mono
    intro found used hused
    cases found with
    | none =>
        cases hused
        exact Int.le_refl 0
    | some link =>
        obtain ⟨rfl, -, hright, -⟩ := hused
        have hbalanced := (derives_of_wellFormed hright).balanced
        have hmark : IsPlain (.mark link.1.symbol) :=
          isPlain_mark (by cases link.1 <;> decide)
        exact (Balanced.plain hmark hbalanced).height_nonneg
  exact h.bind_of_rises (rises_of_written hreads) fun first => (hlink.collect hlinks).map _

theorem givesUp_implication (hunary : GivesUp levels unary) (hreads : Reads unary (Written 4))
    (hpredicate : GivesUp (levels - 1) predicate) :
    GivesUp levels (implication unary predicate) := by
  have hequality : Reads (chain [.equal, .notEqual] unary) (Written 3) :=
    reads_chain (by decide) hreads
  have hconjunction : Reads (chain [.and] (chain [.equal, .notEqual] unary)) (Written 2) :=
    reads_chain (by decide) hequality
  have hdisjunction : GivesUp levels (disjunction unary) :=
    givesUp_chain (by decide) (givesUp_chain (by decide) (givesUp_chain (by decide) hunary hreads)
      hequality) hconjunction
  have harrow : GivesUp levels (do expect (.mark "->"); predicate) :=
    GivesUp.expect_bind hpredicate
  refine hdisjunction.bind_of_rises (rises_of_written (reads_disjunction hreads)) fun left => ?_
  refine harrow.optional.bind_of_finishes fun found => ?_
  cases found with
  | none => exact Finishes.pure _
  | some right => exact Finishes.pure _

theorem givesUp_negation (h : GivesUp (levels - 1) unary) : GivesUp levels (negation unary) :=
  GivesUp.expect_bind (h.map _)

theorem givesUp_temporal (h : GivesUp (levels - 1) predicate)
    (hreads : Reads predicate (Written 0)) : GivesUp levels (temporal predicate) := by
  have happlication (keyword : String) (op : UnaryOp) :
      GivesUp levels (application keyword op predicate) := by
    refine GivesUp.expect_word_bind (GivesUp.expect_bind ?_)
    exact h.bind_of_finishes fun _ => Finishes.expect_bind (Finishes.pure _)
  have hsince : GivesUp levels (since predicate) := by
    refine GivesUp.expect_word_bind (GivesUp.expect_bind ?_)
    refine h.bind_of_rises (rises_of_written hreads) fun left => GivesUp.expect_bind ?_
    have hright : GivesUp (levels - 1) (do
        let right ← predicate
        expect (.mark ")")
        return Formula.binary .since left right) :=
      h.bind_of_finishes fun _ => Finishes.expect_bind (Finishes.pure _)
    simpa [opens, closes] using hright
  exact (happlication _ _).orElse
    ((happlication _ _).orElse ((happlication _ _).orElse hsince))

theorem givesUp_grouped {room : Nat} (h : GivesUp room predicate)
    (hreads : Reads predicate (Written 0)) :
    GivesUp (room + 1) (grouped predicate (piece room)) := by
  refine GivesUp.expect_bind ?_
  have hlevels : (room : Int) + 1 - ((mark "(").opens - (mark "(").closes) = room := by
    simp [opens, closes]
  rw [hlevels]
  refine h.bind_of_rises (rises_of_written hreads) fun inner => GivesUp.expect_bind ?_
  -- the closing parenthesis takes back what the opening one has opened
  have hlevels : (room : Int) - ((mark ")").opens - (mark ")").closes) = room + 1 := by
    simp [opens, closes]
  rw [hlevels]
  exact (givesUp_piece room).notFollowedBy.map _

end

/-! ## Levels -/

/-- With some room a formula is given up only where so many levels are open. -/
theorem givesUp_level (room : Nat) :
    GivesUp room (unary room) ∧ GivesUp room (predicate room) := by
  induction room with
  | zero =>
      have hnow : GivesUp (0 : Nat) (tooDeep : Parser Formula) := by
        rintro input _ ⟨⟩
        exact ⟨[], rfl, by simp [heightAt]⟩
      exact ⟨hnow, hnow⟩
  | succ room ih =>
      obtain ⟨hunary, hpredicate⟩ := ih
      have hlevels : (room : Int) = (room + 1 : Nat) - 1 := by omega
      have hnext : GivesUp (room + 1 : Nat) (unary (room + 1)) := by
        rw [unary_succ]
        exact (givesUp_negation (hlevels ▸ hunary)).orElse
          ((givesUp_temporal (hlevels ▸ hpredicate) (reads_level room).2).orElse
            ((givesUp_grouped hpredicate (reads_level room).2).orElse (givesUp_terminal room)))
      refine ⟨hnext, ?_⟩
      rw [predicate_succ]
      exact givesUp_implication hnext (reads_level (room + 1)).1 (hlevels ▸ hpredicate)

end PastTime.Grammar
