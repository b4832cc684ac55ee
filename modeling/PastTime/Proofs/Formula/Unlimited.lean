import PastTime.Proofs.Formula.Heights
import PastTime.Proofs.Formula.Rooms

/-!
# The grammar without a limit

The parsers of the grammar that ask for no room: they solve the same recursion equations, without
the check that makes a parser give up. Each level is opened by a lexeme, so on every input the
parsers with as much room as there are lexemes solve the equations, and no others do.
-/

namespace PastTime.Grammar

open PastTime.Parser

/-- The parsers of the grammar without a limit on levels. -/
@[ext]
structure Unlimited where
  group : Parser Token
  unary : Parser Formula
  predicate : Parser Formula
  group_eq : group = groupOf group
  unary_eq : unary = unaryOf group unary predicate
  predicate_eq : predicate = implication unary predicate

/-! ## Enough room -/

theorem group_ne_tooDeep (input left : List Lexeme) : group input.length input ≠ .tooDeep left :=
  (givesUp_group _).ne_tooDeep (by omega) left

theorem unary_ne_tooDeep (input left : List Lexeme) :
    unary (input.length + 1) input ≠ .tooDeep left :=
  (givesUp_level _).1.ne_tooDeep (by omega) left

theorem predicate_ne_tooDeep (input left : List Lexeme) :
    predicate (input.length + 1) input ≠ .tooDeep left :=
  (givesUp_level _).2.ne_tooDeep (by omega) left

section

variable {free : Parser Token} {freeUnary freePredicate : Parser Formula}

theorem below_groupOf_of_forall (h : ∀ room, Below (group room) free) (room : Nat) :
    Below (group room) (groupOf free) := by
  cases room with
  | zero => exact below_groupOf_zero free
  | succ room => exact Below.congruence.groupOf (h room)

theorem below_unaryOf_of_forall (hgroup : ∀ room, Below (group room) free)
    (hunary : ∀ room, Below (unary room) freeUnary)
    (hpredicate : ∀ room, Below (predicate room) freePredicate) (room : Nat) :
    Below (unary room) (unaryOf free freeUnary freePredicate) := by
  cases room with
  | zero => exact Below.tooDeep _
  | succ room => exact Below.congruence.unaryOf (hgroup room) (hunary room) (hpredicate room)

theorem below_implication_of_forall (hunary : ∀ room, Below (unary room) freeUnary)
    (hpredicate : ∀ room, Below (predicate room) freePredicate) (room : Nat) :
    Below (predicate room) (implication freeUnary freePredicate) := by
  cases room with
  | zero => exact Below.tooDeep _
  | succ room => exact Below.congruence.implication (hunary (room + 1)) (hpredicate room)

end

/-- On every input as much room is taken as it can need. -/
def unlimited : Unlimited where
  group input := group input.length input
  unary input := unary (input.length + 1) input
  predicate input := predicate (input.length + 1) input
  group_eq := by
    have hgroup := Below.enough below_group group_ne_tooDeep
    funext input
    exact (below_groupOf_of_forall hgroup _ input).eq_of_ne (group_ne_tooDeep input)
  unary_eq := by
    have hgroup := Below.enough below_group group_ne_tooDeep
    have hunary := Below.enough (fun room => (below_level room).1) unary_ne_tooDeep
    have hpredicate := Below.enough (fun room => (below_level room).2) predicate_ne_tooDeep
    funext input
    exact (below_unaryOf_of_forall hgroup hunary hpredicate _ input).eq_of_ne
      (unary_ne_tooDeep input)
  predicate_eq := by
    have hunary := Below.enough (fun room => (below_level room).1) unary_ne_tooDeep
    have hpredicate := Below.enough (fun room => (below_level room).2) predicate_ne_tooDeep
    funext input
    exact (below_implication_of_forall hunary hpredicate _ input).eq_of_ne
      (predicate_ne_tooDeep input)

/-! ## Any solution -/

namespace Unlimited

theorem below_group (free : Unlimited) (room : Nat) : Below (Grammar.group room) free.group := by
  induction room with
  | zero =>
      rw [free.group_eq]
      exact below_groupOf_zero _
  | succ room ih =>
      rw [free.group_eq]
      exact Below.congruence.groupOf ih

theorem below_level (free : Unlimited) (room : Nat) :
    Below (Grammar.unary room) free.unary ∧ Below (Grammar.predicate room) free.predicate := by
  induction room with
  | zero => exact ⟨Below.tooDeep _, Below.tooDeep _⟩
  | succ room ih =>
      obtain ⟨hunary, hpredicate⟩ := ih
      have hnext : Below (Grammar.unary (room + 1)) free.unary := by
        rw [free.unary_eq]
        exact Below.congruence.unaryOf (free.below_group room) hunary hpredicate
      refine ⟨hnext, ?_⟩
      rw [free.predicate_eq]
      exact Below.congruence.implication hnext hpredicate

/-- What is read without a limit is read with all the room that there are lexemes, and more. -/
theorem exists_room (free : Unlimited) {input rest : List Lexeme} {formula : Formula}
    (h : free.predicate input = .ok formula rest) (room : Nat) :
    ∃ more, room ≤ more ∧ Grammar.predicate more input = .ok formula rest := by
  have hbelow := (free.below_level (room + input.length + 1)).2 input
  have hne := @GivesUp.ne_tooDeep _ _ _ (givesUp_level (room + input.length + 1)).2 input (by omega)
  rw [h] at hbelow
  exact ⟨room + input.length + 1, by omega, hbelow.eq_of_ne hne⟩

/-- The equations have one solution. -/
theorem eq_unlimited (free : Unlimited) : free = unlimited := by
  ext
  · funext input
    exact ((free.below_group _ input).eq_of_ne (group_ne_tooDeep input)).symm
  · funext input
    exact (((free.below_level _).1 input).eq_of_ne (unary_ne_tooDeep input)).symm
  · funext input
    exact (((free.below_level _).2 input).eq_of_ne (predicate_ne_tooDeep input)).symm

end Unlimited

end PastTime.Grammar
