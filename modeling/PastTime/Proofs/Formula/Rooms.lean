import PastTime.Proofs.Formula.Congruence
import PastTime.Proofs.Parser.Below

/-!
# Less room

A parser of the grammar with less room gives the replies of the one with more room, except that it
gives up earlier: the limit on levels never changes what a text is read as.
-/

namespace PastTime

theorem Parser.Below.congruence : Congruence Parser Parser fun _ => Below where
  pure _ := refl _
  bind := bind
  mismatch := refl _
  tooDeep := tooDeep _
  orElse := orElse
  next _ := refl _
  optional := optional
  notFollowedBy := notFollowedBy
  collect := collect

namespace Grammar

open PastTime.Parser

/-- Without room an opening bracket gives up, and any other lexeme is refused as with room. -/
theorem below_groupOf_zero (inside : Parser Token) : Below (group 0) (groupOf inside) := by
  intro input
  cases input with
  | nil => exact Reply.Below.refl _
  | cons lexeme rest =>
      cases hfound : opening? lexeme with
      | none =>
          rw [group_of_opening?_eq_none hfound, groupOf_of_opening?_eq_none hfound]
          exact Reply.Below.refl _
      | some bracket =>
          rw [group_zero_of_opening? hfound]
          exact Or.inr ⟨lexeme :: rest, rfl⟩

theorem below_group (room : Nat) : Below (group room) (group (room + 1)) := by
  induction room with
  | zero => exact below_groupOf_zero _
  | succ room ih => exact Below.congruence.groupOf ih

theorem below_piece (room : Nat) : Below (piece room) (piece (room + 1)) :=
  Below.congruence.tokenOf symbols (below_group room)

theorem below_level (room : Nat) :
    Below (unary room) (unary (room + 1)) ∧ Below (predicate room) (predicate (room + 1)) := by
  induction room with
  | zero => exact ⟨Below.tooDeep _, Below.tooDeep _⟩
  | succ room ih =>
      obtain ⟨hunary, hpredicate⟩ := ih
      have hnext : Below (unary (room + 1)) (unary (room + 2)) :=
        Below.congruence.unaryOf (below_group room) hunary hpredicate
      exact ⟨hnext, Below.congruence.implication hnext hpredicate⟩

/-- With less room a formula is read in the same way, or the reading is given up. -/
theorem below_predicate {room more : Nat} (h : room ≤ more) :
    Below (predicate room) (predicate more) :=
  Below.of_le (fun room => (below_level room).2) h

theorem below_grouped {room more : Nat} (h : room ≤ more) :
    Below (grouped (predicate room) (piece room)) (grouped (predicate more) (piece more)) :=
  Below.congruence.grouped (below_predicate h) (Below.of_le below_piece h)

end Grammar

end PastTime
