import PastTime.Proofs.Formula.Keywords

/-!
# Parts of a predicate

The parts of a predicate are the predicate itself and what stands below its operators. `Within` can
be kept to some of the operators, so that the parts below the others do not count.
-/

namespace PastTime.Predicate

/-- A part of a predicate that no operators stand above but those that may be crossed. -/
inductive Within (Crosses : Operator → Prop) (part : Predicate) : Predicate → Prop where
  | refl : Within Crosses part part
  | operand {predicate operand : Predicate} {operator : Operator}
      (hoperator : predicate.operator = some operator) (hcrosses : Crosses operator)
      (hoperand : operand ∈ predicate.operands) (hpart : Within Crosses part operand) :
      Within Crosses part predicate

variable {Crosses : Operator → Prop} {part : Predicate}

theorem within_iff {predicate : Predicate} :
    Within Crosses part predicate ↔ part = predicate ∨
      ∃ operator, predicate.operator = some operator ∧ Crosses operator ∧
        ∃ operand ∈ predicate.operands, Within Crosses part operand := by
  constructor
  · intro h
    cases h with
    | refl => exact .inl rfl
    | operand hoperator hcrosses hoperand hpart =>
        exact .inr ⟨_, hoperator, hcrosses, _, hoperand, hpart⟩
  · rintro (rfl | ⟨operator, hoperator, hcrosses, operand, hoperand, hpart⟩)
    · exact .refl
    · exact .operand hoperator hcrosses hoperand hpart

@[simp] theorem within_term {found : Term} :
    Within Crosses part (.term found) ↔ part = .term found := by
  simp [@within_iff _ _ (.term found), operator]

@[simp] theorem within_not {operand : Predicate} :
    Within Crosses part (.not operand) ↔
      part = .not operand ∨ Crosses .not ∧ Within Crosses part operand := by
  simp [@within_iff _ _ (.not operand), operator, operands]

@[simp] theorem within_connective {c : Connective} {left right : Predicate} :
    Within Crosses part (.connective c left right) ↔
      part = .connective c left right ∨
        Crosses (.connective c) ∧ (Within Crosses part left ∨ Within Crosses part right) := by
  simp [@within_iff _ _ (.connective c left right), operator, operands]

@[simp] theorem within_previously {operand : Predicate} {name : String} :
    Within Crosses part (.previously operand name) ↔
      part = .previously operand name ∨ Crosses .previously ∧ Within Crosses part operand := by
  simp [@within_iff _ _ (.previously operand name), operator, operands]

@[simp] theorem within_since {left right : Predicate} {hold trail : String} :
    Within Crosses part (.since left right hold trail) ↔
      part = .since left right hold trail ∨
        Crosses .since ∧ (Within Crosses part left ∨ Within Crosses part right) := by
  simp [@within_iff _ _ (.since left right hold trail), operator, operands]

/-! ## What a part holds -/

theorem terms_subset_of_mem_operands {operand predicate : Predicate}
    (h : operand ∈ predicate.operands) : operand.terms ⊆ predicate.terms := by
  cases predicate with
  | term => simp [operands] at h
  | not | previously => simp_all [operands, terms]
  | connective | since =>
      simp only [operands, List.mem_cons, List.not_mem_nil, or_false] at h
      rcases h with rfl | rfl <;> simp [terms]

theorem auxiliaries_eq (predicate : Predicate) :
    predicate.auxiliaries =
      predicate.operands.flatMap auxiliaries ++ predicate.ownAuxiliaries := by
  cases predicate <;> simp [auxiliaries, operands, ownAuxiliaries]

namespace Within

variable {predicate : Predicate}

theorem terms_subset (h : Within Crosses part predicate) : part.terms ⊆ predicate.terms := by
  induction h with
  | refl => exact List.Subset.refl _
  | operand _ _ hoperand _ ih => exact List.Subset.trans ih (terms_subset_of_mem_operands hoperand)

theorem auxiliaries_subset (h : Within Crosses part predicate) :
    part.auxiliaries ⊆ predicate.auxiliaries := by
  induction h with
  | refl => exact List.Subset.refl _
  | @operand predicate operand _ _ _ hoperand _ ih =>
      rw [auxiliaries_eq predicate]
      intro auxiliary hmem
      exact List.mem_append_left _ (List.mem_flatMap_of_mem hoperand (ih hmem))

theorem ownAuxiliaries_subset (h : Within Crosses part predicate) :
    part.ownAuxiliaries ⊆ predicate.auxiliaries := by
  refine List.Subset.trans ?_ h.auxiliaries_subset
  rw [auxiliaries_eq part]
  exact List.subset_append_right ..

end Within

end PastTime.Predicate
