import PastTime.Proofs.Predicate.Normalization

/-!
# Redundant parentheses in a formula

Parentheses around a terminal are part of its text. Parentheses around an operator only group: a
formula and the formula without them become the same predicate, with the same names, or fail for
the same reason, and leave the source of names in the same state.
-/

namespace PastTime

namespace Formula

/-- Whether a formula is an operator with its operands, in any number of parentheses. -/
def isComposite : Formula → Bool
  | terminal _ => false
  | grouped inner => inner.isComposite
  | unary .. | binary .. => true

/-- The formula without the parentheses around operators. -/
def eraseGroups : Formula → Formula
  | terminal tokens => terminal tokens
  | grouped inner => if inner.isComposite then inner.eraseGroups else grouped inner.eraseGroups
  | unary op operand => unary op operand.eraseGroups
  | binary op left right => binary op left.eraseGroups right.eraseGroups

/-- The number of pairs of parentheses around operators. -/
def redundantGroups : Formula → Nat
  | terminal _ => 0
  | grouped inner => inner.redundantGroups + if inner.isComposite then 1 else 0
  | unary _ operand => operand.redundantGroups
  | binary _ left right => left.redundantGroups + right.redundantGroups

theorem isComposite_eraseGroups (formula : Formula) :
    formula.eraseGroups.isComposite = formula.isComposite := by
  induction formula with
  | terminal | unary | binary => rfl
  | grouped inner ih =>
      rw [eraseGroups, isComposite]
      split <;> exact ih

theorem redundantGroups_eraseGroups (formula : Formula) :
    formula.eraseGroups.redundantGroups = 0 := by
  induction formula with
  | terminal => rfl
  | grouped inner ih =>
      rw [eraseGroups]
      split
      next => exact ih
      next hinner => simp [redundantGroups, ih, isComposite_eraseGroups, hinner]
  | unary op operand ih => exact ih
  | binary op left right ihleft ihright => simp [eraseGroups, redundantGroups, ihleft, ihright]

/-- Nothing is erased from a terminal in parentheses. -/
theorem eraseGroups_of_not_isComposite {formula : Formula} (h : formula.isComposite = false) :
    formula.eraseGroups = formula := by
  induction formula with
  | terminal => rfl
  | grouped inner ih =>
      rw [isComposite] at h
      rw [eraseGroups, h, ih h]
      rfl
  | unary | binary => cases h

end Formula

variable {σ : Type}

/-! ## Normal forms -/

namespace Build

/-- Goes on with what a value stands for, or fails with the reason why it stands for nothing. -/
def ofNormal (result : Except TermError Predicate) : Build σ Predicate :=
  ofExcept (result.mapError .invalidTerm)

theorem normalize_eq_ofNormal (value : Value) :
    (normalize value : Build σ Predicate) = ofNormal value.normalize := rfl

@[simp] theorem normalize_predicate (predicate : Predicate) :
    (normalize (.predicate predicate) : Build σ Predicate) = pure predicate := rfl

@[simp] theorem normalize_truth :
    (normalize (.literal Text.trueLiteral) : Build σ Predicate) = pure .truth := by
  rw [normalize, Value.normalize_truth]
  rfl

end Build

variable [NameSource σ]

theorem UnaryOp.apply_eq_bind (op : UnaryOp) (operand : Value) :
    (op.apply operand : Build σ Predicate) =
      Build.normalize operand >>= fun predicate => op.apply (.predicate predicate) := by
  cases op with
  | not | previously | once | always => simp [UnaryOp.apply, Predicate.apply]

theorem BinaryOp.apply_eq_bind (op : BinaryOp) (left right : Value) :
    (op.apply left right : Build σ Predicate) =
      Build.normalize left >>= fun first => Build.normalize right >>= fun second =>
        op.apply (.predicate first) (.predicate second) := by
  cases op with
  | connective | since | implies => simp [BinaryOp.apply, Predicate.apply]

/-- The result of an application is no term, so parentheses around it are dropped. -/
theorem Predicate.map_parenthesized_apply {α : Type} (f : Predicate → α) (operator : Operator)
    (values : List Value) :
    (fun result => f result.parenthesized) <$> (apply operator values : Build σ Predicate) =
      f <$> apply operator values := by
  unfold apply
  split <;> simp [parenthesized]

theorem UnaryOp.map_parenthesized_apply {α : Type} (f : Predicate → α) (op : UnaryOp)
    (operand : Value) :
    (fun result => f result.parenthesized) <$> (op.apply operand : Build σ Predicate) =
      f <$> op.apply operand := by
  cases op <;> simp [UnaryOp.apply, Predicate.map_parenthesized_apply]

theorem BinaryOp.map_parenthesized_apply {α : Type} (f : Predicate → α) (op : BinaryOp)
    (left right : Value) :
    (fun result => f result.parenthesized) <$> (op.apply left right : Build σ Predicate) =
      f <$> op.apply left right := by
  cases op <;> simp [BinaryOp.apply, Predicate.map_parenthesized_apply]

namespace Formula

/-- Lowers a formula and normalizes the value. A formula can fail while it is lowered; the value of
a terminal can fail to be a term. -/
def normalForm (formula : Formula) : Build σ (Except TermError Predicate) :=
  Value.normalize <$> formula.lower

theorem normalForm_unary (op : UnaryOp) (operand : Formula) :
    (unary op operand).normalForm = (do
      let result ← operand.normalForm
      let predicate ← Build.ofNormal result
      .ok <$> (op.apply (.predicate predicate) : Build σ Predicate)) := by
  simp only [normalForm, lower, map_bind, map_pure, Value.normalize, bind_map_left]
  refine bind_congr fun value => ?_
  rw [op.apply_eq_bind, bind_assoc]
  rfl

theorem normalForm_binary (op : BinaryOp) (left right : Formula) :
    (binary op left right).normalForm = (do
      let leftResult ← left.normalForm
      let rightResult ← right.normalForm
      let first ← Build.ofNormal leftResult
      let second ← Build.ofNormal rightResult
      .ok <$> (op.apply (.predicate first) (.predicate second) : Build σ Predicate)) := by
  simp only [normalForm, lower, map_bind, map_pure, Value.normalize, bind_map_left]
  refine bind_congr fun value => bind_congr fun other => ?_
  rw [op.apply_eq_bind]
  simp only [bind_assoc]
  rfl

/-- A second pair of parentheses is added to whatever the first one gives. -/
theorem normalForm_grouped_grouped (inner : Formula) :
    (grouped (grouped inner)).normalForm =
      Except.map Predicate.parenthesized <$> ((grouped inner).normalForm : Build σ _) := by
  have hvalue (value : Value) : (Value.grouped (.grouped value)).normalize =
      (Value.grouped value).normalize.map Predicate.parenthesized :=
    Value.normalize_grouped (by simp)
  simp [normalForm, lower, hvalue]

/-- An operator in parentheses becomes what it becomes without them, and parentheses around that
are dropped as well. -/
theorem normalForm_grouped_of_isComposite {inner : Formula} (h : inner.isComposite = true) :
    (grouped inner).normalForm = (inner.normalForm : Build σ _) ∧
      (Except.map Predicate.parenthesized <$> inner.normalForm : Build σ _) =
        inner.normalForm := by
  -- the second half carries the induction: it says what further pairs do
  induction inner with
  | terminal => cases h
  | grouped inner ih =>
      obtain ⟨hgrouped, hfixed⟩ := ih h
      rw [normalForm_grouped_grouped, hgrouped]
      exact ⟨hfixed, hfixed⟩
  | unary op operand =>
      refine ⟨?_, ?_⟩
      · simp only [normalForm, lower, bind_pure_comp, map_bind, Functor.map_map]
        rfl
      · rw [normalForm_unary]
        simp only [map_bind, Functor.map_map, Except.map, op.map_parenthesized_apply]
  | binary op left right =>
      refine ⟨?_, ?_⟩
      · simp only [normalForm, lower, bind_pure_comp, map_bind, Functor.map_map]
        rfl
      · rw [normalForm_binary]
        simp only [map_bind, Functor.map_map, Except.map, op.map_parenthesized_apply]

theorem normalForm_eraseGroups (formula : Formula) :
    formula.eraseGroups.normalForm = (formula.normalForm : Build σ _) := by
  induction formula with
  | terminal => rfl
  | grouped inner ih =>
      rw [eraseGroups]
      split
      next hinner => rw [ih, (normalForm_grouped_of_isComposite hinner).1]
      next hinner => rw [eraseGroups_of_not_isComposite (eq_false_of_ne_true hinner)]
  | unary op operand ih => rw [eraseGroups, normalForm_unary, normalForm_unary, ih]
  | binary op left right ihleft ihright =>
      rw [eraseGroups, normalForm_binary, normalForm_binary, ihleft, ihright]

/-- Parentheses around operators are redundant. Without them a formula has none left, and it is
lowered and normalized with the same result, be it a predicate with its names or an error, and with
the same names issued. -/
theorem run_lower_eraseGroups (formula : Formula) (source : σ) :
    formula.eraseGroups.redundantGroups = 0 ∧
      (Value.normalize <$> formula.eraseGroups.lower).run source =
        (Value.normalize <$> formula.lower).run source ∧
      (formula.eraseGroups.lower >>= Build.normalize).run source =
        (formula.lower >>= Build.normalize).run source := by
  have hform : formula.eraseGroups.normalForm = (formula.normalForm : Build σ _) :=
    formula.normalForm_eraseGroups
  have hbuild (tree : Formula) : (tree.lower >>= Build.normalize : Build σ Predicate) =
      tree.normalForm >>= Build.ofNormal := by
    simp only [normalForm, bind_map_left, ← Build.normalize_eq_ofNormal]
  refine ⟨formula.redundantGroups_eraseGroups, congrArg (·.run source) hform, ?_⟩
  rw [hbuild, hbuild, hform]

example (p q : List Token) :
    (unary .once (grouped (grouped (binary .since (grouped (terminal p))
      (grouped (unary .not (terminal q))))))).eraseGroups =
      unary .once (binary .since (grouped (terminal p)) (unary .not (terminal q))) := rfl

end Formula

end PastTime
