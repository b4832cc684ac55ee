import PastTime.Proofs.Predicate.Normalization

/-!
# Predicates as records

A predicate can be kept as a record of what is worked out when it is built: its variables, its
expression and its auxiliaries stand in it, and nothing works them out again. Records are built from
drafts, as predicates are built from values, in the same steps. Each step on drafts gives the record
of what the step on values gives, so a record never says anything else than the predicate.
-/

namespace PastTime

namespace NameSet

@[simp] theorem ofList_toList (names : NameSet) : ofList names.toList = names :=
  ext fun _ => mem_ofList

@[simp] theorem ofList_toList_append (left right : NameSet) :
    ofList (left.toList ++ right.toList) = left ∪ right :=
  ext fun _ => by rw [mem_ofList, mem_union, List.mem_append, mem_def, mem_def]

end NameSet

/-- A predicate with what was worked out about it when it was built. -/
inductive Record where
  | term (expression : String) (freeVariables : NameSet)
  | node (operator : Operator) (first : Record) (others : List Record) (freeVariables : NameSet)
      (expression : String) (auxiliaries : List Auxiliary)

/-- An operand of a record, in the shape in which it was given. -/
inductive Draft where
  | literal (text : String)
  | sequence (drafts : List Draft)
  | grouped (inner : Draft)
  | record (record : Record)

/-- An operator in front of its operands, as it is displayed. An operator with two operands cannot
be displayed with one. -/
def Operator.display? (first : String) (second? : Option String) : Operator → Option String
  | not => some ("!(" ++ first ++ ")")
  | previously => some ("previously(" ++ first ++ ")")
  | since => second?.map fun second => "since(" ++ first ++ ", " ++ second ++ ")"
  | connective c =>
    second?.map fun second => "(" ++ first ++ ") " ++ c.symbol ++ " (" ++ second ++ ")"

namespace Record

/-- The variables that the record holds. -/
def freeVariables : Record → NameSet
  | term _ freeVariables | node _ _ _ freeVariables _ _ => freeVariables

/-- The expression that the record holds. -/
def expression : Record → String
  | term expression _ | node _ _ _ _ expression _ => expression

/-- The records of the operands. -/
def operands : Record → List Record
  | term .. => []
  | node _ first others .. => first :: others

mutual

/-- The record as a formula. What has too few operands is displayed like a call. -/
def display : Record → String
  | term expression _ => expression
  | node operator first others .. =>
    (operator.display? first.display (displayAll others).head?).getD
      (operator.symbol ++ "(" ++ first.display ++ ")")

/-- The records as formulas, one by one. -/
def displayAll : List Record → List String
  | [] => []
  | record :: rest => record.display :: displayAll rest

end

/-- The record of the term with the given text, less its blank characters. -/
def ofText (text : String) : Except TermError Record :=
  let expression := Text.squeeze text
  if expression = "" then .error .empty else .ok (term expression (Text.freeVariables expression))

/-- Parentheses are added to the expression of a term. Its variables stay as they are. -/
def parenthesized : Record → Record
  | term expression freeVariables => term ("(" ++ expression ++ ")") freeVariables
  | record => record

end Record

namespace Draft

mutual

/-- The text of a draft. It has none if a record in it is no term. -/
def flatten : Draft → Except TermError String
  | literal text => .ok text
  | sequence drafts => flattenAll drafts
  | grouped inner => do return "(" ++ (← inner.flatten) ++ ")"
  | record (.term expression _) => .ok expression
  | record node => .error (.composite node.display)

/-- The texts of drafts, one after the other. -/
def flattenAll : List Draft → Except TermError String
  | [] => .ok ""
  | draft :: rest => do return (← draft.flatten) ++ (← flattenAll rest)

end

/-- The record of the term that a draft spells. -/
def toTerm (draft : Draft) : Except TermError Record := draft.flatten >>= Record.ofText

/-- The record that a draft stands for. -/
def normalize : Draft → Except TermError Record
  | record found => .ok found
  | grouped (record found) => .ok found
  | grouped inner => inner.normalize.map Record.parenthesized
  | literal text => (literal text).toTerm
  | sequence drafts => (sequence drafts).toTerm

end Draft

section

variable {σ : Type}

/-- The record that a draft stands for. -/
def Build.ofDraft (draft : Draft) : Build σ Record :=
  ofExcept (draft.normalize.mapError .invalidTerm)

variable [NameSource σ] (late : Operator → Nat → BuildError)

namespace Record

/-- The expression of an operator and its auxiliaries, which are issued. Operands in the wrong
number are reported as `late`. -/
def generate : (operator : Operator) → (operands : List Record) → Build σ (String × List Auxiliary)
  | .not, [operand] => return ("!(" ++ operand.expression ++ ")", [])
  | .connective c, [left, right] =>
    return ("(" ++ left.expression ++ ")" ++ c.symbol ++ "(" ++ right.expression ++ ")", [])
  | .previously, [_] => do
    let name ← Build.fresh .previously
    return (name, [⟨name, .previously⟩])
  | .since, [_, _] => do
    let hold ← Build.fresh .sinceHold
    let trail ← Build.fresh .sinceTrail
    return ("(" ++ hold ++ "&&" ++ trail ++ ")", [⟨hold, .sinceHold⟩, ⟨trail, .sinceTrail⟩])
  | operator, operands => throw (late operator operands.length)

/-- Applies an operator to drafts, step by step. The number of the drafts is checked first; what
checks it again, behind the other steps, reports `late`. -/
def apply (operator : Operator) (drafts : List Draft) : Build σ Record := do
  if drafts.length ≠ operator.arity then throw (.arity operator drafts.length)
  let operands ← drafts.mapM Build.ofDraft
  let freeVariables := NameSet.ofList (operands.flatMap (·.freeVariables.toList))
  let (expression, auxiliaries) ← generate late operator operands
  match operands with
  | [] => throw (late operator 0)
  | first :: others => return node operator first others freeVariables expression auxiliaries

/-- Applies the operator that is written as the given text. -/
def applySymbol (symbol : String) (drafts : List Draft) : Build σ Record :=
  match Operator.ofSymbol? symbol with
  | some operator => apply late operator drafts
  | none => throw (.unknownOperator symbol)

end Record

end

/-! ## Records of formulas and texts -/

section

variable {σ : Type} [NameSource σ]

/-- Applies an operator of formulas to one draft. -/
def UnaryOp.applyDraft (operand : Draft) : UnaryOp → Build σ Record
  | .not => Record.apply .arity .not [operand]
  | .previously => Record.apply .arity .previously [operand]
  | .once => Record.apply .arity .since [.literal Text.trueLiteral, operand]
  | .always => do
    let never ← Record.apply .arity .not [operand]
    let sometime ← Record.apply .arity .since [.literal Text.trueLiteral, .record never]
    Record.apply .arity .not [.record sometime]

/-- Applies an operator of formulas to two drafts. -/
def BinaryOp.applyDraft (left right : Draft) : BinaryOp → Build σ Record
  | .connective c => Record.apply .arity (.connective c) [left, right]
  | .since => Record.apply .arity .since [left, right]
  | .implies => do
    let antecedent ← Record.apply .arity .not [left]
    Record.apply .arity (.connective .or) [.record antecedent, right]

mutual

/-- A token as a draft with the same text. -/
def Token.toDraft : Token → Draft
  | .word text => .literal text
  | .symbol text => .literal text
  | .group bracket tokens =>
    .sequence (.literal bracket.opening :: Token.toDrafts tokens ++ [.literal bracket.closing])

/-- Tokens as drafts, one by one. -/
def Token.toDrafts : List Token → List Draft
  | [] => []
  | token :: rest => token.toDraft :: Token.toDrafts rest

end

/-- The draft of a formula. -/
def Formula.lowerDraft : Formula → Build σ Draft
  | .terminal tokens => return .sequence (Token.toDrafts tokens)
  | .grouped inner => return .grouped (← inner.lowerDraft)
  | .unary op operand => do
    let operand ← operand.lowerDraft
    return .record (← op.applyDraft operand)
  | .binary op left right => do
    let left ← left.lowerDraft
    let right ← right.lowerDraft
    return .record (← op.applyDraft left right)

/-- The record of a text. -/
def Record.parse (text : String) : Serve σ Record := do
  let formula ← Serve.parse text
  modify (NameSource.reserveAll (Text.identifiers text))
  Serve.build do
    let draft ← formula.lowerDraft
    Build.ofDraft draft

end

/-! ## Records of predicates -/

/-- The record that says of a predicate what holds of it. -/
def Predicate.record : Predicate → Record
  | term found => .term found.expression found.freeVariables
  | not operand =>
    .node .not operand.record [] (not operand).freeVariables (not operand).expression []
  | connective c left right =>
    .node (.connective c) left.record [right.record] (connective c left right).freeVariables
      (connective c left right).expression []
  | previously operand name =>
    .node .previously operand.record [] (previously operand name).freeVariables
      (previously operand name).expression (previously operand name).ownAuxiliaries
  | since left right hold trail =>
    .node .since left.record [right.record] (since left right hold trail).freeVariables
      (since left right hold trail).expression (since left right hold trail).ownAuxiliaries

namespace Value

mutual

/-- The draft that has the records of the predicates in a value. -/
def draft : Value → Draft
  | literal text => .literal text
  | sequence values => .sequence (drafts values)
  | grouped inner => .grouped inner.draft
  | predicate found => .record found.record

/-- The drafts of values, one by one. -/
def drafts : List Value → List Draft
  | [] => []
  | value :: rest => value.draft :: drafts rest

end

theorem drafts_eq_map (values : List Value) : drafts values = values.map draft := by
  induction values with
  | nil => rfl
  | cons value rest ih => rw [drafts, ih, List.map_cons]

end Value

namespace Predicate

theorem display_record (predicate : Predicate) : predicate.record.display = predicate.display := by
  induction predicate with
  | term => rfl
  | not operand ih => simp [record, Record.display, Operator.display?, display, ih]
  | previously operand _ ih => simp [record, Record.display, Operator.display?, display, ih]
  | connective c left right ihleft ihright =>
      simp [record, Record.display, Record.displayAll, Operator.display?, display, ihleft, ihright]
  | since left right _ _ ihleft ihright =>
      simp [record, Record.display, Record.displayAll, Operator.display?, display, ihleft, ihright]

@[simp] theorem expression_record (predicate : Predicate) :
    predicate.record.expression = predicate.expression := by
  cases predicate <;> rfl

@[simp] theorem freeVariables_record (predicate : Predicate) :
    predicate.record.freeVariables = predicate.freeVariables := by
  cases predicate <;> rfl

/-- The variables of a term in parentheses are right, though they are not worked out again. -/
theorem parenthesized_record (predicate : Predicate) :
    predicate.record.parenthesized = predicate.parenthesized.record := by
  cases predicate with
  | term found =>
      have h := (Predicate.term found).freeVariables_parenthesized
      simp only [record, Record.parenthesized, parenthesized]
      exact congrArg _ h.symm
  | not | connective | previously | since => rfl

end Predicate

theorem Predicate.flatten_record (predicate : Predicate) :
    (Draft.record predicate.record).flatten = (Value.predicate predicate).flatten := by
  cases predicate with
  | term => rfl
  | not | connective | previously | since =>
      exact congrArg (fun display => Except.error (TermError.composite display)) (display_record _)

theorem Record.ofText_eq (text : String) :
    ofText text = ((Term.ofText text).map .term).map Predicate.record := by
  unfold ofText Term.ofText
  simp only
  split <;> rfl

/-- Parentheses around anything but a record are added to what it stands for. -/
theorem Draft.normalize_grouped {inner : Draft} (h : ∀ found, inner ≠ .record found) :
    (grouped inner).normalize = inner.normalize.map Record.parenthesized := by
  cases inner with
  | record found => exact absurd rfl (h found)
  | literal | sequence | grouped => rw [normalize]; simp

namespace Value

mutual

theorem flatten_draft : (value : Value) → value.draft.flatten = value.flatten
  | literal text => rfl
  | sequence values => flattenAll_drafts values
  | grouped inner => by rw [draft, Draft.flatten, flatten, flatten_draft inner]
  | predicate found => found.flatten_record

theorem flattenAll_drafts : (values : List Value) →
    Draft.flattenAll (drafts values) = flattenAll values
  | [] => rfl
  | value :: rest => by
      rw [drafts, Draft.flattenAll, flattenAll, flatten_draft value, flattenAll_drafts rest]

end

theorem toTerm_draft (value : Value) :
    value.draft.toTerm = (value.toTerm.map .term).map Predicate.record := by
  rw [Draft.toTerm, toTerm, flatten_draft]
  cases value.flatten with
  | error => rfl
  | ok text => exact Record.ofText_eq text

theorem normalize_draft (value : Value) :
    value.draft.normalize = value.normalize.map Predicate.record := by
  induction value using Value.normalize.induct with
  | case1 => rfl
  | case2 => rfl
  | case3 inner hinner ih =>
      have hdraft : ∀ found, inner.draft ≠ .record found := by
        cases inner with
        | predicate found => exact absurd rfl (hinner found)
        | literal | sequence | grouped => simp [draft]
      rw [draft, Draft.normalize_grouped hdraft, normalize_grouped hinner, ih]
      cases inner.normalize with
      | error => rfl
      | ok predicate => exact congrArg Except.ok predicate.parenthesized_record
  | case4 text => exact toTerm_draft (literal text)
  | case5 values => exact toTerm_draft (sequence values)

end Value

variable {σ : Type}

theorem Build.ofDraft_draft (value : Value) :
    (ofDraft value.draft : Build σ Record) = Predicate.record <$> normalize value := by
  rw [ofDraft, normalize, Value.normalize_draft]
  cases value.normalize <;> rfl

theorem run_map {ε α β : Type} (f : α → β) (action : ExceptT ε (StateM σ) α) (source : σ) :
    (f <$> action).run source = ((action.run source).1.map f, (action.run source).2) := by
  rw [ExceptT.run_map]
  rfl

theorem Serve.build_map {α β : Type} (f : α → β) (action : Build σ α) :
    build (f <$> action) = f <$> build action := by
  funext source
  refine Eq.trans ?_ (run_map f (build action) source).symm
  change (Except.mapError _ ((f <$> action).run source).1, ((f <$> action).run source).2) =
    (Except.map f ((action.run source).1.mapError _), (action.run source).2)
  rw [run_map]
  cases (action.run source).1 <;> rfl

variable [NameSource σ]

theorem Predicate.apply_of_length_ne {operator : Operator} {values : List Value}
    (h : values.length ≠ operator.arity) :
    (apply operator values : Build σ Predicate) = throw (.arity operator values.length) := by
  unfold apply
  split <;> simp [Operator.arity] at h ⊢

namespace Record

variable (late : Operator → Nat → BuildError)

/-- The steps on drafts give the record of what an application to values gives. In particular the
late checks of the number of operands never fail. -/
theorem apply_map_draft (operator : Operator) (values : List Value) :
    apply late operator (values.map Value.draft) =
      Predicate.record <$> (Predicate.apply operator values : Build σ Predicate) := by
  by_cases hlength : values.length = operator.arity
  · cases operator with
    | not | previously =>
        obtain ⟨value, rfl⟩ := List.length_eq_one_iff.mp hlength
        simp [apply, Operator.arity, Predicate.apply, Build.ofDraft_draft, generate,
          Predicate.record, Predicate.freeVariables, Predicate.expression, Predicate.ownAuxiliaries]
    | connective | since =>
        obtain ⟨left, right, rfl⟩ := List.length_eq_two.mp hlength
        simp [apply, Operator.arity, Predicate.apply, Build.ofDraft_draft, generate,
          Predicate.record, Predicate.freeVariables, Predicate.expression, Predicate.ownAuxiliaries]
  · rw [Predicate.apply_of_length_ne hlength]
    simp [apply, hlength]

theorem applySymbol_map_draft (symbol : String) (values : List Value) :
    applySymbol late symbol (values.map Value.draft) =
      Predicate.record <$> (Predicate.applySymbol symbol values : Build σ Predicate) := by
  unfold applySymbol Predicate.applySymbol
  cases Operator.ofSymbol? symbol with
  | none => rfl
  | some operator => exact apply_map_draft late operator values

end Record

theorem UnaryOp.applyDraft_draft (op : UnaryOp) (operand : Value) :
    op.applyDraft operand.draft = Predicate.record <$> (op.apply operand : Build σ Predicate) := by
  cases op with
  | not => exact Record.apply_map_draft .arity .not [operand]
  | previously => exact Record.apply_map_draft .arity .previously [operand]
  | once => exact Record.apply_map_draft .arity .since [.literal Text.trueLiteral, operand]
  | always =>
      have hnever : (Record.apply .arity .not [operand.draft] : Build σ Record) = _ :=
        Record.apply_map_draft .arity .not [operand]
      have hsometime (never : Predicate) : (Record.apply .arity .since
          [.literal Text.trueLiteral, .record never.record] : Build σ Record) = _ :=
        Record.apply_map_draft .arity .since [.literal Text.trueLiteral, .predicate never]
      have halways (sometime : Predicate) :
          (Record.apply .arity .not [.record sometime.record] : Build σ Record) = _ :=
        Record.apply_map_draft .arity .not [.predicate sometime]
      simp only [applyDraft, apply, hnever, hsometime, halways, bind_map_left, map_bind]

theorem BinaryOp.applyDraft_draft (op : BinaryOp) (left right : Value) :
    op.applyDraft left.draft right.draft =
      Predicate.record <$> (op.apply left right : Build σ Predicate) := by
  cases op with
  | connective c => exact Record.apply_map_draft .arity (.connective c) [left, right]
  | since => exact Record.apply_map_draft .arity .since [left, right]
  | implies =>
      have hnot : (Record.apply .arity .not [left.draft] : Build σ Record) = _ :=
        Record.apply_map_draft .arity .not [left]
      have hor (antecedent : Predicate) : (Record.apply .arity (.connective .or)
          [.record antecedent.record, right.draft] : Build σ Record) = _ :=
        Record.apply_map_draft .arity (.connective .or) [.predicate antecedent, right]
      simp only [applyDraft, apply, hnot, hor, bind_map_left, map_bind]

namespace Token

mutual

theorem draft_toValue : (token : Token) → token.toValue.draft = token.toDraft
  | word _ | symbol _ => rfl
  | group bracket tokens => by
      have h := draft_toValues tokens
      simp only [toValue, toDraft, Value.draft, Value.drafts_eq_map, List.map_append,
        List.map_cons, List.map_nil, h]

theorem draft_toValues : (tokens : List Token) → (toValues tokens).map Value.draft = toDrafts tokens
  | [] => rfl
  | token :: rest => by
      rw [toValues, toDrafts, List.map_cons, draft_toValue token, draft_toValues rest]

end

end Token

theorem Formula.lowerDraft_eq (formula : Formula) :
    formula.lowerDraft = Value.draft <$> (formula.lower : Build σ Value) := by
  induction formula with
  | terminal tokens =>
      simp [lowerDraft, lower, Value.draft, Value.drafts_eq_map, Token.draft_toValues]
  | grouped inner ih => simp [lowerDraft, lower, ih, Value.draft]
  | unary op operand ih =>
      simp [lowerDraft, lower, ih, Value.draft, op.applyDraft_draft]
  | binary op left right ihleft ihright =>
      simp [lowerDraft, lower, ihleft, ihright, Value.draft, op.applyDraft_draft]

/-- Reading a text gives the record of its predicate. -/
theorem Record.parse_eq (text : String) :
    Record.parse text = Predicate.record <$> (parsePredicate text : Serve σ Predicate) := by
  have h (formula : Formula) : (formula.lowerDraft >>= Build.ofDraft : Build σ Record) =
      Predicate.record <$> (formula.lower >>= Build.normalize) := by
    simp only [formula.lowerDraft_eq, bind_map_left, map_bind, Build.ofDraft_draft]
  rw [Record.parse, parsePredicate, map_bind]
  congr 1
  funext formula
  rw [map_bind]
  congr 1
  funext _
  exact (congrArg Serve.build (h formula)).trans (Serve.build_map _ _)

end PastTime
